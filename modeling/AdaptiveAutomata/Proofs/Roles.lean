/-
  The roles that cells play.

  The variable of an adaptive action has one cell, wherever it is written.  The cell is
  bound to what it is matched with first, and is not asked again what it stands for in
  the other places.  So there is a state at both ends of every transition only if each
  cell keeps to one role: it stands for states, for labels, or for parts, which is to say
  inside of calls and references, where everything may stand.

  * `Value.Plays ρ R v` says that a value is a cell with the role `R`, or of the kind that
    the role asks for;
  * `Store.Sorted ρ` says that every bound cell is bound to what its role asks for;
  * `Sorted.readsAs`: then what plays a role reads as something of its kind, or as an
    unbound cell;
  * `Sorted.bindFrom`: matching keeps this if the pattern and the stored value play the
    same role, or the pattern is a part;
  * `Sorted.freshCells` gives roles to new cells.
-/
import AdaptiveAutomata.Proofs.Moves

namespace AdaptiveAutomata

/-- What a cell stands for. -/
inductive Role where
  /-- A state. -/
  | state
  /-- What a transition consumes or calls. -/
  | label
  /-- A part of a call or of a reference. -/
  | part
deriving DecidableEq

/-- Whether a value is of the kind that a role asks for. -/
def Role.admits : Role → Value → Bool
  | part, _ | state, .state _ | label, .epsilon | label, .symbol _ | label, .call _ => true
  | state, _ | label, _ => false

/-- The roles of cells, by place. -/
abbrev Roles := Nat → Option Role

/-- Every role of `ρ` is one of `ρ'`. -/
def Roles.Within (ρ ρ' : Roles) : Prop := ∀ i R, ρ i = some R → ρ' i = some R

theorem Role.admits_subst {R : Role} {v : Value} (h : R.admits v) (f : Cell → Value) :
    R.admits (v.subst f) := by
  cases R <;> cases v <;> simp_all [admits, Value.subst]

/-! ## Values -/

namespace Value

variable {ρ ρ' : Roles} {R : Role} {r : Option Role} {v : Value} {c : Cell}

/-- Every cell in a value is a part. -/
def Nested (ρ : Roles) (v : Value) : Prop := ∀ c, .cell c ∈ v.leaves → ρ c.place = some .part

/-- A value is a cell with the role, or is of the kind that the role asks for. -/
def Plays (ρ : Roles) (R : Role) (v : Value) : Prop :=
  (∃ c, v = .cell c ∧ ρ c.place = some R) ∨ R.admits v ∧ v.Nested ρ

/-- A value may be what something with the role is bound to: it plays the role, or any
    role where a part is asked for. -/
def Serves (ρ : Roles) (R : Role) (v : Value) : Prop :=
  ∃ R', v.Plays ρ R' ∧ (R' = R ∨ R = .part)

/-- A value may be given to a parameter: to one without a role anything but a cell. -/
def Given (ρ : Roles) (r : Option Role) (v : Value) : Prop :=
  (∃ c R, v = .cell c ∧ ρ c.place = some R ∧ r = some R) ∨ v.isCell = false ∧ v.Nested ρ

theorem nested_of_isLeaf (h : v.isLeaf) (hc : v.isCell = false) : v.Nested ρ := by
  intro c hm
  rw [leaves_of_isLeaf h, List.mem_singleton] at hm
  exact absurd hc (by simp [← hm, isCell])

@[simp]
theorem nested_cell : (cell c).Nested ρ ↔ ρ c.place = some .part := by
  simp [Nested]

@[simp]
theorem nested_call : (call v).Nested ρ ↔ v.Nested ρ := by
  simp [Nested]

@[simp]
theorem nested_action {name : Value} {arguments : List Value} :
    (action name arguments).Nested ρ ↔ name.Nested ρ ∧ ∀ a ∈ arguments, a.Nested ρ := by
  simp only [Nested, leaves_action, List.mem_append, List.mem_flatMap]
  constructor
  · exact fun h => ⟨fun c hc => h c (.inl hc), fun a ha c hc => h c (.inr ⟨a, ha, hc⟩)⟩
  · rintro ⟨hn, ha⟩ c (hc | ⟨a, hm, hc⟩)
    · exact hn c hc
    · exact ha a hm c hc

@[simp]
theorem plays_cell : (cell c).Plays ρ R ↔ ρ c.place = some R := by
  cases R <;> simp [Plays, Role.admits]

@[simp]
theorem plays_part : v.Plays ρ .part ↔ v.Nested ρ := by
  constructor
  · rintro (⟨c, rfl, hc⟩ | ⟨-, hn⟩)
    · exact nested_cell.2 hc
    · exact hn
  · exact fun h => .inr ⟨rfl, h⟩

@[simp]
theorem plays_label_call : (call v).Plays ρ .label ↔ v.Nested ρ := by
  simp [Plays, Role.admits]

theorem plays_of_isLeaf (h : v.isLeaf) (hc : v.isCell = false) (ha : R.admits v) :
    v.Plays ρ R := .inr ⟨ha, nested_of_isLeaf h hc⟩

theorem Plays.admits (h : v.Plays ρ R) (hc : v.isCell = false) : R.admits v ∧ v.Nested ρ := by
  rcases h with ⟨c, rfl, -⟩ | h
  · exact absurd hc (by simp [isCell])
  · exact h

theorem Plays.serves (h : v.Plays ρ R) : v.Serves ρ R := ⟨R, h, .inl rfl⟩

theorem Nested.serves (h : v.Nested ρ) : v.Serves ρ .part := (plays_part.2 h).serves

theorem Serves.admits (h : v.Serves ρ R) (hc : v.isCell = false) : R.admits v ∧ v.Nested ρ := by
  obtain ⟨R', h, rfl | rfl⟩ := h
  · exact h.admits hc
  · exact ⟨rfl, (h.admits hc).2⟩

theorem Plays.given (h : v.Plays ρ R) : v.Given ρ (some R) := by
  cases v with
  | cell c => exact .inl ⟨c, R, rfl, plays_cell.1 h, rfl⟩
  | _ => exact .inr ⟨rfl, (h.admits rfl).2⟩

theorem Given.serves (h : v.Given ρ r) : v.Serves ρ .part := by
  rcases h with ⟨c, R, rfl, hc, -⟩ | ⟨-, hn⟩
  · exact ⟨R, plays_cell.2 hc, .inr rfl⟩
  · exact hn.serves

/-! ### More roles -/

theorem Nested.mono (h : v.Nested ρ) (hρ : ρ.Within ρ') : v.Nested ρ' :=
  fun c hc => hρ _ _ (h c hc)

theorem Plays.mono (h : v.Plays ρ R) (hρ : ρ.Within ρ') : v.Plays ρ' R := by
  rcases h with ⟨c, rfl, hc⟩ | ⟨ha, hn⟩
  · exact plays_cell.2 (hρ _ _ hc)
  · exact .inr ⟨ha, hn.mono hρ⟩

theorem Serves.mono (h : v.Serves ρ R) (hρ : ρ.Within ρ') : v.Serves ρ' R := by
  obtain ⟨R', h, hR⟩ := h
  exact ⟨R', h.mono hρ, hR⟩

theorem Given.mono (h : v.Given ρ r) (hρ : ρ.Within ρ') : v.Given ρ' r := by
  rcases h with ⟨c, R, rfl, hc, hr⟩ | ⟨hc, hn⟩
  · exact .inl ⟨c, R, rfl, hρ _ _ hc, hr⟩
  · exact .inr ⟨hc, hn.mono hρ⟩

end Value

/-! ## Stores -/

namespace Store

variable {ρ ρ' : Roles} {R : Role} {s t : Store} {c : Cell} {p v w : Value}

/-- New cells have no role yet, and cells with a role are bound to what it asks for. -/
structure Sorted (ρ : Roles) (s : Store) : Prop where
  new : ∀ i, s.size ≤ i → ρ i = none
  bound : ∀ {c R w}, s.binding? c = some w → ρ c.place = some R → R.admits w ∧ w.Nested ρ

theorem admits_resolveWithin (h : R.admits v) (s : Store) (depth : Nat) :
    R.admits (s.resolveWithin depth v) := by
  rw [resolveWithin_eq_subst]
  exact Role.admits_subst h _

theorem isCell_resolve (h : v.isCell = false) (s : Store) : (s.resolve v).isCell = false := by
  rw [resolve_eq_subst]
  cases v with
  | cell c => exact absurd h (by simp [Value.isCell])
  | _ => rw [Value.subst]; rfl

namespace Sorted

variable (hs : s.Sorted ρ)

include hs

theorem place_lt (hc : ρ c.place = some R) : c.place < s.size := by
  by_contra hn
  rw [hs.new _ (Nat.le_of_not_lt hn)] at hc
  exact absurd hc (by simp)

/-- One comes from parts to parts only. -/
theorem part_of_reaches {u : Value} (h : s.Reaches v u) (hv : v.Nested ρ) : u.Nested ρ := by
  induction h with
  | leaf h =>
    intro c hc
    rw [Value.leaves_of_isLeaf (Value.isLeaf_of_mem_leaves h), List.mem_singleton] at hc
    exact hv c (hc ▸ h)
  | binding hc hb _ ih => exact ih (hs.bound hb (hv _ hc)).2

theorem nested_resolveWithin (hv : v.Nested ρ) (depth : Nat) :
    (s.resolveWithin depth v).Nested ρ := fun _ hc =>
  Value.nested_cell.1 (hs.part_of_reaches (reaches_of_mem_resolveWithin hc) hv)

theorem plays_resolve (hv : v.Plays ρ R) : (s.resolve v).Plays ρ R := by
  have key {v : Value} {depth : Nat} (h : R.admits v ∧ v.Nested ρ) :
      (s.resolveWithin depth v).Plays ρ R :=
    .inr ⟨admits_resolveWithin h.1 s depth, hs.nested_resolveWithin h.2 depth⟩
  rcases hv with ⟨c, rfl, hc⟩ | h
  · cases hb : s.binding? c with
    | none =>
      rw [resolve_cell_of_none hb]
      exact Value.plays_cell.2 hc
    | some w =>
      obtain ⟨depth, hd⟩ := exists_resolve_cell hb
      rw [hd]
      exact key (hs.bound hb hc)
  · exact key h

theorem serves_resolve (hv : v.Serves ρ R) : (s.resolve v).Serves ρ R := by
  obtain ⟨R', h, hR⟩ := hv
  exact ⟨R', hs.plays_resolve h, hR⟩

theorem given_resolve {r : Option Role} (hv : v.Given ρ r) : (s.resolve v).Given ρ r := by
  rcases hv with ⟨c, R, rfl, hc, rfl⟩ | ⟨hc, hn⟩
  · exact (hs.plays_resolve (Value.plays_cell.2 hc)).given
  · exact .inr ⟨isCell_resolve hc s, hs.nested_resolveWithin hn _⟩

theorem write (hc : ρ c.place = some R) (ha : R.admits w) (hn : w.Nested ρ) :
    (s.write c w).Sorted ρ where
  new i hi := hs.new i (size_write s c w ▸ hi)
  bound {d R' x} hb hd := by
    rw [binding?_write (hs.place_lt hc)] at hb
    split at hb
    · next heq =>
      obtain rfl := Option.some.inj hb
      obtain rfl : R = R' := Option.some.inj (hc ▸ heq ▸ hd)
      exact ⟨ha, hn⟩
    · exact hs.bound hb hd

theorem bind (hc : ρ c.place = some R) (hv : v.Serves ρ R) (hcell : v.isCell = false)
    (h : s.bind? c v = some t) : t.Sorted ρ := by
  obtain ⟨-, -, rfl⟩ := bind?_eq_some_iff.1 h
  obtain ⟨ha, hn⟩ := (hs.serves_resolve hv).admits (isCell_resolve hcell s)
  exact hs.write hc ha hn

omit hs in
theorem walkAll {follow : Value → Value → Store → Store} :
    ∀ {ps : List Value},
      (∀ p ∈ ps, ∀ {v s}, v.Serves ρ .part → s.Sorted ρ → (Store.walk follow p v s).Sorted ρ) →
      ∀ {ws : List Value} {s : Store}, (∀ w ∈ ws, w.Serves ρ .part) → s.Sorted ρ →
        (Store.walkAll follow ps ws s).Sorted ρ
  | [], _, ws, _, _, hs => by cases ws <;> exact hs
  | _ :: _, _, [], _, _, hs => hs
  | p :: _, ih, w :: _, _, hw, hs => by
    rw [Store.walkAll]
    exact walkAll (fun q hq => ih q (List.mem_cons_of_mem p hq))
      (fun x hx => hw x (List.mem_cons_of_mem w hx))
      (ih p List.mem_cons_self (hw w List.mem_cons_self) hs)

omit hs in
/-- A walk along a pattern, given what holds where it goes on through a bound cell. -/
theorem walk {follow : Value → Value → Store → Store}
    (hf : ∀ {R p v s}, p.Plays ρ R → v.Serves ρ R → s.Sorted ρ → (follow p v s).Sorted ρ)
    (p : Value) : ∀ {R v s}, p.Plays ρ R → v.Serves ρ R → s.Sorted ρ →
      (Store.walk follow p v s).Sorted ρ := by
  induction p using Value.recParts with
  | leaf p hp =>
    intro R v s hpr hv hs
    cases p with
    | call | action => exact absurd hp Bool.false_ne_true
    | epsilon | state | symbol | literal => rwa [Store.walk]
    | cell c =>
      have hc := Value.plays_cell.1 hpr
      rw [Store.walk]
      cases hb : s.binding? c with
      | some bound => exact hf (.inr (hs.bound hb hc)) hv hs
      | none =>
        dsimp only
        split
        · exact hs
        · next hcell =>
          cases ht : s.bind? c (s.resolve v) with
          | none => exact hs
          | some t => exact hs.bind hc (hs.serves_resolve hv) (Bool.eq_false_iff.2 hcell) ht
  | call p ih =>
    intro R v s hpr hv hs
    rw [Store.walk]
    split
    · next w hw =>
      have hn := ((hs.serves_resolve hv).admits (hw ▸ rfl)).2
      rw [hw, Value.nested_call] at hn
      exact ih (Value.plays_part.2 (Value.nested_call.1 (hpr.admits rfl).2)) hn.serves hs
    · exact hs
  | action p ps ih ihs =>
    intro R v s hpr hv hs
    rw [Store.walk]
    split
    · next w ws hw =>
      have hn := ((hs.serves_resolve hv).admits (hw ▸ rfl)).2
      rw [hw, Value.nested_action] at hn
      obtain ⟨hp, hps⟩ := Value.nested_action.1 (hpr.admits rfl).2
      refine walkAll (fun q hq => ihs q hq (Value.plays_part.2 (hps q hq)))
        (fun x hx => (hn.2 x hx).serves) ?_
      exact ih (Value.plays_part.2 hp) hn.1.serves hs
    · exact hs

omit hs in
theorem bindFromWithin (depth : Nat) : ∀ {R p v s}, p.Plays ρ R → v.Serves ρ R →
    s.Sorted ρ → (Store.bindFromWithin depth p v s).Sorted ρ := by
  induction depth with
  | zero => exact fun _ _ hs => hs
  | succ depth ih => exact fun hp hv hs => walk (fun hp hv hs => ih hp hv hs) _ hp hv hs

/-- **Matching** a pattern with what may be bound to it leaves every cell to its role. -/
theorem bindFrom (hp : p.Plays ρ R) (hv : v.Serves ρ R) : (s.bindFrom p v).Sorted ρ :=
  bindFromWithin _ hp hv hs

omit hs in
theorem bindFromAll : ∀ {ps ws : List Value} {s : Store}, (∀ p ∈ ps, p.Plays ρ .part) →
    (∀ w ∈ ws, w.Serves ρ .part) → s.Sorted ρ → (s.bindFromAll ps ws).Sorted ρ
  | [], ws, _, _, _, hs => by cases ws <;> exact hs
  | _ :: _, [], _, _, _, hs => hs
  | p :: _, w :: _, _, hp, hw, hs => by
    rw [Store.bindFromAll]
    exact bindFromAll (fun q hq => hp q (List.mem_cons_of_mem p hq))
      (fun x hx => hw x (List.mem_cons_of_mem w hx))
      (hs.bindFrom (hp p List.mem_cons_self) (hw w List.mem_cons_self))

end Sorted

/-! ### New cells -/

theorem size_fresh (s : Store) : s.fresh.2.size = s.size + 1 :=
  size_alloc s (s.supply s.drawn) none

theorem size_freshCells (s : Store) (n : Nat) : (s.freshCells n).2.size = s.size + n := by
  induction n generalizing s with
  | zero => rfl
  | succ n ih =>
    refine (ih s.fresh.2).trans ?_
    rw [size_fresh]
    omega

/-- New cells stand one after the other. -/
theorem place_freshCells {n k : Nat} (h : (s.freshCells n).1[k]? = some c) :
    c.place = s.size + k := by
  induction n generalizing s k with
  | zero => exact absurd h (by simp [Store.freshCells])
  | succ n ih =>
    cases k with
    | zero =>
      obtain rfl := Option.some.inj h
      rfl
    | succ k =>
      have := ih (s := s.fresh.2) h
      rw [size_fresh] at this
      omega

/-- Give the new cells of names the roles of the names. -/
def extend (ρ : Roles) (s : Store) (names : List String) (τ : String → Option Role) : Roles :=
  fun i => if i < s.size then ρ i else names[i - s.size]?.bind τ

variable {names : List String} {τ : String → Option Role}

theorem extend_of_mem_zip {x : String × Cell}
    (h : x ∈ names.zip (s.freshCells names.length).1) :
    extend ρ s names τ x.2.place = τ x.1 := by
  obtain ⟨k, hk⟩ := List.mem_iff_getElem?.1 h
  obtain ⟨hn, hc⟩ := List.getElem?_zip_eq_some.1 hk
  rw [extend, place_freshCells hc, if_neg (by omega), Nat.add_sub_cancel_left, hn]
  rfl

theorem Sorted.within_extend (hs : s.Sorted ρ) : ρ.Within (extend ρ s names τ) := by
  intro i R hi
  rw [extend, if_pos, hi]
  by_contra hn
  rw [hs.new i (Nat.le_of_not_lt hn)] at hi
  exact absurd hi (by simp)

/-- New cells may be given any roles. -/
theorem Sorted.freshCells (hs : s.Sorted ρ) :
    (s.freshCells names.length).2.Sorted (extend ρ s names τ) where
  new i hi := by
    rw [size_freshCells] at hi
    rw [extend, if_neg (by omega), List.getElem?_eq_none (by omega)]
    rfl
  bound {c R w} hb hc := by
    rw [binding?_freshCells] at hb
    rw [extend, if_pos (place_lt_size hb)] at hc
    obtain ⟨ha, hn⟩ := hs.bound hb hc
    exact ⟨ha, hn.mono hs.within_extend⟩

end Store

end AdaptiveAutomata
