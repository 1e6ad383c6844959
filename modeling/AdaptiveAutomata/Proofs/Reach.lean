/-
  What a value leads to.

  From a value one comes to its leaves, and from a cell among them to what the
  cell is bound to, and so on.  Nothing is said here of how long this goes on.

  * `Store.Reaches` is the relation, `Store.Only` says that all that is reached
    has a property;
  * `reaches_of_mem_resolveWithin`: reading a value, to any depth, meets nothing
    that the value does not lead to;
  * `only_write`: binding a cell to a value that leads to things of a kind leaves
    alone every value that did.
-/
import AdaptiveAutomata.Proofs.Leaves
import Mathlib.Logic.Relation
import Mathlib.Tactic.ByContra

namespace AdaptiveAutomata

namespace Store

variable {s : Store} {u v w : Value} {Q : Value → Prop}

/-! ## Places -/

/-- The binding of a cell is that of its place. -/
theorem binding?_congr {c d : Cell} (h : c.place = d.place) (s : Store) :
    s.binding? c = s.binding? d := by
  rw [binding?, binding?, h]

/-- Only cells of the store are bound. -/
theorem place_lt_size {c : Cell} (h : s.binding? c = some w) : c.place < s.size := by
  by_contra hn
  rw [binding?, Array.getElem?_eq_none (Nat.le_of_not_lt hn)] at h
  exact absurd h (by simp)

theorem binding?_write {c : Cell} (h : c.place < s.size) (w : Value) (d : Cell) :
    (s.write c w).binding? d = if c.place = d.place then some w else s.binding? d := by
  split
  · next heq => rw [← binding?_congr heq, binding?_write_self h]
  · next hne => exact binding?_write_of_ne hne s w

theorem write_of_le {c : Cell} (h : s.size ≤ c.place) (w : Value) : s.write c w = s := by
  have : s.bindings.setIfInBounds c.place (some w) = s.bindings :=
    Array.setIfInBounds_eq_of_size_le h
  rw [write, this]

/-- A new unbound cell binds nothing. -/
@[simp]
theorem binding?_fresh (s : Store) (c : Cell) : s.fresh.2.binding? c = s.binding? c := by
  by_cases h : c.place < s.size
  · exact binding?_alloc h (s.supply s.drawn) none
  · have hn : s.bindings[c.place]? = none := Array.getElem?_eq_none (Nat.le_of_not_lt h)
    simp only [fresh, alloc, binding?, Array.getElem?_push, hn]
    split <;> rfl

/-! ## Reading -/

theorem resolveWithin_succ (s : Store) (depth : Nat) (v : Value) :
    s.resolveWithin (depth + 1) v = v.subst fun c =>
      match s.binding? c with
      | none => .cell c
      | some w => s.resolveWithin depth w := rfl

theorem resolveWithin_cell_of_none {c : Cell} (h : s.binding? c = none) (depth : Nat) :
    s.resolveWithin depth (.cell c) = .cell c := by
  cases depth with
  | zero => rfl
  | succ depth => rw [resolveWithin_succ, Value.subst, h]

theorem resolve_cell_of_none {c : Cell} (h : s.binding? c = none) :
    s.resolve (.cell c) = .cell c :=
  resolveWithin_cell_of_none h s.size

/-- A bound cell reads as what it is bound to, to some depth. -/
theorem exists_resolve_cell {c : Cell} (h : s.binding? c = some w) :
    ∃ depth, s.resolve (.cell c) = s.resolveWithin depth w := by
  have hlt := place_lt_size h
  obtain ⟨n, hn⟩ : ∃ n, s.size = n + 1 := ⟨s.size - 1, by omega⟩
  refine ⟨n, ?_⟩
  rw [resolve, hn, resolveWithin_succ, Value.subst, h]

theorem resolveWithin_eq_subst (s : Store) (depth : Nat) (v : Value) :
    s.resolveWithin depth v = v.subst fun c => s.resolveWithin depth (.cell c) := by
  cases depth with
  | zero => exact (Value.subst_cell v).symm
  | succ depth =>
    rw [resolveWithin_succ]
    refine congrArg (v.subst ·) (funext fun c => ?_)
    rw [resolveWithin_succ, Value.subst]

theorem resolve_eq_subst (s : Store) (v : Value) :
    s.resolve v = v.subst fun c => s.resolve (.cell c) :=
  resolveWithin_eq_subst s s.size v

@[simp]
theorem resolve_call (s : Store) (v : Value) : s.resolve (.call v) = .call (s.resolve v) := by
  rw [resolve_eq_subst, Value.subst, ← resolve_eq_subst]

@[simp]
theorem resolve_action (s : Store) (name : Value) (arguments : List Value) :
    s.resolve (.action name arguments) =
      .action (s.resolve name) (arguments.map s.resolve) := by
  rw [resolve_eq_subst, Value.subst, Value.substAll_eq_map, ← resolve_eq_subst]
  congr 1
  exact List.map_congr_left fun v _ => (resolve_eq_subst s v).symm

theorem resolve_of_isLeaf (s : Store) (h : v.isLeaf) (hc : ∀ c, v ≠ .cell c) :
    s.resolve v = v := by
  rw [resolve_eq_subst, Value.subst_of_isLeaf h hc]

@[simp]
theorem resolve_literal (s : Store) (name : String) :
    s.resolve (.literal name) = .literal name :=
  resolve_of_isLeaf s rfl fun _ => Value.noConfusion

/-! ## What a value leads to -/

/-- What a value leads to: its leaves, and what the bindings of the cells among
    them lead to. -/
inductive Reaches (s : Store) : Value → Value → Prop
  | leaf {v u : Value} (h : u ∈ v.leaves) : Reaches s v u
  | binding {v w u : Value} {c : Cell} (hc : .cell c ∈ v.leaves) (hb : s.binding? c = some w)
      (h : Reaches s w u) : Reaches s v u

namespace Reaches

theorem of_leaves_subset (h : s.Reaches v u) (hs : ∀ x ∈ v.leaves, x ∈ w.leaves) :
    s.Reaches w u := by
  cases h with
  | leaf h => exact .leaf (hs _ h)
  | binding hc hb h => exact .binding (hs _ hc) hb h

theorem exists_leaf (h : s.Reaches v u) : ∃ x ∈ v.leaves, s.Reaches x u := by
  cases h with
  | leaf h =>
    refine ⟨u, h, .leaf ?_⟩
    rw [Value.leaves_of_isLeaf (Value.isLeaf_of_mem_leaves h)]
    exact List.mem_singleton_self u
  | binding hc hb h => exact ⟨_, hc, .binding (by simp) hb h⟩

theorem of_leaf {x : Value} (hx : x ∈ v.leaves) (h : s.Reaches x u) : s.Reaches v u := by
  refine h.of_leaves_subset fun y hy => ?_
  rw [Value.leaves_of_isLeaf (Value.isLeaf_of_mem_leaves hx), List.mem_singleton] at hy
  exact hy ▸ hx

theorem trans_cell {c : Cell} (h : s.Reaches v (.cell c)) (hb : s.binding? c = some w)
    (hw : s.Reaches w u) : s.Reaches v u := by
  generalize hx : Value.cell c = x at h
  induction h with
  | leaf h => exact .binding (hx ▸ h) hb hw
  | binding hc hb' _ ih => exact .binding hc hb' (ih hx)

theorem eq_of_isLeaf (h : s.Reaches v u) (hv : v.isLeaf) (hc : ∀ c, v ≠ .cell c) : u = v := by
  cases h with
  | leaf h => rwa [Value.leaves_of_isLeaf hv, List.mem_singleton] at h
  | binding h =>
    rw [Value.leaves_of_isLeaf hv, List.mem_singleton] at h
    exact absurd h.symm (hc _)

theorem eq_of_unbound {c : Cell} (h : s.Reaches (.cell c) u) (hb : s.binding? c = none) :
    u = .cell c := by
  cases h with
  | leaf h => simpa using h
  | binding hc hb' =>
    rw [Value.leaves_cell, List.mem_singleton, Value.cell.injEq] at hc
    rw [hc, hb] at hb'
    exact absurd hb' (by simp)

theorem mono {t : Store} (hst : ∀ c w, s.binding? c = some w → t.binding? c = some w)
    (h : s.Reaches v u) : t.Reaches v u := by
  induction h with
  | leaf h => exact .leaf h
  | binding hc hb _ ih => exact .binding hc (hst _ _ hb) ih

end Reaches

/-- Reading a value meets only what the value leads to. -/
theorem reaches_of_mem_resolveWithin {depth : Nat} (h : u ∈ (s.resolveWithin depth v).leaves) :
    s.Reaches v u := by
  induction depth generalizing v with
  | zero => exact .leaf h
  | succ depth ih =>
    rw [resolveWithin_succ] at h
    obtain ⟨x, hx, hu⟩ := Value.mem_leaves_subst.1 h
    by_cases hc : ∃ c, x = .cell c
    · obtain ⟨c, rfl⟩ := hc
      rw [Value.subst] at hu
      cases hb : s.binding? c with
      | none =>
        rw [hb, Value.leaves_cell, List.mem_singleton] at hu
        exact hu ▸ .leaf hx
      | some w =>
        rw [hb] at hu
        exact .binding hx hb (ih hu)
    · have hl := Value.isLeaf_of_mem_leaves hx
      rw [not_exists] at hc
      rw [Value.subst_of_isLeaf hl hc, Value.leaves_of_isLeaf hl, List.mem_singleton] at hu
      exact hu ▸ .leaf hx

/-- What a value leads to after it was read it led to before. -/
theorem Reaches.of_resolve (h : s.Reaches (s.resolve v) u) : s.Reaches v u := by
  cases h with
  | leaf h => exact reaches_of_mem_resolveWithin h
  | binding hc hb h => exact (reaches_of_mem_resolveWithin hc).trans_cell hb h

/-! ## Kinds of things that are reached -/

/-- All that a value leads to has a property. -/
def Only (s : Store) (Q : Value → Prop) (v : Value) : Prop := ∀ u, s.Reaches v u → Q u

theorem only_iff_forall_leaf : s.Only Q v ↔ ∀ x ∈ v.leaves, s.Only Q x := by
  constructor
  · exact fun h x hx u hu => h u (hu.of_leaf hx)
  · intro h u hu
    obtain ⟨x, hx, hu⟩ := hu.exists_leaf
    exact h x hx u hu

@[simp]
theorem only_call : s.Only Q (.call v) ↔ s.Only Q v := by
  rw [only_iff_forall_leaf, Value.leaves_call, ← only_iff_forall_leaf]

@[simp]
theorem only_action {name : Value} {arguments : List Value} :
    s.Only Q (.action name arguments) ↔ s.Only Q name ∧ ∀ v ∈ arguments, s.Only Q v := by
  rw [only_iff_forall_leaf, Value.leaves_action, List.forall_mem_append, ← only_iff_forall_leaf]
  refine and_congr_right fun _ => ?_
  simp only [List.mem_flatMap]
  constructor
  · exact fun h v hv => only_iff_forall_leaf.2 fun x hx => h x ⟨v, hv, hx⟩
  · rintro h x ⟨v, hv, hx⟩
    exact only_iff_forall_leaf.1 (h v hv) x hx

theorem only_of_isLeaf (h : v.isLeaf) (hc : ∀ c, v ≠ .cell c) (hq : Q v) : s.Only Q v :=
  fun _ hu => hu.eq_of_isLeaf h hc ▸ hq

theorem only_of_unbound {c : Cell} (h : s.binding? c = none) (hq : Q (.cell c)) :
    s.Only Q (.cell c) := fun _ hu => hu.eq_of_unbound h ▸ hq

theorem Only.mono {R : Value → Prop} (h : s.Only Q v) (hqr : ∀ u, Q u → R u) : s.Only R v :=
  fun u hu => hqr u (h u hu)

theorem Only.resolve (h : s.Only Q v) : s.Only Q (s.resolve v) := fun u hu => h u hu.of_resolve

theorem Only.of_binding? {t : Store} (hst : ∀ c, t.binding? c = s.binding? c) (h : s.Only Q v) :
    t.Only Q v := fun u hu => h u (hu.mono fun c _ hb => hst c ▸ hb)

/-- **Binding a cell** to what leads only to things of a kind leaves every value
    alone that leads only to such things. -/
theorem only_write {c : Cell} (hw : s.Only Q w) (hv : s.Only Q v) : (s.write c w).Only Q v := by
  by_cases hc : c.place < s.size
  · intro u hu
    induction hu with
    | leaf h => exact hv _ (.leaf h)
    | @binding v x u d hd hb _ ih =>
      rw [binding?_write hc] at hb
      -- the cell on the way is the one that was written, or one that was bound before
      split at hb
      · next => exact ih (Option.some.inj hb ▸ hw)
      · next => exact ih fun u hu => hv u (.binding hd hb hu)
  · rwa [write_of_le (Nat.le_of_not_lt hc)]

end Store

end AdaptiveAutomata
