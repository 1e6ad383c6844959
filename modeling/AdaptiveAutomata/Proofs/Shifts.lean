/-
  The same cells in another place.

  Two runs that make the same cells one after the other may make them in different
  places, if one of the stores had more cells before.  What the runs do to their new
  cells is the same: it depends on where a cell is only to tell it from another one.

  * `Shift` takes the places from some number on to those from another one on;
  * `Store.Shifted` says that the cells of one store from there on are those of
    another one, with the same identifiers and bindings, and that they draw the same
    identifiers for the cells that are to come;
  * `Shift.outline_value` and `Shift.fits_value`: a value is taken for equal to what it
    is shifted to, and fits the same;
  * `Shifted.resolve_value`: it reads the same, and `Shifted.bindFrom`: matching binds
    the same cells, as long as no cell comes to lead back to itself.  The two stores
    may have different sizes, so this rests on how deep cells stand inside each other,
    not on how many there are.
-/
import AdaptiveAutomata.Proofs.Acyclic
import AdaptiveAutomata.Proofs.CellFree
import Mathlib.Order.Interval.Finset.Nat

namespace AdaptiveAutomata

/-- A move of all places from `old` on to the places from `new` on. -/
structure Shift where
  old : Nat
  new : Nat
  /-- How many identifiers are drawn at most. -/
  last : Nat

namespace Shift

variable {k : Shift} {c d : Cell} {v w p : Value} {s : Store}

/-- The cell in its new place. -/
def cell (k : Shift) (c : Cell) : Cell := ⟨c.place - k.old + k.new, c.id⟩

/-- The value with its cells in their new places. -/
def value (k : Shift) (v : Value) : Value := v.subst fun c => .cell (k.cell c)

/-- All cells of the value are moved. -/
def Covers (k : Shift) (v : Value) : Prop := ∀ c, .cell c ∈ v.leaves → k.old ≤ c.place

theorem place_cell_eq_iff (hc : k.old ≤ c.place) (hd : k.old ≤ d.place) :
    (k.cell c).place = (k.cell d).place ↔ c.place = d.place := by
  simp only [cell]
  omega

/-! ## Values -/

@[simp]
theorem value_cell (k : Shift) (c : Cell) : k.value (.cell c) = .cell (k.cell c) := by
  rw [value, Value.subst]

@[simp]
theorem value_call (k : Shift) (v : Value) : k.value (.call v) = .call (k.value v) := by
  rw [value, Value.subst, value]

@[simp]
theorem value_action (k : Shift) (v : Value) (vs : List Value) :
    k.value (.action v vs) = .action (k.value v) (vs.map k.value) := by
  rw [value, Value.subst, Value.substAll_eq_map]
  rfl

theorem value_of_cellFree (h : v.CellFree) : k.value v = v := h.subst _

theorem map_value_of_cellFree {vs : List Value} (h : ∀ v ∈ vs, v.CellFree) :
    vs.map k.value = vs := by
  rw [List.map_congr_left fun v hv => value_of_cellFree (h v hv), List.map_id']

@[simp]
theorem covers_cell : k.Covers (.cell c) ↔ k.old ≤ c.place := by
  simp [Covers]

@[simp]
theorem covers_call : k.Covers (.call v) ↔ k.Covers v := by
  rw [Covers, Value.leaves_call, Covers]

@[simp]
theorem covers_action {vs : List Value} :
    k.Covers (.action v vs) ↔ k.Covers v ∧ ∀ w ∈ vs, k.Covers w := by
  simp only [Covers, Value.leaves_action, List.mem_append, List.mem_flatMap]
  constructor
  · exact fun h => ⟨fun c hc => h c (.inl hc), fun w hw c hc => h c (.inr ⟨w, hw, hc⟩)⟩
  · rintro h c (hc | ⟨w, hw, hc⟩)
    · exact h.1 c hc
    · exact h.2 w hw c hc

theorem covers_of_cellFree (h : v.CellFree) : k.Covers v := fun c hc => absurd hc (h c)

/-- A value is taken for equal to what it is shifted to. -/
@[simp]
theorem outline_value (k : Shift) (v : Value) : (k.value v).outline = v.outline :=
  Value.outline_subst_eq_iff.2 fun c _ => Value.outline_cell (k.cell c)

@[simp]
theorem text_value (k : Shift) (v : Value) : (k.value v).text = v.text := by
  rw [Value.text, outline_value, Value.text]

@[simp]
theorem isCell_value (k : Shift) (v : Value) : (k.value v).isCell = v.isCell := by
  cases v <;> rfl

@[simp]
theorem name?_value (k : Shift) (v : Value) : (k.value v).name? = v.name? := by
  induction v using Value.recParts with
  | leaf v hv => cases v <;> first | rfl | exact absurd hv Bool.false_ne_true
  | call v ih => rw [value_call, Value.name?, ih, Value.name?]
  | action => rw [value_action, Value.name?, Value.name?]

theorem fitsAll_value {ps : List Value}
    (h : ∀ p ∈ ps, ∀ w, (k.value p).fits (k.value w) = p.fits w) (ws : List Value) :
    Value.fitsAll (ps.map k.value) (ws.map k.value) = Value.fitsAll ps ws := by
  induction ps generalizing ws with
  | nil => cases ws <;> rfl
  | cons p ps ih =>
    cases ws with
    | nil => rfl
    | cons w ws =>
      rw [List.map_cons, List.map_cons, Value.fitsAll, Value.fitsAll, h p List.mem_cons_self,
        ih fun q hq => h q (List.mem_cons_of_mem p hq)]

/-- Matching takes no notice of places. -/
theorem fits_value (k : Shift) (p w : Value) : (k.value p).fits (k.value w) = p.fits w := by
  induction p using Value.recParts generalizing w with
  | leaf p hp =>
    cases p with
    | call | action => exact absurd hp Bool.false_ne_true
    | _ => cases w <;> rfl
  | call p ih =>
    cases w with
    | call w => rw [value_call, value_call, Value.fits, Value.fits, ih]
    | _ => rfl
  | action p ps ih ihs =>
    cases w with
    | action w ws =>
      rw [value_action, value_action, Value.fits, Value.fits, ih, fitsAll_value ihs]
    | _ => rfl

end Shift

/-! ## Stores -/

namespace Store

variable {k : Shift} {s t : Store} {c d : Cell} {v w p : Value}

/-- What is drawn is drawn for new cells. -/
theorem drawn_freshCells (s : Store) (n : Nat) : (s.freshCells n).2.drawn = s.drawn + n := by
  induction n generalizing s with
  | zero => rfl
  | succ n ih =>
    have hfresh : s.fresh.2.drawn = s.drawn + 1 := rfl
    exact (ih s.fresh.2).trans (by omega)

theorem bindingRule_drawn : BindingRule (fun _ _ => True) fun s t => s.drawn = t.drawn where
  refl _ := rfl
  trans := Eq.trans
  frame _ _ := trivial
  resolve _ := trivial
  call _ := trivial
  action _ := ⟨trivial, fun _ _ => trivial⟩
  bind _ h := by
    obtain ⟨-, -, rfl⟩ := bind?_eq_some_iff.1 h
    rfl

/-- The cells of `s` from a place on are those of `t` from another place on, and the
    two will give the same identifiers to new cells, up to the last one. -/
structure Shifted (k : Shift) (s t : Store) : Prop where
  size : ∃ n, s.size = k.old + n ∧ t.size = k.new + n
  supply : ∀ i, s.drawn + i < k.last → t.supply (t.drawn + i) = s.supply (s.drawn + i)
  covers : ∀ {c v}, k.old ≤ c.place → s.binding? c = some v → k.Covers v
  binding? : ∀ {c}, k.old ≤ c.place → t.binding? (k.cell c) = (s.binding? c).map k.value

namespace Shifted

/-! ### Reading -/

theorem covers_of_reaches (h : Shifted k s t) (hv : k.Covers v) (hr : s.Reaches v (.cell c)) :
    k.old ≤ c.place := by
  generalize hu : Value.cell c = u at hr
  induction hr with
  | leaf hc => exact hv c (hu ▸ hc)
  | binding hd hb _ ih => exact ih (h.covers (hv _ hd) hb) hu

theorem covers_resolve (h : Shifted k s t) (hv : k.Covers v) : k.Covers (s.resolve v) :=
  fun _ hc => h.covers_of_reaches hv (reaches_of_mem_resolveWithin hc)

/-- Read to the same depth, what a value is shifted to is what it reads as, shifted. -/
theorem resolveWithin_value (h : Shifted k s t) (hv : k.Covers v) (depth : Nat) :
    t.resolveWithin depth (k.value v) = k.value (s.resolveWithin depth v) := by
  induction depth generalizing v with
  | zero => rfl
  | succ depth ih =>
    rw [resolveWithin_succ, resolveWithin_succ, Shift.value, Shift.value, Value.subst_subst,
      Value.subst_subst]
    refine Value.subst_congr fun c hc => ?_
    rw [Value.subst, h.binding? (hv c hc)]
    cases hb : s.binding? c with
    | none => exact (Shift.value_cell k c).symm
    | some w => exact ih (h.covers (hv c hc) hb)

/-- The cells that are moved have ranks that both stores are deep enough for. -/
theorem exists_rank (h : Shifted k s t) (hs : s.AcyclicFrom k.old) :
    ∃ rank : Cell → Nat, s.RankOn (fun c => k.old ≤ c.place) rank ∧
      ∀ c, k.old ≤ c.place → rank c ≤ s.size - k.old := by
  refine ⟨fun c => (s.below c).card, ⟨fun hc hb hd => ?_, fun _ => unbound_of_card_below⟩,
    fun c hc => ?_⟩
  · exact ⟨h.covers hc hb _ hd, card_below_lt (hs _ hc) hb hd⟩
  have hsub : s.below c ⊆ Finset.Ico k.old s.size := by
    intro i hi
    obtain ⟨d, hd, rfl, hb⟩ := mem_below.1 hi
    obtain ⟨w, hw⟩ := Option.ne_none_iff_exists'.1 hb
    exact Finset.mem_Ico.2
      ⟨h.covers_of_reaches (Shift.covers_cell.2 hc) hd, place_lt_size hw⟩
  simpa using Finset.card_le_card hsub

/-- **Reading** what a value is shifted to gives what it reads as, shifted. -/
theorem resolve_value (h : Shifted k s t) (hs : s.AcyclicFrom k.old) (hv : k.Covers v) :
    t.resolve (k.value v) = k.value (s.resolve v) := by
  obtain ⟨rank, hr, hle⟩ := h.exists_rank hs
  obtain ⟨n, hn, hm⟩ := h.size
  have hdepth : s.resolveWithin t.size v = s.resolveWithin s.size v :=
    hr.resolveWithin_congr (fun c hc => ⟨hv c hc, hle c (hv c hc)⟩) (by omega) (Nat.sub_le ..)
  rw [resolve, h.resolveWithin_value hv, hdepth, resolve]

theorem fits_value (h : Shifted k s t) (hs : s.AcyclicFrom k.old) (hp : k.Covers p)
    (hv : k.Covers v) : t.fits (k.value p) (k.value v) = s.fits p v := by
  rw [fits, h.resolve_value hs hp, h.resolve_value hs hv, Shift.fits_value, fits]

theorem name?_value (h : Shifted k s t) (hs : s.AcyclicFrom k.old) (hv : k.Covers v) :
    t.name? (k.value v) = s.name? v := by
  rw [name?, h.resolve_value hs hv, Shift.name?_value, name?]

theorem text_value (h : Shifted k s t) (hs : s.AcyclicFrom k.old) (hv : k.Covers v) :
    t.text (k.value v) = s.text v := by
  rw [text, h.resolve_value hs hv, Shift.text_value, text]

theorem asState_value (h : Shifted k s t) (hs : s.AcyclicFrom k.old) (hv : k.Covers v) :
    t.asState (k.value v) = k.value (s.asState v) := by
  have htext := h.text_value hs hv
  cases v with
  | state | cell => rfl
  | _ => exact congrArg Value.state htext

theorem asSymbol_value (h : Shifted k s t) (hs : s.AcyclicFrom k.old) (hv : k.Covers v) :
    t.asSymbol (k.value v) = k.value (s.asSymbol v) := by
  have htext := h.text_value hs hv
  cases v with
  | symbol | cell => rfl
  | _ => exact congrArg Value.symbol htext

/-! ### Making and binding cells -/

theorem place_lt_iff (h : Shifted k s t) (hc : k.old ≤ c.place) :
    (k.cell c).place < t.size ↔ c.place < s.size := by
  obtain ⟨n, hn, hm⟩ := h.size
  simp only [Shift.cell]
  omega

theorem write (h : Shifted k s t) (hc : k.old ≤ c.place) (hw : k.Covers w) :
    Shifted k (s.write c w) (t.write (k.cell c) (k.value w)) := by
  by_cases hlt : c.place < s.size
  · have hlt' := (h.place_lt_iff hc).2 hlt
    refine ⟨by simpa using h.size, h.supply, @fun d v hd hb => ?_, @fun d hd => ?_⟩
    · rw [binding?_write hlt] at hb
      split at hb
      · exact Option.some.inj hb ▸ hw
      · exact h.covers hd hb
    · rw [binding?_write hlt, binding?_write hlt', h.binding? hd]
      simp only [Shift.place_cell_eq_iff hc hd]
      split <;> rfl
  · rw [write_of_le (Nat.le_of_not_lt hlt),
      write_of_le (Nat.le_of_not_lt (mt (h.place_lt_iff hc).1 hlt))]
    exact h

theorem bind? (h : Shifted k s t) (hs : s.AcyclicFrom k.old) (hc : k.old ≤ c.place)
    (hv : k.Covers v) :
    Shifted k ((s.bind? c v).getD s) ((t.bind? (k.cell c) (k.value v)).getD t) := by
  have hw := h.write hc (h.covers_resolve hv)
  -- whether the value reads as the cell itself is seen from the identifiers, which stay
  have hitself : (∀ d, k.value (s.resolve v) = .cell d → d.id ≠ (k.cell c).id) ↔
      ∀ d, s.resolve v = .cell d → d.id ≠ c.id := by
    cases s.resolve v <;> simp [Shift.cell, Shift.value, Value.subst]
  have hbound : t.binding? (k.cell c) = none ↔ s.binding? c = none := by
    rw [h.binding? hc, Option.map_eq_none_iff]
  rw [← h.resolve_value hs hv] at hw hitself
  by_cases hb : s.binding? c = none ∧ ∀ d, s.resolve v = .cell d → d.id ≠ c.id
  · rw [bind?_eq_some_iff.2 ⟨hb.1, hb.2, rfl⟩,
      bind?_eq_some_iff.2 ⟨hbound.2 hb.1, hitself.2 hb.2, rfl⟩]
    exact hw
  · have hnone : s.bind? c v = none := Option.eq_none_iff_forall_ne_some.2 fun u hu =>
      hb ⟨(bind?_eq_some_iff.1 hu).1, (bind?_eq_some_iff.1 hu).2.1⟩
    have hnone' : t.bind? (k.cell c) (k.value v) = none :=
      Option.eq_none_iff_forall_ne_some.2 fun u hu =>
        hb ⟨hbound.1 (bind?_eq_some_iff.1 hu).1, hitself.1 (bind?_eq_some_iff.1 hu).2.1⟩
    rw [hnone, hnone']
    exact h

theorem fresh (h : Shifted k s t) (hd : s.fresh.2.drawn ≤ k.last) :
    t.fresh.1 = k.cell s.fresh.1 ∧ k.old ≤ s.fresh.1.place ∧ Shifted k s.fresh.2 t.fresh.2 := by
  obtain ⟨n, hn, hm⟩ := h.size
  have hid : t.supply t.drawn = s.supply s.drawn := h.supply 0 hd
  refine ⟨?_, ?_, ⟨n + 1, ?_, ?_⟩, fun i hi => ?_, fun hc hb => ?_, fun hc => ?_⟩
  · have hplace : t.size = s.size - k.old + k.new := by omega
    simp only [Store.fresh, alloc, Shift.cell, hid, hplace]
  · simp only [Store.fresh, alloc]
    omega
  · exact (size_alloc s (s.supply s.drawn) none).trans (by omega)
  · exact (size_alloc t (t.supply t.drawn) none).trans (by omega)
  · have hi : s.drawn + 1 + i < k.last := hi
    have := h.supply (1 + i) (by omega)
    rwa [← Nat.add_assoc, ← Nat.add_assoc] at this
  · exact h.covers hc ((binding?_fresh s _).symm.trans hb)
  · rw [binding?_fresh, binding?_fresh, h.binding? hc]

theorem freshCells (h : Shifted k s t) {n : Nat} (hd : (s.freshCells n).2.drawn ≤ k.last) :
    (t.freshCells n).1 = (s.freshCells n).1.map k.cell ∧
      (∀ c ∈ (s.freshCells n).1, k.old ≤ c.place) ∧
      Shifted k (s.freshCells n).2 (t.freshCells n).2 := by
  induction n generalizing s t with
  | zero => exact ⟨rfl, fun _ h => absurd h List.not_mem_nil, h⟩
  | succ n ih =>
    have hdrawn : s.fresh.2.drawn ≤ (s.fresh.2.freshCells n).2.drawn := by
      rw [drawn_freshCells]
      exact Nat.le_add_right ..
    obtain ⟨hcell, hplace, hfresh⟩ := h.fresh (hdrawn.trans hd)
    obtain ⟨hcells, hplaces, hrest⟩ := ih hfresh hd
    refine ⟨?_, ?_, hrest⟩
    · simp only [Store.freshCells, List.map_cons, hcells, hcell]
    · intro c hc
      rcases List.mem_cons.1 hc with rfl | hc
      · exact hplace
      · exact hplaces c hc

/-! ### Matching -/

section

variable {f g : Value → Value → Store → Store} (hext : ∀ p v s, (f p v s).Extends s)
  (hf : ∀ {p v s t}, k.Covers p → k.Covers v → Shifted k s t → (f p v s).AcyclicFrom k.old →
    Shifted k (f p v s) (g (k.value p) (k.value v) t))

include hext

theorem walkAll {ps : List Value}
    (hw : ∀ p ∈ ps, ∀ {v s t}, k.Covers v → Shifted k s t →
      (Store.walk f p v s).AcyclicFrom k.old →
      Shifted k (Store.walk f p v s) (Store.walk g (k.value p) (k.value v) t))
    {ws : List Value} (hws : ∀ w ∈ ws, k.Covers w) (h : Shifted k s t)
    (ha : (Store.walkAll f ps ws s).AcyclicFrom k.old) :
    Shifted k (Store.walkAll f ps ws s)
      (Store.walkAll g (ps.map k.value) (ws.map k.value) t) := by
  induction ps generalizing ws s t with
  | nil => cases ws <;> exact h
  | cons p ps ih =>
    cases ws with
    | nil => exact h
    | cons w ws =>
      have hfirst := hw p List.mem_cons_self (hws w List.mem_cons_self) h
        (ha.of_extends (extends_walkAll hext ps ws _))
      exact ih (fun q hq => hw q (List.mem_cons_of_mem p hq))
        (fun x hx => hws x (List.mem_cons_of_mem w hx)) hfirst ha

include hf

/-- A walk along what a pattern and a value are shifted to binds what their cells are
    shifted to. -/
theorem walk (hp : k.Covers p) : ∀ {v s t}, k.Covers v → Shifted k s t →
    (Store.walk f p v s).AcyclicFrom k.old →
      Shifted k (Store.walk f p v s) (Store.walk g (k.value p) (k.value v) t) := by
  induction p using Value.recParts with
  | leaf p hleaf =>
    intro v s t hv h ha
    cases p with
    | call | action => exact absurd hleaf Bool.false_ne_true
    | epsilon | state | symbol | literal => exact h
    | cell c =>
      have hc := Shift.covers_cell.1 hp
      have hs := ha.of_extends (extends_walk hext (.cell c) v s)
      rw [Shift.value_cell, Store.walk, Store.walk, h.binding? hc]
      rw [Store.walk] at ha
      cases hb : s.binding? c with
      | some b =>
        rw [hb] at ha
        exact hf (h.covers hc hb) hv h ha
      | none =>
        simp only [Option.map_none, h.resolve_value hs hv, Shift.isCell_value]
        split
        · exact h
        · exact h.bind? hs hc (h.covers_resolve hv)
  | call p ih =>
    intro v s t hv h ha
    have hs := ha.of_extends (extends_walk hext (.call p) v s)
    have hr := h.covers_resolve hv
    rw [Shift.value_call, Store.walk, Store.walk, h.resolve_value hs hv]
    rw [Store.walk] at ha
    cases hw : s.resolve v with
    | call w =>
      rw [hw] at ha hr
      exact ih (Shift.covers_call.1 hp) (Shift.covers_call.1 hr) h ha
    | _ => exact h
  | action p ps ih ihs =>
    intro v s t hv h ha
    have hs := ha.of_extends (extends_walk hext (.action p ps) v s)
    have hr := h.covers_resolve hv
    rw [Shift.value_action, Store.walk, Store.walk, h.resolve_value hs hv]
    rw [Store.walk] at ha
    cases hw : s.resolve v with
    | action w ws =>
      rw [hw] at ha hr
      rw [Shift.covers_action] at hp hr
      have hname := ih hp.1 hr.1 h (ha.of_extends (extends_walkAll hext ps ws _))
      rw [Shift.value_action]
      exact walkAll hext (fun q hq => ihs q hq (hp.2 q hq)) hr.2 hname ha
    | _ => exact h

end

theorem bindFromWithin (depth : Nat) : ∀ {p v s t}, k.Covers p → k.Covers v → Shifted k s t →
    (Store.bindFromWithin depth p v s).AcyclicFrom k.old →
      Shifted k (Store.bindFromWithin depth p v s)
        (Store.bindFromWithin depth (k.value p) (k.value v) t) := by
  induction depth with
  | zero => exact fun _ _ h _ => h
  | succ depth ih => exact fun hp hv h ha => walk (extends_bindFromWithin depth) ih hp hv h ha

/-- **Matching** binds the same cells on both sides. -/
theorem bindFrom (h : Shifted k s t) (hp : k.Covers p) (hv : k.Covers v)
    (ha : (s.bindFrom p v).AcyclicFrom k.old) :
    Shifted k (s.bindFrom p v) (t.bindFrom (k.value p) (k.value v)) := by
  have hsame := bindFromWithin (s.size + 1) hp hv h ha
  obtain ⟨rank, hr, hle⟩ := hsame.exists_rank ha
  have hsize : s.size = (s.bindFrom p v).size := bindingRule_size.bindFrom trivial p
  obtain ⟨n, hn, hm⟩ := h.size
  have hrank (c : Cell) (hc : .cell c ∈ p.leaves) : k.old ≤ c.place ∧ rank c ≤ n := by
    have := hle c (hp c hc)
    rw [← Store.bindFrom, ← hsize] at this
    exact ⟨hp c hc, by omega⟩
  -- the depth at which the other store is matched is deep enough here, too
  have hdepth : s.bindFrom p v = Store.bindFromWithin (t.size + 1) p v s :=
    hr.bindFromWithin_congr hrank (by omega) (by omega) fun _ _ hb => hb
  rw [hdepth] at ha ⊢
  exact bindFromWithin (t.size + 1) hp hv h ha

theorem bindFromAll (h : Shifted k s t) {ps ws : List Value} (hps : ∀ p ∈ ps, k.Covers p)
    (hws : ∀ w ∈ ws, k.Covers w) (ha : (s.bindFromAll ps ws).AcyclicFrom k.old) :
    Shifted k (s.bindFromAll ps ws) (t.bindFromAll (ps.map k.value) (ws.map k.value)) := by
  induction ps generalizing ws s t with
  | nil => cases ws <;> exact h
  | cons p ps ih =>
    cases ws with
    | nil => exact h
    | cons w ws =>
      have hfirst := h.bindFrom (hps p List.mem_cons_self) (hws w List.mem_cons_self)
        (ha.of_extends (bindingRule_extends.bindFromAll ps fun _ _ => trivial))
      exact ih hfirst (fun q hq => hps q (List.mem_cons_of_mem p hq))
        (fun x hx => hws x (List.mem_cons_of_mem w hx)) ha

end Shifted

end Store

end AdaptiveAutomata
