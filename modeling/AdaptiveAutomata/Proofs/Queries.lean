/-
  What a query binds.

  A query walks along its pattern and the first entry that fits, and binds cells on the way,
  so what it meets later depends on what it has bound before.  What comes of it can be said
  without the walk: each cell of the pattern as it reads is bound to what stands beside its
  first occurrence in the entry as it reads.

  * `Value.beside` lists the cells of a pattern with what stands beside them, in the order in
    which they are read; `Store.bindEach` binds each cell of such a list that is unbound;
  * `Store.Ends` says that a value leads to no cell that leads back to itself, so that its
    reading ends;
  * `Store.Fills` says that a store has more bindings than another, to values without cells:
    what holds of all stores that a walk goes through;
  * `Meets.walk_eq_bindEach`: a walk binds what stands beside, one case for each form of
    pattern, and `Meets.bindFromWithin_eq_bindEach`: so does matching, to any depth;
  * `Entry.bindFrom_eq_bindEach`: so does matching entries;
  * `query_binds`: what a query answers, what it binds, and what it leaves alone.
-/
import AdaptiveAutomata.Proofs.Images
import AdaptiveAutomata.Proofs.Resolving

namespace AdaptiveAutomata

namespace Value

/-! ## Beside each other -/

mutual

/-- The cells of a pattern, each with the part of the value that it stands beside, from left
    to right. -/
def beside : (pattern stored : Value) → List (Cell × Value)
  | cell c, w => [(c, w)]
  | call p, w =>
    match w with
    | call w => beside p w
    | _ => []
  | action p ps, w =>
    match w with
    | action w ws => beside p w ++ besideAll ps ws
    | _ => []
  | epsilon, _ | state _, _ | symbol _, _ | literal _, _ => []
termination_by structural p => p

/-- The cells of several patterns, each with what it stands beside. -/
def besideAll : (patterns stored : List Value) → List (Cell × Value)
  | p :: ps, w :: ws => beside p w ++ besideAll ps ws
  | [], _ | _ :: _, [] => []
termination_by structural ps => ps

end

variable {p w : Value} {ps ws : List Value}

theorem fitsAll_iff_forall₂ :
    fitsAll ps ws = true ↔ List.Forall₂ (fun p w => p.fits w = true) ps ws := by
  induction ps generalizing ws with
  | nil => cases ws <;> simp [fitsAll]
  | cons p ps ih => cases ws <;> simp [fitsAll, ih]

/-- A value without cells fits a pattern. -/
structure Meets (p w : Value) : Prop where
  fits : p.fits w = true
  cellFree : w.CellFree

theorem Meets.call (h : (call p).Meets w) : ∃ x, w = call x ∧ p.Meets x := by
  obtain ⟨hfits, hw⟩ := h
  cases w with
  | call x =>
    rw [Value.fits] at hfits
    exact ⟨x, rfl, hfits, cellFree_call.1 hw⟩
  | cell c => exact absurd hw (not_cellFree_cell c)
  | _ => simp [Value.fits] at hfits

theorem Meets.action (h : (action p ps).Meets w) :
    ∃ x xs, w = action x xs ∧ p.Meets x ∧ List.Forall₂ Meets ps xs := by
  obtain ⟨hfits, hw⟩ := h
  cases w with
  | action x xs =>
    rw [Value.fits, Bool.and_eq_true, fitsAll_iff_forall₂] at hfits
    rw [cellFree_action] at hw
    exact ⟨x, xs, rfl, ⟨hfits.1, hw.1⟩,
      forall₂_imp_of_mem (fun _ _ x hx h => ⟨h, hw.2 x hx⟩) hfits.2⟩
  | cell c => exact absurd hw (not_cellFree_cell c)
  | _ => simp [Value.fits] at hfits

theorem cells_besideAll (h : List.Forall₂
    (fun p w => (p.beside w).map (fun x => cell x.1) = p.leaves.filter isCell) ps ws) :
    (besideAll ps ws).map (fun x => cell x.1) = (ps.flatMap leaves).filter isCell := by
  induction h with
  | nil => rfl
  | cons hp _ ih => rw [besideAll, List.map_append, List.flatMap_cons, List.filter_append, hp, ih]

/-- **The cells beside a value** are those of the pattern, as often and in the order in which
    they stand there. -/
theorem Meets.cells (h : p.Meets w) :
    (p.beside w).map (fun x => cell x.1) = p.leaves.filter isCell := by
  induction p using recParts generalizing w with
  | leaf p hp =>
    cases p with
    | call | action => exact absurd hp Bool.false_ne_true
    | _ => rfl
  | call p ih =>
    obtain ⟨x, rfl, hx⟩ := h.call
    rw [beside, leaves_call]
    exact ih hx
  | action p ps ih ihs =>
    obtain ⟨x, xs, rfl, hx, hxs⟩ := h.action
    rw [beside, leaves_action, List.map_append, List.filter_append, ih hx,
      cells_besideAll (forall₂_imp_of_mem (fun q hq _ _ => ihs q hq) hxs)]

theorem mem_besideAll {x : Cell × Value} (h : x ∈ besideAll ps ws) :
    ∃ p ∈ ps, ∃ w ∈ ws, x ∈ p.beside w := by
  induction ps generalizing ws with
  | nil => cases ws <;> cases h
  | cons p ps ih =>
    cases ws with
    | nil => cases h
    | cons w ws =>
      rcases List.mem_append.1 h with h | h
      · exact ⟨p, List.mem_cons_self, w, List.mem_cons_self, h⟩
      · obtain ⟨q, hq, v, hv, hx⟩ := ih h
        exact ⟨q, List.mem_cons_of_mem p hq, v, List.mem_cons_of_mem w hv, hx⟩

/-- What stands beside a cell is a part of the value. -/
theorem cellFree_of_mem_beside {x : Cell × Value} (hw : w.CellFree) (hx : x ∈ p.beside w) :
    x.2.CellFree := by
  induction p using recParts generalizing w with
  | leaf p hp =>
    cases p with
    | call | action => exact absurd hp Bool.false_ne_true
    | cell c =>
      rw [beside, List.mem_singleton] at hx
      exact hx ▸ hw
    | _ => simp [beside] at hx
  | call p ih =>
    cases w with
    | call w => exact ih (cellFree_call.1 hw) (by rwa [beside] at hx)
    | _ => simp [beside] at hx
  | action p ps ih ihs =>
    cases w with
    | action w ws =>
      rw [cellFree_action] at hw
      rw [beside, List.mem_append] at hx
      rcases hx with hx | hx
      · exact ih hw.1 hx
      · obtain ⟨q, hq, v, hv, hx⟩ := mem_besideAll hx
        exact ihs q hq (hw.2 v hv) hx
    | _ => simp [beside] at hx

end Value

/-- A value without cells leads to no cells. -/
theorem Value.CellFree.not_reaches {s : Store} {v : Value} (h : v.CellFree) (c : Cell) :
    ¬ s.Reaches v (.cell c) := by
  intro hc
  obtain ⟨x, hx, hxc⟩ := hc.exists_leaf
  have hne (d : Cell) : x ≠ .cell d := fun hd => h d (hd ▸ hx)
  exact hne c (hxc.eq_of_isLeaf (Value.isLeaf_of_mem_leaves hx) hne).symm

namespace Store

variable {s t : Store} {c d : Cell} {p v w b : Value} {ps ws : List Value}
  {pairs : List (Cell × Value)}

/-! ## Values whose reading ends -/

/-- The value leads to no cell that leads back to itself. -/
def Ends (s : Store) (v : Value) : Prop :=
  s.Only (fun u => ∀ c, u = .cell c → ¬ s.LeadsToItself c) v

theorem Ends.not_leadsToItself (h : s.Ends v) (hc : s.Reaches v (.cell c)) :
    ¬ s.LeadsToItself c :=
  h _ hc c rfl

theorem Ends.cell (h : s.Ends v) (hc : .cell c ∈ v.leaves) : s.Ends (.cell c) :=
  only_iff_forall_leaf.1 h _ hc

theorem Ends.binding (h : s.Ends (.cell c)) (hb : s.binding? c = some b) : s.Ends b :=
  fun u hu => h u (.binding (by simp) hb hu)

/-- Where reading ends, the number of bound cells that a cell leads to goes down along
    bindings. -/
theorem rankOn_ends (s : Store) :
    s.RankOn (fun c => s.Ends (.cell c)) fun c => (s.below c).card where
  lt h hb hd :=
    ⟨(h.binding hb).cell hd, card_below_lt (h.not_leadsToItself (.leaf (by simp))) hb hd⟩
  zero _ := unbound_of_card_below

theorem Ends.rank_le (h : s.Ends v) (hc : .cell c ∈ v.leaves) :
    s.Ends (.cell c) ∧ (s.below c).card ≤ s.size :=
  ⟨h.cell hc, card_below_le s c⟩

theorem Ends.unbound_of_mem_resolve (h : s.Ends v) (hc : .cell c ∈ (s.resolve v).leaves) :
    s.binding? c = none :=
  s.rankOn_ends.unbound_of_mem_resolveWithin (fun _ hd => h.rank_le hd) hc

/-- A bound cell reads as what it is bound to. -/
theorem Ends.resolve_cell (h : s.Ends (.cell c)) (hb : s.binding? c = some b) :
    s.resolve (.cell c) = s.resolve b := by
  obtain ⟨n, hn⟩ : ∃ n, s.size = n + 1 := ⟨s.size - 1, by have := place_lt_size hb; omega⟩
  have hcell : s.resolve (.cell c) = s.resolveWithin n b := by
    rw [resolve, hn, resolveWithin_succ, Value.subst, hb]
  rw [hcell, resolve]
  refine s.rankOn_ends.resolveWithin_congr (fun d hd => ?_) le_rfl (by omega)
  obtain ⟨he, hlt⟩ := s.rankOn_ends.lt h hb hd
  have := card_below_le s c
  exact ⟨he, by omega⟩

/-- An unbound cell that a value leads to stands in what is read. -/
theorem Ends.mem_leaves_resolve (h : s.Ends v) (hc : s.Reaches v (.cell c))
    (hn : s.binding? c = none) : .cell c ∈ (s.resolve v).leaves := by
  generalize hu : Value.cell c = u at hc
  induction hc with
  | leaf hmem =>
    subst hu
    rw [resolve_eq_subst]
    refine Value.mem_leaves_subst.2 ⟨_, hmem, ?_⟩
    rw [Value.subst, resolve_cell_of_none hn, Value.leaves_cell]
    exact List.mem_singleton_self _
  | @binding v b u d hd hb _ ih =>
    have hcell := h.cell hd
    rw [resolve_eq_subst]
    refine Value.mem_leaves_subst.2 ⟨_, hd, ?_⟩
    rw [Value.subst, hcell.resolve_cell hb]
    exact ih (hcell.binding hb) hu

/-! ## Binding what stands beside -/

/-- Bind each cell to the value beside it, unless it is bound. -/
def bindEach (s : Store) : List (Cell × Value) → Store
  | [] => s
  | (c, w) :: rest => (if s.binding? c = none then s.write c w else s).bindEach rest

theorem bindEach_append (s : Store) (pairs rest : List (Cell × Value)) :
    s.bindEach (pairs ++ rest) = (s.bindEach pairs).bindEach rest := by
  induction pairs generalizing s with
  | nil => rfl
  | cons x pairs ih => exact ih _

@[simp]
theorem size_bindEach (s : Store) (pairs : List (Cell × Value)) :
    (s.bindEach pairs).size = s.size := by
  induction pairs generalizing s with
  | nil => rfl
  | cons x pairs ih =>
    rw [bindEach, ih]
    split
    · exact size_write ..
    · rfl

/-- **What is bound**: a bound cell keeps its binding, and an unbound one has the first value
    beside it. -/
theorem binding?_bindEach (h : ∀ x ∈ pairs, x.1.place < s.size) (c : Cell) :
    (s.bindEach pairs).binding? c =
      (s.binding? c).or ((pairs.find? (·.1.place = c.place)).map (·.2)) := by
  induction pairs generalizing s with
  | nil => simp [bindEach]
  | cons x pairs ih =>
    obtain ⟨d, w⟩ := x
    obtain ⟨hd, hrest⟩ := List.forall_mem_cons.1 h
    rw [bindEach]
    by_cases hn : s.binding? d = none
    · rw [if_pos hn, ih (by simpa using hrest), binding?_write hd]
      by_cases hp : d.place = c.place
      · rw [if_pos hp, ← binding?_congr hp, hn, List.find?_cons_of_pos (by simpa using hp)]
        rfl
      · rw [if_neg hp, List.find?_cons_of_neg (by simpa using hp)]
    · rw [if_neg hn, ih hrest]
      by_cases hp : d.place = c.place
      · obtain ⟨b, hb⟩ := Option.ne_none_iff_exists'.1 hn
        rw [← binding?_congr hp, hb]
        rfl
      · rw [List.find?_cons_of_neg (by simpa using hp)]

theorem binding?_bindEach_ne_none (h : ∀ x ∈ pairs, x.1.place < s.size) {x : Cell × Value}
    (hx : x ∈ pairs) : (s.bindEach pairs).binding? x.1 ≠ none := by
  have hfind : (pairs.find? (·.1.place = x.1.place)).isSome :=
    List.find?_isSome.2 ⟨x, hx, decide_eq_true rfl⟩
  rw [binding?_bindEach h, ← Option.isSome_iff_ne_none, Option.isSome_or, Option.isSome_map, hfind,
    Bool.or_true]

/-- A store has more bindings than another, and these are to values without cells. -/
structure Fills (s t : Store) : Prop where
  size : t.size = s.size
  keeps : t.Extends s
  cellFree : ∀ {c b}, s.binding? c = none → t.binding? c = some b → b.CellFree

namespace Fills

theorem refl (s : Store) : s.Fills s where
  size := rfl
  keeps _ _ hb := hb
  cellFree hn hb := by
    rw [hn] at hb
    cases hb

theorem write (h : s.Fills t) (hn : t.binding? c = none) (hw : w.CellFree) :
    s.Fills (t.write c w) where
  size := (size_write ..).trans h.size
  keeps := (extends_write hn w).trans h.keeps
  cellFree {d b} hd hb := by
    by_cases hc : c.place < t.size
    · rw [binding?_write hc] at hb
      split at hb
      · exact Option.some.inj hb ▸ hw
      · exact h.cellFree hd hb
    · rw [write_of_le (Nat.le_of_not_lt hc)] at hb
      exact h.cellFree hd hb

theorem bindEach (h : s.Fills t) (hp : ∀ x ∈ pairs, x.2.CellFree) : s.Fills (t.bindEach pairs) := by
  induction pairs generalizing t with
  | nil => exact h
  | cons x pairs ih =>
    obtain ⟨hx, hrest⟩ := List.forall_mem_cons.1 hp
    rw [Store.bindEach]
    split
    · next hn => exact ih (h.write hn hx) hrest
    · exact ih h hrest

theorem unbound (h : s.Fills t) (hn : t.binding? c = none) : s.binding? c = none := by
  by_contra hs
  obtain ⟨b, hs⟩ := Option.ne_none_iff_exists'.1 hs
  rw [h.keeps c b hs] at hn
  cases hn

/-- What was read without cells is read so again. -/
theorem resolve (h : s.Fills t) (hw : (s.resolve w).CellFree) : t.resolve w = s.resolve w :=
  resolve_of_extends h.keeps h.size hw

/-- The new bindings lead to no cells. -/
theorem reaches (h : s.Fills t) (hc : t.Reaches v (.cell c)) : s.Reaches v (.cell c) := by
  generalize hu : Value.cell c = u at hc
  induction hc with
  | leaf hmem => exact .leaf (hu ▸ hmem)
  | @binding v b u d hd hb hr ih =>
    cases hs : s.binding? d with
    | some b' =>
      obtain rfl : b' = b := Option.some.inj ((h.keeps d b' hs).symm.trans hb)
      exact .binding hd hs (ih hu)
    | none => exact absurd (hu ▸ hr) ((h.cellFree hs hb).not_reaches c)

theorem ends (h : s.Fills t) (hv : s.Ends v) : t.Ends v := by
  rintro _ hu c rfl ⟨b, hb, d, hd, hp⟩
  cases hs : s.binding? c with
  | some b' =>
    obtain rfl : b' = b := Option.some.inj ((h.keeps c b' hs).symm.trans hb)
    exact hv.not_leadsToItself (h.reaches hu) ⟨b', hs, d, h.reaches hd, hp⟩
  | none => exact (h.cellFree hs hb).not_reaches d hd

/-- If all cells are bound that stand in what was read, no cells are left. -/
theorem cellFree_resolve (h : s.Fills t) (hv : s.Ends v)
    (hb : ∀ c, .cell c ∈ (s.resolve v).leaves → t.binding? c ≠ none) :
    (t.resolve v).CellFree := by
  intro c hc
  have hn := (h.ends hv).unbound_of_mem_resolve hc
  have hr := h.reaches (reaches_of_mem_resolveWithin hc)
  exact hb c (hv.mem_leaves_resolve hr (h.unbound hn)) hn

end Fills

/-! ## Walking is binding what stands beside -/

/-- The cells of a pattern as it reads, with what stands beside them in a value as it reads. -/
def beside (s : Store) (p w : Value) : List (Cell × Value) := (s.resolve p).beside (s.resolve w)

def besideAll (s : Store) (ps ws : List Value) : List (Cell × Value) :=
  Value.besideAll (ps.map s.resolve) (ws.map s.resolve)

/-- A stored value reads without cells, and fits a pattern. -/
def Meets (s : Store) (p w : Value) : Prop := (s.resolve p).Meets (s.resolve w)

theorem Meets.call (h : s.Meets (.call p) w) : ∃ x, s.resolve w = .call x ∧ s.Meets p x ∧
    s.beside (.call p) w = s.beside p x := by
  rw [Meets, resolve_call] at h
  obtain ⟨x, hw, hx⟩ := h.call
  have hread : s.resolve x = x := hx.cellFree.resolve s
  refine ⟨x, hw, by rwa [Meets, hread], ?_⟩
  rw [beside, beside, hw, resolve_call, Value.beside, hread]

theorem Meets.action (h : s.Meets (.action p ps) w) :
    ∃ x xs, s.resolve w = .action x xs ∧ s.Meets p x ∧ List.Forall₂ s.Meets ps xs ∧
      s.beside (.action p ps) w = s.beside p x ++ s.besideAll ps xs := by
  rw [Meets, resolve_action] at h
  obtain ⟨x, xs, hw, hx, hxs⟩ := h.action
  have hread : s.resolve x = x := hx.cellFree.resolve s
  have hreads : xs.map s.resolve = xs := by
    refine (List.map_congr_left fun y hy => ?_).trans (List.map_id' xs)
    obtain ⟨q, -, hq⟩ := exists_of_mem_forall₂ hxs hy
    exact hq.cellFree.resolve s
  refine ⟨x, xs, hw, by rwa [Meets, hread], ?_, ?_⟩
  · rw [← hreads, List.forall₂_map_left_iff, List.forall₂_map_right_iff] at hxs
    exact hxs
  · rw [beside, beside, hw, resolve_action, Value.beside, hread, besideAll, hreads]

theorem Fills.beside (ht : s.Fills t) (h : s.Meets p w) : s.Fills (t.bindEach (s.beside p w)) :=
  ht.bindEach fun _ hx => Value.cellFree_of_mem_beside h.cellFree hx

theorem walkAll_eq_bindEach {follow : Value → Value → Store → Store}
    (h : List.Forall₂ (fun p w => s.Meets p w ∧
      ∀ t, s.Fills t → walk follow p w t = t.bindEach (s.beside p w)) ps ws) (ht : s.Fills t) :
    walkAll follow ps ws t = t.bindEach (s.besideAll ps ws) := by
  induction h generalizing t with
  | nil => rfl
  | @cons p w ps ws hp _ ih =>
    rw [walkAll, hp.2 t ht, ih (ht.beside hp.1), ← bindEach_append]
    rfl

/-- **A walk along a pattern** binds what stands beside, given that it does so where it goes on
    through a bound cell. -/
theorem Meets.walk_eq_bindEach (h : s.Meets p w) {follow : Value → Value → Store → Store}
    (hf : ∀ c b w t, .cell c ∈ p.leaves → s.Meets (.cell c) w → s.Fills t →
      t.binding? c = some b → follow b w t = t.bindEach (s.beside (.cell c) w))
    (ht : s.Fills t) : walk follow p w t = t.bindEach (s.beside p w) := by
  -- on the pattern: what it reads as is fixed by the first store, whichever store that fills
  -- this one the walk has come to
  induction p using Value.recParts generalizing w t with
  | leaf p hp =>
    cases p with
    | call | action => exact absurd hp Bool.false_ne_true
    | epsilon | state | symbol | literal =>
      rw [walk, beside, resolve_of_isLeaf s rfl fun _ => Value.noConfusion]
      rfl
    | cell c =>
      rw [walk]
      cases hb : t.binding? c with
      | some b => exact hf c b w t (by simp) h ht hb
      | none =>
        have hw := h.cellFree
        have hs : s.binding? c = none := ht.unbound hb
        have hne (d : Cell) : s.resolve w ≠ .cell d :=
          fun hd => Value.not_cellFree_cell d (hd ▸ hw)
        have hcell : (s.resolve w).isCell = false := by
          cases hr : s.resolve w with
          | cell d => exact absurd hr (hne d)
          | _ => rfl
        have hbind : t.bind? c (s.resolve w) = some (t.write c (s.resolve w)) := by
          refine bind?_eq_some_iff.2 ⟨hb, fun d hd => ?_, by rw [hw.resolve t]⟩
          exact absurd (hw.resolve t ▸ hd) (hne d)
        rw [beside, resolve_cell_of_none hs, ht.resolve hw]
        simp only [hcell, Bool.false_eq_true, if_false, hbind, Option.getD_some]
        rw [Value.beside, bindEach, if_pos hb]
        rfl
  | call p ih =>
    obtain ⟨x, hw, hx, hbeside⟩ := h.call
    rw [walk, ht.resolve h.cellFree, hw, hbeside]
    exact ih hx (fun c b w t hc => hf c b w t (by rwa [Value.leaves_call])) ht
  | action p ps ih ihs =>
    obtain ⟨x, xs, hw, hx, hxs, hbeside⟩ := h.action
    rw [walk, ht.resolve h.cellFree, hw, hbeside, bindEach_append]
    have hname (c : Cell) (hc : .cell c ∈ p.leaves) : .cell c ∈ (Value.action p ps).leaves := by
      rw [Value.leaves_action]
      exact List.mem_append_left _ hc
    have hargument (q : Value) (hq : q ∈ ps) (c : Cell) (hc : .cell c ∈ q.leaves) :
        .cell c ∈ (Value.action p ps).leaves := by
      rw [Value.leaves_action]
      exact List.mem_append_right _ (List.mem_flatMap.2 ⟨q, hq, hc⟩)
    dsimp only
    rw [ih hx (fun c b w t hc => hf c b w t (hname c hc)) ht]
    refine walkAll_eq_bindEach (forall₂_imp_of_mem (fun q hq y _ hy => ⟨hy, fun t => ?_⟩) hxs)
      (ht.beside hx)
    exact ihs q hq hy fun c b w t hc => hf c b w t (hargument q hq c hc)

theorem bindFromWithin_of_cellFree (hp : p.CellFree) (depth : Nat) (w : Value) (s : Store) :
    bindFromWithin depth p w s = s := by
  cases depth with
  | zero => rfl
  | succ depth => exact walk_of_cellFree hp w s

/-- Nothing more comes of a cell that has been bound on the way. -/
theorem Fills.bindFromWithin_of_unbound (ht : s.Fills t) (hs : s.binding? c = none)
    (hb : t.binding? c = some b) (depth : Nat) (w : Value) :
    bindFromWithin depth b w t = t.bindEach (s.beside (.cell c) w) := by
  rw [bindFromWithin_of_cellFree (ht.cellFree hs hb), Store.beside, resolve_cell_of_none hs,
    Value.beside, Store.bindEach, hb, if_neg (Option.some_ne_none b)]
  rfl

/-- **Matching values** binds what stands beside, if the reading of the pattern ends and the
    depth is enough for it. -/
theorem Meets.bindFromWithin_eq_bindEach (h : s.Meets p w) (hp : s.Ends p) {depth : Nat}
    (hd : ∀ c, .cell c ∈ p.leaves → (s.below c).card ≤ depth) (ht : s.Fills t) :
    bindFromWithin (depth + 1) p w t = t.bindEach (s.beside p w) := by
  induction depth generalizing p w t with
  | zero =>
    -- a bound cell was bound on the way, since it leads to none that was bound before
    refine h.walk_eq_bindEach (fun c b w t hc _ ht hb => ?_) ht
    have hs : s.binding? c = none := unbound_of_card_below (Nat.le_zero.1 (hd c hc))
    exact ht.bindFromWithin_of_unbound hs hb 0 w
  | succ depth ih =>
    refine h.walk_eq_bindEach (fun c b w t hc hm ht hb => ?_) ht
    cases hs : s.binding? c with
    | none => exact ht.bindFromWithin_of_unbound hs hb _ w
    | some b' =>
      obtain rfl : b' = b := Option.some.inj ((ht.keeps c b' hs).symm.trans hb)
      have hcell := hp.cell hc
      have hread := hcell.resolve_cell hs
      rw [beside, hread]
      rw [Meets, hread] at hm
      refine ih hm (hcell.binding hs) (fun d hdb => ?_) ht
      exact Nat.le_of_lt_succ ((s.rankOn_ends.lt hcell hs hdb).2.trans_le (hd c hc))

theorem Meets.bindFrom_eq_bindEach (h : s.Meets p w) (hp : s.Ends p) (ht : s.Fills t) :
    t.bindFrom p w = t.bindEach (s.beside p w) := by
  rw [bindFrom, ht.size]
  exact h.bindFromWithin_eq_bindEach hp (fun c _ => card_below_le s c) ht

theorem bindFromAll_eq_bindEach (h : List.Forall₂ s.Meets ps ws) (hp : ∀ p ∈ ps, s.Ends p)
    (ht : s.Fills t) : t.bindFromAll ps ws = t.bindEach (s.besideAll ps ws) := by
  induction h generalizing t with
  | nil => rfl
  | @cons p w ps ws hm _ ih =>
    obtain ⟨hp, hps⟩ := List.forall_mem_cons.1 hp
    rw [bindFromAll, hm.bindFrom_eq_bindEach hp ht, ih hps (ht.beside hm), ← bindEach_append]
    rfl

theorem bindFromAll_append {qs vs : List Value} (h : ps.length = ws.length) (s : Store) :
    s.bindFromAll (ps ++ qs) (ws ++ vs) = (s.bindFromAll ps ws).bindFromAll qs vs := by
  induction ps generalizing ws s with
  | nil =>
    obtain rfl := List.length_eq_zero_iff.1 h.symm
    rfl
  | cons p ps ih =>
    cases ws with
    | nil => cases h
    | cons w ws => exact ih (Nat.succ.inj h) (s.bindFrom p w)

end Store

/-! ## Entries -/

namespace Entry

variable {α β : Type} {s : Store} {p e : Entry Value}

/-- The values of an entry in the order in which they are read: of the call before, the source,
    the label, the target, and of the call after. -/
def inOrder (e : Entry α) : List α :=
  e.prior.toList.flatMap (·.components) ++
    (e.source :: e.label :: e.target :: e.posterior.toList.flatMap (·.components))

theorem inOrder_map (f : α → β) (e : Entry α) : (e.map f).inOrder = e.inOrder.map f := by
  rcases e with ⟨_ | _, _, _, _, _ | _⟩ <;> simp [inOrder, map, Reference.components, Reference.map]

theorem mem_inOrder {e : Entry α} {v : α} : v ∈ e.inOrder ↔ v ∈ e.components := by
  simp only [inOrder, components, calls, List.mem_append, List.mem_cons, List.flatMap_append]
  tauto

/-- The cells of a pattern, each with the part of the entry that it stands beside. -/
def beside (p e : Entry Value) : List (Cell × Value) := Value.besideAll p.inOrder e.inOrder

theorem bindCall_eq_bindFromAll (s : Store) (p r : Option (Reference Value)) :
    bindCall s p r =
      s.bindFromAll (p.toList.flatMap (·.components)) (r.toList.flatMap (·.components)) := by
  cases p with
  | none => cases r <;> simp [bindCall, Store.bindFromAll]
  | some p =>
    cases r with
    | none => simp [bindCall, Reference.components, Store.bindFromAll]
    | some r =>
      simp [bindCall, Reference.bindFrom, Reference.components, Store.bindFromAll]

/-- If a call fits a pattern, its name and its arguments do. -/
theorem forall₂_of_fitsCall {p r : Option (Reference Value)} (h : fitsCall s p r = true) :
    List.Forall₂ (fun v w => s.fits v w = true) (p.toList.flatMap (·.components))
      (r.toList.flatMap (·.components)) := by
  cases p with
  | none =>
    cases r with
    | none => simp
    | some r => cases h
  | some p =>
    cases r with
    | none => cases h
    | some r =>
      rw [fitsCall, Reference.fits, Store.fits, Reference.toValue, Reference.toValue,
        Store.resolve_action, Store.resolve_action, Value.fits, Bool.and_eq_true,
        Value.fitsAll_iff_forall₂, List.forall₂_map_left_iff, List.forall₂_map_right_iff] at h
      simp only [Option.toList_some, List.flatMap_singleton]
      exact .cons h.1 h.2

theorem forall₂_of_fits (h : p.fits s e = true) :
    List.Forall₂ (fun v w => s.fits v w = true) p.inOrder e.inOrder := by
  simp only [fits, Bool.and_eq_true] at h
  obtain ⟨⟨⟨⟨hprior, hsource⟩, hlabel⟩, htarget⟩, hposterior⟩ := h
  exact List.rel_append (forall₂_of_fitsCall hprior)
    (.cons hsource (.cons hlabel (.cons htarget (forall₂_of_fitsCall hposterior))))

/-- As many values stand in the call before, on both sides. -/
theorem length_prior_of_fits (h : p.fits s e = true) :
    (p.prior.toList.flatMap (·.components)).length =
      (e.prior.toList.flatMap (·.components)).length := by
  simp only [fits, Bool.and_eq_true] at h
  exact (forall₂_of_fitsCall h.1.1.1.1).length_eq

/-- Matching entries is matching their values in order. -/
theorem bindFrom_eq_bindFromAll (h : p.fits s e = true) :
    bindFrom s p e = s.bindFromAll p.inOrder e.inOrder := by
  rw [bindFrom, inOrder, inOrder, Store.bindFromAll_append (length_prior_of_fits h),
    ← bindCall_eq_bindFromAll, bindCall_eq_bindFromAll _ p.posterior]
  rfl

theorem forall₂_meets (h : p.fits s e = true) (he : (e.resolve s).Forall Value.CellFree) :
    List.Forall₂ s.Meets p.inOrder e.inOrder := by
  refine forall₂_imp_of_mem (fun _ _ w hw hfits => ⟨hfits, ?_⟩) (forall₂_of_fits h)
  exact forall_resolve.1 he w (mem_inOrder.1 hw)

/-- **Matching entries** binds what stands beside, if the reading of the pattern ends and the
    entry reads without cells. -/
theorem bindFrom_eq_bindEach (h : p.fits s e = true) (hp : p.Forall s.Ends)
    (he : (e.resolve s).Forall Value.CellFree) :
    bindFrom s p e = s.bindEach ((p.resolve s).beside (e.resolve s)) := by
  rw [bindFrom_eq_bindFromAll h, beside, resolve, resolve, inOrder_map, inOrder_map]
  exact Store.bindFromAll_eq_bindEach (forall₂_meets h he) (fun v hv => hp v (mem_inOrder.1 hv))
    (.refl s)

/-- The cells beside an entry are those of the pattern as it reads, as often and in the order
    in which they stand there. -/
theorem cells_beside (h : p.fits s e = true) (he : (e.resolve s).Forall Value.CellFree) :
    ((p.resolve s).beside (e.resolve s)).map (fun x => .cell x.1) =
      ((p.resolve s).inOrder.flatMap Value.leaves).filter Value.isCell := by
  refine Value.cells_besideAll ?_
  rw [resolve, resolve, inOrder_map, inOrder_map, List.forall₂_map_left_iff,
    List.forall₂_map_right_iff]
  exact (forall₂_meets h he).imp fun _ _ => Value.Meets.cells

theorem exists_mem_beside_iff (h : p.fits s e = true) (he : (e.resolve s).Forall Value.CellFree)
    {c : Cell} : (∃ w, (c, w) ∈ (p.resolve s).beside (e.resolve s)) ↔
      ∃ v ∈ p.components, .cell c ∈ (s.resolve v).leaves := by
  have hcells : (∃ w, (c, w) ∈ (p.resolve s).beside (e.resolve s)) ↔
      Value.cell c ∈ ((p.resolve s).inOrder.flatMap Value.leaves).filter Value.isCell := by
    rw [← cells_beside h he, List.mem_map]
    simp
  rw [hcells, List.mem_filter, List.mem_flatMap, resolve, inOrder_map]
  simp [Value.isCell, mem_inOrder]

theorem cellFree_of_mem_beside {x : Cell × Value} (he : e.Forall Value.CellFree)
    (hx : x ∈ p.beside e) : x.2.CellFree := by
  obtain ⟨_, -, w, hw, hx⟩ := Value.mem_besideAll hx
  exact Value.cellFree_of_mem_beside (he w (mem_inOrder.1 hw)) hx

end Entry

/-! ## Queries -/

/-- A store comes of another one by binding each cell of a list that is unbound to the first
    value beside it. -/
structure Store.BindsFirst (pairs : List (Cell × Value)) (s t : Store) : Prop where
  size : t.size = s.size
  kept : ∀ {c w}, s.binding? c = some w → t.binding? c = some w
  others : ∀ {c}, (∀ x ∈ pairs, x.1.place ≠ c.place) → t.binding? c = s.binding? c
  first : ∀ {earlier c w later}, pairs = earlier ++ (c, w) :: later →
    (∀ x ∈ earlier, x.1.place ≠ c.place) → s.binding? c = none → t.binding? c = some w

theorem Store.bindsFirst_bindEach {s : Store} {pairs : List (Cell × Value)}
    (h : ∀ x ∈ pairs, x.1.place < s.size) : BindsFirst pairs s (s.bindEach pairs) := by
  refine ⟨size_bindEach s pairs, fun hb => ?_, fun hc => ?_,
    @fun earlier c w later hpairs hearlier hn => ?_⟩
  · rw [binding?_bindEach h, hb, Option.some_or]
  · rw [binding?_bindEach h, List.find?_eq_none.2 fun x hx => by simpa using hc x hx]
    exact Option.or_none
  · have hfind : pairs.find? (·.1.place = c.place) = some (c, w) :=
      List.find?_eq_some_iff_append.2 ⟨decide_eq_true rfl, earlier, later, hpairs,
        fun x hx => by simpa using hearlier x hx⟩
    rw [binding?_bindEach h, hn, Option.none_or, hfind, Option.map_some]

namespace Entry

variable {s : Store} {p e : Entry Value}

/-- Matching entries adds bindings to values without cells. -/
theorem fills_bindFrom (h : p.fits s e = true) (hp : p.Forall s.Ends)
    (he : (e.resolve s).Forall Value.CellFree) : s.Fills (bindFrom s p e) := by
  rw [bindFrom_eq_bindEach h hp he]
  exact (Store.Fills.refl s).bindEach fun _ => cellFree_of_mem_beside he

/-- What is bound are unbound cells of the store, if those of the pattern are in it. -/
theorem unbound_of_mem_beside (h : p.fits s e = true) (hp : p.Forall s.Ends)
    (he : (e.resolve s).Forall Value.CellFree)
    (hcells : (p.resolve s).Forall fun v => ∀ c, .cell c ∈ v.leaves → c.place < s.size)
    {x : Cell × Value} (hx : x ∈ (p.resolve s).beside (e.resolve s)) :
    x.1.place < s.size ∧ s.binding? x.1 = none := by
  obtain ⟨v, hv, hc⟩ := (exists_mem_beside_iff h he).1 ⟨x.2, hx⟩
  exact ⟨forall_resolve.1 hcells v hv x.1 hc, (hp v hv).unbound_of_mem_resolve hc⟩

/-- After matching entries the pattern reads without cells. -/
theorem cellFree_resolve_bindFrom (h : p.fits s e = true) (hp : p.Forall s.Ends)
    (he : (e.resolve s).Forall Value.CellFree)
    (hcells : (p.resolve s).Forall fun v => ∀ c, .cell c ∈ v.leaves → c.place < s.size) :
    (p.resolve (bindFrom s p e)).Forall Value.CellFree := by
  refine forall_resolve.2 fun v hv => (fills_bindFrom h hp he).cellFree_resolve (hp v hv) ?_
  intro c hc
  obtain ⟨w, hw⟩ := (exists_mem_beside_iff h he).2 ⟨v, hv, hc⟩
  rw [bindFrom_eq_bindEach h hp he]
  exact Store.binding?_bindEach_ne_none
    (fun x hx => (unbound_of_mem_beside h hp he hcells hx).1) hw

end Entry

namespace Table

variable {t : Table Value} {s : Store} {p e : Entry Value}

theorem query_of_find? (h : t.entries.find? (p.fits s) = some e) :
    t.query s p = (true, p.bindFrom s e) := by
  rw [query, h]

theorem query_of_find?_none (h : t.entries.find? (p.fits s) = none) : t.query s p = (false, s) := by
  rw [query, h]

/-- A query says whether an entry fits. -/
theorem query_fst_iff : (t.query s p).1 = true ↔ ∃ e ∈ t.entries, p.fits s e = true := by
  rw [← List.find?_isSome]
  cases h : t.entries.find? (p.fits s) with
  | none => simp [query_of_find?_none h]
  | some e => simp [query_of_find? h]

end Table

/-- **A query** says whether an entry fits, and leaves the entries as they are.  If none fits,
    it binds nothing.  If one fits, then with the first one each cell of the pattern as it
    reads is bound, to what the entry as it reads has beside the first occurrence of the cell,
    and no others are bound.  After that the pattern reads without cells, and the entries
    read as before.

    The entries have to read without cells, and the reading of the pattern has to end. -/
theorem query_binds {t : Table Value} {s : Store} {p : Entry Value}
    (ht : ∀ e ∈ t.entries, (e.resolve s).Forall Value.CellFree) (hp : p.Forall s.Ends)
    (hcells : (p.resolve s).Forall fun v => ∀ c, .cell c ∈ v.leaves → c.place < s.size) :
    ((t.query s p).1 = true ↔ ∃ e ∈ t.entries, p.fits s e = true) ∧
    (Scene.dispatch .query p ⟨t, s⟩).2 = ⟨t, (t.query s p).2⟩ ∧
    ((t.query s p).1 = false → (t.query s p).2 = s) ∧
    ∀ earlier e later, t.entries = earlier ++ e :: later →
      (∀ x ∈ earlier, p.fits s x = false) → p.fits s e = true →
      Store.BindsFirst ((p.resolve s).beside (e.resolve s)) s (t.query s p).2 ∧
      ((p.resolve s).beside (e.resolve s)).map (fun x => .cell x.1) =
        ((p.resolve s).inOrder.flatMap Value.leaves).filter Value.isCell ∧
      (∀ x ∈ (p.resolve s).beside (e.resolve s), s.binding? x.1 = none) ∧
      (p.resolve (t.query s p).2).Forall Value.CellFree ∧
      ∀ x ∈ t.entries, x.resolve (t.query s p).2 = x.resolve s := by
  refine ⟨Table.query_fst_iff, rfl, fun hnone => ?_, fun earlier e later hentries hearlier hfits => ?_⟩
  · cases hf : t.entries.find? (p.fits s) with
    | none => rw [Table.query_of_find?_none hf]
    | some e =>
      rw [Table.query_of_find? hf] at hnone
      cases hnone
  · have hfind : t.entries.find? (p.fits s) = some e :=
      List.find?_eq_some_iff_append.2 ⟨hfits, earlier, later, hentries,
        fun x hx => by simpa using hearlier x hx⟩
    have he : (e.resolve s).Forall Value.CellFree := ht e (by simp [hentries])
    have hbeside (x : Cell × Value) (hx : x ∈ (p.resolve s).beside (e.resolve s)) :
        x.1.place < s.size ∧ s.binding? x.1 = none :=
      Entry.unbound_of_mem_beside hfits hp he hcells hx
    rw [Table.query_of_find? hfind]
    refine ⟨?_, Entry.cells_beside hfits he, fun x hx => (hbeside x hx).2,
      Entry.cellFree_resolve_bindFrom hfits hp he hcells, fun x hx => ?_⟩
    · rw [Entry.bindFrom_eq_bindEach hfits hp he]
      exact Store.bindsFirst_bindEach fun x hx => (hbeside x hx).1
    · have hread := Entry.forall_resolve.1 (ht x hx)
      exact Entry.map_eq_map_iff.2 fun v hv =>
        (Entry.fills_bindFrom hfits hp he).resolve (hread v hv)

/-! ## A query of repeated and chained cells -/

namespace Store

/-- The first cells of a store. -/
def nth (n : Nat) : Value := .cell ⟨n, .numbered n⟩

/-- Five cells: one is bound to another, and one to a state. -/
def chained : Store := ⟨#[none, some (nth 0), none, none, some (.state "3")], .numbered, 5⟩

theorem acyclic_chained : chained.Acyclic := by
  have hrank : chained.Rank fun c => c.place := by
    refine ⟨fun h => h, @fun c d w hb hd => ?_⟩
    obtain ⟨_ | _ | _ | _ | _ | n, id⟩ := c
    · exact absurd (show none = some w from hb) (by simp)
    · obtain rfl : nth 0 = w := Option.some.inj hb
      rw [nth, Value.leaves_cell, List.mem_singleton, Value.cell.injEq] at hd
      exact hd ▸ Nat.one_pos
    · exact absurd (show none = some w from hb) (by simp)
    · exact absurd (show none = some w from hb) (by simp)
    · obtain rfl : Value.state "3" = w := Option.some.inj hb
      exact absurd hd (Value.cellFree_state "3" d)
    · exact absurd (show none = some w from hb) (by simp)
  exact hrank.acyclic

end Store

/-- It calls what a cell is bound to with what another one is bound to, and goes to the cell
    that this leads to. -/
def Entry.chainedPattern : Entry Value :=
  ⟨some ⟨Store.nth 2, [Store.nth 1, .literal "k"]⟩, Store.nth 0, .call (Store.nth 2), Store.nth 0,
    none⟩

/-- An entry that fits the pattern. -/
def Entry.chained : Entry Value :=
  ⟨some ⟨.literal "f", [.state "1", .literal "k"]⟩, .state "2", .call (.literal "n"),
    Store.nth 4, none⟩

/-- An entry without a call, and one that fits. -/
def Table.chained : Table Value :=
  ⟨[.plain (.state "1") (.call (.literal "n")) (.state "2"), .chained]⟩

/-- The name of the call comes before the submachine and the argument before the source and the
    target, so these are what the cells are bound to.  The cell of the argument stays bound to
    the other one, and a cell that does not stand in the pattern stays unbound. -/
theorem query_binds_chained : ∃ t, Table.chained.query .chained .chainedPattern = (true, t) ∧
    t.binding? ⟨0, .numbered 0⟩ = some (.state "1") ∧
    t.binding? ⟨1, .numbered 1⟩ = some (Store.nth 0) ∧
    t.binding? ⟨2, .numbered 2⟩ = some (.literal "f") ∧ t.binding? ⟨3, .numbered 3⟩ = none ∧
    (Entry.chainedPattern.resolve t).Forall Value.CellFree := by
  have hfits : Entry.chainedPattern.fits .chained .chained = true := rfl
  have hother : Entry.chainedPattern.fits .chained
      (.plain (.state "1") (.call (.literal "n")) (.state "2")) = false := rfl
  have hentries : ∀ e ∈ Table.chained.entries, (e.resolve .chained).Forall Value.CellFree := by
    intro e he v hv
    simp only [Table.chained, List.mem_cons, List.not_mem_nil, or_false] at he
    rcases he with rfl | rfl
    · have hmem : v ∈ [.state "1", .call (.literal "n"), .state "2"] := hv
      simp only [List.mem_cons, List.not_mem_nil, or_false] at hmem
      rcases hmem with rfl | rfl | rfl <;> simp
    · have hmem : v ∈ [.state "2", .call (.literal "n"), .state "3", .literal "f", .state "1",
        .literal "k"] := hv
      simp only [List.mem_cons, List.not_mem_nil, or_false] at hmem
      rcases hmem with rfl | rfl | rfl | rfl | rfl | rfl <;> simp
  have hcells : (Entry.chainedPattern.resolve .chained).Forall fun v =>
      ∀ c, .cell c ∈ v.leaves → c.place < Store.chained.size := by
    intro v hv c hc
    have hmem : v ∈ [Store.nth 0, .call (Store.nth 2), Store.nth 0, Store.nth 2, Store.nth 0,
      .literal "k"] := hv
    have hsize : Store.chained.size = 5 := rfl
    simp only [List.mem_cons, List.not_mem_nil, or_false] at hmem
    rcases hmem with rfl | rfl | rfl | rfl | rfl | rfl <;>
      simp [Store.nth, Value.leaves] at hc <;> simp [hc, hsize]
  obtain ⟨hanswer, -, -, hfirst⟩ := query_binds hentries
    (fun v _ u _ c _ => Store.acyclic_chained c) hcells
  obtain ⟨hbinds, -, -, hfree, -⟩ := hfirst [_] .chained [] rfl
    (fun x hx => List.mem_singleton.1 hx ▸ hother) hfits
  have hbeside : (Entry.chainedPattern.resolve .chained).beside (Entry.chained.resolve .chained) =
      [(⟨2, .numbered 2⟩, .literal "f"), (⟨0, .numbered 0⟩, .state "1"),
        (⟨0, .numbered 0⟩, .state "2"), (⟨2, .numbered 2⟩, .literal "n"),
        (⟨0, .numbered 0⟩, .state "3")] := rfl
  rw [hbeside] at hbinds
  refine ⟨_, Prod.ext (hanswer.2 ⟨.chained, .tail _ (.head _), hfits⟩) rfl, ?_, hbinds.kept rfl, ?_,
    (hbinds.others (by simp)).trans rfl, hfree⟩
  · exact @hbinds.first [(⟨2, .numbered 2⟩, .literal "f")] _ _ _ rfl (by simp) rfl
  · exact @hbinds.first [] _ _ _ rfl (by simp) rfl

end AdaptiveAutomata
