/-
  What a query reports.

  An entry fits a pattern part by part, before anything is bound: where a cell stands twice in
  the pattern, it may have two different values beside it, and it is then bound to the first of
  them.  So what a query reports need not be the entry that it found, and need not be in the
  table.

  * `Store.Consistent` says that no cell has two different values beside it;
  * `Value.Meets.subst_eq_iff` and `Entry.map_subst_eq_iff`: a pattern becomes what it meets
    exactly if every cell is replaced by what it stands beside;
  * `Entry.resolve_bindFrom_eq_iff`: when a pattern reads as the entry that it was matched with;
  * `Entry.fits_iff_eq_resolve`: a pattern that reads without cells fits the entry that it
    reads as, and `Table.remove_of_mem`: a removal deletes this one;
  * `query_reports_other`: a query that reports an entry that is not in the table;
  * `query_reports`: what a query reports otherwise, and what a removal that follows deletes.
-/
import AdaptiveAutomata.Proofs.Narrowing
import AdaptiveAutomata.Proofs.Tables

namespace AdaptiveAutomata

namespace Value

variable {f : Cell → Value} {p w : Value} {ps ws : List Value}

/-! ## Replacing cells by what they stand beside -/

theorem map_subst_eq_iff
    (h : List.Forall₂ (fun p w => p.subst f = w ↔ ∀ x ∈ p.beside w, f x.1 = x.2) ps ws) :
    ps.map (·.subst f) = ws ↔ ∀ x ∈ besideAll ps ws, f x.1 = x.2 := by
  induction h with
  | nil => simp [besideAll]
  | cons hp _ ih => rw [List.map_cons, List.cons.injEq, besideAll, List.forall_mem_append, hp, ih]

/-- **A pattern becomes the value that it meets** exactly if every cell is replaced by what it
    stands beside. -/
theorem Meets.subst_eq_iff (h : p.Meets w) :
    p.subst f = w ↔ ∀ x ∈ p.beside w, f x.1 = x.2 := by
  induction p using recParts generalizing w with
  | leaf p hp =>
    cases p with
    | call | action => exact absurd hp Bool.false_ne_true
    | cell c => simp [subst, beside]
    | epsilon | state | symbol | literal =>
      obtain ⟨hfits, hw⟩ := h
      cases w <;> simp_all [subst, beside, Value.fits, not_cellFree_cell]
  | call p ih =>
    obtain ⟨x, rfl, hx⟩ := h.call
    rw [subst, call.injEq, beside]
    exact ih hx
  | action p ps ih ihs =>
    obtain ⟨x, xs, rfl, hx, hxs⟩ := h.action
    rw [subst, substAll_eq_map, action.injEq, beside, List.forall_mem_append, ih hx,
      map_subst_eq_iff (forall₂_imp_of_mem (fun q hq _ _ => ihs q hq) hxs)]

end Value

namespace Store

variable {s : Store} {c : Cell} {w : Value} {pairs : List (Cell × Value)}

/-! ## Binding to the first value -/

/-- No cell has two different values beside it. -/
def Consistent (pairs : List (Cell × Value)) : Prop :=
  ∀ x ∈ pairs, ∀ y ∈ pairs, x.1.place = y.1.place → x.2 = y.2

/-- Where no cell stands twice, nothing has to agree. -/
theorem consistent_of_nodup (h : (pairs.map (·.1.place)).Nodup) : Consistent pairs := by
  intro x hx y hy hplace
  rw [List.inj_on_of_nodup_map h hx hy hplace]

theorem resolve_cell_of_cellFree (h : s.binding? c = some w) (hw : w.CellFree) :
    s.resolve (.cell c) = w := by
  obtain ⟨depth, hread⟩ := exists_resolve_cell h
  rw [hread, resolveWithin_eq_subst, hw.subst]

/-- All unbound cells at one place are bound to the first value beside one of them. -/
theorem exists_resolve_bindEach
    (h : ∀ x ∈ pairs, x.1.place < s.size ∧ s.binding? x.1 = none ∧ x.2.CellFree)
    {x : Cell × Value} (hx : x ∈ pairs) :
    ∃ y ∈ pairs, y.1.place = x.1.place ∧
      ∀ c, c.place = x.1.place → (s.bindEach pairs).resolve (.cell c) = y.2 := by
  have hfind : (pairs.find? (·.1.place = x.1.place)).isSome :=
    List.find?_isSome.2 ⟨x, hx, decide_eq_true rfl⟩
  obtain ⟨y, hy⟩ := Option.isSome_iff_exists.1 hfind
  have hmem : y ∈ pairs := List.mem_of_find?_eq_some hy
  have hplace : y.1.place = x.1.place := by simpa using List.find?_some hy
  refine ⟨y, hmem, hplace, fun c hc => ?_⟩
  refine resolve_cell_of_cellFree ?_ (h y hmem).2.2
  rw [binding?_bindEach (fun z hz => (h z hz).1), binding?_congr hc, (h x hx).2.1, hc, hy]
  rfl

/-- **The cells read as what they stand beside**, wherever they stand, if no cell has two
    different values beside it. -/
theorem resolve_bindEach_iff
    (h : ∀ x ∈ pairs, x.1.place < s.size ∧ s.binding? x.1 = none ∧ x.2.CellFree) :
    (∀ x ∈ pairs, (s.bindEach pairs).resolve (.cell x.1) = x.2) ↔ Consistent pairs := by
  constructor
  · intro hread x hx y hy hplace
    obtain ⟨z, -, -, hz⟩ := exists_resolve_bindEach h hx
    calc x.2 = (s.bindEach pairs).resolve (.cell x.1) := (hread x hx).symm
      _ = z.2 := hz x.1 rfl
      _ = (s.bindEach pairs).resolve (.cell y.1) := (hz y.1 hplace.symm).symm
      _ = y.2 := hread y hy
  · intro hsame x hx
    obtain ⟨y, hy, hplace, hread⟩ := exists_resolve_bindEach h hx
    exact (hread x.1 rfl).trans (hsame y hy x hx hplace)

end Store

/-! ## Entries -/

namespace Entry

variable {α : Type} {s : Store} {p e : Entry Value}

theorem eq_of_components_eq {q r : Option (Reference α)}
    (h : q.toList.flatMap (·.components) = r.toList.flatMap (·.components)) : q = r := by
  cases q with
  | none =>
    cases r with
    | none => rfl
    | some r => cases h
  | some q =>
    cases r with
    | none => cases h
    | some r =>
      rw [Option.toList_some, Option.toList_some, List.flatMap_singleton, List.flatMap_singleton,
        Reference.components, Reference.components, List.cons.injEq] at h
      rw [Option.some.injEq, Reference.mk.injEq]
      exact h

/-- An entry is known by its values in order, and by how many of them stand in the call
    before. -/
theorem eq_of_inOrder_eq {a b : Entry α}
    (hlength : (a.prior.toList.flatMap (·.components)).length =
      (b.prior.toList.flatMap (·.components)).length)
    (h : a.inOrder = b.inOrder) : a = b := by
  obtain ⟨hprior, hrest⟩ := List.append_inj h hlength
  simp only [List.cons.injEq] at hrest
  obtain ⟨hsource, hlabel, htarget, hposterior⟩ := hrest
  cases a
  cases b
  rw [Entry.mk.injEq]
  exact ⟨eq_of_components_eq hprior, hsource, hlabel, htarget, eq_of_components_eq hposterior⟩

theorem cellFree_resolve (he : e.Forall Value.CellFree) (s : Store) :
    (e.resolve s).Forall Value.CellFree := by
  rwa [resolve_of_cellFree he]

/-- **A pattern becomes the entry that fits it** exactly if every cell is replaced by what it
    stands beside. -/
theorem map_subst_eq_iff (h : p.fits s e = true) (he : e.Forall Value.CellFree)
    (f : Cell → Value) :
    (p.resolve s).map (·.subst f) = e ↔ ∀ x ∈ (p.resolve s).beside e, f x.1 = x.2 := by
  have hmeets := forall₂_meets h (cellFree_resolve he s)
  have hmeets : List.Forall₂ Value.Meets (p.resolve s).inOrder (e.resolve s).inOrder := by
    rwa [resolve, resolve, inOrder_map, inOrder_map, List.forall₂_map_left_iff,
      List.forall₂_map_right_iff]
  rw [resolve_of_cellFree he] at hmeets
  rw [beside, ← Value.map_subst_eq_iff (hmeets.imp fun _ _ hm => hm.subst_eq_iff), ← inOrder_map]
  refine ⟨congrArg inOrder, eq_of_inOrder_eq ?_⟩
  rw [← length_prior_of_fits h, resolve, map_map, map]
  cases p.prior <;> simp [Reference.components, Reference.map]

/-- A pattern that was read with fewer bindings reads on. -/
theorem resolve_eq_map_subst {u : Store} (hu : u.Extends s) (hp : p.Forall u.Ends) :
    p.resolve u = (p.resolve s).map (·.subst fun c => u.resolve (.cell c)) := by
  rw [resolve, resolve, map_map, map_eq_map_iff]
  intro v hv
  rw [Function.comp_apply, ← Store.resolve_eq_subst, (hp v hv).resolve_resolve hu]

/-- **After a match** the pattern reads as the entry that it was matched with exactly if no
    cell of it had two different values beside it. -/
theorem resolve_bindFrom_eq_iff (h : p.fits s e = true) (hp : p.Forall s.Ends)
    (he : e.Forall Value.CellFree)
    (hcells : (p.resolve s).Forall fun v => ∀ c, .cell c ∈ v.leaves → c.place < s.size) :
    p.resolve (bindFrom s p e) = e ↔ Store.Consistent ((p.resolve s).beside e) := by
  have hread := cellFree_resolve he s
  have hfills := fills_bindFrom h hp hread
  rw [resolve_eq_map_subst hfills.keeps fun v hv => hfills.ends (hp v hv), map_subst_eq_iff h he,
    bindFrom_eq_bindEach h hp hread, resolve_of_cellFree he]
  refine Store.resolve_bindEach_iff fun x hx => ?_
  obtain ⟨hplace, hn⟩ :=
    unbound_of_mem_beside h hp hread hcells (by rwa [resolve_of_cellFree he])
  exact ⟨hplace, hn, cellFree_of_mem_beside he hx⟩

/-- **A pattern that reads without cells** fits the entry that it reads as, and no other one
    without cells. -/
theorem fits_iff_eq_resolve (hp : (p.resolve s).Forall Value.CellFree)
    (he : e.Forall Value.CellFree) : p.fits s e = true ↔ e = p.resolve s := by
  constructor
  · intro h
    have hsubst : (p.resolve s).map (·.subst .cell) = p.resolve s :=
      (map_eq_map_iff.2 fun v _ => Value.subst_cell v).trans (map_id _)
    rw [← hsubst, eq_comm, map_subst_eq_iff h he]
    intro x hx
    rw [← resolve_of_cellFree he s] at hx
    obtain ⟨v, hv, hc⟩ := (exists_mem_beside_iff h (cellFree_resolve he s)).1 ⟨x.2, hx⟩
    exact absurd hc (forall_resolve.1 hp v hv x.1)
  · rintro rfl
    exact fits_of_outline_eq rfl

end Entry

/-! ## Tables without cells -/

namespace Table

variable {t : Table Value} {s : Store} {p e : Entry Value} {before after : List (Entry Value)}

/-- If one entry fits, a removal deletes it. -/
theorem remove_of_unique (h : t.entries = before ++ e :: after) (he : p.fits s e = true)
    (hothers : ∀ x ∈ before ++ after, p.fits s x = false) :
    t.remove s p = (1, ⟨before ++ after⟩, p.bindFrom s e) := by
  obtain ⟨hbefore, hafter⟩ := List.forall_mem_append.1 hothers
  have hfitting : t.fitting s p = [e] := by
    rw [fitting, h, List.filter_append, List.filter_cons_of_pos he,
      List.filter_eq_nil_iff.2 fun x hx => by simp [hbefore x hx],
      List.filter_eq_nil_iff.2 fun x hx => by simp [hafter x hx], List.nil_append]
  have hrest : t.entries.filter (!p.fits s ·) = before ++ after := by
    rw [h, List.filter_append, List.filter_cons_of_neg (by simp [he]),
      List.filter_eq_self.2 fun x hx => by simp [hbefore x hx],
      List.filter_eq_self.2 fun x hx => by simp [hafter x hx]]
  rw [remove, hfitting, hrest]
  rfl

/-- An entry without cells is in the table exactly if it is stored. -/
theorem contains_iff_mem_entries (ht : t.Forall Value.CellFree) (he : e.Forall Value.CellFree) :
    t.contains s e = true ↔ e ∈ t.entries := by
  have hread : e.resolve s = e := Entry.resolve_of_cellFree he s
  rw [contains_iff]
  constructor
  · rintro ⟨x, hx, heq⟩
    have hfits := (Entry.fits_iff_eq_resolve (hread.symm ▸ he) (ht x hx)).1
      (Entry.fits_of_outline_eq heq)
    rwa [hfits, hread] at hx
  · exact fun h => ⟨e, h, by rw [hread]⟩

/-- **A removal of a pattern that reads without cells** deletes the entry that it reads as. -/
theorem remove_of_mem (ht : t.Forall Value.CellFree) (hd : t.Distinct)
    (hp : (p.resolve s).Forall Value.CellFree) (h : t.entries = before ++ p.resolve s :: after) :
    t.remove s p = (1, ⟨before ++ after⟩, p.bindFrom s (p.resolve s)) := by
  have hnodup : t.entries.Nodup := hd.of_map
  rw [h, List.nodup_middle, List.nodup_cons] at hnodup
  refine remove_of_unique h (Entry.fits_of_outline_eq rfl) fun x hx => ?_
  have hmem : x ∈ t.entries := by
    rw [h, List.mem_append, List.mem_cons]
    exact (List.mem_append.1 hx).imp_right .inr
  rw [← Bool.not_eq_true, Entry.fits_iff_eq_resolve hp (ht x hmem)]
  exact fun heq => hnodup.1 (heq ▸ hx)

/-- It deletes nothing if this entry is not stored. -/
theorem remove_of_not_mem (ht : t.Forall Value.CellFree)
    (hp : (p.resolve s).Forall Value.CellFree) (h : p.resolve s ∉ t.entries) :
    t.remove s p = (0, t, s) := by
  refine remove_of_not_fits fun x hx => ?_
  rw [← Bool.not_eq_true, Entry.fits_iff_eq_resolve hp (ht x hx)]
  exact fun heq => h (heq ▸ hx)

end Table

/-! ## What a query reports -/

/-- It leaves a state by `a` and comes back to it. -/
def Entry.loopPattern : Entry Value := .plain (Store.nth 0) (.symbol "a") (Store.nth 0)

/-- One entry, which goes from a state to another one. -/
def Table.crossing : Table Value := ⟨[.plain (.state "1") (.symbol "a") (.state "2")]⟩

/-- The entry fits the pattern, although it goes to another state.  The query reports an entry
    that comes back, which is not in the table, and a removal deletes nothing. -/
theorem query_reports_other :
    let loop : Entry Value := .plain (.state "1") (.symbol "a") (.state "1")
    ∃ s, Scene.dispatch .query .loopPattern ⟨.crossing, ⟨#[none], .numbered, 1⟩⟩ =
        (⟨.query, loop, true⟩, ⟨.crossing, s⟩) ∧
      Table.crossing.Forall Value.CellFree ∧ Table.crossing.contains s loop = false ∧
      Scene.dispatch .remove .loopPattern ⟨.crossing, s⟩ =
        (⟨.remove, loop, false⟩, ⟨.crossing, s⟩) :=
  ⟨_, rfl, by decide, rfl, rfl⟩

/-- **What a query reports** in a table without cells, of which no two entries are equal, if it
    found an entry: it reports the first one that fits exactly if no unbound cell of the pattern
    has two different values beside it there, so always if none stands in the pattern twice.  If
    what it reports is in the table, then a removal of the same pattern deletes this entry and no
    other one; if it is not, a removal deletes nothing.

    The reading of the pattern has to end. -/
theorem query_reports {t : Table Value} {s : Store} {p : Entry Value}
    (ht : t.Forall Value.CellFree) (hd : t.Distinct) (hp : p.Forall s.Ends)
    (hcells : (p.resolve s).Forall fun v => ∀ c, .cell c ∈ v.leaves → c.place < s.size)
    {r : Outcome} {σ : Scene} (hquery : Scene.dispatch .query p ⟨t, s⟩ = (r, σ))
    (hmatched : r.matched = true) :
    ∃ e, t.entries.find? (p.fits s) = some e ∧
      (r.entry = e ↔ Store.Consistent ((p.resolve s).beside e)) ∧
      ((((p.resolve s).beside e).map (·.1.place)).Nodup → r.entry = e) ∧
      (∀ before after, t.entries = before ++ r.entry :: after →
        σ.table.contains σ.store r.entry = true ∧ (σ.dispatch .remove p).1.matched = true ∧
        (σ.dispatch .remove p).2.table.entries = before ++ after) ∧
      (r.entry ∉ t.entries →
        σ.table.contains σ.store r.entry = false ∧ (σ.dispatch .remove p).1.matched = false ∧
        (σ.dispatch .remove p).2.table.entries = t.entries) := by
  cases hfind : t.entries.find? (p.fits s) with
  | none =>
    rw [Scene.dispatch, Table.query_of_find?_none hfind] at hquery
    obtain ⟨rfl, -⟩ := Prod.mk.inj hquery
    exact absurd hmatched Bool.false_ne_true
  | some e =>
    rw [Scene.dispatch, Table.query_of_find? hfind] at hquery
    obtain ⟨rfl, rfl⟩ := Prod.mk.inj hquery
    have he : e.Forall Value.CellFree := ht e (List.mem_of_find?_eq_some hfind)
    have hfits : p.fits s e = true := List.find?_some hfind
    -- after the query the pattern reads without cells, so to fit it is to be what it reads as
    have hfree : (p.resolve (p.bindFrom s e)).Forall Value.CellFree :=
      Entry.cellFree_resolve_bindFrom hfits hp (Entry.cellFree_resolve he s) hcells
    have hentry := Entry.resolve_bindFrom_eq_iff hfits hp he hcells
    have hcontains := Table.contains_iff_mem_entries (s := p.bindFrom s e) ht hfree
    refine ⟨e, rfl, hentry, fun h => hentry.2 (Store.consistent_of_nodup h),
      fun before after hentries => ?_, fun hnot => ?_⟩
    · have hremove := Table.remove_of_mem ht hd hfree hentries
      dsimp only [Scene.dispatch]
      rw [hremove]
      exact ⟨hcontains.2 (by simp [hentries]), rfl, rfl⟩
    · have hremove := Table.remove_of_not_mem ht hfree hnot
      dsimp only [Scene.dispatch]
      rw [hremove]
      exact ⟨Bool.eq_false_iff.2 fun hc => hnot (hcontains.1 hc), rfl, rfl⟩

/-- It calls `f` with the state that it leaves, which is given by a cell that is bound to
    another one. -/
def Entry.repeatingPattern : Entry Value :=
  ⟨some ⟨.literal "f", [Store.nth 1]⟩, Store.nth 0, .call (Store.nth 2), .state "2", none⟩

/-- An entry that fits the pattern, and in which the cell has the same state beside it twice. -/
def Entry.repeating : Entry Value :=
  ⟨some ⟨.literal "f", [.state "1"]⟩, .state "1", .call (.literal "m"), .state "2", none⟩

/-- Three entries: the first does not fit, and the last one fits with different states. -/
def Table.repeating : Table Value :=
  ⟨[.plain (.state "1") (.call (.literal "m")) (.state "2"), .repeating,
    { Entry.repeating with source := .state "3" }]⟩

/-- The second entry is reported, and a removal then deletes no other one. -/
theorem query_reports_repeating :
    let (r, σ) := Scene.dispatch .query .repeatingPattern ⟨.repeating, .chained⟩
    r.entry = .repeating ∧ σ.table.contains σ.store r.entry = true ∧
    (σ.dispatch .remove .repeatingPattern).2.table.entries =
      [.plain (.state "1") (.call (.literal "m")) (.state "2"),
        { Entry.repeating with source := .state "3" }] := by
  have hcells : (Entry.repeatingPattern.resolve .chained).Forall fun v =>
      ∀ c, .cell c ∈ v.leaves → c.place < Store.chained.size := by
    intro v hv c hc
    have hmem : v ∈ [Store.nth 0, .call (Store.nth 2), .state "2", .literal "f", Store.nth 0] := hv
    have hsize : Store.chained.size = 5 := rfl
    simp only [List.mem_cons, List.not_mem_nil, or_false] at hmem
    rcases hmem with rfl | rfl | rfl | rfl | rfl <;>
      simp [Store.nth, Value.leaves] at hc <;> simp [hc, hsize]
  have hsame : Store.Consistent
      ((Entry.repeatingPattern.resolve .chained).beside .repeating) := by
    have hbeside : (Entry.repeatingPattern.resolve .chained).beside .repeating =
        [(⟨0, .numbered 0⟩, .state "1"), (⟨0, .numbered 0⟩, .state "1"),
          (⟨2, .numbered 2⟩, .literal "m")] := rfl
    rw [hbeside, Store.Consistent]
    simp
  have hfree : Table.repeating.Forall Value.CellFree := by decide
  obtain ⟨e, hfind, hentry, -, hmem, -⟩ := query_reports hfree (by decide)
    (fun v _ u _ c _ => Store.acyclic_chained c) hcells rfl rfl
  obtain rfl : Entry.repeating = e := Option.some.inj hfind
  have hentry := hentry.2 hsame
  obtain ⟨hcontains, -, hremoved⟩ := hmem [_] [_] (by rw [hentry]; rfl)
  exact ⟨hentry, hcontains, hremoved⟩

end AdaptiveAutomata
