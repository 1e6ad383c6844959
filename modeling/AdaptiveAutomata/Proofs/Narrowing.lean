/-
  Bindings only narrow what fits.

  A cell that is unbound stands for anything.  Once it is bound it stands for one value, and
  this in every pattern and in every entry that holds the cell.  So whatever is bound in the
  course of a removal, nothing comes to fit that did not fit before, and what a removal left
  in the table it would leave there again.

  * `Value.fits_of_fits_subst`: what fits after cells were replaced fitted before, on either
    side;
  * `Ends.resolve_resolveWithin`: a value that was read in an earlier store reads on to what
    it reads as now, however far it was read then;
  * `Store.fits_of_extends` and `Entry.fits_of_extends`: what fits under more bindings fits
    under fewer;
  * `Entry.fits_of_outline_eq`: a stored entry that is equal to a pattern as it reads fits the
    pattern, whatever the cells of the two are bound to;
  * `remove_leaves_none`: what a removal deletes, and that nothing fits any more after it.
-/
import AdaptiveAutomata.Proofs.Queries

namespace AdaptiveAutomata

namespace Value

variable {f g : Cell → Value} {p w : Value} {ps ws : List Value}

/-! ## Values -/

@[simp]
theorem fits_cell (p : Value) (c : Cell) : p.fits (cell c) = true := by
  cases p <;> rfl

/-- **Replacing cells narrows what fits**: if what a pattern and a value become fit, so do the
    pattern and the value. -/
theorem fits_of_fits_subst (h : (p.subst f).fits (w.subst g) = true) : p.fits w = true := by
  induction p using recParts generalizing w with
  | leaf p hp =>
    cases p with
    | call | action => exact absurd hp Bool.false_ne_true
    | cell c => rfl
    | epsilon | state | symbol | literal =>
      cases w with
      | cell c => exact fits_cell _ c
      | _ => exact h
  | call p ih =>
    cases w with
    | cell c => exact fits_cell _ c
    | call w => exact ih h
    | _ => exact absurd h Bool.false_ne_true
  | action p ps ih ihs =>
    cases w with
    | cell c => exact fits_cell _ c
    | action w ws =>
      rw [subst, subst, substAll_eq_map, substAll_eq_map, fits, Bool.and_eq_true,
        fitsAll_iff_forall₂, List.forall₂_map_left_iff, List.forall₂_map_right_iff] at h
      rw [fits, Bool.and_eq_true, fitsAll_iff_forall₂]
      exact ⟨ih h.1, forall₂_imp_of_mem (fun q hq _ _ => ihs q hq) h.2⟩
    | _ => exact absurd h Bool.false_ne_true

/-- A value with the outline of a pattern fits the pattern, whatever its cells are replaced
    by. -/
theorem fits_subst_of_outline_eq (h : w.outline = p.outline) (g : Cell → Value) :
    p.fits (w.subst g) = true := by
  induction p using recParts generalizing w with
  | leaf p hp =>
    cases p with
    | call | action => exact absurd hp Bool.false_ne_true
    | cell c => rfl
    | epsilon | state | symbol | literal =>
      cases w <;> simp [outline, image] at h
      simp [subst, fits, h]
  | call p ih =>
    cases w with
    | call w =>
      rw [outline_call, outline_call, Image.call.injEq] at h
      exact ih h
    | _ => simp [outline, image] at h
  | action p ps ih ihs =>
    cases w with
    | action w ws =>
      rw [outline_action, outline_action, Image.action.injEq, ← List.forall₂_eq_eq_eq,
        List.forall₂_map_left_iff, List.forall₂_map_right_iff] at h
      rw [subst, substAll_eq_map, fits, Bool.and_eq_true, fitsAll_iff_forall₂,
        List.forall₂_map_right_iff]
      exact ⟨ih h.1, (forall₂_imp_of_mem (fun _ _ q hq hx => ihs q hq hx) h.2).flip⟩
    | _ => simp [outline, image] at h

end Value

/-! ## Reading on -/

namespace Store

variable {s t : Store} {p v w : Value}

/-- **Reading on**: what a value read as in a store with fewer bindings, to whatever depth,
    reads as the value does. -/
theorem Ends.resolve_resolveWithin (h : t.Ends v) (hst : t.Extends s) (depth : Nat) :
    t.resolve (s.resolveWithin depth v) = t.resolve v := by
  induction depth generalizing v with
  | zero => rfl
  | succ depth ih =>
    rw [resolveWithin_succ, resolve_eq_subst, Value.subst_subst, resolve_eq_subst t v]
    refine Value.subst_congr fun c hc => ?_
    rw [← resolve_eq_subst]
    cases hb : s.binding? c with
    | none => rfl
    | some b =>
      have hcell := h.cell hc
      rw [hcell.resolve_cell (hst c b hb)]
      exact ih (hcell.binding (hst c b hb))

theorem Ends.resolve_resolve (h : t.Ends v) (hst : t.Extends s) :
    t.resolve (s.resolve v) = t.resolve v :=
  h.resolve_resolveWithin hst s.size

/-- **More bindings, fewer fits.** -/
theorem fits_of_extends (hst : t.Extends s) (hp : t.Ends p) (hw : t.Ends w)
    (h : t.fits p w = true) : s.fits p w = true := by
  rw [fits, ← hp.resolve_resolve hst, ← hw.resolve_resolve hst, resolve_eq_subst,
    resolve_eq_subst t (s.resolve w)] at h
  exact Value.fits_of_fits_subst h

/-- What is equal to a pattern as it reads fits the pattern. -/
theorem fits_of_outline_eq (h : w.outline = (s.resolve p).outline) : s.fits p w = true := by
  rw [fits, resolve_eq_subst s w]
  exact Value.fits_subst_of_outline_eq h _

end Store

/-! ## Entries -/

theorem Reference.ends_toValue {s : Store} {r : Reference Value}
    (h : ∀ v ∈ r.components, s.Ends v) : s.Ends r.toValue :=
  Store.only_action.2 ⟨h _ List.mem_cons_self, fun v hv => h v (List.mem_cons_of_mem _ hv)⟩

namespace Entry

variable {s t : Store} {p e : Entry Value}

theorem fitsCall_imp {q r : Option (Reference Value)}
    (h : ∀ x ∈ q, ∀ y ∈ r, t.fits x.toValue y.toValue = true → s.fits x.toValue y.toValue = true)
    (hfits : fitsCall t q r = true) : fitsCall s q r = true := by
  cases q with
  | none => cases r <;> exact hfits
  | some x =>
    cases r with
    | none => exact hfits
    | some y => exact h x rfl y rfl hfits

/-- **What fits under more bindings fits under fewer**, if the reading of both entries ends
    under them. -/
theorem fits_of_extends (hst : t.Extends s) (hp : p.Forall t.Ends) (he : e.Forall t.Ends)
    (h : p.fits t e = true) : p.fits s e = true := by
  have hvalue {v w : Value} (hv : v ∈ p.components) (hw : w ∈ e.components) :
      t.fits v w = true → s.fits v w = true :=
    Store.fits_of_extends hst (hp v hv) (he w hw)
  have hcall {x y : Reference Value} (hx : x ∈ p.calls) (hy : y ∈ e.calls) :
      t.fits x.toValue y.toValue = true → s.fits x.toValue y.toValue = true :=
    Store.fits_of_extends hst
      (Reference.ends_toValue fun v hv => hp v (mem_components_of_mem_calls hx hv))
      (Reference.ends_toValue fun v hv => he v (mem_components_of_mem_calls hy hv))
  simp only [fits, Bool.and_eq_true] at h ⊢
  obtain ⟨⟨⟨⟨hprior, hsource⟩, hlabel⟩, htarget⟩, hposterior⟩ := h
  refine ⟨⟨⟨⟨?_, hvalue (by simp [mem_components]) (by simp [mem_components]) hsource⟩,
    hvalue (by simp [mem_components]) (by simp [mem_components]) hlabel⟩,
    hvalue (by simp [mem_components]) (by simp [mem_components]) htarget⟩, ?_⟩
  · exact fitsCall_imp (fun x hx y hy => hcall (mem_calls_of_prior hx) (mem_calls_of_prior hy))
      hprior
  · exact fitsCall_imp
      (fun x hx y hy => hcall (mem_calls_of_posterior hx) (mem_calls_of_posterior hy)) hposterior

theorem fitsCall_of_outline_eq {q r : Option (Reference Value)}
    (h : r.map (·.map Value.outline) = (q.map (·.resolve s)).map (·.map Value.outline)) :
    fitsCall s q r = true := by
  cases q with
  | none =>
    cases r with
    | none => rfl
    | some y => cases h
  | some x =>
    cases r with
    | none => cases h
    | some y =>
      rw [fitsCall, Reference.fits]
      refine Store.fits_of_outline_eq ?_
      rw [Reference.toValue, Reference.toValue, Store.resolve_action, Value.outline_action,
        Value.outline_action, Image.action.injEq]
      exact Reference.mk.inj (Option.some.inj h)

/-- **A stored entry that is equal to a pattern as it reads** fits the pattern. -/
theorem fits_of_outline_eq (h : e.outline = (p.resolve s).outline) : p.fits s e = true := by
  obtain ⟨hprior, hsource, hlabel, htarget, hposterior⟩ := Entry.mk.inj h
  simp only [fits, Bool.and_eq_true]
  exact ⟨⟨⟨⟨fitsCall_of_outline_eq hprior, Store.fits_of_outline_eq hsource⟩,
    Store.fits_of_outline_eq hlabel⟩, Store.fits_of_outline_eq htarget⟩,
    fitsCall_of_outline_eq hposterior⟩

end Entry

/-! ## Removals -/

namespace Table

variable {t : Table Value} {s : Store} {p : Entry Value}

/-- If no entry fits, a removal does nothing. -/
theorem remove_of_not_fits (h : ∀ e ∈ t.entries, p.fits s e = false) :
    t.remove s p = (0, t, s) := by
  have hnone : t.fitting s p = [] := List.filter_eq_nil_iff.2 fun e he => by simp [h e he]
  have hall : t.entries.filter (!p.fits s ·) = t.entries :=
    List.filter_eq_self.2 fun e he => by simp [h e he]
  rw [remove, hnone, hall]
  rfl

/-- If no entry fits, a query finds nothing. -/
theorem query_of_not_fits (h : ∀ e ∈ t.entries, p.fits s e = false) : t.query s p = (false, s) :=
  query_of_find?_none (List.find?_eq_none.2 fun e he => by simp [h e he])

/-- If no entry fits, none is equal to the pattern as it reads. -/
theorem contains_of_not_fits (h : ∀ e ∈ t.entries, p.fits s e = false) :
    t.contains s p = false := by
  rw [← Bool.not_eq_true, contains_iff]
  rintro ⟨e, he, heq⟩
  exact absurd (Entry.fits_of_outline_eq heq) (by simp [h e he])

theorem extends_remove (t : Table Value) (s : Store) (p : Entry Value) :
    (t.remove s p).2.2.Extends s :=
  Store.bindingRule_extends.dispatch (σ := ⟨t, s⟩) (fun _ _ _ _ => trivial) .remove p

/-- Whatever else is bound after a removal, the entries that are left do not fit. -/
theorem not_fits_of_mem_remove {u : Store} (hu : u.Extends s) (hp : p.Forall u.Ends)
    (ht : t.Forall u.Ends) : ∀ e ∈ (t.remove s p).2.1.entries, p.fits u e = false := by
  intro e he
  obtain ⟨hmem, hnot⟩ := List.mem_filter.1 he
  rw [Bool.not_eq_true'] at hnot
  rw [← Bool.not_eq_true] at hnot ⊢
  exact fun hfits => hnot (Entry.fits_of_extends hu hp (ht e hmem) hfits)

end Table

/-- **A removal** deletes the entries that fit the pattern under the bindings before it, says
    how many they were, and keeps the others in their order.  After it, under the bindings that
    it made, no entry that is left fits the pattern: the same removal does nothing more, and
    a query of the pattern and the search for it find nothing.

    No cell may refer to itself when it is done. -/
theorem remove_leaves_none {t : Table Value} {s : Store} {p : Entry Value}
    (h : (t.remove s p).2.2.Acyclic) :
    ∃ kept after, t.remove s p = (t.entries.countP (p.fits s), kept, after) ∧
      kept.entries = t.entries.filter (!p.fits s ·) ∧
      (∀ e ∈ kept.entries, p.fits after e = false) ∧
      kept.remove after p = (0, kept, after) ∧
      kept.query after p = (false, after) ∧
      kept.contains after p = false := by
  have hnone : ∀ e ∈ (t.remove s p).2.1.entries, p.fits (t.remove s p).2.2 e = false :=
    Table.not_fits_of_mem_remove (t.extends_remove s p) (fun _ _ _ _ c _ => h c)
      fun _ _ _ _ _ _ c _ => h c
  refine ⟨_, _, Prod.ext ?_ rfl, rfl, hnone, Table.remove_of_not_fits hnone,
    Table.query_of_not_fits hnone, Table.contains_of_not_fits hnone⟩
  exact List.countP_eq_length_filter.symm

/-- It goes from the state `1` to an unbound cell, by a call of what a cell is bound to. -/
def Entry.callPattern : Entry Value := .plain (.state "1") (.call (Store.nth 1)) (Store.nth 2)

/-- Two entries that fit the pattern, and one between them that does not and holds the same
    cells. -/
def Table.sharing : Table Value :=
  ⟨[.plain (.state "1") (.call (Store.nth 0)) (.state "2"),
    .plain (.state "2") (.call (Store.nth 1)) (Store.nth 2),
    .plain (.state "1") (.call (.literal "m")) (Store.nth 4)]⟩

/-- The removal binds the cell of the target, also for the entry that is kept. -/
theorem remove_sharing : ∃ kept after, Table.sharing.remove .chained .callPattern =
      (2, kept, after) ∧
    kept.entries = [.plain (.state "2") (.call (Store.nth 1)) (Store.nth 2)] ∧
    after.resolve (Store.nth 2) = .state "2" ∧ kept.remove after .callPattern = (0, kept, after) ∧
    kept.query after .callPattern = (false, after) ∧ kept.contains after .callPattern = false := by
  have hacyclic : (Table.sharing.remove .chained .callPattern).2.2.Acyclic :=
    (Store.acyclic_chained.write_iff (c := ⟨2, .numbered 2⟩) (w := .state "2") (by decide)
      fun d hd => absurd hd (Value.cellFree_state "2" d)).2
      fun d hd => absurd hd (Value.cellFree_state "2" d)
  obtain ⟨kept, after, hremove, hkept, -, hagain, hquery, hcontains⟩ := remove_leaves_none hacyclic
  have hread : (Table.sharing.remove .chained .callPattern).2.2.resolve (Store.nth 2) =
      .state "2" := rfl
  rw [hremove] at hread
  exact ⟨kept, after, hremove, hkept, hread, hagain, hquery, hcontains⟩

end AdaptiveAutomata
