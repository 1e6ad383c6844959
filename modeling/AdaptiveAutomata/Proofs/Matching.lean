/-
  What it means to fit.

  An unbound cell stands for anything, and for something else at each place where it stands.
  So a value fits a pattern exactly if the two can be completed to one value, when every
  occurrence of an unbound cell is filled on its own.

  * `Store.Completes` says that a value comes of another one by filling the unbound cells, and
    `Store.Unifies` that two values as they read can be completed to the same one;
  * `Value.fits_iff_exists_completes`: without the store, one case for each form of pattern, and
    `Store.fits_iff_unifies` under the bindings;
  * `Entry.fits_iff_related`: entries fit if their components do and they have the same calls;
  * `fits_iff_unifies_of_ends`: what fits, that it does so either way round, and that without
    unbound cells nothing but the same value does.
-/
import AdaptiveAutomata.Proofs.Copies
import AdaptiveAutomata.Proofs.Reported

namespace AdaptiveAutomata

/-! ## Filling unbound cells -/

namespace Store

/-- Each unbound cell of a value is replaced by a value without cells, at every place where it
    stands by one of its own. -/
inductive Completes (s : Store) : Value → Value → Prop
  | cell {c : Cell} {x : Value} (hc : s.binding? c = none) (hx : x.CellFree) :
      Completes s (.cell c) x
  | epsilon : Completes s .epsilon .epsilon
  | state (name : String) : Completes s (.state name) (.state name)
  | symbol (name : String) : Completes s (.symbol name) (.symbol name)
  | literal (name : String) : Completes s (.literal name) (.literal name)
  | call {v x : Value} (h : Completes s v x) : Completes s (.call v) (.call x)
  | action {v x : Value} {vs xs : List Value} (h : Completes s v x)
      (hs : List.Forall₂ (Completes s) vs xs) : Completes s (.action v vs) (.action x xs)

/-- Two values as they read can be completed to the same one. -/
def Unifies (s : Store) (v w : Value) : Prop :=
  ∃ x, s.Completes (s.resolve v) x ∧ s.Completes (s.resolve w) x

variable {s : Store} {v w x : Value} {vs ws : List Value}

theorem forall₂_completes_iff (h : ∀ v ∈ vs, ∀ x, s.Completes v x ↔ x = v) {xs : List Value} :
    List.Forall₂ s.Completes vs xs ↔ xs = vs := by
  induction vs generalizing xs with
  | nil => simp
  | cons v vs ih =>
    obtain ⟨hv, hvs⟩ := List.forall_mem_cons.1 h
    cases xs with
    | nil => simp
    | cons x xs => rw [List.forall₂_cons, hv, ih hvs, List.cons.injEq]

/-- A value without cells is complete. -/
theorem completes_iff_of_cellFree (hv : v.CellFree) : s.Completes v x ↔ x = v := by
  induction v using Value.recParts generalizing x with
  | leaf v hleaf =>
    cases v with
    | call | action => exact absurd hleaf Bool.false_ne_true
    | cell c => exact absurd hv (Value.not_cellFree_cell c)
    | epsilon | state | symbol | literal =>
      constructor
      · rintro ⟨⟩
        rfl
      · rintro rfl
        constructor
  | call v ih =>
    rw [Value.cellFree_call] at hv
    constructor
    · intro h
      cases h with
      | call h => rw [(ih hv).1 h]
    · rintro rfl
      exact .call ((ih hv).2 rfl)
  | action v vs ih ihs =>
    rw [Value.cellFree_action] at hv
    have hvs {xs : List Value} : List.Forall₂ s.Completes vs xs ↔ xs = vs :=
      forall₂_completes_iff fun w hw x => ihs w hw (hv.2 w hw)
    constructor
    · intro h
      cases h with
      | action h hs => rw [(ih hv.1).1 h, hvs.1 hs]
    · rintro rfl
      exact .action ((ih hv.1).2 rfl) (hvs.2 rfl)

/-- Every value whose cells are unbound can be completed. -/
theorem exists_completes (hv : ∀ c, .cell c ∈ v.leaves → s.binding? c = none) :
    ∃ x, s.Completes v x ∧ x.CellFree := by
  induction v using Value.recParts with
  | leaf v hleaf =>
    cases v with
    | call | action => exact absurd hleaf Bool.false_ne_true
    | cell c => exact ⟨.epsilon, .cell (hv c (by simp)) (by simp), by simp⟩
    | epsilon => exact ⟨_, .epsilon, by simp⟩
    | state name => exact ⟨_, .state name, by simp⟩
    | symbol name => exact ⟨_, .symbol name, by simp⟩
    | literal name => exact ⟨_, .literal name, by simp⟩
  | call v ih =>
    obtain ⟨x, h, hx⟩ := ih fun c hc => hv c (by simpa using hc)
    exact ⟨.call x, .call h, by simpa using hx⟩
  | action v vs ih ihs =>
    obtain ⟨x, h, hx⟩ := ih fun c hc => hv c (by simp [hc])
    have hvs : ∀ w ∈ vs, ∃ y, s.Completes w y ∧ y.CellFree := fun w hw =>
      ihs w hw fun c hc => hv c (by
        rw [Value.leaves_action]
        exact List.mem_append_right _ (List.mem_flatMap.2 ⟨w, hw, hc⟩))
    choose! f hf hfree using hvs
    refine ⟨.action x (vs.map f), .action h ?_, ?_⟩
    · rw [List.forall₂_map_right_iff, List.forall₂_same]
      exact hf
    · rw [Value.cellFree_action, List.forall_mem_map]
      exact ⟨hx, hfree⟩

/-- An unbound cell takes on whatever a value is completed to. -/
theorem exists_completes_cell {c : Cell} (hc : s.binding? c = none)
    (hv : ∀ d, .cell d ∈ v.leaves → s.binding? d = none) :
    ∃ x, s.Completes v x ∧ s.Completes (.cell c) x := by
  obtain ⟨x, h, hx⟩ := exists_completes hv
  exact ⟨x, h, .cell hc hx⟩

end Store

/-! ## Fitting -/

namespace Value

variable {s : Store} {p w : Value} {ps ws : List Value}

theorem forall₂_exists_completes_iff :
    List.Forall₂ (fun p w => ∃ x, s.Completes p x ∧ s.Completes w x) ps ws ↔
      ∃ xs, List.Forall₂ s.Completes ps xs ∧ List.Forall₂ s.Completes ws xs := by
  constructor
  · intro h
    induction h with
    | nil => exact ⟨[], .nil, .nil⟩
    | cons h _ ih =>
      obtain ⟨x, hp, hw⟩ := h
      obtain ⟨xs, hps, hws⟩ := ih
      exact ⟨x :: xs, .cons hp hps, .cons hw hws⟩
  · rintro ⟨xs, hps, hws⟩
    exact forall₂_of_forall₂ (fun x _ p w hp hw => ⟨x, hp, hw⟩) hps.flip hws.flip

/-- **Two values fit** exactly if they can be completed to the same one, provided that all
    their cells are unbound. -/
theorem fits_iff_exists_completes (hp : ∀ c, .cell c ∈ p.leaves → s.binding? c = none)
    (hw : ∀ c, .cell c ∈ w.leaves → s.binding? c = none) :
    p.fits w = true ↔ ∃ x, s.Completes p x ∧ s.Completes w x := by
  induction p using recParts generalizing w with
  | leaf p hleaf =>
    cases p with
    | call | action => exact absurd hleaf Bool.false_ne_true
    | cell d =>
      obtain ⟨x, h, hx⟩ := Store.exists_completes_cell (hp d (by simp)) hw
      exact iff_of_true rfl ⟨x, hx, h⟩
    | epsilon | state | symbol | literal =>
      cases w with
      | cell d => exact iff_of_true rfl (Store.exists_completes_cell (hw d (by simp)) hp)
      | call | action => exact iff_of_false Bool.false_ne_true (by rintro ⟨_, ⟨⟩, ⟨⟩⟩)
      | _ =>
        -- neither holds a cell, so that each is completed to itself alone
        simp [fits, Store.completes_iff_of_cellFree]
  | call p ih =>
    cases w with
    | cell d => exact iff_of_true rfl (Store.exists_completes_cell (hw d (by simp)) hp)
    | call w =>
      rw [fits, ih (by simpa using hp) (by simpa using hw)]
      constructor
      · rintro ⟨x, h, h'⟩
        exact ⟨.call x, .call h, .call h'⟩
      · rintro ⟨x, h, h'⟩
        cases h with
        | call h =>
          cases h' with
          | call h' => exact ⟨_, h, h'⟩
    | _ => exact iff_of_false Bool.false_ne_true (by rintro ⟨_, ⟨⟩, ⟨⟩⟩)
  | action p ps ih ihs =>
    cases w with
    | cell d => exact iff_of_true rfl (Store.exists_completes_cell (hw d (by simp)) hp)
    | action w ws =>
      have hpart {v : Value} {vs : List Value} {q : Value} (hq : q ∈ vs)
          (hv : ∀ c, .cell c ∈ (action v vs).leaves → s.binding? c = none) :
          ∀ c, .cell c ∈ q.leaves → s.binding? c = none := fun c hc => hv c (by
        rw [leaves_action]
        exact List.mem_append_right _ (List.mem_flatMap.2 ⟨q, hq, hc⟩))
      have hname := ih (w := w) (fun c hc => hp c (by simp [hc])) fun c hc => hw c (by simp [hc])
      have hargs : fitsAll ps ws = true ↔
          ∃ xs, List.Forall₂ s.Completes ps xs ∧ List.Forall₂ s.Completes ws xs := by
        rw [fitsAll_iff_forall₂, ← forall₂_exists_completes_iff]
        constructor
        · exact forall₂_imp_of_mem fun q hq x hx => (ihs q hq (hpart hq hp) (hpart hx hw)).1
        · exact forall₂_imp_of_mem fun q hq x hx => (ihs q hq (hpart hq hp) (hpart hx hw)).2
      rw [fits, Bool.and_eq_true, hname, hargs]
      constructor
      · rintro ⟨⟨x, h, h'⟩, xs, hs, hs'⟩
        exact ⟨.action x xs, .action h hs, .action h' hs'⟩
      · rintro ⟨x, h, h'⟩
        cases h with
        | action h hs =>
          cases h' with
          | action h' hs' => exact ⟨⟨_, h, h'⟩, _, hs, hs'⟩
    | _ => exact iff_of_false Bool.false_ne_true (by rintro ⟨_, ⟨⟩, ⟨⟩⟩)

end Value

namespace Store

variable {s : Store} {p v w : Value}

theorem Unifies.symm (h : s.Unifies v w) : s.Unifies w v := by
  obtain ⟨x, hv, hw⟩ := h
  exact ⟨x, hw, hv⟩

theorem fits_iff_unifies (hp : s.Ends p) (hw : s.Ends w) : s.fits p w = true ↔ s.Unifies p w :=
  Value.fits_iff_exists_completes (fun _ => hp.unbound_of_mem_resolve)
    fun _ => hw.unbound_of_mem_resolve

theorem unifies_iff_completes (hv : (s.resolve v).CellFree) :
    s.Unifies v w ↔ s.Completes (s.resolve w) (s.resolve v) := by
  simp only [Unifies, completes_iff_of_cellFree hv, exists_eq_left]

end Store

/-! ## Entries -/

namespace Entry

variable {s : Store} {p e : Entry Value} {α β : Type}

theorem Related.flip {R : α → β → Prop} {e : Entry α} {f : Entry β} (h : Related R e f) :
    Related (fun b a => R a b) f e := by
  have call {q : Option (Reference α)} {r : Option (Reference β)}
      (h : Option.Rel (Reference.Related R) q r) :
      Option.Rel (Reference.Related fun b a => R a b) r q := by
    cases h with
    | some h => exact .some ⟨h.name, h.arguments.flip⟩
    | none => exact .none
  exact ⟨call h.prior, h.source, h.label, h.target, call h.posterior⟩

theorem fitsCall_iff_rel {q r : Option (Reference Value)}
    (hq : ∀ x ∈ q, ∀ v ∈ x.components, s.Ends v) (hr : ∀ x ∈ r, ∀ v ∈ x.components, s.Ends v) :
    fitsCall s q r = true ↔ Option.Rel (Reference.Related s.Unifies) q r := by
  cases q with
  | none =>
    cases r with
    | none => exact iff_of_true rfl .none
    | some r => exact iff_of_false Bool.false_ne_true nofun
  | some q =>
    cases r with
    | none => exact iff_of_false Bool.false_ne_true nofun
    | some r =>
      have hunifies {v w : Value} (hv : v ∈ q.components) (hw : w ∈ r.components) :
          s.fits v w = true ↔ s.Unifies v w :=
        Store.fits_iff_unifies (hq q rfl v hv) (hr r rfl w hw)
      have hname := hunifies List.mem_cons_self List.mem_cons_self
      have harg {v w : Value} (hv : v ∈ q.arguments) (hw : w ∈ r.arguments) :=
        hunifies (List.mem_cons_of_mem _ hv) (List.mem_cons_of_mem _ hw)
      rw [fitsCall, Reference.fits, Store.fits, Reference.toValue, Reference.toValue,
        Store.resolve_action, Store.resolve_action, Value.fits, Bool.and_eq_true,
        Value.fitsAll_iff_forall₂, List.forall₂_map_left_iff, List.forall₂_map_right_iff]
      constructor
      · rintro ⟨h, hs⟩
        exact .some ⟨hname.1 h, forall₂_imp_of_mem (fun v hv w hw => (harg hv hw).1) hs⟩
      · rintro ⟨h, hs⟩
        exact ⟨hname.2 h, forall₂_imp_of_mem (fun v hv w hw => (harg hv hw).2) hs⟩

/-- **Entries fit** exactly if their components do, and both have a call or neither. -/
theorem fits_iff_related (hp : p.Forall s.Ends) (he : e.Forall s.Ends) :
    p.fits s e = true ↔ Related s.Unifies p e := by
  have hprior := fitsCall_iff_rel (s := s)
    (fun r hr v hv => hp v (mem_components_of_mem_calls (mem_calls_of_prior hr) hv))
    fun r hr v hv => he v (mem_components_of_mem_calls (mem_calls_of_prior hr) hv)
  have hposterior := fitsCall_iff_rel (s := s)
    (fun r hr v hv => hp v (mem_components_of_mem_calls (mem_calls_of_posterior hr) hv))
    fun r hr v hv => he v (mem_components_of_mem_calls (mem_calls_of_posterior hr) hv)
  have hvalue {v w : Value} (hv : v ∈ p.components) (hw : w ∈ e.components) :
      s.fits v w = true ↔ s.Unifies v w := Store.fits_iff_unifies (hp v hv) (he w hw)
  have hsource := hvalue (v := p.source) (w := e.source) (by simp [mem_components])
    (by simp [mem_components])
  have hlabel := hvalue (v := p.label) (w := e.label) (by simp [mem_components])
    (by simp [mem_components])
  have htarget := hvalue (v := p.target) (w := e.target) (by simp [mem_components])
    (by simp [mem_components])
  simp only [fits, Bool.and_eq_true, hprior, hsource, hlabel, htarget, hposterior]
  constructor
  · rintro ⟨⟨⟨⟨h₁, h₂⟩, h₃⟩, h₄⟩, h₅⟩
    exact ⟨h₁, h₂, h₃, h₄, h₅⟩
  · rintro ⟨h₁, h₂, h₃, h₄, h₅⟩
    exact ⟨⟨⟨⟨h₁, h₂⟩, h₃⟩, h₄⟩, h₅⟩

theorem related_unifies_iff_of_cellFree (hp : (p.resolve s).Forall Value.CellFree)
    (he : (e.resolve s).Forall Value.CellFree) :
    Related s.Unifies p e ↔ p.resolve s = e.resolve s := by
  have hp := forall_resolve.1 hp
  have he := forall_resolve.1 he
  constructor
  · intro h
    have hcompletes : Related (fun v w => s.Completes (s.resolve w) (s.resolve v)) p e := by
      rw [← map_id p] at h
      exact h.of_map_left fun v hv w => (Store.unifies_iff_completes (hp v hv)).1
    have hread : Related (fun w v => s.resolve v = s.resolve w) e p := by
      have h := hcompletes.flip
      rw [← map_id e] at h
      exact h.of_map_left fun w hw v => (Store.completes_iff_of_cellFree (he w hw)).1
    exact map_eq_map_of_related hread.flip
  · intro h
    have hself : Related Eq (p.map s.resolve) (e.map s.resolve) := by
      rw [show p.map s.resolve = e.map s.resolve from h]
      exact related_self fun _ _ => rfl
    exact hself.of_map fun v hv w hread => (Store.unifies_iff_completes (hp v hv)).2
      ((Store.completes_iff_of_cellFree (hread ▸ hp v hv)).2 hread)

end Entry

/-- **What fits.**  Two values whose cells do not lead back to themselves fit exactly if their
    unbound cells can be filled, every occurrence on its own, so that both read the same.
    Entries fit exactly if their components do, and if they have the same calls.  In either
    case it does not matter which one is the pattern, and without unbound cells only what reads
    the same fits. -/
theorem fits_iff_unifies_of_ends (s : Store) :
    (∀ p w, s.Ends p → s.Ends w →
      (s.fits p w = true ↔ s.Unifies p w) ∧ s.fits p w = s.fits w p ∧
      ((s.resolve p).CellFree → (s.resolve w).CellFree →
        (s.fits p w = true ↔ s.resolve p = s.resolve w))) ∧
    ∀ p e : Entry Value, p.Forall s.Ends → e.Forall s.Ends →
      (p.fits s e = true ↔ Entry.Related s.Unifies p e) ∧ p.fits s e = e.fits s p ∧
      ((p.resolve s).Forall Value.CellFree → (e.resolve s).Forall Value.CellFree →
        (p.fits s e = true ↔ p.resolve s = e.resolve s)) := by
  refine ⟨fun p w hp hw => ?_, fun p e hp he => ?_⟩
  · have hfits := Store.fits_iff_unifies hp hw
    refine ⟨hfits, ?_, fun hp hw => ?_⟩
    · rw [Bool.eq_iff_iff, hfits, Store.fits_iff_unifies hw hp]
      exact ⟨.symm, .symm⟩
    · rw [hfits, Store.unifies_iff_completes hp, Store.completes_iff_of_cellFree hw]
  · have hfits := Entry.fits_iff_related hp he
    refine ⟨hfits, ?_, fun hp he => hfits.trans (Entry.related_unifies_iff_of_cellFree hp he)⟩
    rw [Bool.eq_iff_iff, hfits, Entry.fits_iff_related he hp]
    exact ⟨fun h => h.flip.imp fun _ _ => .symm, fun h => h.flip.imp fun _ _ => .symm⟩

/-- A call in which both arguments read as the same cell. -/
def Value.repeating : Value := .action (.literal "f") [Store.nth 0, Store.nth 1]

/-- A call with two different arguments. -/
def Value.differing : Value := .action (.literal "f") [.state "1", .state "2"]

/-- The one cell fits different states.  A bound cell fits what it is bound to alone.  The entry
    that leaves another state than the one it calls `f` with fits all the same. -/
theorem fits_two_values_of_a_cell :
    (Store.chained.resolve .repeating).leaves = [.literal "f", Store.nth 0, Store.nth 0] ∧
    Store.chained.fits .repeating .differing = true ∧
    Store.chained.fits .differing .repeating = true ∧
    Store.chained.Unifies .repeating .differing ∧
    Store.chained.fits (Store.nth 4) (.state "3") = true ∧
    Store.chained.fits (Store.nth 4) (.state "2") = false ∧
    Entry.repeatingPattern.fits .chained { Entry.repeating with source := .state "3" } = true ∧
    Entry.repeating.fits .chained { Entry.repeating with source := .state "3" } = false := by
  obtain ⟨hvalue, hentry⟩ := fits_iff_unifies_of_ends .chained
  have hends (v : Value) : Store.chained.Ends v := fun _ _ c _ => Store.acyclic_chained c
  have hread : Store.chained.resolve (Store.nth 4) = .state "3" := rfl
  obtain ⟨hunifies, hsymm, -⟩ := hvalue .repeating .differing (hends _) (hends _)
  have hbound (name : String) : Store.chained.fits (Store.nth 4) (.state name) = true ↔
      "3" = name := by
    have h := (hvalue (Store.nth 4) (.state name) (hends _) (hends _)).2.2
    have hstate : Store.chained.resolve (.state name) = .state name := rfl
    rw [hread, hstate] at h
    rw [h (Value.cellFree_state _) (Value.cellFree_state _), Value.state.injEq]
  have hsame := (hentry .repeating { Entry.repeating with source := .state "3" }
    (fun v _ => hends v) fun v _ => hends v).2.2 (by decide) (by decide)
  have hother : Entry.repeating.resolve .chained ≠
      { Entry.repeating with source := .state "3" }.resolve .chained := fun h =>
    absurd (Value.state.inj (congrArg Entry.source h)) (by decide)
  have hfits : Entry.repeatingPattern.fits .chained
      { Entry.repeating with source := .state "3" } = true :=
    (hentry _ _ (fun v _ => hends v) fun v _ => hends v).2.1.trans rfl
  exact ⟨rfl, rfl, hsymm ▸ rfl, hunifies.1 rfl, (hbound "3").2 rfl,
    Bool.eq_false_iff.2 fun h => absurd ((hbound "2").1 h) (by decide), hfits,
    Bool.eq_false_iff.2 fun h => absurd (hsame.1 h) hother⟩

end AdaptiveAutomata
