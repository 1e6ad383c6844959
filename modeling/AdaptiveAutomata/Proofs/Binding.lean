/-
  What holds of single bindings holds of all that binds.

  Matching parts of values, of entries, and whole runs of elementary actions bind
  cells one by one, always to parts of stored values.  The inductions over
  patterns, depths and lists of actions are done here, once.

  * `BindingRule P R` says that the relation `R` between stores holds for every
    binding to a value with the property `P`, and that `P` passes to the parts of
    a value and along `R`;
  * `Scene.store_dispatch` and `mem_entries_dispatch` say what an elementary action
    can do to the cells and to the table;
  * `BindingRule.bindFrom`, `bindEntry`, `dispatch` and `runSteps` carry `R`
    over to what is made of bindings, and `P` to the table.
-/
import AdaptiveAutomata.Action
import AdaptiveAutomata.Proofs.Reach

namespace AdaptiveAutomata

/-- A relation `R` between stores that holds for every single binding to a value
    with the property `P`. -/
structure BindingRule (P : Store → Value → Prop) (R : Store → Store → Prop) : Prop where
  refl : ∀ s, R s s
  trans : ∀ {s t u}, R s t → R t u → R s u
  frame : ∀ {s t v}, R s t → P s v → P t v
  resolve : ∀ {s v}, P s v → P s (s.resolve v)
  call : ∀ {s v}, P s (.call v) → P s v
  action : ∀ {s name arguments}, P s (.action name arguments) →
    P s name ∧ ∀ v ∈ arguments, P s v
  bind : ∀ {s t : Store} {c v}, P s v → s.bind? c v = some t → R s t

/-- Every component of an entry has a property. -/
def Entry.Forall (P : Value → Prop) (e : Entry Value) : Prop := ∀ v ∈ e.components, P v

instance (P : Value → Prop) [DecidablePred P] (e : Entry Value) : Decidable (e.Forall P) :=
  inferInstanceAs (Decidable (∀ v ∈ e.components, P v))

theorem Entry.forall_resolve {P : Value → Prop} {s : Store} {e : Entry Value} :
    (e.resolve s).Forall P ↔ e.Forall fun v => P (s.resolve v) := by
  rw [Entry.Forall, resolve, components_map, List.forall_mem_map]
  rfl

/-- Every component of every entry of a table has a property. -/
def Table.Forall (P : Value → Prop) (t : Table Value) : Prop := ∀ e ∈ t.entries, e.Forall P

instance (P : Value → Prop) [DecidablePred P] (t : Table Value) : Decidable (t.Forall P) :=
  inferInstanceAs (Decidable (∀ e ∈ t.entries, e.Forall P))

/-- Something is reached from a component of an entry of the table. -/
def Table.Holds (t : Table Value) (s : Store) (u : Value) : Prop :=
  ∃ e ∈ t.entries, ∃ v ∈ e.components, s.Reaches v u

/-! ## Changes of the table -/

/-- An entry that is in the table after an elementary action was there before,
    or was added as it read. -/
theorem Scene.mem_entries_dispatch {kind : Kind} {e x : Entry Value} {σ : Scene}
    (h : x ∈ (σ.dispatch kind e).2.table.entries) :
    x ∈ σ.table.entries ∨ kind = .add ∧ x = e.resolve σ.store := by
  cases kind with
  | add =>
    simp only [Scene.dispatch] at h
    cases hc : σ.table.contains σ.store e with
    | true => rw [Table.add_of_contains hc] at h; exact .inl h
    | false =>
      rw [Table.add_of_not_contains hc] at h
      rcases List.mem_append.1 h with h | h
      · exact .inl h
      · exact .inr ⟨rfl, List.mem_singleton.1 h⟩
  | remove => exact .inl (List.mem_filter.1 h).1
  | query => exact .inl h

/-- An elementary action does nothing to the cells, or binds those of a pattern to the
    parts of an entry of the table. -/
theorem Scene.store_dispatch (kind : Kind) (e : Entry Value) (σ : Scene) :
    (σ.dispatch kind e).2.store = σ.store ∨ kind ≠ .add ∧ ∃ x ∈ σ.table.entries,
      (σ.dispatch kind e).2.store = e.bindFrom σ.store x := by
  cases kind with
  | add => exact .inl rfl
  | remove =>
    simp only [dispatch, Table.remove]
    cases hf : σ.table.fitting σ.store e with
    | nil => exact .inl rfl
    | cons first rest =>
      have hm : first ∈ σ.table.fitting σ.store e := hf ▸ List.mem_cons_self
      exact .inr ⟨Kind.noConfusion, first, (Table.mem_fitting.1 hm).1, rfl⟩
  | query =>
    simp only [dispatch, Table.query]
    split
    · next first hf =>
      exact .inr ⟨Kind.noConfusion, first, List.mem_of_find?_eq_some hf, rfl⟩
    · exact .inl rfl

namespace BindingRule

variable {P : Store → Value → Prop} {R : Store → Store → Prop} (hr : BindingRule P R)

include hr

/-! ## Values -/

theorem walkAll {follow : Value → Value → Store → Store} :
    ∀ {ps : List Value}, (∀ p ∈ ps, ∀ v s, P s v → R s (Store.walk follow p v s)) →
      ∀ (ws : List Value) (s : Store), (∀ w ∈ ws, P s w) → R s (Store.walkAll follow ps ws s)
  | [], _, ws, s, _ => by cases ws <;> exact hr.refl s
  | _ :: _, _, [], s, _ => hr.refl s
  | p :: ps, ih, w :: ws, s, hw => by
    have h := ih p List.mem_cons_self w s (hw w List.mem_cons_self)
    refine hr.trans h (walkAll (fun q hq => ih q (List.mem_cons_of_mem p hq)) ws _ ?_)
    exact fun x hx => hr.frame h (hw x (List.mem_cons_of_mem w hx))

/-- A walk along a pattern, given what holds where it goes on through a bound
    cell. -/
theorem walk {follow : Value → Value → Store → Store}
    (hf : ∀ p v s, P s v → R s (follow p v s)) (p : Value) :
    ∀ v s, P s v → R s (Store.walk follow p v s) := by
  induction p using Value.recParts with
  | leaf p hp =>
    intro v s hv
    cases p with
    | call | action => exact absurd hp Bool.false_ne_true
    | epsilon | state | symbol | literal => rw [Store.walk]; exact hr.refl s
    | cell c =>
      rw [Store.walk]
      cases s.binding? c with
      | some bound => exact hf bound v s hv
      | none =>
        dsimp only
        split
        · exact hr.refl s
        · cases hb : s.bind? c (s.resolve v) with
          | none => exact hr.refl s
          | some t => exact hr.bind (hr.resolve hv) hb
  | call p ih =>
    intro v s hv
    rw [Store.walk]
    split
    · next w hw => exact ih w s (hr.call (hw ▸ hr.resolve hv))
    · exact hr.refl s
  | action p ps ih ihs =>
    intro v s hv
    rw [Store.walk]
    split
    · next w ws hw =>
      obtain ⟨h, hs⟩ := hr.action (hw ▸ hr.resolve hv)
      have hn := ih w s h
      exact hr.trans hn (hr.walkAll ihs ws _ fun x hx => hr.frame hn (hs x hx))
    · exact hr.refl s

theorem bindFromWithin (depth : Nat) :
    ∀ p v s, P s v → R s (Store.bindFromWithin depth p v s) := by
  induction depth with
  | zero => exact fun _ _ s _ => hr.refl s
  | succ depth ih => exact hr.walk ih

theorem bindFrom {s : Store} {v : Value} (hv : P s v) (p : Value) : R s (s.bindFrom p v) :=
  hr.bindFromWithin _ p v s hv

theorem bindFromAll : ∀ (ps : List Value) {ws : List Value} {s : Store}, (∀ w ∈ ws, P s w) →
    R s (s.bindFromAll ps ws)
  | [], ws, s, _ => by cases ws <;> exact hr.refl s
  | _ :: _, [], s, _ => hr.refl s
  | p :: ps, w :: ws, s, hw => by
    have h := hr.bindFrom (hw w List.mem_cons_self) p
    refine hr.trans h (bindFromAll ps ?_)
    exact fun x hx => hr.frame h (hw x (List.mem_cons_of_mem w hx))

/-! ## Entries -/

theorem bindReference {s : Store} {w : Reference Value} (hw : ∀ v ∈ w.components, P s v)
    (p : Reference Value) : R s (p.bindFrom s w) := by
  have h := hr.bindFrom (hw _ List.mem_cons_self) p.name
  refine hr.trans h (hr.bindFromAll p.arguments ?_)
  exact fun x hx => hr.frame h (hw x (List.mem_cons_of_mem _ hx))

theorem bindCall {s : Store} {w : Option (Reference Value)}
    (hw : ∀ r ∈ w, ∀ v ∈ r.components, P s v) (p : Option (Reference Value)) :
    R s (Entry.bindCall s p w) := by
  cases p with
  | none => exact hr.refl s
  | some p =>
    cases w with
    | none => exact hr.refl s
    | some w => exact hr.bindReference (hw w rfl) p

theorem bindEntry {s : Store} {w : Entry Value} (hw : w.Forall (P s)) (p : Entry Value) :
    R s (Entry.bindFrom s p w) := by
  have hc (r : Reference Value) (h : r ∈ w.calls) (v : Value) (hv : v ∈ r.components) : P s v :=
    hw v (Entry.mem_components_of_mem_calls h hv)
  have h₁ : R s (Entry.bindCall s p.prior w.prior) :=
    hr.bindCall (fun r h => hc r (Entry.mem_calls_of_prior h)) p.prior
  have h₂ := hr.trans h₁
    (hr.bindFrom (hr.frame h₁ (hw w.source (by simp [Entry.mem_components]))) p.source)
  have h₃ := hr.trans h₂
    (hr.bindFrom (hr.frame h₂ (hw w.label (by simp [Entry.mem_components]))) p.label)
  have h₄ := hr.trans h₃
    (hr.bindFrom (hr.frame h₃ (hw w.target (by simp [Entry.mem_components]))) p.target)
  exact hr.trans h₄ (hr.bindCall (fun r h v hv =>
    hr.frame h₄ (hc r (Entry.mem_calls_of_posterior h) v hv)) p.posterior)

/-! ## The table -/

theorem dispatch {σ : Scene} (hσ : σ.table.Forall (P σ.store)) (kind : Kind) (e : Entry Value) :
    R σ.store (σ.dispatch kind e).2.store := by
  rcases σ.store_dispatch kind e with h | ⟨-, x, hx, h⟩
  · rw [h]
    exact hr.refl _
  · rw [h]
    exact hr.bindEntry (hσ x hx) e

theorem forall_dispatch {σ : Scene} (hσ : σ.table.Forall (P σ.store)) {kind : Kind}
    {e : Entry Value} (he : kind = .add → e.Forall (P σ.store)) :
    (σ.dispatch kind e).2.table.Forall (P (σ.dispatch kind e).2.store) := by
  have hs := hr.dispatch hσ kind e
  intro x hx v hv
  refine hr.frame hs ?_
  rcases Scene.mem_entries_dispatch hx with hx | ⟨hk, rfl⟩
  · exact hσ x hx v hv
  · exact Entry.forall_resolve.2 (fun w hw => hr.resolve (he hk w hw)) v hv

/-- **A run of elementary actions**, given that what it adds has the property
    whenever its turn comes. -/
theorem runSteps {env : Environment} {steps : List (Kind × Spec.Step)} (σ : Scene)
    (hσ : σ.table.Forall (P σ.store))
    (he : ∀ t, R σ.store t → ∀ x ∈ steps, x.1 = .add → (env.resolveStep t x.2).Forall (P t)) :
    R σ.store (Action.runSteps env steps σ).2.store ∧
      (Action.runSteps env steps σ).2.table.Forall (P (Action.runSteps env steps σ).2.store) := by
  induction steps generalizing σ with
  | nil => exact ⟨hr.refl _, hσ⟩
  | cons x steps ih =>
    obtain ⟨kind, e⟩ := x
    have hs := hr.dispatch hσ kind (env.resolveStep σ.store e)
    have ht := hr.forall_dispatch hσ (he σ.store (hr.refl _) (kind, e) List.mem_cons_self)
    obtain ⟨h, h'⟩ := ih _ ht fun t hst y hy => he t (hr.trans hs hst) y (List.mem_cons_of_mem _ hy)
    exact ⟨hr.trans hs h, h'⟩

end BindingRule

end AdaptiveAutomata
