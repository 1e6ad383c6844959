/-
  Automata whose actions have no variables.

  Where no cells come in, a table is an ordered set of tuples: what is added goes to
  the end unless it is there, what is removed is taken out, and what is asked for is
  looked up.  Then the history of a run has all that is needed to do it again.

  * `Kind.act` is an elementary action on an ordered set of tuples, `Kind.replay`
    several of them;
  * `Scene.dispatch_of_cellFree` and `Scene.acts_of_cellFree`: this is what elementary
    actions do to a table without cells;
  * `Action.Takes` says that an elementary action is taken in the course of an action;
  * `dispatchAll_runSteps`: what an action did can be done again from its outcomes;
  * `ordered_set_of_reached`: in the course of a run every elementary action acts on
    an ordered set, and the history leads from the first table to the last.
-/
import AdaptiveAutomata.Proofs.CellFree
import AdaptiveAutomata.Proofs.Moves
import AdaptiveAutomata.Proofs.Tables
import AdaptiveAutomata.Spec.Check

namespace AdaptiveAutomata

/-! ## Ordered sets of tuples -/

namespace Kind

/-- An elementary action on a list of tuples without repetition: whether it matched,
    and the list after it. -/
def act (kind : Kind) (x : Entry Image) (tuples : List (Entry Image)) :
    Bool × List (Entry Image) :=
  match kind with
  | .add => if x ∈ tuples then (false, tuples) else (true, tuples ++ [x])
  | .remove => (decide (x ∈ tuples), tuples.erase x)
  | .query => (decide (x ∈ tuples), tuples)

/-- Several elementary actions one after the other: which of them matched, and the
    list after them. -/
def replay : List (Kind × Entry Image) → List (Entry Image) → List Bool × List (Entry Image)
  | [], tuples => ([], tuples)
  | (kind, x) :: rest, tuples =>
    let (matched, tuples) := kind.act x tuples
    let (flags, tuples) := replay rest tuples
    (matched :: flags, tuples)

end Kind

/-! ## Tables without cells -/

namespace Table

variable {t : Table Value} {e : Entry Value} {s : Store}

/-- The table after an elementary action on an entry without cells. -/
def act (kind : Kind) (e : Entry Value) (t : Table Value) : Table Value :=
  match kind with
  | .add => if e.outline ∈ t.tuples then t else ⟨t.entries ++ [e]⟩
  | .remove => ⟨t.entries.filter (·.outline ≠ e.outline)⟩
  | .query => t

theorem contains_iff_mem_tuples (he : e.Forall Value.CellFree) :
    t.contains s e = true ↔ e.outline ∈ t.tuples := by
  rw [contains_iff, Entry.resolve_of_cellFree he, tuples, List.mem_map]

theorem mem_tuples_iff_exists_fits (ht : t.Forall Value.CellFree) (he : e.Forall Value.CellFree) :
    e.outline ∈ t.tuples ↔ ∃ x ∈ t.entries, e.fits s x = true := by
  rw [tuples, List.mem_map]
  exact exists_congr fun x => and_congr_right fun hx =>
    (Entry.fits_iff_of_cellFree he (ht x hx)).symm

theorem forall_act (ht : t.Forall Value.CellFree) (he : e.Forall Value.CellFree) (kind : Kind) :
    (t.act kind e).Forall Value.CellFree := by
  cases kind with
  | add =>
    rw [act]
    split
    · exact ht
    · intro x hx
      rcases List.mem_append.1 hx with hx | hx
      · exact ht x hx
      · exact List.mem_singleton.1 hx ▸ he
  | remove => exact fun x hx => ht x (List.mem_filter.1 hx).1
  | query => exact ht

/-- On tuples without repetition it is the action on an ordered set. -/
theorem tuples_act (hd : t.Distinct) (kind : Kind) (e : Entry Value) :
    (t.act kind e).tuples = (kind.act e.outline t.tuples).2 := by
  cases kind with
  | add =>
    rw [act, Kind.act]
    split
    · rfl
    · simp [tuples]
  | remove =>
    rw [Kind.act, List.Nodup.erase_eq_filter hd, tuples, act, tuples, List.filter_map]
    refine congrArg _ (List.filter_congr fun x _ => ?_)
    rw [Bool.eq_iff_iff, decide_eq_true_iff]
    exact bne_iff_ne.symm
  | query => rfl

end Table

/-! ## Elementary actions -/

namespace Scene

variable {σ : Scene} {e : Entry Value}

/-- **Elementary actions without cells** take the entry as it stands, match where an
    ordered set of tuples does, and do nothing to the cells. -/
theorem dispatch_of_cellFree (ht : σ.table.Forall Value.CellFree)
    (he : e.Forall Value.CellFree) (kind : Kind) :
    σ.dispatch kind e = (⟨kind, e, (kind.act e.outline σ.table.tuples).1⟩,
      ⟨σ.table.act kind e, σ.store⟩) := by
  have hread := Entry.resolve_of_cellFree he σ.store
  have hmem := Table.mem_tuples_iff_exists_fits (s := σ.store) ht he
  cases kind with
  | add =>
    simp only [dispatch, Kind.act, Table.act, hread,
      ← Table.contains_iff_mem_tuples (t := σ.table) (s := σ.store) he]
    cases hc : σ.table.contains σ.store e with
    | true => rw [Table.add_of_contains hc]; rfl
    | false => rw [Table.add_of_not_contains hc, hread]; rfl
  | remove =>
    have hstore : (σ.table.remove σ.store e).2.2 = σ.store := by
      simp only [Table.remove]
      split
      · rfl
      · exact Entry.bindFrom_of_cellFree he _ _
    have hcount : decide (0 < (σ.table.remove σ.store e).1) =
        decide (e.outline ∈ σ.table.tuples) := by
      simp only [Table.remove, List.length_pos_iff_exists_mem, Table.mem_fitting, hmem]
    have hkept : (σ.table.remove σ.store e).2.1 = σ.table.act .remove e := by
      refine congrArg Table.mk (List.filter_congr fun x hx => ?_)
      rw [Bool.eq_iff_iff, Bool.not_eq_true', ← Bool.not_eq_true,
        Entry.fits_iff_of_cellFree he (ht x hx), decide_eq_true_iff]
    simp only [dispatch, hcount, hstore, hkept, hread, Kind.act]
  | query =>
    have hquery : σ.table.query σ.store e = (decide (e.outline ∈ σ.table.tuples), σ.store) := by
      rw [Table.query]
      split
      · next first hf =>
        have hm := hmem.2 ⟨first, List.mem_of_find?_eq_some hf, List.find?_some hf⟩
        rw [Entry.bindFrom_of_cellFree he, decide_eq_true hm]
      · next hf =>
        have hm : e.outline ∉ σ.table.tuples := by
          intro hm
          obtain ⟨x, hx, hfits⟩ := hmem.1 hm
          exact List.find?_eq_none.1 hf x hx hfits
        rw [decide_eq_false hm]
    simp only [dispatch, hquery, hread, Kind.act, Table.act]

/-- An elementary action that took the entry as it stands, did to the tuples of the
    table what it does to an ordered set, and nothing to the cells. -/
structure Acts (k : Kind) (e : Entry Value) (σ : Scene) (x : Outcome × Scene) : Prop where
  kind : x.1.kind = k
  entry : x.1.entry = e
  store : x.2.store = σ.store
  tuples : (x.1.matched, x.2.table.tuples) = k.act e.outline σ.table.tuples

theorem acts_of_cellFree (ht : σ.table.Forall Value.CellFree) (hd : σ.table.Distinct)
    (he : e.Forall Value.CellFree) (kind : Kind) : Acts kind e σ (σ.dispatch kind e) := by
  rw [dispatch_of_cellFree ht he]
  exact ⟨rfl, rfl, rfl, Prod.ext rfl (Table.tuples_act hd kind e)⟩

/-- Done one after the other, elementary actions without cells are a replay on an
    ordered set. -/
theorem dispatchAll_eq_replay {requests : List (Kind × Entry Value)}
    (hr : ∀ r ∈ requests, r.2.Forall Value.CellFree) (ht : σ.table.Forall Value.CellFree)
    (hd : σ.table.Distinct) :
    ((dispatchAll requests σ).1.map (·.matched), (dispatchAll requests σ).2.table.tuples) =
      Kind.replay (requests.map fun r => (r.1, r.2.outline)) σ.table.tuples := by
  induction requests generalizing σ with
  | nil => rfl
  | cons r requests ih =>
    obtain ⟨kind, e⟩ := r
    have he : e.Forall Value.CellFree := hr (kind, e) List.mem_cons_self
    have hnext : (σ.dispatch kind e).2.table = σ.table.act kind e := by
      rw [dispatch_of_cellFree ht he]
    have hrest := ih (σ := (σ.dispatch kind e).2)
      (fun r h => hr r (List.mem_cons_of_mem _ h)) (hnext ▸ Table.forall_act ht he kind)
      (hd.dispatch kind e)
    rw [Prod.ext_iff] at hrest
    have hact := (acts_of_cellFree ht hd he kind).tuples
    rw [Prod.ext_iff] at hact
    simp only [dispatchAll, List.map_cons, Kind.replay]
    rw [← hact.1, ← hact.2, ← hrest.1, ← hrest.2]

end Scene

/-! ## Actions -/

namespace Action

variable {env : Environment} {steps : List (Kind × Spec.Step)} {σ τ : Scene} {k : Kind}
  {x : Entry Value}

/-- In the course of elementary actions from one scene on, one is taken in another
    scene, on the given entry. -/
inductive Takes (env : Environment) :
    List (Kind × Spec.Step) → Scene → Scene → Kind → Entry Value → Prop
  | head {kind : Kind} {e : Spec.Step} {rest : List (Kind × Spec.Step)} {σ : Scene} :
      Takes env ((kind, e) :: rest) σ σ kind (env.resolveStep σ.store e)
  | tail {kind : Kind} {e : Spec.Step} {rest : List (Kind × Spec.Step)} {σ τ : Scene} {k : Kind}
      {x : Entry Value}
      (h : Takes env rest (σ.dispatch kind (env.resolveStep σ.store e)).2 τ k x) :
      Takes env ((kind, e) :: rest) σ τ k x

/-- Each elementary action that is taken acts on an ordered set. -/
theorem Takes.acts (henv : env.CellFree) (h : Takes env steps σ τ k x)
    (ht : σ.table.Forall Value.CellFree) (hd : σ.table.Distinct) :
    Scene.Acts k x τ (τ.dispatch k x) := by
  induction h with
  | head => exact Scene.acts_of_cellFree ht hd (henv.resolveStep _ _) _
  | @tail kind e rest σ _ _ _ _ ih =>
    have he := henv.resolveStep σ.store e
    refine ih ?_ (hd.dispatch kind _)
    rw [Scene.dispatch_of_cellFree ht he]
    exact Table.forall_act ht he kind

theorem cellFree_runSteps (henv : env.CellFree) (steps : List (Kind × Spec.Step))
    (ht : σ.table.Forall Value.CellFree) :
    (runSteps env steps σ).2.table.Forall Value.CellFree := by
  intro y hy
  rcases mem_entries_runSteps hy with hy | ⟨e, -, s, -, rfl⟩
  · exact ht y hy
  · rw [Entry.resolve_of_cellFree (henv.resolveStep s e)]
    exact henv.resolveStep s e

/-- What an elementary action acted on in an action without cells has no cells. -/
theorem cellFree_of_mem_runSteps (henv : env.CellFree) (steps : List (Kind × Spec.Step))
    (ht : σ.table.Forall Value.CellFree) {o : Outcome} (ho : o ∈ (runSteps env steps σ).1) :
    o.entry.Forall Value.CellFree := by
  induction steps generalizing σ with
  | nil => exact absurd ho List.not_mem_nil
  | cons step steps ih =>
    obtain ⟨kind, e⟩ := step
    have he := henv.resolveStep σ.store e
    rw [runSteps, Scene.dispatch_of_cellFree ht he] at ho
    rcases List.mem_cons.1 ho with rfl | ho
    · exact he
    · exact ih (σ := ⟨σ.table.act kind _, σ.store⟩) (Table.forall_act ht he kind) ho

/-- **What was done can be done again**: taking the elementary actions of the outcomes
    on the same table, whatever the cells are, has the same outcomes and leaves the
    same table. -/
theorem dispatchAll_runSteps (henv : env.CellFree) (steps : List (Kind × Spec.Step))
    (ht : σ.table.Forall Value.CellFree) (s : Store) :
    Scene.dispatchAll ((runSteps env steps σ).1.map fun o => (o.kind, o.entry)) ⟨σ.table, s⟩ =
      ((runSteps env steps σ).1, ⟨(runSteps env steps σ).2.table, s⟩) := by
  induction steps generalizing σ with
  | nil => rfl
  | cons step steps ih =>
    obtain ⟨kind, e⟩ := step
    have he := henv.resolveStep σ.store e
    have hrest := ih (σ := ⟨σ.table.act kind (env.resolveStep σ.store e), σ.store⟩)
      (Table.forall_act ht he kind)
    have hagain := Scene.dispatch_of_cellFree (σ := ⟨σ.table, s⟩) ht he kind
    simp only [runSteps, Scene.dispatch_of_cellFree ht he, List.map_cons, Scene.dispatchAll,
      hagain]
    rw [hrest]

end Action

/-! ## Runs of an automaton -/

namespace History

/-- The elementary actions of a history, and what they acted on. -/
def requests (h : History Value) : List (Kind × Entry Value) :=
  h.steps.map fun x => (x.kind, x.entry)

/-- What came of the elementary actions of a history. -/
def outcomes (h : History Value) : List Outcome :=
  h.steps.map fun x => ⟨x.kind, x.entry, x.matched⟩

end History

theorem Scene.dispatchAll_append (xs ys : List (Kind × Entry Value)) (σ : Scene) :
    dispatchAll (xs ++ ys) σ =
      ((dispatchAll xs σ).1 ++ (dispatchAll ys (dispatchAll xs σ).2).1,
        (dispatchAll ys (dispatchAll xs σ).2).2) := by
  induction xs generalizing σ with
  | nil => rfl
  | cons r xs ih => simp [dispatchAll, ih]

namespace Automaton

variable {a : Automaton} {w w₀ : World} {spec : Spec} {arguments : List Value}

/-- An automaton without cells in its table whose history leads to its table from the
    given one. -/
structure Logged (t₀ : Table Value) (a : Automaton) : Prop where
  cellFree : a.table.Forall Value.CellFree
  log : ∃ h, a.history = some h ∧ (∀ r ∈ h.requests, r.2.Forall Value.CellFree) ∧
    ∀ s, Scene.dispatchAll h.requests ⟨t₀, s⟩ = (h.outcomes, ⟨a.table, s⟩)

/-- The arguments have no cells. -/
def CellFreeArguments (_ : World) (arguments : List Value) : Prop :=
  ∀ v ∈ arguments, v.CellFree

theorem cellFree_of_given (ht : a.table.Forall Value.CellFree)
    (h : a.Given CellFreeArguments w arguments) : ∀ v ∈ arguments, v.CellFree := by
  rcases h with h | ⟨e, he, q, hq, rfl⟩
  · exact h
  · intro v hv
    obtain ⟨u, hu, rfl⟩ := List.mem_map.1 hv
    have hfree : u.CellFree :=
      ht e he u (Entry.mem_components_of_mem_calls hq (List.mem_cons_of_mem _ hu))
    rwa [hfree.resolve]

theorem cellFree_build (spec : Spec) (recording : Bool) (w : World) :
    (build spec recording w).1.table.Forall Value.CellFree := by
  intro x hx
  obtain ⟨e, he, rfl⟩ := Table.mem_ofEntries hx
  obtain ⟨t, -, rfl⟩ := List.mem_map.1 he
  rw [Entry.resolve_of_cellFree (Entry.cellFree_ofSpec t)]
  exact Entry.cellFree_ofSpec t

theorem logged_build (spec : Spec) (w : World) :
    (build spec true w).1.Logged (build spec true w).1.table :=
  ⟨cellFree_build spec true w, .empty, rfl, fun _ h => absurd h List.not_mem_nil, fun _ => rfl⟩

/-- **An action without variables** adds to the history what leads to the new table. -/
theorem Logged.run {t₀ : Table Value} {b : Spec.Action} (h : a.Logged t₀)
    (hb : b.freeVariables = []) (hargs : ∀ v ∈ arguments, v.CellFree) :
    (a.run (.ofSpec b) arguments w).1.Logged t₀ := by
  obtain ⟨ht, log, hlog, hfree, hleads⟩ := h
  have henv : ((Action.ofSpec b).bind arguments w.store (a.counter w)).1.CellFree := by
    rw [Action.bind, show (Action.ofSpec b).freeVariables = [] from hb]
    exact Environment.cellFree_bind hargs
  -- the run starts where the history has led to
  generalize hs : ((Action.ofSpec b).bind arguments w.store (a.counter w)).2.1 = s'
  have hagain :=
    Action.dispatchAll_runSteps (σ := ⟨a.table, s'⟩) henv (Action.ofSpec b).steps ht
  have hnew (o : Outcome) :=
    Action.cellFree_of_mem_runSteps (σ := ⟨a.table, s'⟩) (o := o) henv (Action.ofSpec b).steps ht
  have hkept := Action.cellFree_runSteps (σ := ⟨a.table, s'⟩) henv (Action.ofSpec b).steps ht
  generalize hx : Action.runSteps ((Action.ofSpec b).bind arguments w.store (a.counter w)).1
    (Action.ofSpec b).steps ⟨a.table, s'⟩ = x at hagain hnew hkept
  have htable : (a.run (.ofSpec b) arguments w).1.table = x.2.table := by
    rw [← hx, ← hs]
    rfl
  have hhistory : (a.run (.ofSpec b) arguments w).1.history =
      some (log.recordAll (x.1.map (Step.ofOutcome (Action.ofSpec b).name w.now))) := by
    rw [← hx, ← hs, Automaton.run, hlog]
    rfl
  refine ⟨htable ▸ hkept, _, hhistory, fun r hr => ?_, fun s => ?_⟩
  · rw [History.requests, History.steps_recordAll, List.map_append, List.mem_append] at hr
    rcases hr with hr | hr
    · exact hfree r hr
    · rw [List.map_map] at hr
      obtain ⟨o, ho, rfl⟩ := List.mem_map.1 hr
      exact hnew o ho
  · rw [History.requests, History.outcomes, History.steps_recordAll, List.map_append,
      List.map_append, Scene.dispatchAll_append, ← History.requests, hleads, List.map_map,
      List.map_map, htable, ← History.outcomes]
    have := hagain s
    simp only [Function.comp_def, Step.ofOutcome, this, List.map_id']

theorem logged_of_reached (hb : ∀ b ∈ spec.actions, b.freeVariables = [])
    (h : Reached CellFreeArguments spec true w₀ (a, w)) :
    a.Logged (build spec true w₀).1.table :=
  (h.induction (P := fun a _ => a.Logged (build spec true w₀).1.table) (logged_build spec w₀)
    fun _ _ b hmem _ hl _ hg => hl.run (hb b hmem) (cellFree_of_given hl.cellFree hg)).1

/-- **Automata without variables** keep an ordered set of tuples.  In the course of a
    run with arguments without cells, every elementary action that an action takes acts
    on the tuples as on an ordered set and does nothing to the cells; and the history,
    taken again from the first table, matches as it did and leads to the last table,
    whether it is taken on the table or on the ordered set. -/
theorem ordered_set_of_reached (hvars : ∀ b ∈ spec.actions, b.freeVariables = [])
    (h : Reached CellFreeArguments spec true w₀ (a, w)) :
    (∀ name action arguments τ k x, a.actions.get? name = some action →
      a.Given CellFreeArguments w arguments →
      Action.Takes (action.bind arguments w.store (a.counter w)).1 action.steps
        ⟨a.table, (action.bind arguments w.store (a.counter w)).2.1⟩ τ k x →
      Scene.Acts k x τ (τ.dispatch k x)) ∧
    ∃ log, a.history = some log ∧
      (∀ s, Scene.dispatchAll log.requests ⟨(build spec true w₀).1.table, s⟩ =
        (log.outcomes, ⟨a.table, s⟩)) ∧
      Kind.replay (log.requests.map fun r => (r.1, r.2.outline))
        (build spec true w₀).1.table.tuples = (log.steps.map (·.matched), a.table.tuples) := by
  obtain ⟨ht, log, hlog, hfree, hleads⟩ := logged_of_reached hvars h
  refine ⟨fun name action arguments τ k x hget hgiven htakes => ?_, log, hlog, hleads, ?_⟩
  · have hget : (Registry.ofSpec spec).get? name = some action := h.frame.1 ▸ hget
    obtain ⟨b, hb, rfl⟩ := List.mem_map.1 (Registry.mem_of_get?_ofSpec hget)
    refine htakes.acts ?_ ht (distinct_of_reached h)
    rw [Action.bind, show (Action.ofSpec b).freeVariables = [] from hvars b hb]
    exact Environment.cellFree_bind (cellFree_of_given ht hgiven)
  · have hreplay := Scene.dispatchAll_eq_replay (σ := ⟨(build spec true w₀).1.table, w.store⟩) hfree
      (cellFree_build spec true w₀) (Table.distinct_ofEntries ..)
    rw [← hreplay, hleads, History.outcomes, List.map_map]
    rfl

end Automaton

/-! ## A run -/

/-- An action that looks for a transition from the state it is given, takes it out, and
    adds another one twice. -/
def Spec.swapAction : Spec.Action :=
  (Action.named "swap").withParameter "p"
    |>.withStep ((Step.of .query "p" "2").consuming "a")
    |>.withStep ((Step.of .remove "p" "2").consuming "a")
    |>.withStep ((Step.of .add "p" "2").consuming "b")
    |>.withStep ((Step.of .add "p" "2").consuming "b")

/-- A transition to be taken out, and one that runs the action. -/
def Spec.swapping : Spec where
  transitions := [(Transition.between "1" "2").consuming "a",
    (Transition.between "2" "1").after (.to "swap" ["1"])]
  submachines := [(Submachine.named "m").withState (State.named "1").starting
    |>.withState (State.named "2").acceptingAt]
  actions := [swapAction]

/-- What it is after the action was run once. -/
def Spec.swapped : Automaton × World :=
  let x := Automaton.build swapping true .initial
  x.1.run (.ofSpec swapAction) [.literal "1"] x.2

theorem reached_swapped :
    Automaton.Reached Automaton.CellFreeArguments Spec.swapping true .initial Spec.swapped := by
  refine .single (.posterior (e := ⟨none, .state "2", .epsilon, .state "1",
    some ⟨.literal "swap", [.literal "1"]⟩⟩) ?_ (show _ = Except.ok (true, Spec.swapped) from ?_))
  · exact .tail _ (.head _)
  · rfl

theorem ordered_set_of_swapped : Spec.swapping.validate = .ok () ∧
    ∃ log, Spec.swapped.1.history = some log ∧
      log.steps.map (·.matched) = [true, true, true, false] ∧
      Kind.replay (log.requests.map fun r => (r.1, r.2.outline))
        (Automaton.build Spec.swapping true .initial).1.table.tuples =
          ([true, true, true, false], Spec.swapped.1.table.tuples) := by
  have hvars : ∀ b ∈ Spec.swapping.actions, b.freeVariables = [] := by
    intro b hb
    rw [List.mem_singleton.1 hb]
    rfl
  obtain ⟨-, log, hlog, -, hreplay⟩ := Automaton.ordered_set_of_reached hvars reached_swapped
  have hflags : log.steps.map (·.matched) = [true, true, true, false] := by
    rw [← Option.some.inj hlog]
    rfl
  exact ⟨by decide, log, hlog, hflags, hflags ▸ hreplay⟩

end AdaptiveAutomata
