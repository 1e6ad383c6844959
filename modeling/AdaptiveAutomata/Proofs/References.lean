/-
  Calls in the table against declared actions.

  A call of an entry can be run if its name reads as the name of a declared
  action.  The calls of transitions are so in an accepted description.  The calls
  that elementary actions add come from words that nothing checks.

  * `Spec.CallsDeclared` says that these words name declared actions, too;
  * `named_of_reached`: then all calls in the table do, in the course of every run;
  * `fires_iff_declared`: the calls of an entry run exactly if they name declared
    actions, so all run if the words do;
  * `unknown_action_fired`: an accepted description may add a call that does not.
-/
import AdaptiveAutomata.Proofs.Moves
import AdaptiveAutomata.Proofs.Names
import AdaptiveAutomata.Proofs.Tables
import AdaptiveAutomata.Proofs.Validity

namespace AdaptiveAutomata

/-- The calls that elementary actions add name declared actions, by words that
    stand for themselves. -/
def Spec.CallsDeclared (s : Spec) : Prop :=
  ∀ a ∈ s.actions, ∀ e ∈ a.steps, e.kind? = some .add → ∀ c ∈ e.calls,
    s.Declares (c.name.getD "") ∧
      c.name.getD "" ∉ a.freeVariables ++ (a.generators ++ a.parameters)

/-- Every call in a table has the literal name of a declared action. -/
def Table.CallsNamed (spec : Spec) (t : Table Value) : Prop :=
  ∀ e ∈ t.entries, ∀ q ∈ e.calls, ∃ name, q.name = .literal name ∧ spec.Declares name

variable {admits : World → List Value → Prop} {spec : Spec} {recording : Bool} {w₀ w : World}
  {a : Automaton} {e : Entry Value}

/-! ## Names in the table -/

theorem named_build (hv : spec.validate = .ok ()) (recording : Bool) (w : World) :
    (Automaton.build spec recording w).1.table.CallsNamed spec := by
  intro x hx q hq
  obtain ⟨e, he, rfl⟩ := Table.mem_ofEntries hx
  obtain ⟨t, ht, rfl⟩ := List.mem_map.1 he
  rw [Entry.resolve, Entry.calls_map, Entry.calls_ofSpec, List.map_map] at hq
  obtain ⟨c, hc, rfl⟩ := List.mem_map.1 hq
  exact ⟨c.name.getD "", Store.resolve_literal .., Spec.declares_of_validate hv ht hc⟩

/-- An action whose added calls name declared actions keeps the calls named. -/
theorem named_run {action : Spec.Action} {arguments : List Value} (h : a.table.CallsNamed spec)
    (hd : spec.CallsDeclared) (ha : action ∈ spec.actions) :
    (a.run (.ofSpec action) arguments w).1.table.CallsNamed spec := by
  intro x hx q hq
  rcases Automaton.mem_entries_run hx with hx | ⟨e, he, s, -, rfl⟩
  · exact h x hx q hq
  · obtain ⟨hm, hkind⟩ := Action.mem_steps_ofSpec.1 he
    rw [Entry.resolve, Entry.calls_map, Environment.calls_resolveStep, List.map_map] at hq
    obtain ⟨c, hc, rfl⟩ := List.mem_map.1 hq
    obtain ⟨hdecl, hfree⟩ := hd action ha e hm hkind c hc
    refine ⟨c.name.getD "", ?_, hdecl⟩
    have hunbound : ((Action.ofSpec action).bind arguments w.store (a.counter w)).1.lookup
        (c.name.getD "") = none := Environment.lookup_bind_eq_none hfree
    have hname := Environment.name_resolveCall hunbound s
    exact (congrArg s.resolve hname).trans (Store.resolve_literal ..)

theorem named_of_reached (hv : spec.validate = .ok ()) (hd : spec.CallsDeclared)
    (h : Automaton.Reached admits spec recording w₀ (a, w)) : a.table.CallsNamed spec := by
  refine (h.induction (P := fun a _ => a.table.CallsNamed spec) (named_build hv recording w₀) ?_).1
  exact fun a w b hb arguments hp _ _ => named_run hp hd hb

/-! ## What runs -/

theorem get?_isSome_iff_declares (hv : spec.validate = .ok ())
    (h : Automaton.Reached admits spec recording w₀ (a, w)) {name : String} :
    (a.actions.get? name).isSome ↔ spec.Declares name := by
  rw [h.frame.1, Registry.get?_ofSpec_isSome]
  refine exists_congr fun b => and_congr_right fun hb => ?_
  obtain ⟨n, hn, -⟩ := Spec.exists_name_of_validate hv hb
  simp [hn]

/-- A call runs exactly if there is none, or its name reads as that of a declared
    action. -/
theorem fireCall_ok_iff (hv : spec.validate = .ok ())
    (h : Automaton.Reached admits spec recording w₀ (a, w)) (r : Option (Reference Value)) :
    (∃ x, a.fireCall r w = .ok x) ↔
      ∀ q, r = some q → ∃ name, w.store.name? (q.resolve w.store).name = some name ∧
        spec.Declares name := by
  constructor
  · rintro ⟨⟨called, x⟩, hx⟩ q rfl
    rcases Automaton.fireCall_eq_ok_iff.1 hx with ⟨hq, -⟩ | ⟨q', hq, -, hf⟩
    · exact absurd hq (by simp)
    · obtain rfl := Option.some.inj hq
      obtain ⟨name, action, hn, hg, -⟩ := Automaton.fireReference_eq_ok_iff.1 hf
      exact ⟨name, hn, (get?_isSome_iff_declares hv h).1 (by simp [hg])⟩
  · intro hr
    cases r with
    | none => exact ⟨_, rfl⟩
    | some q =>
      obtain ⟨name, hn, hd⟩ := hr q rfl
      obtain ⟨action, hg⟩ := Option.isSome_iff_exists.1 ((get?_isSome_iff_declares hv h).2 hd)
      exact ⟨(true, _), Automaton.fireCall_eq_ok_iff.2
        (.inr ⟨q, rfl, rfl, Automaton.fireReference_eq_ok_iff.2 ⟨name, action, hn, hg, rfl⟩⟩)⟩

/-- **What an entry of a reached table calls** runs exactly if it reads as the name
    of a declared action.  If the calls that elementary actions add name declared
    actions, then everything runs that an entry calls. -/
theorem fires_iff_declared (hv : spec.validate = .ok ())
    (h : Automaton.Reached admits spec recording w₀ (a, w)) (he : e ∈ a.table.entries) :
    ((∃ x, a.firePrior e w = .ok x) ↔
      ∀ q, e.prior = some q → ∃ name, w.store.name? (q.resolve w.store).name = some name ∧
        spec.Declares name) ∧
    ((∃ x, a.firePosterior e w = .ok x) ↔
      ∀ q, e.posterior = some q → ∃ name, w.store.name? (q.resolve w.store).name = some name ∧
        spec.Declares name) ∧
    (spec.CallsDeclared →
      (∃ x, a.firePrior e w = .ok x) ∧ ∃ x, a.firePosterior e w = .ok x) := by
  refine ⟨fireCall_ok_iff hv h e.prior, fireCall_ok_iff hv h e.posterior, fun hd => ?_⟩
  have hnamed {q : Reference Value} (hq : q ∈ e.calls) :
      ∃ name, w.store.name? (q.resolve w.store).name = some name ∧ spec.Declares name := by
    obtain ⟨name, hn, hdecl⟩ := named_of_reached hv hd h e he q hq
    refine ⟨name, ?_, hdecl⟩
    rw [Reference.resolve, Reference.map, hn, Store.resolve_literal, Store.name?,
      Store.resolve_literal, Value.name?]
  constructor
  · exact (fireCall_ok_iff hv h e.prior).2 fun q hq => hnamed (Entry.mem_calls_of_prior hq)
  · exact (fireCall_ok_iff hv h e.posterior).2 fun q hq => hnamed (Entry.mem_calls_of_posterior hq)

/-! ## Calls that are added -/

/-- An action that adds a transition with a call of the given action. -/
def Spec.referAction (called : String) : Spec.Action :=
  (Action.named "refer").withStep
    (((Step.of .add "1" "2").consuming "a").before (.to called []))

/-- A transition that runs it. -/
def Spec.referring (called : String) : Spec where
  transitions := [(Transition.between "1" "2").before (.to "refer" [])]
  submachines := [(Submachine.named "m").withState (State.named "1").starting
    |>.withState (State.named "2").acceptingAt]
  actions := [referAction called]

/-- What it is after the action was run once. -/
def Spec.referred (called : String) : Automaton × World :=
  let x := Automaton.build (referring called) false .initial
  x.1.run (.ofSpec (referAction called)) [] x.2

/-- The entry that is added. -/
def Spec.referringEntry (called : String) : Entry Value :=
  ⟨some ⟨.literal called, []⟩, .state "1", .symbol "a", .state "2", none⟩

theorem reached_referred (called : String) :
    Automaton.Reached (fun _ _ => False) (Spec.referring called) false .initial
      (Spec.referred called) := by
  refine .single (.prior (e := ⟨some ⟨.literal "refer", []⟩, .state "1", .epsilon, .state "2",
    none⟩) ?_ (show _ = Except.ok (true, Spec.referred called) from ?_))
  · exact List.mem_singleton_self _
  · rfl

/-- An action that adds a call of itself. -/
theorem fires_referred : ∃ x,
    (Spec.referred "refer").1.firePrior (Spec.referringEntry "refer") (Spec.referred "refer").2 =
      .ok x := by
  have hv : (Spec.referring "refer").validate = .ok () := by decide
  refine ((fires_iff_declared hv (reached_referred "refer") (.tail _ (.head _))).2.2 ?_).1
  intro a ha e he _ c hc
  obtain rfl := List.mem_singleton.1 ha
  obtain rfl := List.mem_singleton.1 he
  obtain rfl := List.mem_singleton.1 hc
  exact ⟨⟨_, List.mem_singleton_self _, rfl⟩, List.not_mem_nil⟩

/-- An accepted description that adds a call of an action that is not declared. -/
theorem unknown_action_fired : (Spec.referring "ghost").validate = .ok () ∧
    ∃ a w e, Automaton.Reached (fun _ _ => False) (Spec.referring "ghost") false .initial (a, w) ∧
      e ∈ a.table.entries ∧ a.firePrior e w = .error (.unknownAction "ghost") :=
  ⟨by decide, (Spec.referred "ghost").1, (Spec.referred "ghost").2, Spec.referringEntry "ghost",
    reached_referred "ghost", .tail _ (.head _), rfl⟩

end AdaptiveAutomata
