/-
  What is recorded.

  An automaton that records writes down every elementary action that it takes.  A run of an
  adaptive action takes all of them, whatever comes of the ones before, so its record is as
  long as its declaration.  Nothing that an automaton does depends on the record.

  * `Spec.lastAction?` is the one that counts of the actions with one name;
  * `Action.Records` says what is left behind by elementary actions that are taken in turn;
  * `Request.recorded_or_unchanged`: a request runs the last action that has the name it
    calls and records it, or leaves all as it was;
  * `Request.perform_forget`: an automaton that does not record does the same;
  * `Event` is a request or something that happens around the automaton;
  * `recorded_of_run`: both hold at any moment of a run.
-/
import AdaptiveAutomata.Proofs.Minting
import AdaptiveAutomata.Proofs.WellFormed
import Mathlib.Data.List.Find

namespace AdaptiveAutomata

/-! ## Declared actions -/

/-- The last adaptive action with the given name. -/
def Spec.lastAction? (s : Spec) (name : String) : Option Spec.Action :=
  s.actions.reverse.find? (·.name = some name)

/-- The action that is registered under a name is the last one that is declared with it. -/
theorem Registry.get?_ofSpec {spec : Spec} (h : spec.WellFormed) (name : String) :
    (ofSpec spec).get? name = (spec.lastAction? name).map .ofSpec := by
  have hname (b : Spec.Action) (hb : b ∈ spec.actions.reverse) :
      decide ((Action.ofSpec b).name = name) = decide (b.name = some name) := by
    obtain ⟨n, hn, -⟩ := (h.actions b (List.mem_reverse.1 hb)).name
    simp [Action.ofSpec, hn]
  rw [ofSpec, get?_foldl, ← List.map_reverse, List.find?_map, Spec.lastAction?]
  exact (Option.or_none).trans (congrArg _ (List.find?_congr hname))

namespace Action

/-! ## Elementary actions in turn -/

/-- What declared elementary actions leave behind if each is taken when its turn comes: one
    step for each, and the scene after the last. -/
inductive Records (env : Environment) (name : String) (time : Instant) :
    List Spec.Step → Scene → List (Step Value) → Scene → Prop
  | nil {σ : Scene} : Records env name time [] σ [] σ
  | cons {e : Spec.Step} {rest : List Spec.Step} {σ σ' : Scene} {new : List (Step Value)}
      {kind : Kind} (hk : e.kind = some kind.text)
      (h : Records env name time rest (σ.dispatch kind (env.resolveStep σ.store e)).2 new σ') :
      Records env name time (e :: rest) σ
        (.ofOutcome name time (σ.dispatch kind (env.resolveStep σ.store e)).1 :: new) σ'

variable {env : Environment} {name : String} {time : Instant} {steps : List Spec.Step}
  {σ σ' : Scene} {new : List (Step Value)}

theorem kind_dispatch (σ : Scene) (kind : Kind) (e : Entry Value) :
    (σ.dispatch kind e).1.kind = kind := by
  cases kind <;> rfl

/-- The steps have the name of the action and the kinds that are declared. -/
theorem Records.kinds (h : Records env name time steps σ new σ') :
    new.map (fun x => (x.action, some x.kind.text)) = steps.map fun e => (name, e.kind) := by
  induction h with
  | nil => rfl
  | cons hk _ ih => rw [List.map_cons, List.map_cons, ih, hk, Step.ofOutcome, kind_dispatch]

/-- **If all kinds are known**, none of the elementary actions is left out. -/
theorem records_runSteps (hs : ∀ e ∈ steps, e.WellFormed) (σ : Scene) :
    Records env name time steps σ
      ((runSteps env (steps.filterMap fun e => e.kind?.map (·, e)) σ).1.map
        (Step.ofOutcome name time))
      (runSteps env (steps.filterMap fun e => e.kind?.map (·, e)) σ).2 := by
  induction steps generalizing σ with
  | nil => exact .nil
  | cons e rest ih =>
    obtain ⟨he, hrest⟩ := List.forall_mem_cons.1 hs
    obtain ⟨kind, hk⟩ : ∃ kind : Kind, e.kind = some kind.text := by
      rcases he.kind with hk | hk | hk
      · exact ⟨.add, hk⟩
      · exact ⟨.remove, hk⟩
      · exact ⟨.query, hk⟩
    have hkind : e.kind? = some kind := by
      rw [Spec.Step.kind?, hk, Option.bind_some, Kind.parse?_text]
    rw [List.filterMap_cons, hkind]
    exact .cons hk (ih hrest _)

end Action

/-- **A run of an action** takes all that is declared, and the steps come at the end of the
    history. -/
theorem Automaton.records_run {a : Automaton} {h : History Value} {b : Spec.Action}
    {name : String} (hb : b.WellFormed) (hn : b.name = some name) (hh : a.history = some h)
    (arguments : List Value) (w : World) :
    ∃ new, (a.run (.ofSpec b) arguments w).1.history = some ⟨h.steps ++ new⟩ ∧
      Action.Records ((Action.ofSpec b).bind arguments w.store (a.counter w)).1 name w.now b.steps
        ⟨a.table, ((Action.ofSpec b).bind arguments w.store (a.counter w)).2.1⟩ new
        ⟨(a.run (.ofSpec b) arguments w).1.table, (a.run (.ofSpec b) arguments w).2.store⟩ := by
  have hname : (Action.ofSpec b).name = name := by rw [Action.ofSpec, hn, Option.getD_some]
  refine ⟨_, ?_, Action.records_runSteps hb.steps _⟩
  rw [Automaton.run, hh, Option.map_some, hname]
  exact congrArg some (congrArg History.mk (History.steps_recordAll h _))

/-! ## One request -/

/-- The name and the arguments that a reference calls, if the name is known. -/
def Reference.call? (s : Store) (r : Reference Value) : Option (String × List Value) :=
  (s.name? (r.resolve s).name).map (·, (r.resolve s).arguments)

namespace Request

variable {q : Request} {x : Automaton × World} {spec : Spec} {h : History Value}

/-- The name that is called on a request, with the arguments. -/
def call? (x : Automaton × World) : Request → Option (String × List Value)
  | fire name arguments => some (name, arguments)
  | reference r => r.call? x.2.store
  | prior current => (current.entry? x.1).bind fun e => e.prior.bind (·.call? x.2.store)
  | posterior current => (current.entry? x.1).bind fun e => e.posterior.bind (·.call? x.2.store)

/-- What is run on a request is what is registered under the name that is called. -/
theorem action?_eq (q : Request) (x : Automaton × World) :
    q.action? x = (q.call? x).bind fun call => (x.1.actions.get? call.1).map (·, call.2) := by
  have hcalled (r : Reference Value) : x.1.called x.2 r =
      (r.call? x.2.store).bind fun call => (x.1.actions.get? call.1).map (·, call.2) := by
    rw [Automaton.called, Reference.call?]
    cases x.2.store.name? (r.resolve x.2.store).name <;> rfl
  cases q with
  | fire name arguments => rfl
  | reference r => exact hcalled r
  | prior current | posterior current =>
    simp only [action?, call?, Option.bind_assoc, ← hcalled]

/-- A request is carried out and recorded: the last action that is declared with the name it
    calls takes all its elementary actions in turn, and a step for each comes at the end of
    the history. -/
structure Recorded (spec : Spec) (h : History Value) (q : Request) (x : Automaton × World)
    (name : String) (arguments : List Value) (b : Spec.Action) (new : List (Step Value)) :
    Prop where
  call : q.call? x = some (name, arguments)
  action : spec.lastAction? name = some b
  answer : (q.perform x).1 = .ok true
  history : (q.perform x).2.1.history = some ⟨h.steps ++ new⟩
  kinds : new.map (fun step => (step.action, some step.kind.text)) =
    b.steps.map fun e => (name, e.kind)
  turns : Action.Records
    ((Action.ofSpec b).bind arguments x.2.store (x.1.counter x.2)).1 name x.2.now b.steps
    ⟨x.1.table, ((Action.ofSpec b).bind arguments x.2.store (x.1.counter x.2)).2.1⟩ new
    ⟨(q.perform x).2.1.table, (q.perform x).2.2.store⟩

/-- **A request** to an automaton that records is carried out and recorded, or no action is
    declared with the name that it calls, and all stays as it was. -/
theorem recorded_or_unchanged (hs : spec.WellFormed) (ha : x.1.actions = .ofSpec spec)
    (hh : x.1.history = some h) (q : Request) :
    (∃ name arguments b new, Recorded spec h q x name arguments b new) ∨
      (∀ name arguments, q.call? x = some (name, arguments) → spec.lastAction? name = none) ∧
        (q.perform x).1 ≠ .ok true ∧ (q.perform x).2 = x := by
  have haction := action?_eq q x
  simp only [ha, Registry.get?_ofSpec hs] at haction
  cases hq : q.action? x with
  | none =>
    -- a name that is called and not registered is not declared
    refine .inr ⟨fun name arguments hc => ?_, (perform_of_action?_none hq).symm⟩
    rw [hq, hc, Option.bind_some, eq_comm, Option.map_eq_none_iff, Option.map_eq_none_iff] at haction
    exact haction
  | some call =>
    rw [hq] at haction
    obtain ⟨⟨name, arguments⟩, hc, hfound⟩ := Option.bind_eq_some_iff.1 haction.symm
    obtain ⟨action, hget, rfl⟩ := Option.map_eq_some_iff.1 hfound
    obtain ⟨b, hb, rfl⟩ := Option.map_eq_some_iff.1 hget
    have hwf := hs.actions b (List.mem_reverse.1 (List.mem_of_find?_eq_some hb))
    have hn : b.name = some name := by simpa using List.find?_some hb
    obtain ⟨new, hhistory, hturns⟩ := Automaton.records_run hwf hn hh arguments x.2
    have hperform := perform_of_action? hq
    refine .inl ⟨name, arguments, b, new, hc, hb, ?_, ?_, hturns.kinds, ?_⟩ <;> rw [hperform]
    · exact hhistory
    · exact hturns

end Request

/-! ## Without a record -/

/-- The automaton without its history. -/
def Automaton.unrecorded (a : Automaton) : Automaton := { a with history := none }

/-- What is left behind, without the history. -/
def Automaton.forget (x : Automaton × World) : Automaton × World := (x.1.unrecorded, x.2)

namespace Automaton

theorem fire_forget (name : String) (arguments : List Value) (a : Automaton) (w : World) :
    a.unrecorded.fire name arguments w = (a.fire name arguments w).map forget := by
  unfold fire
  rw [show a.unrecorded.actions = a.actions from rfl]
  cases a.actions.get? name <;> rfl

theorem fireReference_forget (r : Reference Value) (a : Automaton) (w : World) :
    a.unrecorded.fireReference r w = (a.fireReference r w).map forget := by
  simp only [fireReference]
  cases w.store.name? (r.resolve w.store).name with
  | none => rfl
  | some name => exact fire_forget name _ a w

theorem fireCall_forget (o : Option (Reference Value)) (a : Automaton) (w : World) :
    a.unrecorded.fireCall o w = (a.fireCall o w).map fun y => (y.1, forget y.2) := by
  cases o with
  | none => rfl
  | some r =>
    rw [fireCall, fireCall, fireReference_forget]
    cases a.fireReference r w <;> rfl

end Automaton

namespace Request

open Automaton (forget)

theorem outcome_forget (q : Request) (x : Automaton × World) :
    q.outcome (forget x) = (q.outcome x).map fun y => (y.1, forget y.2) := by
  have hcurrent (current : Current)
      (f : Entry Value → Automaton → World → Except FireError (Bool × Automaton × World))
      (hf : ∀ e a w, f e a.unrecorded w = (f e a w).map fun y => (y.1, forget y.2)) :
      current.fire f (forget x) = (current.fire f x).map fun y => (y.1, forget y.2) := by
    have hentry : current.entry? (forget x).1 = current.entry? x.1 := by cases current <;> rfl
    rw [Current.fire, Current.fire, hentry]
    cases current.entry? x.1 with
    | none => rfl
    | some e => exact hf e x.1 x.2
  cases q with
  | fire name arguments =>
    rw [outcome, outcome, forget, Automaton.fire_forget]
    cases x.1.fire name arguments x.2 <;> rfl
  | reference r =>
    rw [outcome, outcome, forget, Automaton.fireReference_forget]
    cases x.1.fireReference r x.2 <;> rfl
  | prior current => exact hcurrent current _ fun e => Automaton.fireCall_forget e.prior
  | posterior current => exact hcurrent current _ fun e => Automaton.fireCall_forget e.posterior

/-- **Without a record** a request has the same answer and leaves the same behind. -/
theorem perform_forget (q : Request) (x : Automaton × World) :
    q.perform (forget x) = ((q.perform x).1, forget (q.perform x).2) := by
  rw [perform, perform, outcome_forget]
  cases q.outcome x <;> rfl

theorem isSome_history_perform (q : Request) (x : Automaton × World) :
    (q.perform x).2.1.history.isSome = x.1.history.isSome := by
  cases hq : q.action? x with
  | none => rw [(perform_of_action?_none hq).1]
  | some call => rw [perform_of_action? hq, Automaton.run, Option.isSome_map]

end Request

/-! ## Whole runs -/

open Automaton (forget)

/-- Something is asked of an automaton, or something happens around it. -/
inductive Event where
  | request (q : Request)
  | outside (change : World → World)

namespace Event

/-- The answers to what is asked in a run, and what the run leaves behind. -/
def happenAll : List Event → Automaton × World →
    List (Except FireError Bool) × Automaton × World
  | [], x => ([], x)
  | request q :: es, x =>
    let (answer, x) := q.perform x
    let (answers, x) := happenAll es x
    (answer :: answers, x)
  | outside change :: es, x => happenAll es (x.1, change x.2)

theorem happenAll_forget (es : List Event) (x : Automaton × World) :
    happenAll es (forget x) = ((happenAll es x).1, forget (happenAll es x).2) := by
  induction es generalizing x with
  | nil => rfl
  | cons e es ih =>
    cases e with
    | request q => simp only [happenAll, q.perform_forget, ih]
    | outside change => exact ih (x.1, change x.2)

/-- A run leaves the actions of an automaton, and whether it records. -/
theorem frame_happenAll (es : List Event) (x : Automaton × World) :
    (happenAll es x).2.1.actions = x.1.actions ∧
      (happenAll es x).2.1.history.isSome = x.1.history.isSome := by
  induction es generalizing x with
  | nil => exact ⟨rfl, rfl⟩
  | cons e es ih =>
    cases e with
    | request q =>
      obtain ⟨hactions, hhistory⟩ := ih (q.perform x).2
      exact ⟨hactions.trans (q.frame_perform x).2.1, hhistory.trans (q.isSome_history_perform x)⟩
    | outside change => exact ih (x.1, change x.2)

end Event

/-- **Recording** in the course of a run of an accepted description.

    * An automaton that does not record gives the same answers, and is left in the same world
      with the same table, as one that records.
    * At any moment the next request is carried out and recorded, with one step for each
      elementary action of the last action that has the name, after all that was recorded
      before; or no action has the name, and all stays as it was.  It stays so whenever the
      answer is an error. -/
theorem recorded_of_run {spec : Spec} (hv : spec.validate = .ok ()) (w₀ : World)
    {es : List Event} {answers : List (Except FireError Bool)} {x : Automaton × World}
    (hx : Event.happenAll es (Automaton.build spec true w₀) = (answers, x)) :
    Event.happenAll es (Automaton.build spec false w₀) = (answers, forget x) ∧
    ∃ h, x.1.history = some h ∧
      ∀ q : Request,
        ((∃ name arguments b new, q.Recorded spec h x name arguments b new) ∨
          (∀ name arguments, q.call? x = some (name, arguments) → spec.lastAction? name = none) ∧
            (q.perform x).1 ≠ .ok true ∧ (q.perform x).2 = x) ∧
        ∀ e, (q.perform x).1 = .error e → (q.perform x).2 = x := by
  have hs := (Spec.validate_iff_wellFormed spec).1.1 hv
  have hplain := Event.happenAll_forget es (Automaton.build spec true w₀)
  have hframe := Event.frame_happenAll es (Automaton.build spec true w₀)
  rw [hx] at hplain hframe
  obtain ⟨h, hh⟩ := Option.isSome_iff_exists.1 hframe.2
  refine ⟨hplain, h, hh, fun q => ?_⟩
  have hq := Request.recorded_or_unchanged hs hframe.1 hh q
  refine ⟨hq, fun e he => ?_⟩
  rcases hq with ⟨_, _, _, _, hr⟩ | ⟨-, -, hsame⟩
  · rw [hr.answer] at he
    cases he
  · exact hsame

/-! ## A run that is recorded -/

/-- An action that looks for a transition that may not be there, then goes on. -/
def Spec.probeAction : Spec.Action :=
  (Action.named "probe").withVariable "?x" |>.withGenerator "g*"
    |>.withStep ((Step.of .query "1" "?x").consuming "c")
    |>.withStep ((Step.of .add "2" "g*").consuming "b")
    |>.withStep ((Step.of .remove "1" "?x").consuming "a")

/-- Two actions are declared with one name. -/
def Spec.probing : Spec where
  transitions := [(Transition.between "1" "2").consuming "a",
    (Transition.between "2" "1").after (.to "probe" [])]
  submachines := [(Submachine.named "m").withState (State.named "1").starting
    |>.withState (State.named "2").acceptingAt]
  actions := [(Action.named "probe").withStep (Step.of .add "1" "1"), probeAction]

/-- The first query of the action finds nothing, and what comes after it is done and recorded
    all the same; an action that is not declared leaves no record. -/
theorem recorded_probing : Spec.probing.validate = .ok () ∧ ∃ x h,
    Event.happenAll [.request (.posterior (.stored 1)), .request (.fire "seek" [])]
      (Automaton.build Spec.probing true .initial) =
        ([.ok true, .error (.unknownAction "seek")], x) ∧
    Event.happenAll [.request (.posterior (.stored 1)), .request (.fire "seek" [])]
      (Automaton.build Spec.probing false .initial) =
        ([.ok true, .error (.unknownAction "seek")], forget x) ∧
    x.1.history = some h ∧
    h.steps.map (fun step => (step.kind, step.matched)) =
      [(.query, false), (.add, true), (.remove, true)] ∧
    ∃ new, (Request.perform (.fire "probe" []) x).2.1.history = some ⟨h.steps ++ new⟩ ∧
      new.map (fun step => (step.action, some step.kind.text)) =
        [("probe", some "query"), ("probe", some "add"), ("probe", some "remove")] := by
  have hv : Spec.probing.validate = .ok () := by decide
  have hx : Event.happenAll [.request (.posterior (.stored 1)), .request (.fire "seek" [])]
      (Automaton.build Spec.probing true .initial) =
        ([.ok true, .error (.unknownAction "seek")], _) := rfl
  obtain ⟨hplain, h, hh, hnext⟩ := recorded_of_run hv .initial hx
  refine ⟨hv, _, h, hx, hplain, hh, ?_, ?_⟩
  · obtain rfl := Option.some.inj hh
    rfl
  · rcases (hnext (.fire "probe" [])).1 with ⟨name, arguments, b, new, hr⟩ | ⟨hnone, -⟩
    · obtain ⟨rfl, -⟩ := Prod.mk.inj (Option.some.inj hr.call)
      obtain rfl : Spec.probeAction = b := Option.some.inj hr.action
      exact ⟨new, hr.history, hr.kinds⟩
    · cases hnone "probe" [] rfl

end AdaptiveAutomata
