/-
  Adaptive automata at work.

  An automaton holds its own table and history.  Cells and counters live in a
  world outside: two automata that are copies of one another hold the same
  cells and draw identifiers from the same counter.

  * `World` has the cells, the counters and the clock;
  * `Automaton.build` makes an automaton of a description;
  * `Automaton.fire` runs an adaptive action by name, `fireReference` one that is
    called by a reference, `firePrior` and `firePosterior` those of an entry;
  * `FireError` says why nothing was run.
-/
import AdaptiveAutomata.History
import AdaptiveAutomata.Registry
import AdaptiveAutomata.Submachine

namespace AdaptiveAutomata

/-! ## The world -/

/-- What automata share. -/
structure World where
  /-- The cells. -/
  store : Store
  /-- The sources of state identifiers, by place. -/
  counters : Array Counter
  /-- The present time. -/
  now : Instant

namespace World

def counter (w : World) (place : Nat) : Counter := w.counters[place]?.getD .initial

def setCounter (w : World) (place : Nat) (c : Counter) : World :=
  { w with counters := w.counters.setIfInBounds place c }

theorem counter_setCounter_self {w : World} {place : Nat} (h : place < w.counters.size)
    (c : Counter) : (w.setCounter place c).counter place = c := by
  simp [setCounter, counter, h]

theorem counter_setCounter_of_ne {i j : Nat} (h : i ≠ j) (w : World) (c : Counter) :
    (w.setCounter i c).counter j = w.counter j := by
  simp [setCounter, counter, h]

end World

/-! ## Automata -/

/-- An adaptive automaton. -/
structure Automaton where
  table : Table Value
  submachines : List (Submachine Value)
  /-- The name of the main submachine, if one was flagged. -/
  main : Option String
  actions : Registry
  /-- The place of its source of state identifiers. -/
  generator : Nat
  /-- What was done, if it is recorded. -/
  history : Option (History Value)

/-- Why an adaptive action was not run. -/
inductive FireError where
  /-- No action has this name. -/
  | unknownAction (name : String)
  /-- The name of the called action is not known yet. -/
  | unresolvedName (reference : String)
deriving DecidableEq

def FireError.message : FireError → String
  | unknownAction name => s!"Adaptive action '{name}' is not registered"
  | unresolvedName reference => s!"Action reference {reference} does not resolve to a name"

/-! ## Transitions of a description -/

/-- A call of an adaptive action by its literal names. -/
def Reference.ofSpec (c : Spec.Call) : Reference Value := .literal (c.name.getD "") c.arguments

/-- The label of a transition that consumes what is given. -/
def Consumption.toLabel : Consumption → Value
  | nothing => .epsilon
  | symbol name => .symbol name
  | call submachine => .call (.literal submachine)

/-- The entry of a transition. -/
def Entry.ofSpec (t : Spec.Transition) : Entry Value where
  prior := t.prior.map .ofSpec
  source := .state (t.source.getD "")
  label := t.consumption.toLabel
  target := .state (t.target.getD "")
  posterior := t.posterior.map .ofSpec

namespace Automaton

/-! ## Building -/

/-- Make an automaton, with a counter of its own that starts past the declared
    states.  The last submachine with a main flag is the main one. -/
def build (spec : Spec) (recording : Bool) (w : World) : Automaton × World :=
  ({ table := .ofEntries w.store (spec.transitions.map .ofSpec)
     submachines := spec.submachines.map .ofSpec
     main := ((spec.submachines.filter (·.isMain)).filterMap (·.name)).getLast?
     actions := .ofSpec spec
     generator := w.counters.size
     history := if recording then some .empty else none },
   { w with counters := w.counters.push ⟨spec.seed⟩ })

def submachine? (a : Automaton) (name : String) : Option (Submachine Value) :=
  a.submachines.find? (·.name = name)

def mainSubmachine? (a : Automaton) : Option (Submachine Value) := a.main.bind a.submachine?

/-- The counter from which identifiers are drawn. -/
def counter (a : Automaton) (w : World) : Counter := w.counter a.generator

/-- Draw an identifier. -/
def mint (a : Automaton) (w : World) : StateId × World :=
  let (id, c) := (a.counter w).mint
  (id, w.setCounter a.generator c)

/-! ## Firing -/

def run (action : Action) (arguments : List Value) (a : Automaton) (w : World) :
    Automaton × World :=
  let x := action.execute arguments ⟨a.table, w.store⟩ (a.counter w)
  let steps := x.outcomes.map (Step.ofOutcome action.name w.now)
  ({ a with table := x.scene.table, history := a.history.map (·.recordAll steps) },
   { w with store := x.scene.store }.setCounter a.generator x.counter)

/-- Run the adaptive action of the given name. -/
def fire (name : String) (arguments : List Value) (a : Automaton) (w : World) :
    Except FireError (Automaton × World) :=
  match a.actions.get? name with
  | none => .error (.unknownAction name)
  | some action => .ok (a.run action arguments w)

/-- Run the adaptive action that a reference calls. -/
def fireReference (r : Reference Value) (a : Automaton) (w : World) :
    Except FireError (Automaton × World) :=
  let r := r.resolve w.store
  match w.store.name? r.name with
  | none => .error (.unresolvedName (w.store.text r.toValue))
  | some name => a.fire name r.arguments w

/-- Run the adaptive action that an optional reference calls, and say whether
    there was one. -/
def fireCall (r : Option (Reference Value)) (a : Automaton) (w : World) :
    Except FireError (Bool × Automaton × World) :=
  match r with
  | none => .ok (false, a, w)
  | some r => (a.fireReference r w).map (true, ·)

/-- Run what an entry calls before the transition. -/
def firePrior (e : Entry Value) (a : Automaton) (w : World) :
    Except FireError (Bool × Automaton × World) := a.fireCall e.prior w

/-- Run what an entry calls after the transition. -/
def firePosterior (e : Entry Value) (a : Automaton) (w : World) :
    Except FireError (Bool × Automaton × World) := a.fireCall e.posterior w

/-- Put other entries in the table, and set the counter. -/
def restore (entries : List (Entry Value)) (next : StateId) (a : Automaton) (w : World) :
    Automaton × World :=
  ({ a with table := .ofEntries w.store entries }, w.setCounter a.generator ⟨next⟩)

end Automaton

end AdaptiveAutomata
