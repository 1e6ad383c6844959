/-
  Descriptions of adaptive automata.

  An adaptive automaton is a pushdown machine split into submachines.  Its
  transitions consume a symbol or call a submachine, and may call an adaptive
  action before or after they are taken; an adaptive action is a list of
  elementary actions that look up, add and remove transitions.

  Whatever a well-formed description must have is still optional here, so that
  every description can be represented and its faults reported.

  * `Spec` is a whole description, `Spec.Transition`, `Spec.Submachine` and
    `Spec.Action` its parts;
  * `Consumption` says what a transition consumes;
  * `Spec.stateNames`, `Spec.seed` and `Spec.action?` are what the automaton needs
    to know of it as a whole.
-/
import AdaptiveAutomata.NameSet
import AdaptiveAutomata.StateId

namespace AdaptiveAutomata

/-- What an elementary action does. -/
inductive Kind where
  | add
  | remove
  | query
deriving DecidableEq, Repr

namespace Kind

/-- The word for a kind. -/
def text : Kind → String
  | add => "add"
  | remove => "remove"
  | query => "query"

/-- The kind that a word stands for. -/
def parse? (word : String) : Option Kind :=
  if word = "add" then some add
  else if word = "remove" then some remove
  else if word = "query" then some query
  else none

@[simp]
theorem parse?_text (k : Kind) : parse? k.text = some k := by
  cases k <;> decide

end Kind

/-- What a transition consumes. -/
inductive Consumption where
  | nothing
  | symbol (name : String)
  | call (submachine : String)
deriving DecidableEq

/-- A call wins over a symbol. -/
def Consumption.of : (symbol call : Option String) → Consumption
  | _, some submachine => .call submachine
  | some name, none => .symbol name
  | none, none => .nothing

namespace Spec

/-! ## Parts -/

/-- A call of an adaptive action. -/
structure Call where
  name : Option String
  arguments : List String
deriving DecidableEq

/-- A transition, with the calls made before and after it is taken. -/
structure Transition where
  source : Option String
  target : Option String
  symbol : Option String
  call : Option String
  prior : Option Call
  posterior : Option Call
deriving DecidableEq

/-- A state declared in a submachine. -/
structure State where
  name : Option String
  start : Option String
  accepting : Option String
deriving DecidableEq

/-- A submachine. -/
structure Submachine where
  name : Option String
  main : Option String
  states : List State
deriving DecidableEq

/-- An elementary action. -/
structure Step where
  kind : Option String
  source : Option String
  target : Option String
  symbol : Option String
  call : Option String
  prior : Option Call
  posterior : Option Call
deriving DecidableEq

/-- An adaptive action: the names it binds and the elementary actions it
    takes. -/
structure Action where
  name : Option String
  parameters : List String
  freeVariables : List String
  generators : List String
  steps : List Step
deriving DecidableEq

end Spec

/-- A description of an adaptive automaton. -/
structure Spec where
  transitions : List Spec.Transition
  submachines : List Spec.Submachine
  actions : List Spec.Action
deriving DecidableEq

namespace Spec

/-! ## Signs -/

/-- What the name of a variable starts with. -/
def variableSign : Char := '?'

/-- What the name of a generator ends with. -/
def generatorSign : Char := '*'

/-- The one value of a flag. -/
def flag : String := "true"

/-! ## Building descriptions

A fluent vocabulary: start with what a part cannot do without, then add to it. -/

def Call.to (name : String) (arguments : List String) : Call := ⟨some name, arguments⟩

namespace Transition

def blank : Transition := ⟨none, none, none, none, none, none⟩

/-- A transition from one state to another that consumes nothing. -/
def between (source target : String) : Transition :=
  { blank with source := some source, target := some target }

def consuming (t : Transition) (symbol : String) : Transition := { t with symbol := some symbol }

def calling (t : Transition) (submachine : String) : Transition := { t with call := some submachine }

def before (t : Transition) (call : Call) : Transition := { t with prior := some call }

def after (t : Transition) (call : Call) : Transition := { t with posterior := some call }

def consumption (t : Transition) : Consumption := .of t.symbol t.call

/-- Its source and its target, where it has them. -/
def endpoints (t : Transition) : List String := t.source.toList ++ t.target.toList

/-- Its calls of adaptive actions, the prior one first. -/
def calls (t : Transition) : List Call := t.prior.toList ++ t.posterior.toList

end Transition

namespace State

def blank : State := ⟨none, none, none⟩

/-- A state. -/
def named (name : String) : State := { blank with name := some name }

def starting (s : State) : State := { s with start := some flag }

def acceptingAt (s : State) : State := { s with accepting := some flag }

end State

namespace Submachine

def blank : Submachine := ⟨none, none, []⟩

def named (name : String) : Submachine := { blank with name := some name }

def asMain (m : Submachine) : Submachine := { m with main := some flag }

def withState (m : Submachine) (s : State) : Submachine := { m with states := m.states ++ [s] }

/-- Whether it carries a main flag, of whatever value. -/
def isMain (m : Submachine) : Bool := m.main.isSome

/-- The states that carry a start flag. -/
def startStates (m : Submachine) : List State := m.states.filter (·.start.isSome)

/-- The states that carry an accepting flag. -/
def acceptingStates (m : Submachine) : List State := m.states.filter (·.accepting.isSome)

end Submachine

namespace Step

def blank : Step := ⟨none, none, none, none, none, none, none⟩

/-- An elementary action on transitions from one state to another. -/
def of (kind : Kind) (source target : String) : Step :=
  { blank with kind := some kind.text, source := some source, target := some target }

def consuming (s : Step) (symbol : String) : Step := { s with symbol := some symbol }

def calling (s : Step) (submachine : String) : Step := { s with call := some submachine }

def before (s : Step) (call : Call) : Step := { s with prior := some call }

def after (s : Step) (call : Call) : Step := { s with posterior := some call }

/-- The kind, if it is one of the three words. -/
def kind? (s : Step) : Option Kind := s.kind.bind Kind.parse?

def consumption (s : Step) : Consumption := .of s.symbol s.call

end Step

namespace Action

def blank : Action := ⟨none, [], [], [], []⟩

def named (name : String) : Action := { blank with name := some name }

def withParameter (a : Action) (name : String) : Action :=
  { a with parameters := a.parameters ++ [name] }

def withVariable (a : Action) (name : String) : Action :=
  { a with freeVariables := a.freeVariables ++ [name] }

def withGenerator (a : Action) (name : String) : Action :=
  { a with generators := a.generators ++ [name] }

def withStep (a : Action) (s : Step) : Action := { a with steps := a.steps ++ [s] }

end Action

def empty : Spec := ⟨[], [], []⟩

/-! ## The description as a whole -/

/-- The names of all declared states, in the order of submachines and
    states. -/
def declaredStates (s : Spec) : List String :=
  s.submachines.flatMap fun m => m.states.filterMap (·.name)

/-- The distinct names of states, in sorted order. -/
def stateNames (s : Spec) : List String :=
  NameSet.ofList (s.transitions.flatMap (·.endpoints) ++ s.declaredStates)

/-- The first identifier that is not one of a declared state: one past the
    greatest of them. -/
def seed (s : Spec) : StateId :=
  match (s.stateNames.filterMap StateId.parse?).max? with
  | some greatest => greatest + 1
  | none => 1

/-- The first adaptive action with the given name. -/
def action? (s : Spec) (name : String) : Option Action :=
  s.actions.find? (·.name = some name)

end Spec

end AdaptiveAutomata
