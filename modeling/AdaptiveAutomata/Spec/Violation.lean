/-
  What can be wrong with a description.

  * `Violation` has a constructor for each rule that a description can break,
    with the names and positions that the report needs;
  * `Violation.message` is the report, `Violation.category` the part of the
    description that is at fault.
-/
import AdaptiveAutomata.Json.Codec

namespace AdaptiveAutomata

/-- The part of a description that is at fault. -/
inductive Category where
  /-- The transitions and their endpoints. -/
  | structural
  /-- The submachines and the calls of them. -/
  | submachine
  /-- The adaptive actions and the calls of them. -/
  | action
  /-- A transition that consumes in two ways. -/
  | transitionConflict
deriving DecidableEq

namespace Category

/-- The name of a category. -/
def name : Category → String
  | structural => "Structural"
  | submachine => "Submachine"
  | action => "Action"
  | transitionConflict => "TransitionConflict"

/-- The category of a name. -/
def ofName? (s : String) : Option Category :=
  [structural, submachine, action, transitionConflict].find? (·.name = s)

@[simp]
theorem ofName?_name (c : Category) : ofName? c.name = some c := by
  cases c <;> decide

/-- Categories, by name. -/
def json : Json.Codec Category := .words name ofName?

end Category

/-- Whether an adaptive action is called before or after its transition. -/
inductive Position where
  | prior
  | posterior
deriving DecidableEq

namespace Position

/-- The name of a position. -/
def name : Position → String
  | prior => "Pre"
  | posterior => "Post"

/-- The position of a name. -/
def ofName? (s : String) : Option Position := [prior, posterior].find? (·.name = s)

@[simp]
theorem ofName?_name (p : Position) : ofName? p.name = some p := by
  cases p <;> decide

/-- The word for a position in a report. -/
def text : Position → String
  | prior => "prior"
  | posterior => "posterior"

/-- Positions, by name. -/
def json : Json.Codec Position := .words name ofName?

end Position

/-- A broken rule.  Positions count from zero. -/
inductive Violation where
  | noTransitions
  | missingEndpoints (index : Nat)
  | noSubmachines
  | nonIntegerState (state : String)
  | anonymousSubmachine (index : Nat)
  | emptySubmachine (submachine : String)
  | invalidMainFlag (submachine value : String)
  | multipleMainSubmachines (submachine : String)
  | anonymousState (submachine : String)
  | invalidAcceptingFlag (submachine state value : String)
  | invalidStartFlag (submachine state value : String)
  | missingStartState (submachine : String)
  | multipleStartStates (submachine : String) (count : Nat)
  | missingAcceptingState (submachine : String)
  | symbolAndCall (index : Nat) (source target : String)
  | undefinedSubmachines (names : List String)
  | anonymousActionCall (index : Nat) (position : Position)
  | anonymousAction (index : Nat)
  | invalidVariableName (action variableName : String)
  | invalidGeneratorName (action generator : String)
  | emptyAction (action : String)
  | missingElementaryEndpoints (action : String) (step : Nat)
  | missingElementaryKind (action : String) (step : Nat)
  | invalidElementaryKind (action : String) (step : Nat) (kind : String)
  | undefinedAction (name : String)
deriving DecidableEq

namespace Violation

/-- The report of a violation. -/
def message : Violation → String
  | noTransitions => "The automaton has no transitions. Add at least one transition"
  | missingEndpoints index => s!"Transition #{index} lacks a source or target state"
  | noSubmachines => "The automaton has no submachines. Declare at least one submachine"
  | nonIntegerState state => s!"State '{state}' is not a positive integer identifier"
  | anonymousSubmachine index => s!"Submachine #{index} has no name"
  | emptySubmachine submachine => s!"Submachine '{submachine}' has no states"
  | invalidMainFlag submachine value =>
    s!"Submachine '{submachine}' has main flag '{value}', expected 'true'"
  | multipleMainSubmachines submachine =>
    s!"Submachine '{submachine}' is the second submachine marked as main; only one is allowed"
  | anonymousState submachine => s!"Submachine '{submachine}' has a state without a name"
  | invalidAcceptingFlag submachine state value =>
    s!"Submachine '{submachine}' has state '{state}' with accepting flag '{value}'" ++
      ", expected 'true'"
  | invalidStartFlag submachine state value =>
    s!"Submachine '{submachine}' has state '{state}' with start flag '{value}', expected 'true'"
  | missingStartState submachine => s!"Submachine '{submachine}' has no start state"
  | multipleStartStates submachine count =>
    s!"Submachine '{submachine}' has {count} start states, exactly one is required"
  | missingAcceptingState submachine => s!"Submachine '{submachine}' has no accepting states"
  | symbolAndCall index source target =>
    s!"Transition #{index} ({source} -> {target}) both consumes a symbol and calls a submachine"
  | undefinedSubmachines names => "Calls to undefined submachines: " ++ ", ".intercalate names
  | anonymousActionCall index position =>
    s!"Transition #{index} has a {position.text} adaptive function call without a name"
  | anonymousAction index => s!"Adaptive action #{index} has no name"
  | invalidVariableName action variableName =>
    s!"Adaptive action '{action}' declares variable '{variableName}' without the '?' prefix"
  | invalidGeneratorName action generator =>
    s!"Adaptive action '{action}' declares generator '{generator}' without the '*' suffix"
  | emptyAction action => s!"Adaptive action '{action}' has no elementary actions"
  | missingElementaryEndpoints action step =>
    s!"Adaptive action '{action}' has elementary action #{step} without source or target"
  | missingElementaryKind action step =>
    s!"Adaptive action '{action}' has elementary action #{step} without a type" ++
      " (add, remove or query)"
  | invalidElementaryKind action step kind =>
    s!"Adaptive action '{action}' has elementary action #{step} with invalid type '{kind}'"
  | undefinedAction name => s!"Adaptive function '{name}' is called but never defined"

/-- The part of the description that a violation is about. -/
def category : Violation → Category
  | noTransitions | missingEndpoints _ | noSubmachines | nonIntegerState _ => .structural
  | anonymousSubmachine _ | emptySubmachine _ | invalidMainFlag .. | multipleMainSubmachines _
  | anonymousState _ | invalidAcceptingFlag .. | invalidStartFlag .. | missingStartState _
  | multipleStartStates .. | missingAcceptingState _ | undefinedSubmachines _ => .submachine
  | symbolAndCall .. => .transitionConflict
  | anonymousActionCall .. | anonymousAction _ | invalidVariableName .. | invalidGeneratorName ..
  | emptyAction _ | missingElementaryEndpoints .. | missingElementaryKind ..
  | invalidElementaryKind .. | undefinedAction _ => .action

end Violation

end AdaptiveAutomata
