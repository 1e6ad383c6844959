/-
  Submachines, as an automaton knows them: their states, the one in which they
  start and those in which they accept.

  * `Submachine.ofSpec` is the submachine of a description;
  * `Submachine.isAccepting` asks for a state.
-/
import AdaptiveAutomata.Json.Codec
import AdaptiveAutomata.Spec
import AdaptiveAutomata.Value

namespace AdaptiveAutomata

/-- A submachine with its states. -/
structure Submachine (α : Type) where
  name : String
  states : List α
  initial : Option α
  accepting : List α
deriving DecidableEq

namespace Submachine

/-- The submachine of a description.  States without a name are left out. -/
def ofSpec (m : Spec.Submachine) : Submachine Value where
  name := m.name.getD ""
  states := (m.states.filterMap (·.name)).map .state
  initial := (m.startStates.filterMap (·.name)).head?.map .state
  accepting := (m.acceptingStates.filterMap (·.name)).map .state

/-- Whether a state is one of the accepting states. -/
def isAccepting (m : Submachine Value) (state : Value) : Bool :=
  m.accepting.any fun q => q.outline = state.outline

/-- Change every state. -/
def map {α β : Type} (f : α → β) (m : Submachine α) : Submachine β :=
  ⟨m.name, m.states.map f, m.initial.map f, m.accepting.map f⟩

open Json (Codec Field) in
/-- Submachines, given the codec of their states. -/
def json {α : Type} (c : Codec α) : Codec (Submachine α) := .record ⟨"", [], none, []⟩ [
  .required "name" .text (·.name) fun a x => { x with name := a },
  .required "states" (.list c) (·.states) fun a x => { x with states := a },
  .nullable "initial" c (·.initial) fun a x => { x with initial := a },
  .required "accepting" (.list c) (·.accepting) fun a x => { x with accepting := a }]

end Submachine

end AdaptiveAutomata
