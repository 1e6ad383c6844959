/-
  Counts that describe a description.

  * `Spec.summarize` computes them for any description, well formed or not;
  * `Statistics.text` is the sentence that reports them.
-/
import AdaptiveAutomata.Json.Codec
import AdaptiveAutomata.Spec

namespace AdaptiveAutomata

/-- The counts. -/
structure Statistics where
  states : Nat
  transitions : Nat
  symbolTransitions : Nat
  epsilonTransitions : Nat
  submachineCalls : Nat
  actionCalls : Nat
  priorCalls : Nat
  posteriorCalls : Nat
  submachines : Nat
  actions : Nat
deriving DecidableEq

/-- The counts of a description.  A transition with both a symbol and a call
    counts neither as the one nor as the other. -/
def Spec.summarize (s : Spec) : Statistics where
  states := s.stateNames.length
  transitions := s.transitions.length
  symbolTransitions := s.transitions.countP fun t => t.symbol.isSome && t.call.isNone
  epsilonTransitions := s.transitions.countP fun t => t.symbol.isNone && t.call.isNone
  submachineCalls := s.transitions.countP fun t => t.symbol.isNone && t.call.isSome
  actionCalls := s.transitions.countP fun t => t.prior.isSome || t.posterior.isSome
  priorCalls := s.transitions.countP (·.prior.isSome)
  posteriorCalls := s.transitions.countP (·.posterior.isSome)
  submachines := s.submachines.length
  actions := s.actions.length

namespace Statistics

/-- No counts at all. -/
def zero : Statistics := ⟨0, 0, 0, 0, 0, 0, 0, 0, 0, 0⟩

/-- A count of things, `things` being the plural without its last letter. -/
def counted (n : Nat) (thing : String) : String :=
  toString n ++ " " ++ if n = 1 then thing else thing ++ "s"

/-- The counts in a sentence. -/
def text (s : Statistics) : String :=
  "The automaton has " ++ counted s.states "state" ++
  ", " ++ counted s.transitions "transition" ++
  " (" ++ counted s.symbolTransitions "transition" ++ " with symbol consumption" ++
  ", " ++ counted s.epsilonTransitions "epsilon transition" ++
  ", and " ++ counted s.submachineCalls "submachine call" ++
  "), " ++ counted s.submachines "submachine" ++
  ", " ++ counted s.actionCalls "adaptive function call" ++
  " (" ++ counted s.priorCalls "prior function" ++
  " and " ++ counted s.posteriorCalls "posterior function" ++
  "), and " ++ counted s.actions "adaptive action" ++ " defined."

open Json (Codec Field) in
/-- Counts in JSON. -/
def json : Codec Statistics := .record zero [
  .required "states" .count (·.states) fun a x => { x with states := a },
  .required "transitions" .count (·.transitions) fun a x => { x with transitions := a },
  .required "symbol_transitions" .count (·.symbolTransitions)
    fun a x => { x with symbolTransitions := a },
  .required "epsilon_transitions" .count (·.epsilonTransitions)
    fun a x => { x with epsilonTransitions := a },
  .required "submachine_calls" .count (·.submachineCalls)
    fun a x => { x with submachineCalls := a },
  .required "action_calls" .count (·.actionCalls) fun a x => { x with actionCalls := a },
  .required "pre_action_calls" .count (·.priorCalls) fun a x => { x with priorCalls := a },
  .required "post_action_calls" .count (·.posteriorCalls)
    fun a x => { x with posteriorCalls := a },
  .required "submachines" .count (·.submachines) fun a x => { x with submachines := a },
  .required "actions" .count (·.actions) fun a x => { x with actions := a }]

end Statistics

end AdaptiveAutomata
