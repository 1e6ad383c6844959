/-
  The JSON form of descriptions.

  Each record has its fields listed once, in the order in which they are
  written.  An optional field that a description rarely has is left out when
  missing; the endpoints and names, which a well-formed description always has,
  are written as `null`.

  * `Spec.json` is the codec of a whole description, with one codec for each of
    its parts beside it;
  * `Spec.toJson` and `Spec.ofJson` are its text with a line for each item, and
    the reader of any of its texts.
-/
import AdaptiveAutomata.Json.Codec
import AdaptiveAutomata.Spec

namespace AdaptiveAutomata

open Json (Codec Field)

/-- Kinds, by their words. -/
def Kind.json : Codec Kind := .words Kind.text Kind.parse?

namespace Spec

/-- Calls of adaptive actions.  A list of arguments may also go by the name of
    a single one. -/
def Call.json : Codec Call := .record ⟨none, []⟩ [
  .nullable "name" .text (·.name) fun a x => { x with name := a },
  (Field.defaulted "parameters" (.list .text) (·.arguments)
    fun a x => { x with arguments := a }).alsoCalled "parameter"]

/-- Transitions. -/
def Transition.json : Codec Transition := .record .blank [
  .nullable "from" .text (·.source) fun a x => { x with source := a },
  .nullable "to" .text (·.target) fun a x => { x with target := a },
  .omitted "symbol" .text (·.symbol) fun a x => { x with symbol := a },
  .omitted "call" .text (·.call) fun a x => { x with call := a },
  .omitted "preAdaptiveFunction" Call.json (·.prior) fun a x => { x with prior := a },
  .omitted "postAdaptiveFunction" Call.json (·.posterior) fun a x => { x with posterior := a }]

/-- States. -/
def State.json : Codec State := .record .blank [
  .nullable "name" .text (·.name) fun a x => { x with name := a },
  .omitted "start" .text (·.start) fun a x => { x with start := a },
  .omitted "accepting" .text (·.accepting) fun a x => { x with accepting := a }]

/-- Submachines. -/
def Submachine.json : Codec Submachine := .record .blank [
  .nullable "name" .text (·.name) fun a x => { x with name := a },
  .omitted "main" .text (·.main) fun a x => { x with main := a },
  .defaulted "states" (.list State.json) (·.states) fun a x => { x with states := a }]

/-- Elementary actions. -/
def Step.json : Codec Step := .record .blank [
  (Field.nullable "type" .text (·.kind) fun a x => { x with kind := a }).withDefault,
  .nullable "from" .text (·.source) fun a x => { x with source := a },
  .nullable "to" .text (·.target) fun a x => { x with target := a },
  .omitted "symbol" .text (·.symbol) fun a x => { x with symbol := a },
  .omitted "call" .text (·.call) fun a x => { x with call := a },
  .omitted "preAdaptiveFunction" Call.json (·.prior) fun a x => { x with prior := a },
  .omitted "postAdaptiveFunction" Call.json (·.posterior) fun a x => { x with posterior := a }]

/-- Adaptive actions. -/
def Action.json : Codec Action := .record .blank [
  .nullable "name" .text (·.name) fun a x => { x with name := a },
  .defaulted "parameters" (.list .text) (·.parameters) fun a x => { x with parameters := a },
  .defaulted "variables" (.list .text) (·.freeVariables)
    fun a x => { x with freeVariables := a },
  .defaulted "generators" (.list .text) (·.generators) fun a x => { x with generators := a },
  .defaulted "actions" (.list Step.json) (·.steps) fun a x => { x with steps := a }]

/-- Whole descriptions. -/
def json : Codec Spec := .record .empty [
  .defaulted "transitions" (.list Transition.json) (·.transitions)
    fun a x => { x with transitions := a },
  .defaulted "submachines" (.list Submachine.json) (·.submachines)
    fun a x => { x with submachines := a },
  .defaulted "actions" (.list Action.json) (·.actions) fun a x => { x with actions := a }]

/-- The text of a description, with a line for each item. -/
def toJson (s : Spec) : String := json.pretty s

/-- The description that a text stands for. -/
def ofJson (text : String) : Except Json.Fault Spec := json.read text

end Spec

end AdaptiveAutomata
