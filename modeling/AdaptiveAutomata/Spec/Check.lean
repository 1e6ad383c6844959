/-
  Checking descriptions.

  Ten rules are checked, in a fixed order.  Each reports the first violation it
  meets.  A rule may pass over what an earlier rule reports: a missing name, a
  missing endpoint.

  * `Spec.checks` lists the rules with their names, in order;
  * `Spec.validate` reports the first violation of the first broken rule,
    `Spec.diagnose` the first violation of every broken rule.
-/
import AdaptiveAutomata.Spec
import AdaptiveAutomata.Spec.Violation

namespace AdaptiveAutomata

namespace Spec

/-! ## Names -/

/-- A name that is present and not empty. -/
def properName (name : Option String) : Option String := name.filter (· ≠ "")

/-- The actions that transitions call, in sorted order. -/
def referencedActions (s : Spec) : List String :=
  NameSet.ofList ((s.transitions.flatMap (·.calls)).filterMap fun c => properName c.name)

def reportIf (condition : Bool) (v : Violation) : Option Violation :=
  if condition then some v else none

/-! ## Transitions and states -/

def checkHasTransitions (s : Spec) : Option Violation :=
  reportIf s.transitions.isEmpty .noTransitions

/-- Every transition has a source and a target. -/
def checkHasEndpoints (s : Spec) : Option Violation :=
  (s.transitions.findIdx? fun t => t.source.isNone || t.target.isNone).map .missingEndpoints

def checkHasSubmachines (s : Spec) : Option Violation :=
  reportIf s.submachines.isEmpty .noSubmachines

/-- The names of states that have to be identifiers: all endpoints, then the
    declared states that have a name. -/
def stateMentions (s : Spec) : List String :=
  s.transitions.flatMap (·.endpoints) ++ s.declaredStates.filter (· ≠ "")

/-- Every state is called by an identifier. -/
def checkIntegerStates (s : Spec) : Option Violation :=
  (s.stateMentions.find? fun name => (StateId.parse? name).isNone).map .nonIntegerState

/-! ## Submachines -/

/-- The first violation in a state of the submachine with the given name. -/
def State.violation? (submachine : String) (q : State) : Option Violation :=
  match properName q.name with
  | none => some (.anonymousState submachine)
  | some name =>
    match q.accepting.filter (· ≠ flag), q.start.filter (· ≠ flag) with
    | some value, _ => some (.invalidAcceptingFlag submachine name value)
    | none, some value => some (.invalidStartFlag submachine name value)
    | none, none => none

/-- Exactly one state carries a start flag, and at least one an accepting
    flag. -/
def Submachine.flagViolation? (name : String) (m : Submachine) : Option Violation :=
  match m.startStates.length with
  | 0 => some (.missingStartState name)
  | 1 => reportIf m.acceptingStates.isEmpty (.missingAcceptingState name)
  | count => some (.multipleStartStates name count)

/-- The first violation in the submachine at the given position; `mainSeen` says
    whether one before it carries a main flag. -/
def Submachine.violation? (index : Nat) (mainSeen : Bool) (m : Submachine) : Option Violation :=
  match properName m.name with
  | none => some (.anonymousSubmachine index)
  | some name =>
    reportIf m.states.isEmpty (.emptySubmachine name)
    <|> (m.main.filter (· ≠ flag)).map (.invalidMainFlag name)
    <|> reportIf (m.isMain && mainSeen) (.multipleMainSubmachines name)
    <|> m.states.findSome? (·.violation? name)
    <|> m.flagViolation? name

/-- Every submachine is well formed, and at most one is the main one. -/
def checkValidSubmachines (s : Spec) : Option Violation :=
  s.submachines.zipIdx.findSome? fun (m, index) =>
    m.violation? index ((s.submachines.take index).any (·.isMain))

/-! ## Consumption -/

/-- No transition consumes in two ways. -/
def checkSymbolCallExclusive (s : Spec) : Option Violation :=
  s.transitions.zipIdx.findSome? fun (t, index) =>
    reportIf (t.symbol.isSome && t.call.isSome)
      (.symbolAndCall index (t.source.getD "") (t.target.getD ""))

/-- The submachines that are called but not declared, in sorted order. -/
def undefinedSubmachines (s : Spec) : List String :=
  NameSet.ofList ((s.transitions.filterMap (·.call)).filter fun name =>
    !(s.submachines.filterMap (·.name)).contains name)

/-- Every submachine that is called is declared. -/
def checkSubmachineCalls (s : Spec) : Option Violation :=
  reportIf (!s.undefinedSubmachines.isEmpty) (.undefinedSubmachines s.undefinedSubmachines)

/-! ## Adaptive actions -/

/-- Every call of an adaptive action has a name. -/
def checkActionCallNames (s : Spec) : Option Violation :=
  s.transitions.zipIdx.findSome? fun (t, index) =>
    let check (position : Position) (call : Option Call) : Option Violation :=
      call.bind fun c =>
        reportIf (properName c.name).isNone (.anonymousActionCall index position)
    check .prior t.prior <|> check .posterior t.posterior

/-- The first violation in an elementary action of the named adaptive
    action. -/
def Step.violation? (action : String) (index : Nat) (e : Step) : Option Violation :=
  if (properName e.source).isNone || (properName e.target).isNone then
    some (.missingElementaryEndpoints action index)
  else match e.kind with
    | none => some (.missingElementaryKind action index)
    | some word =>
      reportIf (Kind.parse? word).isNone (.invalidElementaryKind action index word)

/-- The first violation in an adaptive action at the given position. -/
def Action.violation? (index : Nat) (a : Action) : Option Violation :=
  match properName a.name with
  | none => some (.anonymousAction index)
  | some name =>
    (a.freeVariables.find? (·.toList.head? ≠ some variableSign)).map (.invalidVariableName name)
    <|> (a.generators.find? (·.toList.getLast? ≠ some generatorSign)).map
      (.invalidGeneratorName name)
    <|> reportIf a.steps.isEmpty (.emptyAction name)
    <|> a.steps.zipIdx.findSome? fun (e, index) => e.violation? name index

/-- Every adaptive action is well formed. -/
def checkAdaptiveActions (s : Spec) : Option Violation :=
  s.actions.zipIdx.findSome? fun (a, index) => a.violation? index

/-- Every adaptive action that is called is declared. -/
def checkActionCallsDefined (s : Spec) : Option Violation :=
  (s.referencedActions.find? fun name =>
    !(s.actions.filterMap fun a => properName a.name).contains name).map .undefinedAction

/-! ## All rules -/

/-- The rules by name, in the order in which they are checked. -/
def checks : List (String × (Spec → Option Violation)) := [
  ("has_transitions", checkHasTransitions),
  ("has_endpoints", checkHasEndpoints),
  ("has_submachines", checkHasSubmachines),
  ("integer_states", checkIntegerStates),
  ("valid_submachines", checkValidSubmachines),
  ("symbol_call_exclusive", checkSymbolCallExclusive),
  ("submachine_calls", checkSubmachineCalls),
  ("action_call_names", checkActionCallNames),
  ("adaptive_actions", checkAdaptiveActions),
  ("action_calls_defined", checkActionCallsDefined)]

/-- Check every rule, up to the first that is broken. -/
def validate (s : Spec) : Except Violation Unit :=
  match checks.findSome? fun rule => rule.2 s with
  | some v => .error v
  | none => .ok ()

/-- The first violation of every broken rule, in the order of the rules. -/
def diagnose (s : Spec) : List Violation := checks.filterMap fun rule => rule.2 s

end Spec

end AdaptiveAutomata
