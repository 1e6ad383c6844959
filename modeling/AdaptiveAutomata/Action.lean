/-
  Adaptive actions, ready to run.

  A run binds the names of the action, then takes its elementary actions one
  after the other.  Each is resolved when its turn comes, so it sees the cells
  that the ones before it have bound; none stops the run.

  * `Action.ofSpec` prepares an action;
  * `Action.execute` runs it, `Action.requests` lists what it would do.
-/
import AdaptiveAutomata.Environment
import AdaptiveAutomata.Table

namespace AdaptiveAutomata

/-- An adaptive action whose elementary actions have a known kind. -/
structure Action where
  name : String
  parameters : List String
  freeVariables : List String
  generators : List String
  steps : List (Kind × Spec.Step)

/-- What comes of a run: the outcomes of the elementary actions, and what the
    run leaves behind. -/
structure Execution where
  outcomes : List Outcome
  scene : Scene
  counter : Counter

namespace Action

/-- Prepare an adaptive action.  Elementary actions of unknown kind are left
    out. -/
def ofSpec (a : Spec.Action) : Action where
  name := a.name.getD ""
  parameters := a.parameters
  freeVariables := a.freeVariables
  generators := a.generators
  steps := a.steps.filterMap fun e => e.kind?.map (·, e)

/-- Bind the names of the action for a run. -/
def bind (a : Action) (arguments : List Value) (s : Store) (counter : Counter) :
    Environment × Store × Counter :=
  Environment.bind a.parameters a.freeVariables a.generators arguments s counter

/-- The entries that the elementary actions would act on if all were resolved
    at once. -/
def requests (a : Action) (env : Environment) (s : Store) : List (Kind × Entry Value) :=
  a.steps.map fun (kind, e) => (kind, env.resolveStep s e)

/-- Take elementary actions, resolving each when its turn comes. -/
def runSteps (env : Environment) : List (Kind × Spec.Step) → Scene → List Outcome × Scene
  | [], σ => ([], σ)
  | (kind, e) :: rest, σ =>
    let (outcome, σ) := σ.dispatch kind (env.resolveStep σ.store e)
    let (outcomes, σ) := runSteps env rest σ
    (outcome :: outcomes, σ)

/-- Run the action. -/
def execute (a : Action) (arguments : List Value) (σ : Scene) (counter : Counter) : Execution :=
  let (env, store, counter) := a.bind arguments σ.store counter
  let (outcomes, σ) := runSteps env a.steps { σ with store }
  ⟨outcomes, σ, counter⟩

end Action

end AdaptiveAutomata
