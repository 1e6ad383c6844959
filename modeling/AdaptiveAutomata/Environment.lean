/-
  What names stand for while an adaptive action runs.

  A name is a variable, a generator, a parameter or itself, in this order.  What
  it becomes depends on the place in which it stands.

  * `Environment.bind` binds the names of an action at the start of a run;
  * `Environment.lookup` finds what a name is bound to, `Environment.resolve` what
    it becomes in a place;
  * `Environment.resolveStep` is the entry that an elementary action acts on.
-/
import AdaptiveAutomata.Entry
import AdaptiveAutomata.Spec

namespace AdaptiveAutomata

/-- What a name is bound to. -/
inductive Binding where
  /-- A free variable: its cell. -/
  | free (cell : Cell)
  /-- A generator: the identifier that was minted for it. -/
  | minted (id : StateId)
  /-- A parameter: its argument. -/
  | argument (value : Value)

/-- The places in which names stand. -/
inductive Site where
  /-- The source or the target of a transition. -/
  | state
  /-- The symbol of a transition. -/
  | symbol
  /-- The submachine that a transition calls. -/
  | call
  /-- The adaptive action that is called. -/
  | action
  /-- An argument of an adaptive action. -/
  | argument
deriving DecidableEq

/-- What a name becomes that stands for itself. -/
def Site.literal (name : String) : Site → Value
  | state => .state name
  | symbol => .symbol name
  | call => .call (.literal name)
  | action | argument => .literal name

/-- What a name becomes that is bound.  A cell stays a cell, which a call takes
    as its name; an identifier is a state except where a symbol or a bare name
    is asked for. -/
def Site.wrap (s : Store) : Site → Binding → Value
  | call, .free c => .call (.cell c)
  | state, .free c | symbol, .free c | action, .free c | argument, .free c => .cell c
  | state, .minted id | argument, .minted id => .state id.text
  | symbol, .minted id => .symbol id.text
  | call, .minted id => .call (.literal id.text)
  | action, .minted id => .literal id.text
  | state, .argument v => s.asState v
  | symbol, .argument v => s.asSymbol v
  | call, .argument v => .call v
  | action, .argument v | argument, .argument v => v

/-- The bound names; of several bindings of a name in one list the first
    counts. -/
structure Environment where
  cells : List (String × Cell)
  generated : List (String × StateId)
  parameters : List (String × Value)

namespace Environment

def empty : Environment := ⟨[], [], []⟩

def bindVariable (env : Environment) (name : String) (c : Cell) : Environment :=
  { env with cells := (name, c) :: env.cells }

def bindGenerated (env : Environment) (name : String) (id : StateId) : Environment :=
  { env with generated := (name, id) :: env.generated }

def bindParameter (env : Environment) (name : String) (v : Value) : Environment :=
  { env with parameters := (name, v) :: env.parameters }

/-- Bind parameters to arguments one by one, as far as both go, variables to new
    cells, and generators to new identifiers.  Later bindings of a name take the
    place of earlier ones. -/
def bind (parameters freeVariables generators : List String) (arguments : List Value)
    (s : Store) (counter : Counter) : Environment × Store × Counter :=
  let (cells, s) := s.freshCells freeVariables.length
  let (ids, counter) := counter.mints generators.length
  ({ cells := (freeVariables.zip cells).reverse
     generated := (generators.zip ids).reverse
     parameters := (parameters.zip arguments).reverse }, s, counter)

/-- What a name is bound to: a variable comes before a generator, and a
    generator before a parameter. -/
def lookup (env : Environment) (name : String) : Option Binding :=
  (env.cells.lookup name).map .free
  <|> (env.generated.lookup name).map .minted
  <|> (env.parameters.lookup name).map .argument

/-- What a name becomes in a place. -/
def resolve (env : Environment) (s : Store) (site : Site) (name : String) : Value :=
  match env.lookup name with
  | some b => site.wrap s b
  | none => site.literal name

/-- The call of an adaptive action with its names resolved. -/
def resolveCall (env : Environment) (s : Store) (c : Spec.Call) : Reference Value where
  name := env.resolve s .action (c.name.getD "")
  arguments := c.arguments.map (env.resolve s .argument)

/-- The label of a transition that consumes what is given. -/
def resolveLabel (env : Environment) (s : Store) : Consumption → Value
  | .nothing => .epsilon
  | .symbol name => env.resolve s .symbol name
  | .call submachine => env.resolve s .call submachine

/-- The entry that an elementary action acts on. -/
def resolveStep (env : Environment) (s : Store) (e : Spec.Step) : Entry Value where
  prior := e.prior.map (env.resolveCall s)
  source := env.resolve s .state (e.source.getD "")
  label := env.resolveLabel s e.consumption
  target := env.resolve s .state (e.target.getD "")
  posterior := e.posterior.map (env.resolveCall s)

end Environment

end AdaptiveAutomata
