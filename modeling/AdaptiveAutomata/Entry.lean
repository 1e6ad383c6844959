/-
  Entries of the transition table.

  An entry is a tuple: a source, a label that is consumed or called, a target,
  and the adaptive actions called before and after.  The same tuples are made of
  values, where the automaton runs, and of images, where it is written.

  * `Reference` is a call of an adaptive action, `Entry` a tuple;
  * `Entry.map` and `Entry.mapM` change every component, from left to right;
  * `Shape` says which of the two calls an entry has;
  * `Entry.resolve`, `Entry.fits` and `Entry.bindFrom` lift the reading and
    matching of values to entries.
-/
import AdaptiveAutomata.Store

namespace AdaptiveAutomata

/-- A call of an adaptive action. -/
structure Reference (α : Type) where
  name : α
  arguments : List α
deriving DecidableEq

/-- A transition tuple. -/
structure Entry (α : Type) where
  prior : Option (Reference α)
  source : α
  label : α
  target : α
  posterior : Option (Reference α)
deriving DecidableEq

variable {α β : Type}

namespace Reference

instance [Inhabited α] : Inhabited (Reference α) := ⟨⟨default, []⟩⟩

def map (f : α → β) (r : Reference α) : Reference β := ⟨f r.name, r.arguments.map f⟩

/-- Change every value, from left to right. -/
def mapM {m : Type → Type} [Monad m] (f : α → m β) (r : Reference α) : m (Reference β) := do
  return ⟨← f r.name, ← r.arguments.mapM f⟩

/-- A call with the values of its name and arguments. -/
def toValue (r : Reference Value) : Value := .action r.name r.arguments

/-- A call by literal names. -/
def literal (name : String) (arguments : List String) : Reference Value :=
  ⟨.literal name, arguments.map .literal⟩

/-- Put bindings in the place of bound cells. -/
def resolve (s : Store) (r : Reference Value) : Reference Value := r.map s.resolve

/-- Whether a stored call fits a pattern: the names and all arguments do. -/
def fits (s : Store) (pattern stored : Reference Value) : Bool :=
  s.fits pattern.toValue stored.toValue

/-- Bind the unbound cells of a pattern. -/
def bindFrom (s : Store) (pattern stored : Reference Value) : Store :=
  (s.bindFrom pattern.name stored.name).bindFromAll pattern.arguments stored.arguments

end Reference

/-- Which calls of adaptive actions an entry has. -/
inductive Shape where
  | triple
  | withPrior
  | withPosterior
  | full
deriving DecidableEq

def Shape.arity : Shape → Nat
  | triple => 3
  | withPrior | withPosterior => 4
  | full => 5

namespace Entry

instance [Inhabited α] : Inhabited (Entry α) := ⟨⟨none, default, default, default, none⟩⟩

/-- Change every component. -/
def map (f : α → β) (e : Entry α) : Entry β where
  prior := e.prior.map (·.map f)
  source := f e.source
  label := f e.label
  target := f e.target
  posterior := e.posterior.map (·.map f)

/-- Change every component, from left to right. -/
def mapM {m : Type → Type} [Monad m] (f : α → m β) (e : Entry α) : m (Entry β) := do
  return {
    prior := ← e.prior.mapM (·.mapM f)
    source := ← f e.source
    label := ← f e.label
    target := ← f e.target
    posterior := ← e.posterior.mapM (·.mapM f) }

def plain (source label target : α) : Entry α := ⟨none, source, label, target, none⟩

/-- Which calls of adaptive actions an entry has. -/
def shape (e : Entry α) : Shape :=
  match e.prior, e.posterior with
  | none, none => .triple
  | some _, none => .withPrior
  | none, some _ => .withPosterior
  | some _, some _ => .full

def arity (e : Entry α) : Nat := e.shape.arity

@[simp]
theorem map_id (e : Entry α) : e.map id = e := by
  have h : (Reference.map id : Reference α → Reference α) = id := by
    funext r
    simp [Reference.map]
  cases e
  simp [map, h]

@[simp]
theorem map_map {γ : Type} (g : β → γ) (f : α → β) (e : Entry α) :
    (e.map f).map g = e.map (g ∘ f) := by
  have h (r : Reference α) : (r.map f).map g = r.map (g ∘ f) := by simp [Reference.map]
  cases e
  simp [map, Function.comp_def, h]

/-- Changing components keeps the calls that there are. -/
@[simp]
theorem shape_map (f : α → β) (e : Entry α) : (e.map f).shape = e.shape := by
  rcases e with ⟨_ | _, _, _, _, _ | _⟩ <;> rfl

/-! ## Entries of values -/

/-- The images of the components with every cell unbound.  Two entries are taken
    for equal when their outlines are. -/
def outline (e : Entry Value) : Entry Image := e.map Value.outline

/-- Put bindings in the place of bound cells. -/
def resolve (s : Store) (e : Entry Value) : Entry Value := e.map s.resolve

def image (s : Store) (e : Entry Value) : Entry Image := e.map s.image

/-- The entry of images, with a new cell for each cell in them. -/
def load (e : Entry Image) : StateM Store (Entry Value) := e.mapM Image.load

/-- Whether a call fits a pattern; where the one is missing the other has to
    be missing too. -/
def fitsCall (s : Store) : (pattern stored : Option (Reference Value)) → Bool
  | none, none => true
  | some p, some w => p.fits s w
  | _, _ => false

/-- Whether a stored entry fits a pattern, component by component. -/
def fits (s : Store) (pattern stored : Entry Value) : Bool :=
  fitsCall s pattern.prior stored.prior &&
    s.fits pattern.source stored.source &&
    s.fits pattern.label stored.label &&
    s.fits pattern.target stored.target &&
    fitsCall s pattern.posterior stored.posterior

def bindCall (s : Store) : (pattern stored : Option (Reference Value)) → Store
  | some p, some w => p.bindFrom s w
  | _, _ => s

/-- Bind the unbound cells of a pattern, from left to right. -/
def bindFrom (s : Store) (pattern stored : Entry Value) : Store :=
  let s := bindCall s pattern.prior stored.prior
  let s := s.bindFrom pattern.source stored.source
  let s := s.bindFrom pattern.label stored.label
  let s := s.bindFrom pattern.target stored.target
  bindCall s pattern.posterior stored.posterior

/-! ## Text -/

/-- The components in parentheses. -/
def text (s : Store) (e : Entry Value) : String :=
  let call (r : Option (Reference Value)) : List String := (r.map (s.text ·.toValue)).toList
  "(" ++ ", ".intercalate (call e.prior ++ [s.text e.source, s.text e.label, s.text e.target] ++
    call e.posterior) ++ ")"

end Entry

end AdaptiveAutomata
