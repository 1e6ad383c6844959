/-
  Values: the components of transitions.

  A value may hold free-variable cells.  Everything that can be said of a value
  without knowing what its cells are bound to is here; the store of the
  bindings is another module.

  * `Value` is a value, `Cell` a cell;
  * `Value.subst` puts values in the place of cells, `Value.image` images;
  * `Value.outline` is the image in which every cell is unbound: two values are
    taken for equal when their outlines are, so a cell is known by its
    identifier alone;
  * `Value.fits` is matching, with every cell a wildcard;
  * `Value.subst_subst` is the law of substitution.
-/
import AdaptiveAutomata.Image

namespace AdaptiveAutomata

/-- A free-variable cell: its place in the store, and the identifier it was
    given. -/
structure Cell where
  place : Nat
  id : Uuid
deriving DecidableEq

/-- A component of a transition. -/
inductive Value where
  /-- Nothing is consumed and nothing called. -/
  | epsilon
  | state (name : String)
  | symbol (name : String)
  /-- A bare name. -/
  | literal (name : String)
  /-- A call of the submachine with the given name. -/
  | call (name : Value)
  /-- A call of the adaptive action with the given name. -/
  | action (name : Value) (arguments : List Value)
  | cell (cell : Cell)

namespace Value

instance : Inhabited Value := ⟨epsilon⟩

def isCell : Value → Bool
  | cell _ => true
  | _ => false

/-! ## Substitution -/

mutual

/-- Put a value in the place of every cell. -/
def subst (f : Cell → Value) : Value → Value
  | epsilon => epsilon
  | state name => state name
  | symbol name => symbol name
  | literal name => literal name
  | call name => call (subst f name)
  | action name arguments => action (subst f name) (substAll f arguments)
  | cell c => f c
termination_by structural v => v

def substAll (f : Cell → Value) : List Value → List Value
  | [] => []
  | v :: vs => subst f v :: substAll f vs
termination_by structural vs => vs

end

@[simp]
theorem substAll_eq_map (f : Cell → Value) (vs : List Value) :
    substAll f vs = vs.map (subst f) := by
  induction vs with
  | nil => rfl
  | cons v vs ih => simp [substAll, ih]

mutual

/-- Substituting twice is substituting once. -/
theorem subst_subst (f g : Cell → Value) :
    ∀ v : Value, subst g (subst f v) = subst (fun c => subst g (f c)) v
  | epsilon | state _ | symbol _ | literal _ | cell _ => by simp [subst]
  | call name => by simp [subst, subst_subst f g name]
  | action name arguments => by
    simpa [subst, subst_subst f g name] using substAll_substAll f g arguments

theorem substAll_substAll (f g : Cell → Value) :
    ∀ vs : List Value,
      (vs.map (subst f)).map (subst g) = vs.map (subst fun c => subst g (f c))
  | [] => rfl
  | v :: vs => by
    rw [List.map_cons, List.map_cons, List.map_cons, subst_subst f g v,
      substAll_substAll f g vs]

end

/-! ## Images -/

mutual

/-- The image of a value, given an image for every cell. -/
def image (f : Cell → Image) : Value → Image
  | epsilon => .epsilon
  | state name => .state name
  | symbol name => .symbol name
  | literal name => .literal name
  | call name => .call (image f name)
  | action name arguments => .action (image f name) (imageAll f arguments)
  | cell c => f c
termination_by structural v => v

def imageAll (f : Cell → Image) : List Value → List Image
  | [] => []
  | v :: vs => image f v :: imageAll f vs
termination_by structural vs => vs

end

@[simp]
theorem imageAll_eq_map (f : Cell → Image) (vs : List Value) :
    imageAll f vs = vs.map (image f) := by
  induction vs with
  | nil => rfl
  | cons v vs ih => simp [imageAll, ih]

/-- The image with every cell unbound. -/
def outline (v : Value) : Image := v.image fun c => .free c.id

/-! ## Matching -/

mutual

/-- Whether a value fits a pattern.  A cell on either side fits anything. -/
def fits : (pattern stored : Value) → Bool
  | cell _, _ => true
  | epsilon, w =>
    match w with
    | epsilon | cell _ => true
    | _ => false
  | state a, w =>
    match w with
    | state b => a = b
    | cell _ => true
    | _ => false
  | symbol a, w =>
    match w with
    | symbol b => a = b
    | cell _ => true
    | _ => false
  | literal a, w =>
    match w with
    | literal b => a = b
    | cell _ => true
    | _ => false
  | call p, w =>
    match w with
    | call w => fits p w
    | cell _ => true
    | _ => false
  | action p ps, w =>
    match w with
    | action w ws => fits p w && fitsAll ps ws
    | cell _ => true
    | _ => false
termination_by structural p => p

/-- Whether values fit patterns one by one, with none left over. -/
def fitsAll : (patterns stored : List Value) → Bool
  | [], [] => true
  | p :: ps, w :: ws => fits p w && fitsAll ps ws
  | _, _ => false
termination_by structural ps => ps

end

/-! ## Names and texts -/

/-- The name of a named value; a call has the name of what it calls. -/
def name? : Value → Option String
  | state name | symbol name | literal name => some name
  | call name => name? name
  | epsilon | action .. | cell _ => none

/-- The text of a value whose cells are unbound. -/
def text (v : Value) : String := v.outline.text

end Value

end AdaptiveAutomata
