/-
  The store of free-variable cells.

  A cell is bound at most once, and every value that holds the cell sees the
  binding.  A value is read through the store by putting in the place of each
  bound cell what it is bound to, again and again.  That ends because no more
  cells can be met on the way than there are, unless a cell is bound to a value
  that holds the cell itself.

  * `Store.resolve` puts bindings in the place of cells;
  * `Store.bind?` binds a cell, unless it is bound, or would be bound to itself;
  * `Store.fits` is matching under the bindings, `Store.bindFrom` binds the
    unbound cells of a pattern to the parts of a value that fits it;
  * `Store.image` writes cells out, `Image.load` makes cells of an image.
-/
import AdaptiveAutomata.Value

namespace AdaptiveAutomata

/-- The bindings of all cells, and the identifiers that new cells are given. -/
structure Store where
  /-- What each cell is bound to, by place. -/
  bindings : Array (Option Value)
  /-- The identifiers for new cells, one after the other. -/
  supply : Nat → Uuid
  /-- How many identifiers have been given out. -/
  drawn : Nat

namespace Store

/-! ## Cells -/

def empty (supply : Nat → Uuid) : Store := ⟨#[], supply, 0⟩

def size (s : Store) : Nat := s.bindings.size

/-- What a cell is bound to. -/
def binding? (s : Store) (c : Cell) : Option Value := s.bindings[c.place]?.join

/-- A new cell with the given identifier. -/
def alloc (s : Store) (id : Uuid) (binding : Option Value) : Cell × Store :=
  (⟨s.size, id⟩, { s with bindings := s.bindings.push binding })

/-- A new unbound cell with an identifier of its own. -/
def fresh (s : Store) : Cell × Store :=
  let (c, s') := s.alloc (s.supply s.drawn) none
  (c, { s' with drawn := s.drawn + 1 })

def freshCells (s : Store) : Nat → List Cell × Store
  | 0 => ([], s)
  | n + 1 =>
    let (c, s) := s.fresh
    let (cs, s) := s.freshCells n
    (c :: cs, s)

def write (s : Store) (c : Cell) (v : Value) : Store :=
  { s with bindings := s.bindings.setIfInBounds c.place (some v) }

@[simp]
theorem size_alloc (s : Store) (id : Uuid) (b : Option Value) :
    (s.alloc id b).2.size = s.size + 1 := by
  simp [alloc, size]

/-- A new cell is bound to what it was made with. -/
@[simp]
theorem binding?_alloc_self (s : Store) (id : Uuid) (b : Option Value) :
    (s.alloc id b).2.binding? (s.alloc id b).1 = b := by
  simp [alloc, binding?, size]

/-- Making a cell leaves the others as they are. -/
theorem binding?_alloc {s : Store} {c : Cell} (h : c.place < s.size) (id : Uuid)
    (b : Option Value) : (s.alloc id b).2.binding? c = s.binding? c := by
  have : c.place ≠ s.bindings.size := Nat.ne_of_lt h
  simp [alloc, binding?, Array.getElem?_push, this]

@[simp]
theorem length_freshCells (s : Store) (n : Nat) : (s.freshCells n).1.length = n := by
  induction n generalizing s with
  | zero => rfl
  | succ n ih => simp [freshCells, ih]

@[simp]
theorem size_write (s : Store) (c : Cell) (v : Value) : (s.write c v).size = s.size := by
  simp [write, size]

theorem binding?_write_self {s : Store} {c : Cell} (h : c.place < s.size) (v : Value) :
    (s.write c v).binding? c = some v := by
  have : c.place < s.bindings.size := h
  simp [write, binding?, this]

theorem binding?_write_of_ne {c d : Cell} (h : c.place ≠ d.place) (s : Store) (v : Value) :
    (s.write c v).binding? d = s.binding? d := by
  simp [write, binding?, h]

/-! ## Reading values -/

/-- Put bindings in the place of cells, to the given depth. -/
def resolveWithin (s : Store) : Nat → Value → Value
  | 0, v => v
  | depth + 1, v => v.subst fun c =>
    match s.binding? c with
    | none => .cell c
    | some w => s.resolveWithin depth w

/-- Put bindings in the place of all bound cells. -/
def resolve (s : Store) (v : Value) : Value := s.resolveWithin s.size v

def isUnbound (s : Store) (v : Value) : Bool := (s.resolve v).isCell

def name? (s : Store) (v : Value) : Option String := (s.resolve v).name?

def text (s : Store) (v : Value) : String := (s.resolve v).text

/-- The value as a state: cells stay as they are, anything else keeps its
    text. -/
def asState (s : Store) : Value → Value
  | .state name => .state name
  | .cell c => .cell c
  | v => .state (s.text v)

/-- The value as a symbol: cells stay as they are, anything else keeps its
    text. -/
def asSymbol (s : Store) : Value → Value
  | .symbol name => .symbol name
  | .cell c => .cell c
  | v => .symbol (s.text v)

/-! ## Binding -/

/-- Bind a cell to what a value reads as.  A cell is bound only once, and not to
    a cell with its own identifier. -/
def bind? (s : Store) (c : Cell) (v : Value) : Option Store :=
  let w := s.resolve v
  let isItself := match w with
    | .cell d => decide (d.id = c.id)
    | _ => false
  if isItself || (s.binding? c).isSome then none else some (s.write c w)

/-- Whether a stored value fits a pattern.  Unbound cells on either side fit
    anything. -/
def fits (s : Store) (pattern stored : Value) : Bool :=
  (s.resolve pattern).fits (s.resolve stored)

mutual

/-- Walk along a pattern and a stored value, and bind each unbound cell of the
    pattern to the part of the value it stands beside.  `follow` goes on with
    what a bound cell is bound to. -/
def walk (follow : Value → Value → Store → Store) : (pattern stored : Value) → Store → Store
  | .cell c, stored, s =>
    match s.binding? c with
    | some bound => follow bound stored s
    | none =>
      let w := s.resolve stored
      if w.isCell then s else (s.bind? c w).getD s
  | .call p, stored, s =>
    match s.resolve stored with
    | .call w => walk follow p w s
    | _ => s
  | .action p ps, stored, s =>
    match s.resolve stored with
    | .action w ws => walkAll follow ps ws (walk follow p w s)
    | _ => s
  | .epsilon, _, s | .state _, _, s | .symbol _, _, s | .literal _, _, s => s
termination_by structural p => p

def walkAll (follow : Value → Value → Store → Store) :
    (patterns stored : List Value) → Store → Store
  | p :: ps, w :: ws, s => walkAll follow ps ws (walk follow p w s)
  | [], _, s | _ :: _, [], s => s
termination_by structural ps => ps

end

/-- Walk along a pattern, through bound cells to the given depth. -/
def bindFromWithin : Nat → (pattern stored : Value) → Store → Store
  | 0 => fun _ _ s => s
  | depth + 1 => walk (bindFromWithin depth)

/-- Bind the unbound cells of a pattern to the parts of a stored value.  A cell
    is left alone where it stands beside an unbound cell. -/
def bindFrom (s : Store) (pattern stored : Value) : Store :=
  bindFromWithin (s.size + 1) pattern stored s

/-- Bind the cells of several patterns, one after the other. -/
def bindFromAll (s : Store) : (patterns stored : List Value) → Store
  | p :: ps, w :: ws => (s.bindFrom p w).bindFromAll ps ws
  | [], _ | _ :: _, [] => s

/-! ## Images -/

/-- Write cells out, through bound cells to the given depth. -/
def imageWithin (s : Store) : Nat → Value → Image
  | 0, v => v.outline
  | depth + 1, v => v.image fun c =>
    match s.binding? c with
    | none => .free c.id
    | some w => .bound c.id (s.imageWithin depth w)

def image (s : Store) (v : Value) : Image := s.imageWithin s.size v

end Store

namespace Image

/-- A new cell with the given identifier and binding. -/
def loadCell (id : Uuid) (binding : Option Value) : StateM Store Value := do
  return .cell (← modifyGet (·.alloc id binding))

mutual

/-- The value of an image, with a new cell for each cell of the image. -/
def load : Image → StateM Store Value
  | epsilon => return .epsilon
  | state name => return .state name
  | symbol name => return .symbol name
  | literal name => return .literal name
  | call name => do return .call (← load name)
  | action name arguments => do return .action (← load name) (← loadAll arguments)
  | free id => loadCell id none
  | bound id value => do loadCell id (some (← load value))
termination_by structural a => a

def loadAll : List Image → StateM Store (List Value)
  | [] => return []
  | a :: as => do return (← load a) :: (← loadAll as)
termination_by structural as => as

end

end Image

end AdaptiveAutomata
