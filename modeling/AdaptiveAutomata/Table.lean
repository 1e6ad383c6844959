/-
  The transition table, and what elementary actions do to it.

  A table is a list of entries in the order in which they were added.  An entry
  is stored as it reads when it is added; cells that are bound later show
  through it.

  * `Table.add` stores an entry unless an equal one is stored;
  * `Table.remove` deletes all entries that fit a pattern, `Table.query` asks for
    one; both bind the cells of the pattern to the first entry that fits;
  * `Scene.dispatch` does one of the three to a table and a store, and says what
    came of it.
-/
import AdaptiveAutomata.Entry
import AdaptiveAutomata.Spec

namespace AdaptiveAutomata

/-- A transition table. -/
structure Table (α : Type) where
  entries : List (Entry α)
deriving DecidableEq

namespace Table

variable {α β : Type}

/-- A table without entries. -/
def empty : Table α := ⟨[]⟩

/-- Change every component of every entry. -/
def map (f : α → β) (t : Table α) : Table β := ⟨t.entries.map (·.map f)⟩

/-- Whether an entry equal to this one, as it reads, is stored. -/
def contains (t : Table Value) (s : Store) (e : Entry Value) : Bool :=
  t.entries.any fun stored => stored.outline = (e.resolve s).outline

/-- Store an entry as it reads, unless an equal one is stored.  Says whether it
    was added. -/
def add (t : Table Value) (s : Store) (e : Entry Value) : Bool × Table Value :=
  if t.contains s e then (false, t) else (true, ⟨t.entries ++ [e.resolve s]⟩)

theorem contains_iff {t : Table Value} {s : Store} {e : Entry Value} :
    t.contains s e = true ↔ ∃ stored ∈ t.entries, stored.outline = (e.resolve s).outline := by
  simp [contains]

theorem add_of_contains {t : Table Value} {s : Store} {e : Entry Value}
    (h : t.contains s e = true) : t.add s e = (false, t) := by
  simp [add, h]

theorem add_of_not_contains {t : Table Value} {s : Store} {e : Entry Value}
    (h : t.contains s e = false) : t.add s e = (true, ⟨t.entries ++ [e.resolve s]⟩) := by
  simp [add, h]

/-- The table that results from adding entries one by one. -/
def ofEntries (s : Store) (entries : List (Entry Value)) : Table Value :=
  entries.foldl (fun t e => (t.add s e).2) empty

/-- The entries that fit a pattern. -/
def fitting (t : Table Value) (s : Store) (pattern : Entry Value) : List (Entry Value) :=
  t.entries.filter (pattern.fits s)

@[simp]
theorem mem_fitting {t : Table Value} {s : Store} {pattern e : Entry Value} :
    e ∈ t.fitting s pattern ↔ e ∈ t.entries ∧ pattern.fits s e = true :=
  List.mem_filter

/-- Delete all entries that fit a pattern, and bind its cells to the first of
    them.  Says how many there were. -/
def remove (t : Table Value) (s : Store) (pattern : Entry Value) : Nat × Table Value × Store :=
  let removed := t.fitting s pattern
  let s' := match removed with
    | [] => s
    | first :: _ => pattern.bindFrom s first
  (removed.length, ⟨t.entries.filter (!pattern.fits s ·)⟩, s')

/-- Look for an entry that fits a pattern, and bind its cells to the first one.
    Says whether there is one. -/
def query (t : Table Value) (s : Store) (pattern : Entry Value) : Bool × Store :=
  match t.entries.find? (pattern.fits s) with
  | some first => (true, pattern.bindFrom s first)
  | none => (false, s)

/-- The entries that leave a state. -/
def outgoing (t : Table Value) (state : Value) : List (Entry Value) :=
  t.entries.filter fun e => e.source.outline = state.outline

end Table

/-! ## Elementary actions -/

/-- What elementary actions act on. -/
structure Scene where
  table : Table Value
  store : Store

/-- What came of an elementary action. -/
structure Outcome where
  kind : Kind
  /-- The entry or pattern as it reads after the action. -/
  entry : Entry Value
  /-- Whether an entry was added, was removed, or was found. -/
  matched : Bool

namespace Scene

/-- Take an elementary action on an entry. -/
def dispatch (kind : Kind) (e : Entry Value) (σ : Scene) : Outcome × Scene :=
  match kind with
  | .add =>
    let (added, table) := σ.table.add σ.store e
    (⟨.add, e.resolve σ.store, added⟩, ⟨table, σ.store⟩)
  | .remove =>
    let (count, table, store) := σ.table.remove σ.store e
    (⟨.remove, e.resolve store, 0 < count⟩, ⟨table, store⟩)
  | .query =>
    let (found, store) := σ.table.query σ.store e
    (⟨.query, e.resolve store, found⟩, ⟨σ.table, store⟩)

/-- Take several elementary actions, one after the other. -/
def dispatchAll : List (Kind × Entry Value) → Scene → List Outcome × Scene
  | [], σ => ([], σ)
  | (kind, e) :: rest, σ =>
    let (outcome, σ) := σ.dispatch kind e
    let (outcomes, σ) := dispatchAll rest σ
    (outcome :: outcomes, σ)

end Scene

end AdaptiveAutomata
