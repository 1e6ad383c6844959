/-
  The history of elementary actions.

  * `Step` records one elementary action, `History` all of them in order;
  * `History.record` adds one, `History.forAction` and `History.matched` look at
    them by action and by kind, and `History.duration` is the time between the
    first and the last.
-/
import AdaptiveAutomata.Entry.Json
import AdaptiveAutomata.Instant
import AdaptiveAutomata.Spec.Json
import AdaptiveAutomata.Table

namespace AdaptiveAutomata

/-- The record of an elementary action. -/
structure Step (α : Type) where
  /-- The adaptive action it belongs to. -/
  action : String
  kind : Kind
  entry : Entry α
  matched : Bool
  time : Instant
deriving DecidableEq

/-- The recorded elementary actions, the first one first. -/
structure History (α : Type) where
  steps : List (Step α)
deriving DecidableEq

variable {α β : Type}

namespace Step

def map (f : α → β) (x : Step α) : Step β := { x with entry := x.entry.map f }

/-- The record of what came of an elementary action. -/
def ofOutcome (action : String) (time : Instant) (o : Outcome) : Step Value :=
  ⟨action, o.kind, o.entry, o.matched, time⟩

/-- The step of images, with a new cell for each cell in them. -/
def load (x : Step Image) : StateM Store (Step Value) := do
  return { x with entry := ← x.entry.load }

end Step

namespace History

def empty : History α := ⟨[]⟩

/-- Change every component of every entry. -/
def map (f : α → β) (h : History α) : History β := ⟨h.steps.map (·.map f)⟩

def record (h : History α) (x : Step α) : History α := ⟨h.steps ++ [x]⟩

def recordAll (h : History α) (xs : List (Step α)) : History α := xs.foldl record h

@[simp]
theorem steps_recordAll (h : History α) (xs : List (Step α)) :
    (h.recordAll xs).steps = h.steps ++ xs := by
  induction xs generalizing h with
  | nil => simp [recordAll]
  | cons x xs ih =>
    rw [recordAll, List.foldl_cons, ← recordAll, ih]
    simp [record]

def forAction (h : History α) (action : String) : List (Step α) :=
  h.steps.filter (·.action = action)

/-- How many steps of the given kind matched. -/
def matched (h : History α) (kind : Kind) : Nat :=
  h.steps.countP fun x => x.kind = kind && x.matched

/-- The nanoseconds from the first step to the last, unless there is none or
    time went back. -/
def duration (h : History α) : Option Nat := do
  let first ← h.steps.head?
  let last ← h.steps.getLast?
  let d := last.time.since first.time
  if 0 ≤ d then some d.toNat else none

end History

/-! ## JSON -/

open Json (Codec Field)

/-- Steps, given the codec of the components of entries. -/
def Step.json [Inhabited α] (c : Codec α) : Codec (Step α) :=
  .record ⟨"", .add, default, false, ⟨0, 0, 0⟩⟩ [
    .required "action" .text (·.action) fun a x => { x with action := a },
    .required "kind" Kind.json (·.kind) fun a x => { x with kind := a },
    .required "entry" (Entry.json c) (·.entry) fun a x => { x with entry := a },
    .required "matched" .flag (·.matched) fun a x => { x with matched := a },
    .required "timestamp" Instant.json (·.time) fun a x => { x with time := a }]

/-- Histories, given the codec of the components of entries. -/
def History.json [Inhabited α] (c : Codec α) : Codec (History α) := .record .empty [
  .required "steps" (.list (Step.json c)) (·.steps) fun a x => { x with steps := a }]

end AdaptiveAutomata
