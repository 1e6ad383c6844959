/-
  Checkpoints: the state of an automaton at a moment, to be written and taken up
  again.

  A checkpoint holds what adaptive actions change: the entries of the table and
  the next identifier.  What the description says is not part of it; it only
  names the main submachine, by which an automaton of another description is
  told.

  * `Checkpoint.capture` takes a checkpoint, `Checkpoint.restoreInto` puts an
    automaton back to it;
  * `Checkpoint.toJson` and `ofJson`, `toBinary` and `ofBinary` are its two written
    forms; the readers accept the present version only;
  * `CheckpointError` says why a checkpoint was not accepted.
-/
import AdaptiveAutomata.Automaton
import AdaptiveAutomata.Entry.Binary
import AdaptiveAutomata.Text.Quoted

namespace AdaptiveAutomata

/-- The state of an automaton at a moment. -/
structure Checkpoint (α : Type) where
  version : UInt32
  id : String
  time : Instant
  /-- The entries of the table, in the order in which they were added. -/
  entries : List (Entry α)
  /-- The identifier that is minted next. -/
  next : StateId
  /-- The name of the main submachine. -/
  main : Option String
deriving DecidableEq

/-- Why a checkpoint was not accepted. -/
inductive CheckpointError where
  /-- The text or the bytes are no checkpoint. -/
  | unreadable
  /-- It has another version. -/
  | unsupportedVersion (found supported : UInt32)
  /-- It is of an automaton with another main submachine. -/
  | mainMismatch (found expected : Option String)
deriving DecidableEq

def CheckpointError.message : CheckpointError → String
  | unreadable => "Deserialization failed"
  | unsupportedVersion found supported =>
    "Unsupported checkpoint version " ++ toString found.toNat ++ ", supported: " ++
      toString supported.toNat
  | mainMismatch found expected =>
    "Checkpoint main submachine " ++ Text.quotedOption found ++
      " does not match automaton main " ++ Text.quotedOption expected

namespace Checkpoint

variable {α β : Type}

/-- The version that is written and read. -/
def currentVersion : UInt32 := 1

def map (f : α → β) (c : Checkpoint α) : Checkpoint β :=
  { c with entries := c.entries.map (·.map f) }

/-- The checkpoint with its cells written out. -/
def image (s : Store) (c : Checkpoint Value) : Checkpoint Image := c.map s.image

/-- The checkpoint of images, with a new cell for each cell in them. -/
def load (c : Checkpoint Image) : StateM Store (Checkpoint Value) := do
  return { c with entries := ← c.entries.mapM Entry.load }

/-! ## Taking and putting back -/

/-- Take a checkpoint. -/
def capture (id : String) (a : Automaton) (w : World) : Checkpoint Value where
  version := currentVersion
  id := id
  time := w.now
  entries := a.table.entries
  next := (a.counter w).next
  main := a.main

/-- Only the present version is accepted. -/
def checkVersion (c : Checkpoint α) : Except CheckpointError Unit :=
  if c.version = currentVersion then .ok ()
  else .error (.unsupportedVersion c.version currentVersion)

/-- Put an automaton back to a checkpoint. -/
def restoreInto (c : Checkpoint Value) (a : Automaton) (w : World) :
    Except CheckpointError (Automaton × World) := do
  c.checkVersion
  if c.main = a.main then return a.restore c.entries c.next w
  else throw (.mainMismatch c.main a.main)

/-! ## Written forms -/

open Json (Codec Field) in
def json [Inhabited α] (c : Codec α) : Codec (Checkpoint α) :=
  .record ⟨0, "", ⟨0, 0, 0⟩, [], 0, none⟩ [
    .required "version" .word32 (·.version) fun a x => { x with version := a },
    .required "id" .text (·.id) fun a x => { x with id := a },
    .required "timestamp" Instant.json (·.time) fun a x => { x with time := a },
    .required "entries" (.list (Entry.json c)) (·.entries) fun a x => { x with entries := a },
    .required "generator_next" .word64 (·.next) fun a x => { x with next := a },
    .nullable "main" .text (·.main) fun a x => { x with main := a }]

open Binary (Codec) in
def binary (c : Codec α) : Codec (Checkpoint α) :=
  (Codec.word32.pair (Codec.text.pair (Instant.binary.pair ((Codec.list (Entry.binary c)).pair
    (Codec.word64.pair (Codec.option .text)))))).map
    (fun x => (x.version, x.id, x.time, x.entries, x.next, x.main))
    fun x => ⟨x.1, x.2.1, x.2.2.1, x.2.2.2.1, x.2.2.2.2.1, x.2.2.2.2.2⟩

/-- The text of a checkpoint, with a line for each item. -/
def toJson (c : Checkpoint Image) : String := (json Image.json).pretty c

/-- The checkpoint that a text stands for. -/
def ofJson (text : String) : Except CheckpointError (Checkpoint Image) :=
  match (json Image.json).read text with
  | .error _ => .error .unreadable
  | .ok c => do c.checkVersion; return c

/-- The bytes of a checkpoint. -/
def toBinary (c : Checkpoint Image) : List UInt8 := (binary Image.binary).encode c

/-- The checkpoint at the front of the bytes. -/
def ofBinary (bytes : List UInt8) : Except CheckpointError (Checkpoint Image) :=
  match (binary Image.binary).read? bytes with
  | none => .error .unreadable
  | some c => do c.checkVersion; return c

end Checkpoint

end AdaptiveAutomata
