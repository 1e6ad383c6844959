/-
  Readers of typed values from JSON text.

  A reader asks for one kind of value and reads it from left to right, so the
  first fault of a text is the one that is met first.  It is given the number of
  brackets that it may still open.

  * `Reader.text`, `flag`, `natural`, `nullable` and `list` read the plain
    kinds of values; `refine` reads a value of which only some are accepted;
  * `Reader.tagged` reads one of several named variants, which stand alone as a
    string or with their content in an object of one member;
  * `Reader.record` reads named fields, from an object in any order or from an
    array in the order of their declaration;
  * `Reader.read` reads a whole text.
-/
import AdaptiveAutomata.Json.Scan

namespace AdaptiveAutomata

namespace Json

/-- A reader, given the number of brackets that it may open inside each other. -/
abbrev Reader (α : Type) := Nat → Scan α

namespace Reader

open Scan

variable {α β σ : Type}

/-- How deep brackets may nest. -/
def maxDepth : Nat := 127

/-- Read a whole text; only blanks may follow the value. -/
def read (r : Reader α) (text : String) : Except Fault α := do
  let (a, rest) ← r maxDepth text.toList
  if rest.all isBlank then return a else throw .malformed

/-! ## Plain values -/

def text : Reader String := fun _ => do
  match ← blanks with
  | none => fail .ended
  | some '"' => advance; Scan.string
  | some _ => mismatch

def flag : Reader Bool := fun _ => do
  match ← blanks with
  | none => fail .ended
  | some 't' => word ['t', 'r', 'u', 'e']; return true
  | some 'f' => word ['f', 'a', 'l', 's', 'e']; return false
  | some _ => mismatch

/-- A natural number below the given bound. -/
def natural (bound : Nat) : Reader Nat := fun _ => do
  match ← blanks with
  | none => fail .ended
  | some c =>
    if startsNumber c then
      match (← Scan.number).natural? with
      | some n => if n < bound then return n else fail .unsuitable
      | none => fail .unsuitable
    else mismatch

def null : Reader Unit := fun _ => do
  match ← blanks with
  | none => fail .ended
  | some 'n' => word ['n', 'u', 'l', 'l']
  | some _ => mismatch

def nullable (r : Reader α) : Reader (Option α) := fun depth => do
  match ← blanks with
  | some 'n' => word ['n', 'u', 'l', 'l']; return none
  | _ => return some (← r depth)

/-- A value that is only accepted where `f` is defined. -/
def refine (r : Reader α) (f : α → Option β) : Reader β := fun depth => do
  match f (← r depth) with
  | some b => return b
  | none => fail .unsuitable

/-! ## Lists -/

/-- Whether another item follows in an array, past its comma; the closing
    bracket is read. -/
def anotherItem (first : Bool) : Scan Bool := do
  match ← blanks with
  | none => fail .ended
  | some ']' => advance; return false
  | some ',' =>
    -- Before the first item a comma is left to fail as an item.
    if first then return true
    advance
    match ← blanks with
    | none => fail .ended
    | some ']' => fail .malformed
    | some _ => return true
  | some _ => if first then return true else fail .malformed

/-- The items of an array after its opening bracket.  The fuel is a bound on
    their number. -/
def items (r : Scan α) : Nat → Bool → Scan (List α)
  | 0, _ => fail .ended
  | fuel + 1, first => do
    if ← anotherItem first then
      let a ← r
      return a :: (← items r fuel false)
    else return []

/-- Enter a bracket, if one more may be opened. -/
def nested (r : Reader α) : Reader α
  | 0 => fail .malformed
  | depth + 1 => do advance; r depth

def list (r : Reader α) : Reader (List α) := fun depth => do
  match ← blanks with
  | none => fail .ended
  | some '[' => nested (fun depth => do items (r depth) (← get).length true) depth
  | some _ => mismatch

/-! ## Variants -/

def colon : Scan Unit := do
  match ← blanks with
  | none => fail .ended
  | some ':' => advance
  | some _ => fail .malformed

/-- What a variant holds: nothing, or a value of its own. -/
inductive Variant (α : Type) where
  | unit (value : α)
  | content (read : Reader α)

/-- The value of a variant in an object; a variant without content has `null`. -/
def Variant.read : Variant α → Reader α
  | .unit a => fun depth => do null depth; return a
  | .content r => r

/-- The name in an object of one member, which has to be a string. -/
def memberName : Scan String := do
  match ← blanks with
  | none => fail .ended
  | some '"' => advance; Scan.string
  | some _ => fail .malformed

/-- One of several variants, found by name. -/
def tagged (variant? : String → Option (Variant α)) : Reader α := fun depth => do
  match ← blanks with
  | none => fail .ended
  | some '"' =>
    advance
    match variant? (← Scan.string) with
    | some (.unit a) => return a
    | _ => fail .unsuitable
  | some '{' => nested (fun depth => do
      match variant? (← memberName) with
      | none => fail .unsuitable
      | some v =>
        colon
        let a ← v.read depth
        match ← blanks with
        | none => fail .ended
        | some '}' => advance; return a
        | some _ => fail .malformed) depth
  | some _ => fail .malformed

/-! ## Records -/

/-- Whether a field has to be present. -/
inductive Presence where
  /-- Always. -/
  | required
  /-- Among listed items, but not among named members. -/
  | optional
  /-- Never. -/
  | defaulted
deriving DecidableEq

/-- What a reader has to know of a field of a record of type `σ`: the names it
    goes by, whether it has to be present, and how its value enters the
    record. -/
structure Slot (σ : Type) where
  names : List String
  presence : Presence
  read : Reader (σ → σ)

def Slot.has (f : Slot σ) (name : String) : Bool := f.names.contains name

/-- The end of an array in which nothing more is expected. -/
def closeArray : Scan Unit := do
  match ← blanks with
  | none => fail .ended
  | some ']' => advance
  | some _ => fail .malformed

/-- The fields of a record as items of an array, in order. -/
def listed (depth : Nat) : List (Slot σ) → Bool → σ → Scan σ
  | [], _, x => do closeArray; return x
  | f :: fs, first, x => do
    if ← anotherItem first then
      let set ← f.read depth
      listed depth fs false (set x)
    else if (f :: fs).all (·.presence = .defaulted) then return x
    else fail .unsuitable

/-- Whether another member follows in an object, past its comma and at its
    name; the closing bracket is read. -/
def anotherMember (first : Bool) : Scan Bool := do
  match ← blanks with
  | none => fail .ended
  | some '}' => advance; return false
  | some ',' =>
    if first then fail .malformed
    advance
    match ← blanks with
    | none => fail .ended
    | some '"' => return true
    | some _ => fail .malformed
  | some c => if first ∧ c = '"' then return true else fail .malformed

/-- The fields of a record as members of an object.  `pending` are those that
    have not been read; a member that is no field is passed over.  The fuel is
    a bound on the number of members. -/
def members (fields : List (Slot σ)) (depth : Nat) :
    Nat → Bool → List (Slot σ) → σ → Scan σ
  | 0, _, _, _ => fail .ended
  | fuel + 1, first, pending, x => do
    if ← anotherMember first then
      advance
      let name ← Scan.string
      match pending.find? (·.has name) with
      | some f =>
        colon
        let set ← f.read depth
        members fields depth fuel false (pending.filter (!·.has name)) (set x)
      | none =>
        if fields.any (·.has name) then fail .unsuitable
        colon
        skip
        members fields depth fuel false pending x
    else if pending.any (·.presence = .required) then fail .unsuitable
    else return x

/-- A record whose fields enter `blank`. -/
def record (blank : σ) (fields : List (Slot σ)) : Reader σ := fun depth => do
  match ← blanks with
  | none => fail .ended
  | some '[' => nested (fun depth => listed depth fields true blank) depth
  | some '{' =>
    nested (fun depth => do members fields depth (← get).length true fields blank) depth
  | some _ => mismatch

end Reader

end Json

end AdaptiveAutomata
