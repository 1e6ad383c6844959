/-
  Identifiers of 16 bytes, and their texts.

  * `Uuid.text` is the written form: 32 hexadecimal digits in lower case, in
    groups of 8, 4, 4, 4 and 12;
  * `Uuid.ofText?` also reads the digits without hyphens, the written form in
    braces, and the written form after `urn:uuid:`, all in either case;
  * `Uuid.brief` is the first group alone.
-/
import AdaptiveAutomata.Binary
import AdaptiveAutomata.Json.Codec

namespace AdaptiveAutomata

/-- An identifier of 16 bytes. -/
structure Uuid where
  bytes : List UInt8
  length_bytes : bytes.length = 16
deriving DecidableEq

namespace Uuid

/-- The identifier with these bytes, if there are 16 of them. -/
def ofBytes? (bs : List UInt8) : Option Uuid :=
  if h : bs.length = 16 then some ⟨bs, h⟩ else none

@[simp]
theorem ofBytes?_bytes (u : Uuid) : ofBytes? u.bytes = some u := by
  simp [ofBytes?, u.length_bytes]

/-! ## Digits -/

/-- The two digits of a byte, the high one first. -/
def hexPair (b : UInt8) : List Char := [Json.hexDigit (b.toNat / 16), Json.hexDigit b.toNat]

/-- The bytes that have these digits. -/
def ofHex? : List Char → Option (List UInt8)
  | [] => some []
  | a :: b :: cs => do
    let high ← Json.Scan.hexValue? a
    let low ← Json.Scan.hexValue? b
    return UInt8.ofNat (high * 16 + low) :: (← ofHex? cs)
  | [_] => none

def digits (u : Uuid) : List Char := u.bytes.flatMap hexPair

@[simp]
theorem length_digits (u : Uuid) : u.digits.length = 32 := by
  have h : ∀ bs : List UInt8, (bs.flatMap hexPair).length = 2 * bs.length := by
    intro bs
    induction bs with
    | nil => rfl
    | cons b bs ih => simp [hexPair, ih]; omega
  rw [digits, h, u.length_bytes]

def brief (u : Uuid) : String := String.ofList (u.digits.take 8)

/-! ## Groups -/

/-- Set a hyphen after each group of the given lengths. -/
def hyphenate : List Nat → List Char → List Char
  | [], cs => cs
  | n :: ns, cs => cs.take n ++ '-' :: hyphenate ns (cs.drop n)

/-- Take out the hyphen after each group of the given lengths. -/
def unhyphenate? : List Nat → List Char → Option (List Char)
  | [], cs => some cs
  | n :: ns, cs =>
    match cs.drop n with
    | '-' :: rest => (unhyphenate? ns rest).map (cs.take n ++ ·)
    | _ => none

/-- The lengths of the groups that a hyphen follows. -/
def groups : List Nat := [8, 4, 4, 4]

/-- The written form. -/
def text (u : Uuid) : String := String.ofList (hyphenate groups u.digits)

/-- Read the digits in their groups. -/
def ofGrouped? (cs : List Char) : Option Uuid :=
  (unhyphenate? groups cs).bind fun ds => (ofHex? ds).bind ofBytes?

/-- What names the written form as a universal resource name. -/
def urn : List Char := ['u', 'r', 'n', ':', 'u', 'u', 'i', 'd', ':']

/-- Read any of the four forms; letters may be in either case. -/
def ofText? (s : String) : Option Uuid :=
  let cs := s.toList
  if cs.length = 32 then (ofHex? cs).bind ofBytes?
  else if cs.head? = some '\x7b' ∧ cs.getLast? = some '\x7d' then
    ofGrouped? (cs.drop 1).dropLast
  else if (cs.take 9).map Char.toLower = urn then ofGrouped? (cs.drop 9)
  else ofGrouped? cs

/-! ## Written forms -/

def json : Json.Codec Uuid := Json.Codec.text.via text ofText?

def binary : Binary.Codec Uuid := Binary.Codec.blob.via bytes ofBytes?

end Uuid

end AdaptiveAutomata
