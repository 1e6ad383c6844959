/-
  Scanning JSON text from left to right, one token at a time.

  A scan takes what it reads off the front of the text and returns the rest,
  or stops at the first fault.  What a fault is depends on how much of the text
  has been seen: the text may end too early, it may not be JSON, or it may be
  JSON that is not what was asked for.

  * `Fault` names these three, `Scan` is the type of a scan;
  * `blanks`, `peek`, `take` and `word` are the tokens without content,
    `string` and `number` those with content;
  * `mismatch` is the fault of a value of the wrong kind: a token with content
    has to be well formed before it can be of the wrong kind;
  * `skip` passes over a value that nobody asked for.  It checks its form only:
    escapes need not name characters, numbers may have any size, and brackets
    may nest to any depth.
-/
import AdaptiveAutomata.Json.Numeral

namespace AdaptiveAutomata

namespace Json

/-- Why a text could not be read. -/
inductive Fault where
  /-- The text ends before the value does. -/
  | ended
  /-- The text is not JSON. -/
  | malformed
  /-- The text is JSON so far, but not of the kind asked for. -/
  | unsuitable
deriving DecidableEq, Repr

/-- A scan of the front of a text. -/
abbrev Scan := StateT (List Char) (Except Fault)

namespace Scan

def fail {α : Type} (f : Fault) : Scan α := fun _ => .error f

/-- The first character that has not been read, if any. -/
def peek : Scan (Option Char) := fun cs => .ok (cs.head?, cs)

/-- Read one character; the end of the text is a fault of the given kind. -/
def take (atEnd : Fault) : Scan Char
  | [] => .error atEnd
  | c :: cs => .ok (c, cs)

def advance : Scan Unit := fun cs => .ok ((), cs.tail)

/-- The four characters that may stand between tokens. -/
def isBlank (c : Char) : Bool := c = ' ' || c = '\n' || c = '\t' || c = '\r'

/-- Pass over blanks, then look at the next character. -/
def blanks : Scan (Option Char) := fun cs =>
  let rest := cs.dropWhile isBlank
  .ok (rest.head?, rest)

/-- Read exactly these characters. -/
def word : List Char → Scan Unit
  | [] => pure ()
  | c :: cs => do
    if (← take .ended) = c then word cs else fail .malformed

/-! ## Strings -/

def hexValue? (c : Char) : Option Nat :=
  if '0' ≤ c ∧ c ≤ '9' then some (c.toNat - '0'.toNat)
  else if 'a' ≤ c ∧ c ≤ 'f' then some (c.toNat - 'a'.toNat + 10)
  else if 'A' ≤ c ∧ c ≤ 'F' then some (c.toNat - 'A'.toNat + 10)
  else none

/-- The value of the four hexadecimal digits at the front of a text.  Fewer
    than four bytes of text are an early end, whatever they are. -/
def hexEscape : Scan Nat := fun cs =>
  match cs with
  | a :: b :: c :: d :: rest =>
    match hexValue? a, hexValue? b, hexValue? c, hexValue? d with
    | some a, some b, some c, some d => .ok (((a * 16 + b) * 16 + c) * 16 + d, rest)
    | _, _, _, _ => .error .malformed
  | _ => .error (if (String.ofList cs).utf8ByteSize < 4 then .ended else .malformed)

/-- Read one given character of a surrogate pair. -/
def pairMark (c : Char) : Scan Unit := do
  if (← take .ended) = c then pure () else fail .malformed

/-- The character named by an escape of four digits, or by two such escapes
    that form a surrogate pair. -/
def unicodeEscape : Scan Char := do
  let lead ← hexEscape
  if 0xDC00 ≤ lead ∧ lead ≤ 0xDFFF then fail .malformed
  else if lead < 0xD800 ∨ 0xDBFF < lead then pure (Char.ofNat lead)
  else
    pairMark '\\'
    pairMark 'u'
    let trail ← hexEscape
    if trail < 0xDC00 ∨ 0xDFFF < trail then fail .malformed
    else pure (Char.ofNat ((lead - 0xD800) * 0x400 + (trail - 0xDC00) + 0x10000))

def simpleEscape? (c : Char) : Option Char :=
  if c = '"' then some '"'
  else if c = '\\' then some '\\'
  else if c = '/' then some '/'
  else if c = 'b' then some '\x08'
  else if c = 'f' then some '\x0c'
  else if c = 'n' then some '\n'
  else if c = 'r' then some '\r'
  else if c = 't' then some '\t'
  else none

/-- The character named by what follows a backslash. -/
def escaped : Scan Char := do
  let c ← take .ended
  if c = 'u' then unicodeEscape
  else match simpleEscape? c with
    | some c => pure c
    | none => fail .malformed

/-- The characters of a string after its opening quotation mark.  The fuel is
    a bound on their number. -/
def stringBody : Nat → Scan (List Char)
  | 0 => fail .ended
  | fuel + 1 => do
    let c ← take .ended
    if c = '"' then pure []
    else if c = '\\' then
      let c ← escaped
      return c :: (← stringBody fuel)
    else if c.toNat < 0x20 then fail .malformed
    else return c :: (← stringBody fuel)

def string : Scan String := do
  return String.ofList (← stringBody (← get).length)

def skipString : Nat → Scan Unit
  | 0 => fail .ended
  | fuel + 1 => do
    let c ← take .ended
    if c = '"' then pure ()
    else if c = '\\' then
      let c ← take .ended
      if c = 'u' then
        let _ ← hexEscape
        skipString fuel
      else if (simpleEscape? c).isSome then skipString fuel
      else fail .malformed
    else if c.toNat < 0x20 then fail .malformed
    else skipString fuel

/-! ## Numbers -/

def digits : Scan (List Char) := fun cs =>
  .ok (cs.takeWhile Char.isDigit, cs.dropWhile Char.isDigit)

/-- One digit and those after it. -/
def someDigits (atEnd : Fault) : Scan (List Char) := do
  let c ← take atEnd
  if c.isDigit then return c :: (← digits) else fail .malformed

/-- The digits of the whole part: a lone zero, or digits that start with
    another digit. -/
def wholePart (atEnd : Fault) : Scan (List Char) := do
  let ds ← someDigits atEnd
  if ds.head? = some '0' ∧ ds ≠ ['0'] then fail .malformed else return ds

/-- The digits after a point, if there is a point. -/
def fractionPart (atEnd : Fault) : Scan (Option (List Char)) := do
  if (← peek) = some '.' then
    advance
    return some (← someDigits atEnd)
  else return none

/-- The exponent after its letter, if there is one: whether a minus sign stands
    before it, and its digits. -/
def exponentPart (atEnd : Fault) : Scan (Option (Bool × List Char)) := do
  let letter ← peek
  if letter = some 'e' ∨ letter = some 'E' then
    advance
    let sign ← peek
    if sign = some '+' ∨ sign = some '-' then advance
    return some (sign = some '-', ← someDigits atEnd)
  else return none

/-- A number at its first character.  Where a digit is missing, the end of the
    text is a fault of the given kind. -/
def numeral (atEnd : Fault) : Scan Numeral := do
  let negative := (← peek) = some '-'
  if negative then advance
  let whole ← wholePart atEnd
  let fraction ← fractionPart atEnd
  let exponent ← exponentPart atEnd
  return { negative, whole, fraction, exponent }

/-- A number that is read has to be within the doubles. -/
def number : Scan Numeral := do
  let x ← numeral .ended
  if x.isHuge then fail .malformed else return x

/-- Pass over a number, whatever its size. -/
def skipNumber : Scan Unit := do
  let _ ← numeral .malformed

/-! ## Values of the wrong kind -/

/-- Whether a number can start with this character. -/
def startsNumber (c : Char) : Bool := c = '-' || c.isDigit

/-- The fault of a value of the wrong kind that starts with the next character,
    which has not been read. -/
def mismatch {α : Type} : Scan α := do
  match ← peek with
  | none => fail .malformed
  | some c =>
    if c = 'n' then word ['n', 'u', 'l', 'l']; fail .unsuitable
    else if c = 't' then word ['t', 'r', 'u', 'e']; fail .unsuitable
    else if c = 'f' then word ['f', 'a', 'l', 's', 'e']; fail .unsuitable
    else if startsNumber c then let _ ← number; fail .unsuitable
    else if c = '"' then advance; let _ ← string; fail .unsuitable
    else if c = '[' || c = '{' then fail .unsuitable
    else fail .malformed

/-! ## Values that nobody asked for -/

/-- An open bracket of a value that is passed over. -/
inductive Bracket where
  | array
  | object
deriving DecidableEq, Repr

def Bracket.closing : Bracket → Char
  | .array => ']'
  | .object => '}'

/-- What a passed-over text is read for next. -/
inductive Expect where
  /-- A value. -/
  | value
  /-- After an opening bracket: its first item, or its end. -/
  | first
  /-- After an item: a comma and another item, or the end of the bracket. -/
  | next
deriving DecidableEq, Repr

/-- Pass over the name of a member, its colon and the blanks around them. -/
def skipName : Scan Unit := do
  match ← blanks with
  | none => fail .ended
  | some c =>
    if c = '"' then
      advance
      skipString (← get).length
      match ← blanks with
      | none => fail .ended
      | some c => if c = ':' then advance else fail .malformed
    else fail .malformed

/-- Pass over what stands before an item: in an object, its name. -/
def Bracket.skipLead : Bracket → Scan Unit
  | .array => pure ()
  | .object => skipName

/-- Pass over a value without brackets that starts with this character. -/
def skipScalar (c : Char) : Scan Unit :=
  if c = 'n' then word ['n', 'u', 'l', 'l']
  else if c = 't' then word ['t', 'r', 'u', 'e']
  else if c = 'f' then word ['f', 'a', 'l', 's', 'e']
  else if startsNumber c then skipNumber
  else if c = '"' then do
    advance
    skipString (← get).length
  else fail .malformed

/-- Pass over the rest of a value inside the given open brackets, the innermost
    first.  Each round reads at least one character or turns from a first item
    to a value, so twice the length of the text is fuel enough. -/
def skipWithin : Nat → Expect → List Bracket → Scan Unit
  | 0, _, _ => fail .ended
  | fuel + 1, .value, enclosing => do
    match ← blanks with
    | none => fail .ended
    | some '[' => advance; skipWithin fuel .first (.array :: enclosing)
    | some '{' => advance; skipWithin fuel .first (.object :: enclosing)
    | some c => skipScalar c; skipWithin fuel .next enclosing
  | _ + 1, _, [] => pure ()
  | fuel + 1, .first, b :: enclosing => do
    match ← blanks with
    | none => fail .ended
    | some c =>
      if c = b.closing then advance; skipWithin fuel .next enclosing
      else b.skipLead; skipWithin fuel .value (b :: enclosing)
  | fuel + 1, .next, b :: enclosing => do
    match ← blanks with
    | none => fail .ended
    | some c =>
      if c = b.closing then advance; skipWithin fuel .next enclosing
      else if c = ',' then advance; b.skipLead; skipWithin fuel .value (b :: enclosing)
      else fail .malformed

def skip : Scan Unit := do
  skipWithin (2 * (← get).length + 2) .value []

end Scan

end Json

end AdaptiveAutomata
