/-
  JSON documents as trees, and the two texts such a tree is written as.

  The documents of this library hold no numbers but counts and identifiers, so
  a number is a natural number.  An object keeps its members in the order in
  which they are written.

  * `Json` is the tree, `Json.write` its text under a `Layout`;
  * `Json.compact` has no space between tokens, `Json.pretty` gives every item
    a line of its own, indented by two spaces a level.
-/

namespace AdaptiveAutomata

/-- A JSON document. -/
inductive Json where
  | null
  | bool (value : Bool)
  | number (value : Nat)
  | string (text : String)
  | array (items : List Json)
  | object (members : List (String × Json))


namespace Json

/-! ## Strings -/

/-- The digit of a value below sixteen, in lower case. -/
def hexDigit (n : Nat) : Char := (n % 16).digitChar

/-- A character as it stands inside a string.  Only the quotation mark, the
    backslash and the characters below the space are escaped. -/
def escape (c : Char) : List Char :=
  if c = '"' then ['\\', '"']
  else if c = '\\' then ['\\', '\\']
  else if c = '\x08' then ['\\', 'b']
  else if c = '\t' then ['\\', 't']
  else if c = '\n' then ['\\', 'n']
  else if c = '\x0c' then ['\\', 'f']
  else if c = '\r' then ['\\', 'r']
  else if c.toNat < 0x20 then
    ['\\', 'u', '0', '0', hexDigit (c.toNat / 16), hexDigit c.toNat]
  else [c]

/-- A string between its quotation marks. -/
def quoted (s : String) : List Char := '"' :: (s.toList.flatMap escape ++ ['"'])

/-! ## Layouts -/

/-- Where a text has blanks: before each item and each closing bracket, given
    the level it stands on, and after the name of a member. -/
structure Layout where
  line : Nat → List Char
  colon : List Char

/-- No blanks at all. -/
def Layout.compact : Layout := ⟨fun _ => [], [':']⟩

/-- A line for each item, indented by two spaces a level, and one blank after a
    colon. -/
def Layout.pretty : Layout :=
  ⟨fun level => '\n' :: List.replicate (2 * level) ' ', [':', ' ']⟩

mutual

/-- The text of a document whose first line stands on the given level. -/
def write (l : Layout) (level : Nat) : Json → List Char
  | .null => ['n', 'u', 'l', 'l']
  | .bool true => ['t', 'r', 'u', 'e']
  | .bool false => ['f', 'a', 'l', 's', 'e']
  | .number n => Nat.toDigits 10 n
  | .string s => quoted s
  | .array items =>
    '[' :: (writeItems l (level + 1) [] items ++
      ((if items.isEmpty then [] else l.line level) ++ [']']))
  | .object members =>
    '{' :: (writeMembers l (level + 1) [] members ++
      ((if members.isEmpty then [] else l.line level) ++ ['}']))
termination_by structural j => j

/-- The items of an array, each after a comma, the first after `lead`. -/
def writeItems (l : Layout) (level : Nat) (lead : List Char) : List Json → List Char
  | [] => []
  | item :: items =>
    lead ++ (l.line level ++ (write l level item ++ writeItems l level [','] items))
termination_by structural items => items

/-- The members of an object, each after a comma, the first after `lead`. -/
def writeMembers (l : Layout) (level : Nat) (lead : List Char) :
    List (String × Json) → List Char
  | [] => []
  | member :: members =>
    lead ++ (l.line level ++ (writeMember l level member ++ writeMembers l level [','] members))
termination_by structural members => members

/-- A member: its name, a colon, its value. -/
def writeMember (l : Layout) (level : Nat) : String × Json → List Char
  | (name, value) => quoted name ++ (l.colon ++ write l level value)
termination_by structural member => member

end

def compact (j : Json) : String := String.ofList (j.write .compact 0)

/-- The text with a line for each item. -/
def pretty (j : Json) : String := String.ofList (j.write .pretty 0)

/-! ## Building documents -/

def ofOption (j : Option Json) : Json := j.getD .null

end Json

end AdaptiveAutomata
