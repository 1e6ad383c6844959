/-
  Names in quotation marks, for reports in which blanks and control characters
  have to be seen.

  * `Text.quoted` is a name in quotation marks;
  * `Text.quotedOption` is an optional name: `Some(...)` or `None`.
-/
import AdaptiveAutomata.Text.Unprintable

namespace AdaptiveAutomata

namespace Text

/-- A character inside quotation marks.  Unprintable characters are given by
    their code point. -/
def escape (c : Char) : List Char :=
  if c = '\x00' then ['\\', '0']
  else if c = '\t' then ['\\', 't']
  else if c = '\r' then ['\\', 'r']
  else if c = '\n' then ['\\', 'n']
  else if c = '\\' then ['\\', '\\']
  else if c = '"' then ['\\', '"']
  else if isUnprintable c then
    '\\' :: 'u' :: '\x7b' :: (Nat.toDigits 16 c.toNat ++ ['\x7d'])
  else [c]

/-- A name in quotation marks. -/
def quoted (s : String) : String :=
  String.ofList ('"' :: (s.toList.flatMap escape ++ ['"']))

/-- An optional name. -/
def quotedOption : Option String → String
  | none => "None"
  | some s => "Some(" ++ quoted s ++ ")"

end Text

end AdaptiveAutomata
