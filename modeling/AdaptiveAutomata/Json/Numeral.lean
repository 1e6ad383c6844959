/-
  Numbers as they stand in a JSON text.

  A numeral is kept as its parts.  Two questions are asked of it: which natural
  number it names, if it names one that fits a word of 64 bits, and whether its
  size is beyond every double, in which case the text is not accepted at all.

  * `Numeral.natural?` answers the first question;
  * `Numeral.isHuge` answers the second.  A significand of at most 64 bits and
    a power of ten are rounded to 53 bits each, and so is their product.
-/

namespace AdaptiveAutomata

namespace Json

/-- The parts of a number: `-` or nothing, digits, digits after a point, and
    digits after an exponent letter with whether a minus sign stands before
    them. -/
structure Numeral where
  negative : Bool
  whole : List Char
  fraction : Option (List Char)
  exponent : Option (Bool × List Char)

namespace Numeral

/-- The natural number that is named, if there is one below `2 ^ 64`.  A minus
    sign, a point or an exponent names another kind of number. -/
def natural? (x : Numeral) : Option Nat :=
  let n := Nat.ofDigitChars 10 x.whole 0
  if !x.negative && x.fraction.isNone && x.exponent.isNone && decide (n < UInt64.size) then some n
  else none

/-! ## Size -/

/-- Continue a significand with digits as long as it stays below `2 ^ 64`;
    also the digits left over. -/
def significand (n : Nat) : List Char → Nat × List Char
  | [] => (n, [])
  | d :: ds =>
    let m := n * 10 + (d.toNat - '0'.toNat)
    if m < UInt64.size then significand m ds else (n, d :: ds)

/-- The nearest number that has no more than 53 significant bits; of two
    equally near, the one whose last bit is even. -/
def roundTo53 (n : Nat) : Nat :=
  let shift := n.log2 + 1 - 53
  let unit := 1 <<< shift
  let q := n / unit
  let r := n % unit
  let half := unit / 2
  (if half < r ∨ (r = half ∧ shift ≠ 0 ∧ q % 2 = 1) then q + 1 else q) * unit

/-- Whether a significand times a power of ten exceeds every double: whether it
    needs more than 1024 bits. -/
def exceeds (significand : Nat) (exponent : Int) : Bool :=
  significand ≠ 0 ∧
    (308 < exponent ∨
      0 ≤ exponent ∧
        1024 ≤ (roundTo53 (roundTo53 significand * roundTo53 (Nat.pow 10 exponent.toNat))).log2)

/-- Whether the number is beyond every double.  Digits that the significand has
    no room for only move the point. -/
def isHuge (x : Numeral) : Bool :=
  let (whole, excess) := significand 0 x.whole
  let digits := x.fraction.getD []
  let (sig, unused) := significand whole digits
  let point : Int := excess.length - (digits.length - unused.length : Nat)
  match x.exponent with
  | none => exceeds sig point
  | some (true, ds) => exceeds sig (point - Nat.ofDigitChars 10 ds 0)
  | some (false, ds) =>
    let e := Nat.ofDigitChars 10 ds 0
    -- An exponent that needs more than 31 bits is too great wherever the point is.
    if e < 2147483648 then exceeds sig (point + e) else sig ≠ 0

end Numeral

end Json

end AdaptiveAutomata
