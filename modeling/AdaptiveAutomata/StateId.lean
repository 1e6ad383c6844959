/-
  Identifiers of states, and the counter that mints new ones.

  A state is called by the decimal text of its identifier, without sign and
  without leading zeros, so each identifier has one name.  The greatest word is
  no name of a declared state: the counter could not go past it.

  * `StateId.parse?` reads a name, `StateId.text` writes one;
  * `Counter.mint` gives the next identifier.  The counter never wraps: at the
    greatest word it stays where it is.
-/

namespace AdaptiveAutomata

/-- The identifier of a state. -/
abbrev StateId := UInt64

namespace StateId

/-- The greatest word. -/
def greatest : StateId := 18446744073709551615

/-- The name of an identifier. -/
def text (id : StateId) : String := String.ofList (Nat.toDigits 10 id.toNat)

/-- The identifier that a name stands for: a decimal number without leading
    zeros, at least one and below the greatest word. -/
def parse? (name : String) : Option StateId :=
  let cs := name.toList
  if cs.head? = some '0' ∨ !cs.all Char.isDigit then none
  else
    let n := Nat.ofDigitChars 10 cs 0
    if 0 < n ∧ n < greatest.toNat then some (UInt64.ofNat n) else none

end StateId

/-- A source of state identifiers. -/
structure Counter where
  /-- The identifier that is minted next. -/
  next : StateId
deriving DecidableEq

namespace Counter

/-- A counter that starts at one. -/
def initial : Counter := ⟨1⟩

/-- The next identifier, and the counter after it. -/
def mint (c : Counter) : StateId × Counter :=
  (c.next, if c.next = StateId.greatest then c else ⟨c.next + 1⟩)

/-- The next so many identifiers, and the counter after them. -/
def mints (c : Counter) : Nat → List StateId × Counter
  | 0 => ([], c)
  | n + 1 =>
    let (id, c) := c.mint
    let (ids, c) := c.mints n
    (id :: ids, c)

@[simp]
theorem mint_fst (c : Counter) : c.mint.1 = c.next := rfl

/-- Below the greatest word the counter goes on by one. -/
theorem next_mint {c : Counter} (h : c.next ≠ StateId.greatest) :
    c.mint.2.next = c.next + 1 := by
  simp [mint, h]

@[simp]
theorem length_mints (c : Counter) (n : Nat) : (c.mints n).1.length = n := by
  induction n generalizing c with
  | zero => rfl
  | succ n ih => simp [mints, ih]

end Counter

end AdaptiveAutomata
