/-
  Tokens: what a scan reads of what is written.

  A text is read off the front of a longer one.  Words and strings end by
  themselves; a number ends where no digit, point or exponent follows, which
  `Ends` says of the rest.

  * `Scan.bind_ok` puts scans one after the other;
  * `Scan.Spells` says how the characters of a string may be spelled, of which what is
    written is one way (`spells_flatMap_escape`);
  * `Scan.blanks_cons`, `word_append`, `string_spells` and `number_toDigits` are the laws
    of the tokens.
-/
import AdaptiveAutomata.Json
import AdaptiveAutomata.Json.Scan
import AdaptiveAutomata.Proofs.Identifiers

namespace AdaptiveAutomata

namespace Json

/-- Only characters that may stand between tokens. -/
def Blanks (b : List Char) : Prop := ∀ c ∈ b, Scan.isBlank c = true

/-- The text ends, or goes on with a character that stands after a value. -/
def Ends (rest : List Char) : Prop :=
  ∀ c ∈ rest.head?, Scan.isBlank c = true ∨ c = ',' ∨ c = ']' ∨ c = '}'

theorem blanks_nil : Blanks [] := nofun

variable {b b' : List Char}

theorem blanks_append (hb : Blanks b) (hb' : Blanks b') : Blanks (b ++ b') :=
  fun x hx => (List.mem_append.1 hx).elim (hb x) (hb' x)

theorem ends_append {c : Char} (hb : Blanks b) (hc : c = ',' ∨ c = ']' ∨ c = '}')
    (cs : List Char) : Ends (b ++ c :: cs) := by
  intro x hx
  cases b with
  | nil =>
    cases hx
    exact .inr hc
  | cons y b =>
    obtain rfl := Option.some.inj hx
    exact .inl (hb y List.mem_cons_self)

theorem ends_blanks (hb : Blanks b) : Ends b := fun c hc => .inl (hb c (List.mem_of_mem_head? hc))

namespace Scan

variable {α β : Type} {m : Scan α} {f : α → Scan β} {a : α} {b cs rest : List Char} {c : Char}

/-! ## One scan after the other -/

theorem bind_ok (h : m cs = .ok (a, rest)) : (m >>= f) cs = f a rest := by
  change (m cs >>= fun p => f p.1 p.2) = _
  rw [h]
  rfl

theorem map_ok {g : α → β} (h : m cs = .ok (a, rest)) : (g <$> m) cs = .ok (g a, rest) := by
  rw [map_eq_pure_bind, bind_ok h]
  rfl

/-! ## Blanks and words -/

theorem blanks_cons (hb : Blanks b) (hc : isBlank c = false) (cs : List Char) :
    blanks (b ++ c :: cs) = .ok (some c, c :: cs) := by
  rw [blanks, List.dropWhile_append_of_pos hb, List.dropWhile_cons_of_neg (by simp [hc])]
  rfl

theorem take_cons (f : Fault) (c : Char) (cs : List Char) : take f (c :: cs) = .ok (c, cs) := rfl

theorem word_append (w rest : List Char) : word w (w ++ rest) = .ok ((), rest) := by
  induction w with
  | nil => rfl
  | cons c w ih =>
    rw [List.cons_append, word, bind_ok (take_cons _ c _), if_pos rfl, ih]

/-! ## Strings -/

theorem hexValue?_hexDigit (n : Nat) : hexValue? (hexDigit n) = some (n % 16) := by
  have h : ∀ m < 16, hexValue? (Nat.digitChar m) = some m := by decide
  exact h (n % 16) (Nat.mod_lt n (by decide))

/-- Four hexadecimal digits, and the number that they name. -/
inductive Hex : List Char → Nat → Prop
  | mk {a b c d : Char} {x y z w : Nat} (ha : hexValue? a = some x) (hb : hexValue? b = some y)
      (hc : hexValue? c = some z) (hd : hexValue? d = some w) :
      Hex [a, b, c, d] (((x * 16 + y) * 16 + z) * 16 + w)

theorem Hex.escape {ds : List Char} {n : Nat} (h : Hex ds n) (cs : List Char) :
    hexEscape (ds ++ cs) = .ok (n, cs) := by
  cases h with
  | mk ha hb hc hd => simp only [List.cons_append, List.nil_append, hexEscape, ha, hb, hc, hd]

/-- The spellings of a character inside a string: itself, a letter or a sign after a backslash,
    or its number, which takes two escapes where it has more than four digits. -/
inductive SpellsChar : Char → List Char → Prop
  | plain {c : Char} (hq : c ≠ '"') (hb : c ≠ '\\') (hc : 0x20 ≤ c.toNat) : SpellsChar c [c]
  | simple {c d : Char} (h : simpleEscape? d = some c) : SpellsChar c ['\\', d]
  | number {ds : List Char} {n : Nat} (h : Hex ds n) (hn : n < 0xD800 ∨ 0xDFFF < n) :
      SpellsChar (Char.ofNat n) ('\\' :: 'u' :: ds)
  | pair {ds es : List Char} {lead trail : Nat} (h : Hex ds lead) (h' : Hex es trail)
      (hl : 0xD800 ≤ lead ∧ lead ≤ 0xDBFF) (ht : 0xDC00 ≤ trail ∧ trail ≤ 0xDFFF) :
      SpellsChar (Char.ofNat ((lead - 0xD800) * 0x400 + (trail - 0xDC00) + 0x10000))
        ('\\' :: 'u' :: (ds ++ '\\' :: 'u' :: es))

/-- The spellings of several characters. -/
inductive Spells : List Char → List Char → Prop
  | nil : Spells [] []
  | cons {c : Char} {s e cs : List Char} (hc : SpellsChar c e) (h : Spells s cs) :
      Spells (c :: s) (e ++ cs)

/-- What is written of a character is one of its spellings: a character below the space is
    named by four digits, of which the first two are zero. -/
theorem spellsChar_escape (c : Char) : SpellsChar c (escape c) := by
  unfold escape
  split_ifs with h₁ h₂ h₃ h₄ h₅ h₆ h₇ h₈
  · exact .simple (by simp [simpleEscape?, h₁])
  · exact .simple (by simp [simpleEscape?, h₂])
  · exact .simple (by simp [simpleEscape?, h₃])
  · exact .simple (by simp [simpleEscape?, h₄])
  · exact .simple (by simp [simpleEscape?, h₅])
  · exact .simple (by simp [simpleEscape?, h₆])
  · exact .simple (by simp [simpleEscape?, h₇])
  · have hz : hexValue? '0' = some 0 := by decide
    have hn : ((0 * 16 + 0) * 16 + c.toNat / 16 % 16) * 16 + c.toNat % 16 = c.toNat := by omega
    have hhex := Hex.mk hz hz (hexValue?_hexDigit (c.toNat / 16)) (hexValue?_hexDigit c.toNat)
    rw [hn] at hhex
    have hspells := SpellsChar.number hhex (.inl (by omega))
    rwa [Char.ofNat_toNat] at hspells
  · exact .plain h₁ h₂ (Nat.le_of_not_lt h₈)

theorem spells_flatMap_escape (s : List Char) : Spells s (s.flatMap escape) := by
  induction s with
  | nil => exact .nil
  | cons c s ih => exact .cons (spellsChar_escape c) ih

theorem escaped_simple {d : Char} (h : simpleEscape? d = some c) (cs : List Char) :
    escaped (d :: cs) = .ok (c, cs) := by
  have hu : d ≠ 'u' := by
    rintro rfl
    have hnone : simpleEscape? 'u' = none := rfl
    rw [hnone] at h
    cases h
  rw [escaped, bind_ok (take_cons _ d cs), if_neg hu, h]
  rfl

theorem escaped_number {ds : List Char} {n : Nat} (h : Hex ds n) (hn : n < 0xD800 ∨ 0xDFFF < n)
    (cs : List Char) : escaped ('u' :: (ds ++ cs)) = .ok (Char.ofNat n, cs) := by
  rw [escaped, bind_ok (take_cons _ 'u' _), if_pos rfl, unicodeEscape, bind_ok (h.escape cs),
    if_neg (by omega), if_pos (by omega)]
  rfl

theorem pairMark_cons (c : Char) (cs : List Char) : pairMark c (c :: cs) = .ok ((), cs) := by
  rw [pairMark, bind_ok (take_cons _ c cs), if_pos rfl]
  rfl

theorem escaped_pair {ds es : List Char} {lead trail : Nat} (h : Hex ds lead) (h' : Hex es trail)
    (hl : 0xD800 ≤ lead ∧ lead ≤ 0xDBFF) (ht : 0xDC00 ≤ trail ∧ trail ≤ 0xDFFF) (cs : List Char) :
    escaped ('u' :: (ds ++ '\\' :: 'u' :: (es ++ cs))) =
      .ok (Char.ofNat ((lead - 0xD800) * 0x400 + (trail - 0xDC00) + 0x10000), cs) := by
  rw [escaped, bind_ok (take_cons _ 'u' _), if_pos rfl, unicodeEscape, bind_ok (h.escape _),
    if_neg (by omega), if_neg (by omega), bind_ok (pairMark_cons '\\' _),
    bind_ok (pairMark_cons 'u' _), bind_ok (h'.escape cs), if_neg (by omega)]
  rfl

theorem stringBody_escaped {fuel : Nat} {ds s : List Char} (he : escaped ds = .ok (c, cs))
    (h : stringBody fuel cs = .ok (s, rest)) :
    stringBody (fuel + 1) ('\\' :: ds) = .ok (c :: s, rest) := by
  rw [stringBody, bind_ok (take_cons _ _ ds), if_neg (by decide), if_pos rfl, bind_ok he, bind_ok h]
  rfl

/-- A character is read off any of its spellings. -/
theorem stringBody_char {fuel : Nat} {e s : List Char} (hc : SpellsChar c e)
    (h : stringBody fuel cs = .ok (s, rest)) :
    stringBody (fuel + 1) (e ++ cs) = .ok (c :: s, rest) := by
  cases hc with
  | plain hq hb hc =>
    rw [List.singleton_append, stringBody, bind_ok (take_cons _ c cs), if_neg hq, if_neg hb,
      if_neg (Nat.not_lt.2 hc), bind_ok h]
    rfl
  | simple hd => exact stringBody_escaped (escaped_simple hd cs) h
  | number hx hn => exact stringBody_escaped (escaped_number hx hn cs) h
  | pair hx hx' hl ht =>
    rw [List.cons_append, List.cons_append, List.append_assoc]
    exact stringBody_escaped (escaped_pair hx hx' hl ht cs) h

theorem stringBody_spells {fuel : Nat} {s : List Char} (hs : Spells s cs) (hf : s.length < fuel)
    (rest : List Char) : stringBody fuel (cs ++ '"' :: rest) = .ok (s, rest) := by
  obtain ⟨fuel, rfl⟩ : ∃ n, fuel = n + 1 := ⟨fuel - 1, by omega⟩
  induction hs generalizing fuel with
  | nil => rfl
  | @cons c s e cs hc _ ih =>
    rw [List.length_cons] at hf
    obtain ⟨n, rfl⟩ : ∃ n, fuel = n + 1 := ⟨fuel - 1, by omega⟩
    rw [List.append_assoc]
    exact stringBody_char hc (ih n (by omega))

theorem Spells.length_le {s : List Char} (h : Spells s cs) : s.length ≤ cs.length := by
  induction h with
  | nil => exact le_rfl
  | @cons c s e cs hc _ ih =>
    have he : 1 ≤ e.length := by cases hc <;> simp
    rw [List.length_append, List.length_cons]
    omega

theorem get_ok (cs : List Char) : (get : Scan (List Char)) cs = .ok (cs, cs) := rfl

/-- **A string** is read off any of its spellings, past the first quotation mark. -/
theorem string_spells {s : String} (h : Spells s.toList cs) (rest : List Char) :
    string (cs ++ '"' :: rest) = .ok (s, rest) := by
  have hl : s.toList.length < (cs ++ '"' :: rest).length := by
    have := h.length_le
    rw [List.length_append, List.length_cons]
    omega
  rw [string, bind_ok (get_ok _), bind_ok (stringBody_spells h hl rest), String.ofList_toList]
  rfl

theorem quoted_append (s : String) (rest : List Char) :
    quoted s ++ rest = '"' :: (s.toList.flatMap escape ++ '"' :: rest) := by
  rw [quoted, List.cons_append, List.append_assoc, List.singleton_append]

theorem string_quoted (s : String) (rest : List Char) :
    string (s.toList.flatMap escape ++ '"' :: rest) = .ok (s, rest) :=
  string_spells (spells_flatMap_escape s.toList) rest

/-! ## Numbers -/

theorem not_isDigit_of_ends (hr : Ends rest) : ∀ c ∈ rest.head?, c.isDigit = false := by
  intro c hc
  rcases hr c hc with h | rfl | rfl | rfl
  · simp only [isBlank, Bool.or_eq_true, decide_eq_true_eq] at h
    rcases h with ((rfl | rfl) | rfl) | rfl <;> decide
  all_goals decide

theorem head?_ne_of_ends (hr : Ends rest) (hb : isBlank c = false) (h₁ : c ≠ ',') (h₂ : c ≠ ']')
    (h₃ : c ≠ '}') : rest.head? ≠ some c := fun h => by
  rcases hr c h with h | h | h | h
  · rw [hb] at h
    cases h
  · exact h₁ h
  · exact h₂ h
  · exact h₃ h

theorem someDigits_append {ds : List Char} (f : Fault) (hd : ∀ c ∈ ds, c.isDigit = true)
    (hne : ds ≠ []) (hr : ∀ c ∈ rest.head?, c.isDigit = false) :
    someDigits f (ds ++ rest) = .ok (ds, rest) := by
  obtain ⟨d, ds, rfl⟩ := List.exists_cons_of_ne_nil hne
  obtain ⟨hd, hds⟩ := List.forall_mem_cons.1 hd
  have hrest : rest.takeWhile Char.isDigit = [] ∧ rest.dropWhile Char.isDigit = rest := by
    cases rest with
    | nil => exact ⟨rfl, rfl⟩
    | cons c rest => simp [hr c rfl]
  have hdigits : digits (ds ++ rest) = .ok (ds, rest) := by
    rw [digits, List.takeWhile_append_of_pos hds, List.dropWhile_append_of_pos hds, hrest.1,
      hrest.2, List.append_nil]
  rw [someDigits, List.cons_append, bind_ok (take_cons f d _), if_pos hd, bind_ok hdigits]
  rfl

theorem peek_ok (cs : List Char) : peek cs = .ok (cs.head?, cs) := rfl

theorem pure_ok (a : α) (cs : List Char) : (pure a : Scan α) cs = .ok (a, cs) := rfl

theorem fractionPart_of_ends (f : Fault) (hr : Ends rest) :
    fractionPart f rest = .ok (none, rest) := by
  have h : rest.head? ≠ some '.' := head?_ne_of_ends hr rfl (by decide) (by decide) (by decide)
  rw [fractionPart, bind_ok (peek_ok rest), if_neg h, pure_ok]

theorem exponentPart_of_ends (f : Fault) (hr : Ends rest) :
    exponentPart f rest = .ok (none, rest) := by
  have he : rest.head? ≠ some 'e' := head?_ne_of_ends hr rfl (by decide) (by decide) (by decide)
  have hE : rest.head? ≠ some 'E' := head?_ne_of_ends hr rfl (by decide) (by decide) (by decide)
  rw [exponentPart, bind_ok (peek_ok rest), if_neg (not_or.2 ⟨he, hE⟩), pure_ok]

theorem isDigit_of_mem_toDigits {n : Nat} (h : c ∈ Nat.toDigits 10 n) : c.isDigit = true :=
  Nat.isDigit_of_mem_toDigits (by omega) (by omega) h

theorem isBlank_of_isDigit (h : c.isDigit = true) : isBlank c = false := by
  rw [← Bool.not_eq_true]
  simp only [isBlank, Bool.or_eq_true, decide_eq_true_eq]
  rintro (((rfl | rfl) | rfl) | rfl) <;> cases h

/-- A number is one digit zero, or has no leading zeros. -/
theorem wholePart_toDigits (f : Fault) (n : Nat) (hr : Ends rest) :
    wholePart f (Nat.toDigits 10 n ++ rest) = .ok (Nat.toDigits 10 n, rest) := by
  have hz : ¬ ((Nat.toDigits 10 n).head? = some '0' ∧ Nat.toDigits 10 n ≠ ['0']) := by
    rintro ⟨hz, hne⟩
    rcases Nat.eq_zero_or_pos n with rfl | hn
    · exact hne (Nat.toDigits_of_lt_base (by omega))
    · exact StateId.head?_toDigits hn hz
  rw [wholePart, bind_ok (someDigits_append f (fun c => isDigit_of_mem_toDigits)
    Nat.toDigits_ne_nil (not_isDigit_of_ends hr)), if_neg hz, pure_ok]

/-- The numeral of a natural number. -/
def numeralOf (n : Nat) : Numeral := ⟨false, Nat.toDigits 10 n, none, none⟩

theorem numeral_toDigits (f : Fault) (n : Nat) (hr : Ends rest) :
    numeral f (Nat.toDigits 10 n ++ rest) = .ok (numeralOf n, rest) := by
  obtain ⟨d, ds, hds⟩ := List.exists_cons_of_ne_nil (Nat.toDigits_ne_nil (n := n) (b := 10))
  have hsign : ¬ (Nat.toDigits 10 n ++ rest).head? = some '-' := by
    rw [hds, List.cons_append, List.head?_cons, Option.some.injEq]
    rintro rfl
    exact absurd (isDigit_of_mem_toDigits (hds ▸ List.mem_cons_self)) (by decide)
  rw [numeral, bind_ok (peek_ok _)]
  simp only [hsign, decide_false]
  rw [if_neg not_false, bind_ok (wholePart_toDigits f n hr), bind_ok (fractionPart_of_ends f hr),
    bind_ok (exponentPart_of_ends f hr), pure_ok, numeralOf]

end Scan

namespace Numeral

open Scan (numeralOf)

/-! ## Sizes of numbers -/

theorem le_ofDigitChars (ds : List Char) (m : Nat) : m ≤ Nat.ofDigitChars 10 ds m := by
  induction ds generalizing m with
  | nil => exact le_rfl
  | cons d ds ih =>
    rw [Nat.ofDigitChars_cons]
    exact le_trans (by omega) (ih _)

theorem significand_eq {ds : List Char} {m : Nat} (h : Nat.ofDigitChars 10 ds m < UInt64.size) :
    significand m ds = (Nat.ofDigitChars 10 ds m, []) := by
  induction ds generalizing m with
  | nil => rfl
  | cons d ds ih =>
    rw [Nat.ofDigitChars_cons, Nat.mul_comm] at h ⊢
    rw [significand, if_pos (lt_of_le_of_lt (le_ofDigitChars ds _) h), ih h]

/-- Rounding at most doubles a number. -/
theorem roundTo53_le (n : Nat) : roundTo53 n ≤ 2 * n := by
  rcases Nat.eq_zero_or_pos n with rfl | hn
  · decide
  have hunit : 1 <<< (n.log2 + 1 - 53) ≤ n := by
    rw [Nat.one_shiftLeft]
    exact (Nat.pow_le_pow_right (by decide) (by omega)).trans (Nat.log2_self_le hn.ne')
  have hdiv := Nat.div_mul_le_self n (1 <<< (n.log2 + 1 - 53))
  simp only [roundTo53]
  split_ifs
  · rw [Nat.add_mul]
    omega
  · omega

/-- No number that fits a word is beyond the doubles. -/
theorem isHuge_numeralOf {n : Nat} (h : n < UInt64.size) : (numeralOf n).isHuge = false := by
  have hn : Nat.ofDigitChars 10 (Nat.toDigits 10 n) 0 = n := Nat.ofDigitChars_ten_toDigits
  have hs : significand 0 (Nat.toDigits 10 n) = (n, []) := by
    rw [significand_eq (hn.symm ▸ h), hn]
  have hlog : (roundTo53 (roundTo53 n * roundTo53 (Nat.pow 10 0))).log2 < 1024 := by
    have h₁ := roundTo53_le n
    have h₂ := roundTo53_le (roundTo53 n * 1)
    have h₃ : roundTo53 (Nat.pow 10 0) = 1 := by decide
    rw [h₃]
    generalize roundTo53 (roundTo53 n * 1) = k at h₂
    rcases Nat.eq_zero_or_pos k with rfl | hk
    · decide
    · have hlt : k < Nat.pow 2 67 := lt_of_le_of_lt (by omega : k ≤ 4 * UInt64.size) (by decide)
      exact ((Nat.log2_lt hk.ne').2 hlt).trans (by decide)
  have hexp : exceeds n 0 = false := by
    simp only [exceeds, Int.toNat_zero, hlog.not_ge]
    simp
  rw [isHuge, numeralOf, hs]
  exact hexp

end Numeral

namespace Scan

variable {rest : List Char} {n : Nat}

/-- **A number** that fits a word is read off its digits. -/
theorem number_toDigits (h : n < UInt64.size) (hr : Ends rest) :
    number (Nat.toDigits 10 n ++ rest) = .ok (numeralOf n, rest) := by
  rw [number, bind_ok (numeral_toDigits _ n hr), Numeral.isHuge_numeralOf h]
  rfl

theorem natural?_numeralOf (h : n < UInt64.size) : (numeralOf n).natural? = some n := by
  have hn : Nat.ofDigitChars 10 (Nat.toDigits 10 n) 0 = n := Nat.ofDigitChars_ten_toDigits
  simp [Numeral.natural?, numeralOf, hn, h]

end Scan

end Json

end AdaptiveAutomata
