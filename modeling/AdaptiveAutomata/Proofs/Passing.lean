/-
  What is passed over.

  A member of an object that no field asks for may have any value, which is passed over
  without being read.  Its strings need not name characters, its numbers may have any size,
  and its brackets may nest to any depth.

  * `Scan.Loose` and `Scan.NumberText` are the grammars of strings and numbers, and
    `AnyText` that of values;
  * `Scan.skipString_loose` and `Scan.numeral_text`: what has no brackets is passed over;
  * `Scan.Passes` says that a text is passed over in a number of rounds, and
    `Scan.passes_row` that the items of a bracket are, up to its end;
  * `Reader.takes_skip`: every value is passed over.
-/
import AdaptiveAutomata.Proofs.Readers

namespace AdaptiveAutomata

namespace Json

namespace Scan

variable {b cs rest : List Char}

/-! ## Strings -/

/-- The inside of a string whose escapes need not name characters. -/
inductive Loose : List Char → Prop
  | nil : Loose []
  | plain {c : Char} {cs : List Char} (hq : c ≠ '"') (hb : c ≠ '\\') (hc : 0x20 ≤ c.toNat)
      (h : Loose cs) : Loose (c :: cs)
  | simple {d : Char} {cs : List Char} (hd : (simpleEscape? d).isSome) (h : Loose cs) :
      Loose ('\\' :: d :: cs)
  | number {ds cs : List Char} {n : Nat} (hd : Hex ds n) (h : Loose cs) :
      Loose ('\\' :: 'u' :: (ds ++ cs))

/-- Each round reads at least one character of the string. -/
theorem skipString_loose {fuel : Nat} (h : Loose cs) (hf : cs.length < fuel) (rest : List Char) :
    skipString fuel (cs ++ '"' :: rest) = .ok ((), rest) := by
  obtain ⟨fuel, rfl⟩ : ∃ n, fuel = n + 1 := ⟨fuel - 1, by omega⟩
  induction h generalizing fuel with
  | nil => rfl
  | @plain c cs hq hb hc _ ih =>
    obtain ⟨n, rfl⟩ : ∃ n, fuel = n + 1 := ⟨fuel - 1, by simp at hf; omega⟩
    rw [List.cons_append, skipString, bind_ok (take_cons _ c _), if_neg hq, if_neg hb,
      if_neg (Nat.not_lt.2 hc)]
    exact ih n (by simpa using hf)
  | @simple d cs hd _ ih =>
    have hu : d ≠ 'u' := by
      rintro rfl
      exact absurd hd (by decide)
    obtain ⟨n, rfl⟩ : ∃ n, fuel = n + 1 := ⟨fuel - 1, by simp at hf; omega⟩
    rw [List.cons_append, List.cons_append, skipString, bind_ok (take_cons _ '\\' _),
      if_neg (by decide), if_pos rfl, bind_ok (take_cons _ d _), if_neg hu, if_pos hd]
    exact ih n (by simp at hf; omega)
  | @number ds cs n hd _ ih =>
    obtain ⟨n, rfl⟩ : ∃ n, fuel = n + 1 := ⟨fuel - 1, by simp at hf; omega⟩
    rw [List.cons_append, List.cons_append, List.append_assoc, skipString,
      bind_ok (take_cons _ '\\' _), if_neg (by decide), if_pos rfl, bind_ok (take_cons _ 'u' _),
      if_pos rfl, bind_ok (hd.escape _)]
    exact ih n (by simp at hf; omega)

/-! ## Numbers -/

/-- Digits, at least one. -/
def Digits (ds : List Char) : Prop := (∀ c ∈ ds, c.isDigit = true) ∧ ds ≠ []

/-- Nothing, or digits after a point. -/
inductive FractionText : List Char → Prop
  | none : FractionText []
  | some {ds : List Char} (h : Digits ds) : FractionText ('.' :: ds)

/-- Nothing, or digits after a letter and at most one sign. -/
inductive ExponentText : List Char → Prop
  | none : ExponentText []
  | some {letter : Char} {sign ds : List Char} (hl : letter = 'e' ∨ letter = 'E')
      (hs : sign = [] ∨ sign = ['+'] ∨ sign = ['-']) (h : Digits ds) :
      ExponentText (letter :: (sign ++ ds))

/-- The texts of numbers: a number may be negative, and its whole part has no leading
    zeros. -/
inductive NumberText : List Char → Prop
  | mk {sign whole fraction exponent : List Char} (hs : sign = [] ∨ sign = ['-'])
      (hw : Digits whole) (hz : whole.head? = some '0' → whole = ['0'])
      (hf : FractionText fraction) (he : ExponentText exponent) :
      NumberText (sign ++ (whole ++ (fraction ++ exponent)))

theorem Digits.head?_ne (h : Digits cs) {c : Char} (hc : c.isDigit = false) (rest : List Char) :
    (cs ++ rest).head? ≠ some c := by
  obtain ⟨hd, hne⟩ := h
  obtain ⟨d, ds, rfl⟩ := List.exists_cons_of_ne_nil hne
  rintro ⟨⟩
  rw [hd c List.mem_cons_self] at hc
  cases hc

/-- An exponent and what stands behind it begin with no digit and no point. -/
theorem ExponentText.head (h : ExponentText cs) (hr : Ends rest) :
    ∀ c ∈ (cs ++ rest).head?, c.isDigit = false ∧ c ≠ '.' := by
  cases h with
  | none =>
    intro c hc
    refine ⟨not_isDigit_of_ends hr c hc, ?_⟩
    rintro rfl
    exact head?_ne_of_ends hr rfl (by decide) (by decide) (by decide) hc
  | some hl _ _ =>
    rintro c ⟨⟩
    rcases hl with rfl | rfl <;> decide

theorem FractionText.head (h : FractionText cs)
    (hr : ∀ c ∈ rest.head?, c.isDigit = false ∧ c ≠ '.') :
    ∀ c ∈ (cs ++ rest).head?, c.isDigit = false := by
  cases h with
  | none => exact fun c hc => (hr c hc).1
  | some _ =>
    rintro c ⟨⟩
    decide

variable (f : Fault)

theorem fractionPart_text (h : FractionText cs)
    (hr : ∀ c ∈ rest.head?, c.isDigit = false ∧ c ≠ '.') :
    ∃ x, fractionPart f (cs ++ rest) = .ok (x, rest) := by
  cases h with
  | none =>
    have hpoint : rest.head? ≠ some '.' := fun h => (hr _ h).2 rfl
    refine ⟨none, ?_⟩
    rw [List.nil_append, fractionPart, bind_ok (peek_ok rest), if_neg hpoint, pure_ok]
  | @some ds hd =>
    have hdigits := someDigits_append f hd.1 hd.2 fun c hc => (hr c hc).1
    refine ⟨some ds, ?_⟩
    rw [List.cons_append, fractionPart, bind_ok (peek_ok _), List.head?_cons, if_pos rfl,
      bind_ok (Reader.advance_cons '.' _), bind_ok hdigits, pure_ok]

theorem exponentPart_text (h : ExponentText cs) (hr : Ends rest) :
    ∃ x, exponentPart f (cs ++ rest) = .ok (x, rest) := by
  cases h with
  | none => exact ⟨none, exponentPart_of_ends f hr⟩
  | @some letter sign ds hl hs hd =>
    have hdigits := someDigits_append f hd.1 hd.2 (not_isDigit_of_ends hr)
    have hplus := hd.head?_ne (c := '+') (by decide) rest
    have hminus := hd.head?_ne (c := '-') (by decide) rest
    have hletter : some letter = some 'e' ∨ some letter = some 'E' :=
      hl.imp (congrArg some) (congrArg some)
    rw [List.cons_append, List.append_assoc, exponentPart, bind_ok (peek_ok _), List.head?_cons,
      if_pos hletter, bind_ok (Reader.advance_cons letter _), bind_ok (peek_ok _)]
    rcases hs with rfl | rfl | rfl
    · refine ⟨some (decide ((ds ++ rest).head? = some '-'), ds), ?_⟩
      rw [List.nil_append, if_neg (not_or.2 ⟨hplus, hminus⟩)]
      exact bind_ok hdigits
    · refine ⟨some (false, ds), ?_⟩
      rw [List.singleton_append, List.head?_cons, if_pos (.inl rfl),
        bind_ok (Reader.advance_cons '+' _)]
      exact bind_ok hdigits
    · refine ⟨some (true, ds), ?_⟩
      rw [List.singleton_append, List.head?_cons, if_pos (.inr rfl),
        bind_ok (Reader.advance_cons '-' _)]
      exact bind_ok hdigits

/-- **A number** is read up to its end, part by part. -/
theorem numeral_text (h : NumberText cs) (hr : Ends rest) :
    ∃ x, numeral f (cs ++ rest) = .ok (x, rest) := by
  cases h with
  | @mk sign whole fraction exponent hs hw hz hf he =>
    have hexponent := he.head hr
    obtain ⟨y, hy⟩ := fractionPart_text f hf hexponent
    obtain ⟨z, hz'⟩ := exponentPart_text f he hr
    have hdigits := someDigits_append f hw.1 hw.2 (hf.head hexponent)
    have hzero : ¬ (whole.head? = some '0' ∧ whole ≠ ['0']) := fun h => h.2 (hz h.1)
    have hwhole : wholePart f (whole ++ (fraction ++ (exponent ++ rest))) =
        .ok (whole, fraction ++ (exponent ++ rest)) := by
      rw [wholePart, bind_ok hdigits, if_neg hzero, pure_ok]
    have hminus := hw.head?_ne (c := '-') (by decide) (fraction ++ (exponent ++ rest))
    simp only [List.append_assoc]
    rw [numeral, bind_ok (peek_ok _)]
    rcases hs with rfl | rfl
    · refine ⟨⟨false, whole, y, z⟩, ?_⟩
      simp only [List.nil_append, hminus, decide_false]
      rw [if_neg not_false, bind_ok hwhole, bind_ok hy, bind_ok hz', pure_ok]
    · have hsign : (['-'] ++ (whole ++ (fraction ++ (exponent ++ rest)))).head? = some '-' := rfl
      refine ⟨⟨true, whole, y, z⟩, ?_⟩
      simp only [hsign, decide_true]
      rw [if_pos trivial, List.singleton_append, bind_ok (Reader.advance_cons '-' _),
        bind_ok hwhole, bind_ok hy, bind_ok hz', pure_ok]

theorem startsNumber_text (h : NumberText cs) :
    ∃ c ds, cs = c :: ds ∧ (c = '-' ∨ c.isDigit = true) := by
  cases h with
  | @mk sign whole fraction exponent hs hw hz hf he =>
    obtain ⟨d, ds, rfl⟩ := List.exists_cons_of_ne_nil hw.2
    rcases hs with rfl | rfl
    · exact ⟨d, _, rfl, .inr (hw.1 d List.mem_cons_self)⟩
    · exact ⟨'-', _, rfl, .inl rfl⟩

/-! ## Rounds -/

/-- The text is passed over where a value is expected, in less than twice as many rounds as it
    has characters. -/
def Passes (d : List Char) : Prop :=
  ∃ k, k + 1 ≤ 2 * d.length ∧ ∀ fuel enclosing ⦃b rest⦄, Blanks b → Ends rest →
    skipWithin (fuel + k) .value enclosing (b ++ (d ++ rest)) = skipWithin fuel .next enclosing rest

/-- The text is passed over as an item of a bracket, with what stands before the value. -/
def PassesIn (br : Bracket) (d : List Char) : Prop :=
  (∃ c d', d = c :: d' ∧ isBlank c = false ∧ c ≠ br.closing) ∧
  ∃ k, k + 1 ≤ 2 * d.length ∧ ∀ fuel enclosing ⦃b rest⦄, Blanks b → Ends rest →
    (do br.skipLead; skipWithin (fuel + k) .value (br :: enclosing)) (b ++ (d ++ rest)) =
      skipWithin fuel .next (br :: enclosing) rest

/-- A value without brackets takes one round. -/
theorem passes_scalar {c : Char} {d : List Char} (hc : isBlank c = false) (ha : c ≠ '[')
    (ho : c ≠ '{')
    (h : ∀ rest, Ends rest → skipScalar c (c :: (d ++ rest)) = .ok ((), rest)) :
    Passes (c :: d) := by
  refine ⟨1, by rw [List.length_cons]; omega, fun fuel enclosing b rest hb hr => ?_⟩
  rw [List.cons_append, skipWithin, bind_ok (blanks_cons hb hc _)]
  generalize hsome : some c = o
  split
  · cases hsome
  · exact absurd (Option.some.inj hsome) ha
  · exact absurd (Option.some.inj hsome) ho
  · obtain rfl := Option.some.inj hsome
    exact bind_ok (h rest hr)

theorem isBlank_closing (br : Bracket) : isBlank br.closing = false := by cases br <;> rfl

theorem skipWithin_close (hb : Blanks b) (first : Bool) (fuel : Nat) (br : Bracket)
    (enclosing : List Bracket) (rest : List Char) :
    skipWithin (fuel + 1) (if first then .first else .next) (br :: enclosing)
        (b ++ br.closing :: rest) = skipWithin fuel .next enclosing rest := by
  cases first with
  | true =>
    rw [if_pos rfl, skipWithin, bind_ok (blanks_cons hb (isBlank_closing br) rest)]
    dsimp only
    rw [if_pos rfl]
    exact bind_ok (Reader.advance_cons _ rest)
  | false =>
    rw [if_neg Bool.false_ne_true, skipWithin, bind_ok (blanks_cons hb (isBlank_closing br) rest)]
    dsimp only
    rw [if_pos rfl]
    exact bind_ok (Reader.advance_cons _ rest)

theorem skipWithin_first {c : Char} {br : Bracket} (hb : Blanks b) (hc : isBlank c = false)
    (hne : c ≠ br.closing) (fuel : Nat) (enclosing : List Bracket) (cs : List Char) :
    skipWithin (fuel + 1) .first (br :: enclosing) (b ++ c :: cs) =
      (do br.skipLead; skipWithin fuel .value (br :: enclosing)) (c :: cs) := by
  rw [skipWithin, bind_ok (blanks_cons hb hc cs)]
  dsimp only
  rw [if_neg hne]

theorem skipWithin_comma (hb : Blanks b) (fuel : Nat) (br : Bracket) (enclosing : List Bracket)
    (cs : List Char) :
    skipWithin (fuel + 1) .next (br :: enclosing) (b ++ ',' :: cs) =
      (do br.skipLead; skipWithin fuel .value (br :: enclosing)) cs := by
  have hne : ',' ≠ br.closing := by cases br <;> decide
  rw [skipWithin, bind_ok (blanks_cons hb rfl cs)]
  dsimp only
  rw [if_neg hne, if_pos rfl]
  exact bind_ok (Reader.advance_cons ',' cs)

/-- The items of a bracket are passed over, up to its end. -/
theorem passes_row {br : Bracket} {ds : List (List Char)} {first : Bool}
    (h : ∀ d ∈ ds, PassesIn br d) (hr : Row br.closing (if first then [] else [',']) ds cs) :
    ∃ k, k + 1 ≤ 2 * cs.length ∧ ∀ fuel enclosing rest,
      skipWithin (fuel + k) (if first then .first else .next) (br :: enclosing) (cs ++ rest) =
        skipWithin fuel .next enclosing rest := by
  induction ds generalizing cs first with
  | nil =>
    cases hr with
    | @nil _ b hb =>
      refine ⟨1, by rw [List.length_append, List.length_singleton]; omega, ?_⟩
      intro fuel enclosing rest
      rw [List.append_assoc, List.singleton_append]
      exact skipWithin_close hb first fuel br enclosing rest
  | cons d ds ih =>
    obtain ⟨hd, hds⟩ := List.forall_mem_cons.1 h
    obtain ⟨⟨c, d', rfl, hc, hne⟩, k, hk, hd⟩ := hd
    cases hr with
    | @cons _ b b' _ tail _ hb hb' htail =>
      have hrow : Row br.closing (if false then [] else [',']) ds tail := htail
      obtain ⟨l, hl, hrest⟩ := ih hds hrow
      have hclosing : br.closing = ']' ∨ br.closing = '}' := by
        cases br
        · exact .inl rfl
        · exact .inr rfl
      refine ⟨l + k + 1, ?_, fun fuel enclosing rest => ?_⟩
      · simp only [List.length_append, List.length_cons] at hk ⊢
        omega
      have hends := htail.ends hclosing rest
      have hfuel : fuel + (l + k + 1) = fuel + l + k + 1 := by omega
      rw [hfuel]
      simp only [List.append_assoc]
      cases first with
      | true =>
        have hitem := hd (fuel + l) enclosing blanks_nil hends
        rw [if_pos rfl, if_pos rfl, List.nil_append, ← List.append_assoc b, List.cons_append,
          skipWithin_first (blanks_append hb hb') hc hne]
        exact hitem.trans (hrest fuel enclosing rest)
      | false =>
        have hitem := hd (fuel + l) enclosing hb' hends
        rw [if_neg Bool.false_ne_true, if_neg Bool.false_ne_true, List.singleton_append,
          skipWithin_comma hb]
        exact hitem.trans (hrest fuel enclosing rest)

/-! ## Values -/

/-- The texts of the name of a member, with the colon and the blanks around it. -/
def LeadText (l : List Char) : Prop :=
  ∃ name b b', Loose name ∧ Blanks b ∧ Blanks b' ∧ l = '"' :: (name ++ '"' :: (b ++ ':' :: b'))

/-- The texts of all values. -/
inductive AnyText : List Char → Prop
  | null : AnyText ['n', 'u', 'l', 'l']
  | true : AnyText ['t', 'r', 'u', 'e']
  | false : AnyText ['f', 'a', 'l', 's', 'e']
  | number {cs : List Char} (h : NumberText cs) : AnyText cs
  | string {cs : List Char} (h : Loose cs) : AnyText ('"' :: (cs ++ ['"']))
  | array {ds : List (List Char)} {cs : List Char} (h : ∀ d ∈ ds, AnyText d)
      (hr : Row ']' [] ds cs) : AnyText ('[' :: cs)
  | object {ms : List (List Char × List Char)} {cs : List Char} (hl : ∀ m ∈ ms, LeadText m.1)
      (h : ∀ m ∈ ms, AnyText m.2) (hr : Row '}' [] (ms.map fun m => m.1 ++ m.2) cs) :
      AnyText ('{' :: cs)

theorem opens_anyText : Reader.Opens ']' AnyText := by
  intro cs h
  cases h with
  | number h =>
    obtain ⟨c, ds, rfl, hc⟩ := startsNumber_text h
    refine ⟨c, ds, rfl, ?_⟩
    rcases hc with rfl | hc
    · exact ⟨rfl, by decide⟩
    · exact ⟨isBlank_of_isDigit hc, by rintro rfl; cases hc⟩
  | null | true | false | string | array | object => exact ⟨_, _, rfl, rfl, by decide⟩

theorem skipName_lead {l : List Char} (h : LeadText l) (hb : Blanks b) (rest : List Char) :
    ∃ b', Blanks b' ∧ skipName (b ++ (l ++ rest)) = .ok ((), b' ++ rest) := by
  obtain ⟨name, b₁, b₂, hn, hb₁, hb₂, rfl⟩ := h
  have hlt : name.length < (name ++ '"' :: (b₁ ++ ':' :: (b₂ ++ rest))).length := by
    rw [List.length_append, List.length_cons]
    omega
  refine ⟨b₂, hb₂, ?_⟩
  simp only [List.append_assoc, List.cons_append]
  rw [skipName, bind_ok (blanks_cons hb rfl _)]
  dsimp only
  rw [if_pos rfl, bind_ok (Reader.advance_cons '"' _), bind_ok (get_ok _),
    bind_ok (skipString_loose hn hlt _), bind_ok (blanks_cons hb₁ rfl _)]
  rfl

theorem passesIn_array {d : List Char} (h : Passes d) (ho : AnyText d) : PassesIn .array d := by
  obtain ⟨k, hk, h⟩ := h
  exact ⟨opens_anyText d ho, k, hk, fun fuel enclosing b rest hb hr =>
    (bind_ok (pure_ok () _)).trans (h fuel _ hb hr)⟩

/-- A member takes no more rounds than its value. -/
theorem passesIn_object {l d : List Char} (hl : LeadText l) (h : Passes d) :
    PassesIn .object (l ++ d) := by
  obtain ⟨k, hk, h⟩ := h
  refine ⟨?_, k, ?_, fun fuel enclosing b rest hb hr => ?_⟩
  · obtain ⟨name, b, b', -, -, -, rfl⟩ := hl
    exact ⟨_, _, rfl, rfl, by decide⟩
  · rw [List.length_append]
    omega
  · obtain ⟨b', hb', hname⟩ := skipName_lead hl hb (d ++ rest)
    rw [List.append_assoc]
    exact (bind_ok hname).trans (h fuel _ hb' hr)

theorem passes_number {d : List Char} (h : NumberText d) : Passes d := by
  have hnumeral (rest : List Char) (hr : Ends rest) := numeral_text .malformed h hr
  obtain ⟨c, ds, rfl, hc⟩ := startsNumber_text h
  have hne {d : Char} (hd : d ≠ '-') (hd' : d.isDigit = false) : c ≠ d := by
    rintro rfl
    rcases hc with hc | hc
    · exact hd hc
    · rw [hd'] at hc
      cases hc
  have hstarts : startsNumber c = true := by simpa [startsNumber] using hc
  have hblank : isBlank c = false := by
    rcases hc with rfl | hc
    · rfl
    · exact isBlank_of_isDigit hc
  refine passes_scalar hblank (hne (by decide) rfl) (hne (by decide) rfl) fun rest hr => ?_
  obtain ⟨x, hx⟩ := hnumeral rest hr
  rw [skipScalar, if_neg (hne (by decide) rfl), if_neg (hne (by decide) rfl),
    if_neg (hne (by decide) rfl), if_pos hstarts]
  exact bind_ok hx

theorem passes_string (h : Loose cs) : Passes ('"' :: (cs ++ ['"'])) := by
  refine passes_scalar rfl (by decide) (by decide) fun rest _ => ?_
  have hlt : cs.length < (cs ++ '"' :: rest).length := by
    rw [List.length_append, List.length_cons]
    omega
  rw [List.append_assoc, List.singleton_append]
  change (advance >>= fun _ => _) _ = _
  rw [bind_ok (Reader.advance_cons '"' _), bind_ok (get_ok _)]
  exact skipString_loose h hlt rest

/-- The round that opens a bracket comes before those of its items. -/
theorem passes_bracket {c : Char} {br : Bracket} {ds : List (List Char)}
    (hc : c = '[' ∧ br = .array ∨ c = '\x7b' ∧ br = .object) (h : ∀ d ∈ ds, PassesIn br d)
    (hr : Row br.closing [] ds cs) : Passes (c :: cs) := by
  have hrow : Row br.closing (if Bool.true then [] else [',']) ds cs := hr
  obtain ⟨k, hk, hpass⟩ := passes_row h hrow
  refine ⟨k + 1, ?_, fun fuel enclosing b rest hb _ => ?_⟩
  · rw [List.length_cons]
    omega
  · rw [← Nat.add_assoc, List.cons_append]
    rcases hc with ⟨rfl, rfl⟩ | ⟨rfl, rfl⟩
    · rw [skipWithin, bind_ok (blanks_cons hb rfl _)]
      exact (bind_ok (Reader.advance_cons '[' _)).trans (hpass fuel enclosing rest)
    · rw [skipWithin, bind_ok (blanks_cons hb rfl _)]
      exact (bind_ok (Reader.advance_cons '\x7b' _)).trans (hpass fuel enclosing rest)

/-- **Every value is passed over**, one round after the other: by induction on its text. -/
theorem passes_anyText {d : List Char} (h : AnyText d) : Passes d := by
  induction h with
  | null => exact passes_scalar rfl (by decide) (by decide) fun rest _ => word_append _ rest
  | true => exact passes_scalar rfl (by decide) (by decide) fun rest _ => word_append _ rest
  | false => exact passes_scalar rfl (by decide) (by decide) fun rest _ => word_append _ rest
  | number h => exact passes_number h
  | string h => exact passes_string h
  | array h hr ih =>
    exact passes_bracket (.inl ⟨rfl, rfl⟩) (fun d hd => passesIn_array (ih d hd) (h d hd)) hr
  | @object ms cs hl _ hr ih =>
    have hmembers : ∀ d ∈ ms.map fun m => m.1 ++ m.2, PassesIn .object d :=
      List.forall_mem_map.2 fun m hm => passesIn_object (hl m hm) (ih m hm)
    exact passes_bracket (.inr ⟨rfl, rfl⟩) hmembers hr

end Scan

namespace Reader

/-- **What nobody asked for** is passed over, whatever it is. -/
theorem takes_skip (n : Nat) : Takes (fun _ => Scan.skip) n Scan.AnyText () := by
  intro depth b cs rest _ _ hb h hr
  obtain ⟨k, hk, hpass⟩ := Scan.passes_anyText h
  have hlength : 2 * (b ++ (cs ++ rest)).length + 2 =
      2 * (b ++ (cs ++ rest)).length + 1 - k + 1 + k := by
    simp only [List.length_append]
    omega
  change Scan.skip _ = _
  rw [Scan.skip, Scan.bind_ok (Scan.get_ok _), hlength, hpass _ _ hb hr]
  rfl

end Reader

end Json

end AdaptiveAutomata
