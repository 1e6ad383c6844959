/-
  Identifiers, their names, and where minting starts.

  * `StateId.text_injective` and `StateId.parse?_text`: an identifier has a name of
    its own, and is read back from it;
  * `StateId.parse?_eq_some_iff`: nothing but that name is read as the identifier;
  * `Counter.toNat_next_mints` and `Counter.getElem?_mints`: a counter goes on by one
    until it comes to the greatest word, and that is what it mints;
  * `Counter.mem_mints`: what is minted lies between the counter before and the
    counter after;
  * `Spec.lt_seed`: the seed is past every identifier that is the name of a state.
-/
import AdaptiveAutomata.Spec
import Mathlib.Data.List.Induction
import Mathlib.Tactic.IntervalCases

namespace AdaptiveAutomata

namespace StateId

variable {id : StateId}

theorem toList_text (id : StateId) : id.text.toList = Nat.toDigits 10 id.toNat := by
  rw [text, String.toList_ofList]

theorem text_injective : Function.Injective text := by
  intro i j h
  have := congrArg (fun name => Nat.ofDigitChars 10 name.toList 0) h
  simp only [toList_text, Nat.ofDigitChars_ten_toDigits] at this
  exact UInt64.toNat_inj.1 this

theorem isDigit_of_mem_text {c : Char} (h : c ∈ id.text.toList) : c.isDigit := by
  rw [toList_text] at h
  exact Nat.isDigit_of_mem_toDigits (by omega) (by omega) h

theorem text_ne_of_not_isDigit {c : Char} {name : String} (h : c ∈ name.toList)
    (hc : c.isDigit = false) : id.text ≠ name := by
  rintro rfl
  rw [isDigit_of_mem_text h] at hc
  exact absurd hc (by simp)

theorem text_ne_empty (id : StateId) : id.text ≠ "" := by
  intro h
  have := congrArg String.toList h
  rw [toList_text] at this
  exact Nat.toDigits_ne_nil this

/-- A positive number is written without leading zeros. -/
theorem head?_toDigits {n : Nat} (h : 0 < n) : (Nat.toDigits 10 n).head? ≠ some '0' := by
  induction n using Nat.strongRecOn with
  | ind n ih =>
    by_cases hn : n < 10
    · rw [Nat.toDigits_of_lt_base hn]
      interval_cases n <;> decide
    · have hd : 0 < n / 10 := by omega
      have hs : Nat.toDigits 10 (n / 10) ++ Nat.toDigits 10 (n % 10) = Nat.toDigits 10 n := by
        rw [Nat.toDigits_append_toDigits (by omega) hd (by omega), Nat.div_add_mod]
      obtain ⟨c, cs, hc⟩ := List.exists_cons_of_ne_nil (Nat.toDigits_ne_nil (n := n / 10) (b := 10))
      have := ih (n / 10) (by omega) hd
      rw [hc] at this
      rw [← hs, hc]
      exact this

/-- **An identifier is read back from its name**, unless it is zero or the
    greatest word. -/
theorem parse?_text (h₀ : id ≠ 0) (hg : id ≠ greatest) : parse? id.text = some id := by
  have h₀' : 0 < id.toNat := Nat.pos_of_ne_zero fun h => h₀ (UInt64.toNat_inj.1 h)
  have hall : id.text.toList.all Char.isDigit = true :=
    List.all_eq_true.2 fun c hc => isDigit_of_mem_text hc
  have hhead : id.text.toList.head? ≠ some '0' := toList_text id ▸ head?_toDigits h₀'
  have hn : Nat.ofDigitChars 10 id.text.toList 0 = id.toNat := by
    rw [toList_text, Nat.ofDigitChars_ten_toDigits]
  have hlt : id.toNat < greatest.toNat := by
    have hne : id.toNat ≠ 2 ^ 64 - 1 := fun h => hg (UInt64.toNat_inj.1 h)
    have : id.toNat < 2 ^ 64 := id.toNat_lt
    have : greatest.toNat = 2 ^ 64 - 1 := rfl
    omega
  simp [parse?, hall, hhead, hn, h₀', hlt]

theorem lt_greatest_of_parse? {name : String} (h : parse? name = some id) : id < greatest := by
  simp only [parse?] at h
  split at h
  · exact absurd h (by simp)
  · split at h
    · next hn =>
      obtain rfl := Option.some.inj h
      rw [UInt64.lt_iff_toNat_lt, UInt64.toNat_ofNat']
      have : greatest.toNat < 2 ^ 64 := greatest.toNat_lt
      rw [Nat.mod_eq_of_lt (hn.2.trans this)]
      exact hn.2
    · exact absurd h (by simp)

/-- A digit is what its value is written with. -/
theorem digitChar_of_isDigit {c : Char} (h : c.isDigit = true) :
    (c.toNat - '0'.toNat).digitChar = c := by
  obtain ⟨hlo, hhi⟩ := Char.isDigit_iff_toNat.1 h
  have hc : c = Char.ofNat c.toNat := (Char.ofNat_toNat c).symm
  have hlo : 48 ≤ c.toNat := hlo
  have hhi : c.toNat ≤ 57 := hhi
  rw [hc]
  generalize c.toNat = n at hlo hhi
  interval_cases n <;> decide

/-- **Digits without leading zeros** are the number they make, written out. -/
theorem toDigits_ofDigitChars {cs : List Char} (hne : cs ≠ []) (hz : cs.head? ≠ some '0')
    (hd : ∀ c ∈ cs, c.isDigit) :
    0 < Nat.ofDigitChars 10 cs 0 ∧ Nat.toDigits 10 (Nat.ofDigitChars 10 cs 0) = cs := by
  induction cs using List.reverseRecOn with
  | nil => exact absurd rfl hne
  | append_singleton ds c ih =>
    have hc := digitChar_of_isDigit (hd c (by simp))
    have hlt : c.toNat - '0'.toNat < 10 := by
      have hhi : c.toNat ≤ 57 := (Char.isDigit_iff_toNat.1 (hd c (by simp))).2
      have : '0'.toNat = 48 := rfl
      omega
    rw [Nat.ofDigitChars_append, Nat.ofDigitChars_cons, Nat.ofDigitChars_nil]
    cases ds with
    | nil =>
      have hz' : c ≠ '0' := fun h => hz (by simp [h])
      rw [Nat.ofDigitChars_nil, Nat.mul_zero, Nat.zero_add, Nat.toDigits_of_lt_base hlt, hc]
      refine ⟨Nat.pos_of_ne_zero fun h0 => hz' ?_, rfl⟩
      rw [← hc, h0]
      rfl
    | cons d ds =>
      obtain ⟨hpos, heq⟩ := ih (by simp) (by simpa using hz) fun x hx =>
        hd x (List.mem_append_left _ hx)
      refine ⟨by omega, ?_⟩
      rw [← Nat.toDigits_append_toDigits (by omega) hpos hlt, heq, Nat.toDigits_of_lt_base hlt, hc]

/-- **What is read as an identifier**: its name, and nothing else. -/
theorem parse?_eq_some_iff {name : String} :
    parse? name = some id ↔ id ≠ 0 ∧ id ≠ greatest ∧ name = id.text := by
  constructor
  · intro h
    have hg := lt_greatest_of_parse? h
    simp only [parse?] at h
    split at h
    · exact absurd h (by simp)
    · next hcs =>
      split at h
      · next hn =>
        obtain ⟨hz, hd⟩ := not_or.1 hcs
        have hne : name.toList ≠ [] := fun hnil => by simp [hnil] at hn
        have hall : ∀ c ∈ name.toList, c.isDigit := by simpa using hd
        have hlt : Nat.ofDigitChars 10 name.toList 0 < 2 ^ 64 := hn.2.trans greatest.toNat_lt
        obtain rfl := Option.some.inj h
        have hto : (UInt64.ofNat (Nat.ofDigitChars 10 name.toList 0)).toNat =
            Nat.ofDigitChars 10 name.toList 0 := by
          rw [UInt64.toNat_ofNat', Nat.mod_eq_of_lt hlt]
        refine ⟨fun h0 => ?_, (UInt64.ne_of_lt hg), ?_⟩
        · rw [h0] at hto
          exact absurd (hto ▸ hn.1) (by decide)
        · rw [text, hto, (toDigits_ofDigitChars hne hz hall).2, String.ofList_toList]
      · exact absurd h (by simp)
  · rintro ⟨h₀, hg, rfl⟩
    exact parse?_text h₀ hg

end StateId

/-! ## Counters -/

namespace Counter

variable {c : Counter}

theorem next_mint_eq (c : Counter) :
    c.mint.2.next.toNat = if c.next = StateId.greatest then c.next.toNat else c.next.toNat + 1 := by
  by_cases h : c.next = StateId.greatest
  · simp [mint, h]
  · rw [next_mint h, if_neg h, UInt64.toNat_add]
    have hlt := c.next.toNat_lt
    have hne : c.next.toNat ≠ 2 ^ 64 - 1 := fun he => h (UInt64.toNat_inj.1 he)
    simp only [UInt64.toNat_one]
    omega

/-- The number of the next identifier after so many: the counter goes on by one until it
    comes to the greatest word. -/
theorem toNat_next_mints (c : Counter) (n : Nat) :
    (c.mints n).2.next.toNat = min (c.next.toNat + n) (2 ^ 64 - 1) := by
  induction n generalizing c with
  | zero =>
    have hlt := c.next.toNat_lt
    have hz : (c.mints 0).2 = c := rfl
    rw [hz]
    omega
  | succ n ih =>
    have hs : (c.mints (n + 1)).2 = (c.mint.2.mints n).2 := rfl
    have hg : StateId.greatest.toNat = 2 ^ 64 - 1 := rfl
    rw [hs, ih, next_mint_eq]
    split
    · next h =>
      rw [h, hg]
      omega
    · omega

/-- What is minted at a position is what comes next after so many. -/
theorem getElem?_mints {n i : Nat} (hi : i < n) (c : Counter) :
    (c.mints n).1[i]? = some (c.mints i).2.next := by
  induction n generalizing c i with
  | zero => exact absurd hi (Nat.not_lt_zero i)
  | succ n ih =>
    cases i with
    | zero => rfl
    | succ i => exact ih (Nat.lt_of_succ_lt_succ hi) c.mint.2

theorem next_le_mints (c : Counter) (n : Nat) : c.next ≤ (c.mints n).2.next := by
  have hlt := c.next.toNat_lt
  rw [UInt64.le_iff_toNat_le, toNat_next_mints]
  omega

/-- **What is minted** is not below the counter, and below the counter after it
    unless it is the greatest word. -/
theorem mem_mints {n : Nat} {id : StateId} (h : id ∈ (c.mints n).1) :
    c.next ≤ id ∧ (id = StateId.greatest ∨ id < (c.mints n).2.next) := by
  obtain ⟨i, hi⟩ := List.mem_iff_getElem?.1 h
  have hlt : i < n := by simpa using (List.getElem?_eq_some_iff.1 hi).1
  obtain rfl : (c.mints i).2.next = id := Option.some.inj ((getElem?_mints hlt c).symm.trans hi)
  refine ⟨next_le_mints c i, ?_⟩
  by_cases hg : (c.mints i).2.next = StateId.greatest
  · exact .inl hg
  · have hne : (c.mints i).2.next.toNat ≠ 2 ^ 64 - 1 := fun he => hg (UInt64.toNat_inj.1 he)
    rw [toNat_next_mints] at hne
    rw [UInt64.lt_iff_toNat_lt, toNat_next_mints, toNat_next_mints]
    exact .inr (by omega)

/-- Drawing twice is drawing once. -/
theorem mints_add (c : Counter) (m n : Nat) :
    c.mints (m + n) = ((c.mints m).1 ++ ((c.mints m).2.mints n).1, ((c.mints m).2.mints n).2) := by
  induction m generalizing c with
  | zero => simp [mints]
  | succ m ih => simp only [Nat.succ_add, mints, ih, List.cons_append]

end Counter

/-! ## The seed -/

namespace Spec

variable {s : Spec} {name : String} {id : StateId}

instance : Std.LawfulOrderLeftLeaningMax UInt64 where
  max_eq_left a b h := by
    by_cases hab : a ≤ b
    · exact (if_pos hab).trans (UInt64.le_antisymm h hab)
    · exact if_neg hab
  max_eq_right a b h := if_pos ((UInt64.le_total a b).resolve_right h)

theorem seed_eq (s : Spec) :
    (s.seed = 1 ∧ s.stateNames.filterMap StateId.parse? = []) ∨
      ∃ g ∈ s.stateNames.filterMap StateId.parse?,
        (∀ i ∈ s.stateNames.filterMap StateId.parse?, i ≤ g) ∧ s.seed = g + 1 := by
  rw [seed]
  cases h : (s.stateNames.filterMap StateId.parse?).max? with
  | none => exact .inl ⟨rfl, List.max?_eq_none_iff.1 h⟩
  | some g =>
    obtain ⟨hm, hle⟩ := List.max?_eq_some_iff.1 h
    exact .inr ⟨g, hm, hle, rfl⟩

/-- **The seed is past the declared states.** -/
theorem lt_seed (h : name ∈ s.stateNames) (hp : StateId.parse? name = some id) : id < s.seed := by
  have hi : id ∈ s.stateNames.filterMap StateId.parse? := List.mem_filterMap.2 ⟨name, h, hp⟩
  rcases seed_eq s with ⟨-, hn⟩ | ⟨g, hg, hle, hs⟩
  · exact absurd hi (hn ▸ List.not_mem_nil)
  · obtain ⟨_, -, hp⟩ := List.mem_filterMap.1 hg
    have hlt := UInt64.lt_iff_toNat_lt.1 (StateId.lt_greatest_of_parse? hp)
    have hid := UInt64.le_iff_toNat_le.1 (hle id hi)
    have hword : StateId.greatest.toNat < 2 ^ 64 := StateId.greatest.toNat_lt
    rw [hs, UInt64.lt_iff_toNat_lt, UInt64.toNat_add, UInt64.toNat_one]
    omega

theorem seed_pos (s : Spec) : 0 < s.seed := by
  rcases seed_eq s with ⟨hs, -⟩ | ⟨g, hg, -, hs⟩
  · rw [hs]
    decide
  · obtain ⟨_, -, hp⟩ := List.mem_filterMap.1 hg
    have hlt := UInt64.lt_iff_toNat_lt.1 (StateId.lt_greatest_of_parse? hp)
    have hword : StateId.greatest.toNat < 2 ^ 64 := StateId.greatest.toNat_lt
    rw [hs, UInt64.lt_iff_toNat_lt, UInt64.toNat_add, UInt64.toNat_one, UInt64.toNat_zero]
    omega

end Spec

end AdaptiveAutomata
