/-
  The names of states and their identifiers, one to one.

  The name of a state is the decimal text of its number.  Zero has no name, because no name
  starts with the digit, and the greatest word has none, because the counter could not go past
  it.

  * `StateId.toNat_parse?_eq_some_iff`: the texts that are names, and the numbers they name;
  * `Counter.ne_zero_of_mem_mints`: a counter that is past zero mints no zero, and
    `Family.Drawn.ne_zero`: so none is minted for an automaton or its copies;
  * `Spec.lastState_lt`: there is a word past the greatest declared state;
  * `state_names_one_to_one`: names, what is minted, and the seed.
-/
import AdaptiveAutomata.Proofs.Minting

namespace AdaptiveAutomata

/-! ## Names and numbers -/

namespace StateId

variable {name : String} {id : StateId} {n : Nat}

theorem ne_greatest_iff : id ≠ greatest ↔ id.toNat ≤ 2 ^ 64 - 2 := by
  have hlt := id.toNat_lt
  have hg : greatest.toNat = 2 ^ 64 - 1 := rfl
  rw [ne_eq, ← UInt64.toNat_inj, hg]
  omega

theorem ne_zero_iff : id ≠ 0 ↔ 1 ≤ id.toNat := by
  rw [ne_eq, ← UInt64.toNat_inj, UInt64.toNat_zero]
  omega

/-- **What is read as a number**: the decimal text of one that is not zero and below the
    greatest word, and nothing else. -/
theorem toNat_parse?_eq_some_iff :
    (parse? name).map UInt64.toNat = some n ↔ 1 ≤ n ∧ n ≤ 2 ^ 64 - 2 ∧ name = n.repr := by
  constructor
  · intro h
    obtain ⟨id, hp, rfl⟩ := Option.map_eq_some_iff.1 h
    obtain ⟨h₀, hg, hname⟩ := parse?_eq_some_iff.1 hp
    exact ⟨ne_zero_iff.1 h₀, ne_greatest_iff.1 hg, hname⟩
  · rintro ⟨hpos, hle, rfl⟩
    have hn : (UInt64.ofNat n).toNat = n := by
      rw [UInt64.toNat_ofNat', Nat.mod_eq_of_lt (by omega)]
    refine Option.map_eq_some_iff.2 ⟨.ofNat n, parse?_eq_some_iff.2 ⟨?_, ?_, ?_⟩, hn⟩
    · rw [ne_zero_iff, hn]
      exact hpos
    · rw [ne_greatest_iff, hn]
      exact hle
    · rw [text, hn, Nat.repr]

end StateId

/-! ## What is minted -/

theorem Counter.ne_zero_of_mem_mints {c : Counter} {n : Nat} {id : StateId} (hc : c.next ≠ 0)
    (h : id ∈ (c.mints n).1) : id ≠ 0 := by
  have hle := UInt64.le_iff_toNat_le.1 (mem_mints h).1
  rw [StateId.ne_zero_iff] at hc ⊢
  omega

theorem Family.Drawn.ne_zero {spec : Spec} {F : Family} {log : List (String × StateId)}
    (h : F.Drawn spec log) {x : String × StateId} (hx : x ∈ log) : x.2 ≠ 0 := by
  have hseed := Spec.seed_pos spec
  refine Counter.ne_zero_of_mem_mints (c := ⟨spec.seed⟩) (n := log.length) ?_ ?_
  · exact (UInt64.ne_of_lt hseed).symm
  · rw [← h.minted]
    exact List.mem_map_of_mem hx

/-- There is a word past the greatest declared state. -/
theorem Spec.lastState_lt (s : Spec) : s.lastState + 1 < UInt64.size := by
  refine Nat.lt_of_le_of_lt (Nat.succ_le_succ (List.max_le_of_forall_le _ (2 ^ 64 - 2) ?_))
    (by decide)
  intro n hn
  obtain ⟨id, hid, rfl⟩ := List.mem_map.1 hn
  obtain ⟨name, -, hp⟩ := List.mem_filterMap.1 hid
  exact StateId.ne_greatest_iff.1 (StateId.parse?_eq_some_iff.1 hp).2.1

/-! ## One to one -/

/-- **Names and identifiers**.

    * A text is read as a number exactly if the number is at least one, below the greatest word,
      and the text is its decimal text.
    * No two names are read as one identifier.
    * What a counter mints below the greatest word has a name that is read as it, unless it is
      the zero of a counter that was set to zero; so all that is minted below the greatest word
      for an automaton and its copies has one, whatever is asked of them.
    * The seed is the number past the greatest declared state: the sum is a word. -/
theorem state_names_one_to_one :
    (∀ (name : String) (n : Nat), (StateId.parse? name).map UInt64.toNat = some n ↔
      1 ≤ n ∧ n ≤ 2 ^ 64 - 2 ∧ name = n.repr) ∧
    (∀ name other id, StateId.parse? name = some id → StateId.parse? other = some id →
      name = other) ∧
    (∀ (c : Counter) (n : Nat), ∀ id ∈ (c.mints n).1, id.toNat < 2 ^ 64 - 1 →
      StateId.parse? id.text = some id ∨ id = 0 ∧ c.next = 0) ∧
    (∀ spec recording w log F, Family.Run (.build spec recording w) log F →
      ∀ x ∈ log, x.2.toNat < 2 ^ 64 - 1 → StateId.parse? x.2.text = some x.2) ∧
    ∀ spec : Spec, spec.seed.toNat = spec.lastState + 1 ∧ spec.lastState + 1 < UInt64.size := by
  have hread {id : StateId} (h₀ : id ≠ 0) (hlt : id.toNat < 2 ^ 64 - 1) :
      StateId.parse? id.text = some id :=
    StateId.parse?_text h₀ (StateId.ne_greatest_iff.2 (Nat.le_of_lt_succ hlt))
  refine ⟨fun name n => StateId.toNat_parse?_eq_some_iff, fun name other id hn ho => ?_,
    fun c n id hid hlt => ?_, fun spec recording w log F hrun x hx hlt => ?_,
    fun spec => ⟨spec.toNat_seed, spec.lastState_lt⟩⟩
  · rw [(StateId.parse?_eq_some_iff.1 hn).2.2, (StateId.parse?_eq_some_iff.1 ho).2.2]
  · by_cases h₀ : id = 0
    · refine .inr ⟨h₀, ?_⟩
      by_contra hc
      exact Counter.ne_zero_of_mem_mints hc hid h₀
    · exact .inl (hread h₀ hlt)
  · exact hread ((Family.drawn_of_run hrun).ne_zero hx) hlt

/-- The greatest number with a name, and its two neighbours without one. -/
theorem state_names_at_the_end :
    (StateId.parse? "18446744073709551614").map UInt64.toNat = some 18446744073709551614 ∧
    (StateId.parse? "18446744073709551615").map UInt64.toNat ≠ some 18446744073709551615 ∧
    (StateId.parse? "0").map UInt64.toNat ≠ some 0 := by
  obtain ⟨hread, -⟩ := state_names_one_to_one
  refine ⟨(hread _ _).2 ⟨by decide, by decide, by decide⟩, fun h => ?_, fun h => ?_⟩
  · exact absurd ((hread _ _).1 h).2.1 (by decide)
  · exact absurd ((hread _ _).1 h).1 (by decide)

end AdaptiveAutomata
