/-
  Sets of names, as lists that are sorted and free of repetitions.

  Names are ordered by their characters, which is also the order of their
  UTF-8 bytes.

  * `NameSet.insert` and `NameSet.ofList` build a set;
  * `NameSet.mem_ofList` and `NameSet.sorted_ofList` are what there is to know of
    it: it holds the names of the list, in increasing order.
-/

namespace AdaptiveAutomata

namespace NameSet

/-- Put a name in its place, unless it is there. -/
def insert (name : String) : List String → List String
  | [] => [name]
  | other :: rest =>
    if name < other then name :: other :: rest
    else if name = other then other :: rest
    else other :: insert name rest

/-- The names of a list. -/
def ofList (names : List String) : List String := names.foldr insert []

@[simp]
theorem mem_insert {a name : String} {names : List String} :
    a ∈ insert name names ↔ a = name ∨ a ∈ names := by
  induction names with
  | nil => simp [insert]
  | cons other rest ih =>
    rw [insert]
    split
    · simp
    · split
      · next h => subst h; simp
      · simp only [List.mem_cons, ih]
        exact or_left_comm

/-- The set holds the names of the list. -/
@[simp]
theorem mem_ofList {a : String} {names : List String} : a ∈ ofList names ↔ a ∈ names := by
  induction names with
  | nil => simp [ofList]
  | cons name names ih => simpa [ofList] using or_congr_right ih

theorem sorted_insert {name : String} {names : List String} (h : names.Pairwise (· < ·)) :
    (insert name names).Pairwise (· < ·) := by
  induction names with
  | nil => simp [insert]
  | cons other rest ih =>
    obtain ⟨ho, hr⟩ := List.pairwise_cons.1 h
    rw [insert]
    split
    · next hlt =>
      exact List.pairwise_cons.2 ⟨fun a ha => by
        rcases List.mem_cons.1 ha with rfl | ha
        · exact hlt
        · exact String.lt_trans hlt (ho a ha), h⟩
    · split
      · exact h
      · next hlt hne =>
        refine List.pairwise_cons.2 ⟨fun a ha => ?_, ih hr⟩
        rcases mem_insert.1 ha with rfl | ha
        · exact Std.lt_of_le_of_ne (String.not_lt.1 hlt) (Ne.symm hne)
        · exact ho a ha

/-- The set is in increasing order. -/
theorem sorted_ofList (names : List String) : (ofList names).Pairwise (· < ·) := by
  induction names with
  | nil => exact .nil
  | cons name names ih => exact sorted_insert ih

end NameSet

end AdaptiveAutomata
