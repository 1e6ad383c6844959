/-
  What is stored in a table.

  A table takes an entry as it reads, and only if no stored entry has the same
  outline.

  * `Table.Distinct` says that the outlines of the entries are distinct; elementary
    actions keep it, so it holds in the course of a run (`distinct_of_reached`);
  * `mem_ofEntries`: a table made of entries holds these as they read;
  * `ofEntries_outline_iff`: it has the outlines of the entries exactly if the
    entries are distinct and read as they stand.
-/
import AdaptiveAutomata.Proofs.Reach
import AdaptiveAutomata.Proofs.Runs

namespace AdaptiveAutomata

namespace Table

variable {t : Table Value} {s : Store} {e x : Entry Value} {entries : List (Entry Value)}

theorem entries_add (t : Table Value) (s : Store) (e : Entry Value) :
    (t.add s e).2.entries =
      if t.contains s e then t.entries else t.entries ++ [e.resolve s] := by
  rw [add]
  split <;> rfl

theorem mem_add (h : x ∈ (t.add s e).2.entries) : x ∈ t.entries ∨ x = e.resolve s := by
  rw [entries_add] at h
  split at h
  · exact .inl h
  · exact (List.mem_append.1 h).imp_right List.mem_singleton.1

theorem mem_foldl_add (h : x ∈ (entries.foldl (fun t e => (t.add s e).2) t).entries) :
    x ∈ t.entries ∨ ∃ e ∈ entries, x = e.resolve s := by
  induction entries generalizing t with
  | nil => exact .inl h
  | cons e entries ih =>
    rcases ih h with h | ⟨y, hy, hx⟩
    · exact (mem_add h).imp_right fun h => ⟨e, List.mem_cons_self, h⟩
    · exact .inr ⟨y, List.mem_cons_of_mem e hy, hx⟩

theorem mem_ofEntries (h : x ∈ (ofEntries s entries).entries) :
    ∃ e ∈ entries, x = e.resolve s :=
  (mem_foldl_add h).resolve_left List.not_mem_nil

/-! ## Distinct entries -/

/-- The outlines of the entries, in the order in which they were added. -/
def tuples (t : Table Value) : List (Entry Image) := t.entries.map Entry.outline

/-- The outlines of the entries as they read. -/
def asRead (s : Store) (t : Table Value) : List (Entry Image) :=
  t.entries.map fun e => (e.resolve s).outline

/-- The outlines of the entries are distinct. -/
def Distinct (t : Table Value) : Prop := t.tuples.Nodup

instance (t : Table Value) : Decidable t.Distinct := inferInstanceAs (Decidable t.tuples.Nodup)

theorem Distinct.add (h : t.Distinct) (s : Store) (e : Entry Value) : (t.add s e).2.Distinct := by
  rw [Distinct, tuples, entries_add]
  split
  · exact h
  · next hc =>
    rw [List.map_append, List.map_singleton, List.nodup_append]
    refine ⟨h, by simp, fun o ho o' ho' heq => hc ?_⟩
    obtain ⟨stored, hs, rfl⟩ := List.mem_map.1 ho
    exact contains_iff.2 ⟨stored, hs, heq.trans (List.mem_singleton.1 ho')⟩

theorem Distinct.foldl_add (h : t.Distinct) (s : Store) (entries : List (Entry Value)) :
    (entries.foldl (fun t e => (t.add s e).2) t).Distinct := by
  induction entries generalizing t with
  | nil => exact h
  | cons e entries ih => exact ih (h.add s e)

theorem distinct_ofEntries (s : Store) (entries : List (Entry Value)) :
    (ofEntries s entries).Distinct :=
  Distinct.foldl_add (t := empty) List.nodup_nil s entries

theorem Distinct.dispatch {σ : Scene} (h : σ.table.Distinct) (kind : Kind) (e : Entry Value) :
    (σ.dispatch kind e).2.table.Distinct := by
  cases kind with
  | add => exact h.add σ.store e
  | remove => exact List.Nodup.sublist (List.Sublist.map _ List.filter_sublist) h
  | query => exact h

theorem Distinct.runSteps {env : Environment} {steps : List (Kind × Spec.Step)} {σ : Scene}
    (h : σ.table.Distinct) : (Action.runSteps env steps σ).2.table.Distinct := by
  induction steps generalizing σ with
  | nil => exact h
  | cons step steps ih => exact ih (h.dispatch step.1 _)

/-! ## Entries put back -/

theorem length_foldl_add_le (s : Store) (entries : List (Entry Value)) (t : Table Value) :
    (entries.foldl (fun t e => (t.add s e).2) t).entries.length ≤
      t.entries.length + entries.length := by
  induction entries generalizing t with
  | nil => exact Nat.le_refl _
  | cons e entries ih =>
    have := ih (t.add s e).2
    have hl : (t.add s e).2.entries.length ≤ t.entries.length + 1 := by
      rw [entries_add]
      split <;> simp
    rw [List.foldl_cons, List.length_cons]
    omega

/-- If no entry was left out, all are stored as they read. -/
theorem entries_foldl_add_of_length
    (h : (entries.foldl (fun t e => (t.add s e).2) t).entries.length =
      t.entries.length + entries.length) :
    (entries.foldl (fun t e => (t.add s e).2) t).entries =
      t.entries ++ entries.map (·.resolve s) := by
  induction entries generalizing t with
  | nil => simp
  | cons e entries ih =>
    have hle := length_foldl_add_le s entries (t.add s e).2
    rw [List.foldl_cons, List.length_cons] at h
    cases hc : t.contains s e with
    | true =>
      rw [add_of_contains hc] at h hle
      dsimp only at h hle
      omega
    | false =>
      rw [add_of_not_contains hc] at h
      rw [List.foldl_cons, add_of_not_contains hc, ih]
      · simp
      · rw [h, List.length_append, List.length_singleton]
        omega

/-- If the entries are distinct as they read, none is left out. -/
theorem entries_foldl_add_of_nodup
    (h : (t.entries.map Entry.outline ++ entries.map fun e => (e.resolve s).outline).Nodup) :
    (entries.foldl (fun t e => (t.add s e).2) t).entries =
      t.entries ++ entries.map (·.resolve s) := by
  induction entries generalizing t with
  | nil => simp
  | cons e entries ih =>
    have hc : t.contains s e = false := by
      rw [Bool.eq_false_iff]
      intro hc
      obtain ⟨stored, hs, heq⟩ := contains_iff.1 hc
      refine (List.nodup_append.1 h).2.2 _ (List.mem_map_of_mem hs) _ ?_ heq
      exact List.mem_map.2 ⟨e, List.mem_cons_self, rfl⟩
    rw [List.foldl_cons, add_of_not_contains hc, ih]
    · simp
    · simpa using h

/-- **Distinct entries put into a table** leave the same outlines exactly if each
    reads as it stands. -/
theorem ofEntries_outline_iff (h : (entries.map Entry.outline).Nodup) :
    (ofEntries s entries).entries.map Entry.outline = entries.map Entry.outline ↔
      ∀ e ∈ entries, (e.resolve s).outline = e.outline := by
  constructor
  · intro heq
    have hlen := congrArg List.length heq
    rw [List.length_map, List.length_map] at hlen
    rw [ofEntries, entries_foldl_add_of_length (by rw [← ofEntries, hlen]; simp [empty]), empty,
      List.nil_append, List.map_map, List.map_inj_left] at heq
    exact heq
  · intro hr
    have hmap : (entries.map fun e => (e.resolve s).outline) = entries.map Entry.outline :=
      List.map_congr_left hr
    rw [ofEntries, entries_foldl_add_of_nodup (by rw [hmap]; simpa [empty] using h), empty,
      List.nil_append, List.map_map]
    exact hmap

end Table

/-- An entry reads as it stands exactly if each of its cells does. -/
theorem Entry.outline_resolve_eq_iff {s : Store} {e : Entry Value} :
    (e.resolve s).outline = e.outline ↔
      ∀ v ∈ e.components, ∀ c, .cell c ∈ v.leaves → (s.resolve (.cell c)).outline = .free c.id := by
  rw [resolve, outline, outline, map_map, map_eq_map_iff]
  refine forall₂_congr fun v _ => ?_
  rw [Function.comp_apply, Store.resolve_eq_subst, Value.outline_subst_eq_iff]

/-! ## Runs -/

/-- In the course of a run no two entries of the table have the same outline. -/
theorem distinct_of_reached {admits : World → List Value → Prop} {spec : Spec} {recording : Bool}
    {w₀ w : World} {a : Automaton} (h : Automaton.Reached admits spec recording w₀ (a, w)) :
    a.table.Distinct := by
  refine (h.induction (P := fun a _ => a.table.Distinct) (Table.distinct_ofEntries ..) ?_).1
  exact fun a w b _ arguments hd _ _ => Table.Distinct.runSteps (σ := ⟨a.table, _⟩) hd

end AdaptiveAutomata
