/-
  Operations on a table, one after the other.

  Two notions of sameness meet where an entry is added.  It is stored unless a stored entry has
  its outline, cells being compared by their identifiers; and it is found by matching, where an
  unbound cell stands for anything.  What has the outline of an entry as it reads fits the
  entry, so what was added is found, whatever else was done before.

  * `Operation` is one thing that is done with a table and the cells around it: an elementary
    action, a binding, or the making of a cell; `Scene.performAll` does several;
  * `Table.Distinct.perform` and `Table.Distinct.performAll`: no two entries come to be equal;
  * `added_of_operations`: when an entry is added, what the table holds then, and that the
    entry is in it.
-/
import AdaptiveAutomata.Proofs.Narrowing
import AdaptiveAutomata.Proofs.Tables

namespace AdaptiveAutomata

/-! ## Adding -/

namespace Table

variable {t : Table Value} {s : Store} {e : Entry Value}

theorem add_fst_eq_false_iff : (t.add s e).1 = false ↔ t.contains s e = true := by
  rw [add]
  split <;> simp [*]

/-- An entry is added if none is stored that is equal to it as it reads. -/
theorem add_fst_iff :
    (t.add s e).1 = true ↔ ∀ x ∈ t.entries, x.outline ≠ (e.resolve s).outline := by
  rw [← Bool.not_eq_false, add_fst_eq_false_iff, contains_iff]
  simp

/-- After it was added, or not, an entry is in the table. -/
theorem contains_add (t : Table Value) (s : Store) (e : Entry Value) :
    (t.add s e).2.contains s e = true := by
  cases h : t.contains s e with
  | true => rwa [add_of_contains h]
  | false =>
    rw [add_of_not_contains h, contains_iff]
    exact ⟨e.resolve s, List.mem_append_right _ (List.mem_singleton_self _), rfl⟩

/-- What is in the table is found by matching. -/
theorem query_of_contains (h : t.contains s e = true) : (t.query s e).1 = true := by
  obtain ⟨x, hx, heq⟩ := contains_iff.1 h
  exact query_fst_iff.2 ⟨x, hx, Entry.fits_of_outline_eq heq⟩

end Table

/-! ## Runs -/

/-- One thing that is done with a table and the cells around it. -/
inductive Operation where
  /-- An elementary action on an entry. -/
  | act (kind : Kind) (e : Entry Value)
  /-- A cell is bound to a value, unless it refuses. -/
  | bind (c : Cell) (v : Value)
  /-- A cell is made, with a binding if it is read from a document. -/
  | make (id : Uuid) (binding : Option Value)

namespace Scene

def perform (σ : Scene) : Operation → Scene
  | .act kind e => (σ.dispatch kind e).2
  | .bind c v => { σ with store := (σ.store.bind? c v).getD σ.store }
  | .make id binding => { σ with store := (σ.store.alloc id binding).2 }

/-- Do several things, one after the other. -/
def performAll (σ : Scene) (operations : List Operation) : Scene := operations.foldl perform σ

end Scene

namespace Table.Distinct

variable {σ : Scene}

/-- What is done to cells leaves the entries as they are stored, and they are compared as they
    are stored. -/
theorem perform (h : σ.table.Distinct) (operation : Operation) :
    (σ.perform operation).table.Distinct := by
  cases operation with
  | act kind e => exact h.dispatch kind e
  | bind | make => exact h

theorem performAll (h : σ.table.Distinct) (operations : List Operation) :
    (σ.performAll operations).table.Distinct := by
  induction operations generalizing σ with
  | nil => exact h
  | cons operation operations ih => exact ih (h.perform operation)

end Table.Distinct

/-- **After any operations** on a table that was made of any entries:

    * the stored entries are pairwise different, whatever their cells were bound to since;
    * adding an entry binds no cell; it is added exactly if no stored entry is equal to it as it
      reads, and then it is stored at the end as it reads; if it is not added, the entries stay;
    * once it was added, or not, it is in the table, a query finds it, and it is not added
      again. -/
theorem added_of_operations (s : Store) (entries : List (Entry Value))
    (operations : List Operation) :
    let σ := Scene.performAll ⟨.ofEntries s entries, s⟩ operations
    σ.table.entries.Pairwise (fun x y => x.outline ≠ y.outline) ∧
    ∀ e, let after := (σ.table.add σ.store e).2
      σ.perform (.act .add e) = ⟨after, σ.store⟩ ∧
      ((σ.table.add σ.store e).1 = true ↔
        ∀ x ∈ σ.table.entries, x.outline ≠ (e.resolve σ.store).outline) ∧
      ((σ.table.add σ.store e).1 = true →
        after.entries = σ.table.entries ++ [e.resolve σ.store]) ∧
      ((σ.table.add σ.store e).1 = false → after.entries = σ.table.entries) ∧
      after.contains σ.store e = true ∧
      (after.query σ.store e).1 = true ∧
      (after.add σ.store e).1 = false := by
  intro σ
  have hdistinct : σ.table.Distinct :=
    (Table.distinct_ofEntries s entries).performAll (σ := ⟨_, s⟩) operations
  refine ⟨List.pairwise_map.1 hdistinct, fun e => ?_⟩
  have hcontains := σ.table.contains_add σ.store e
  refine ⟨rfl, Table.add_fst_iff, fun hadded => ?_, fun hnot => ?_, hcontains,
    Table.query_of_contains hcontains, Table.add_fst_eq_false_iff.2 hcontains⟩
  · have hnew : σ.table.contains σ.store e = false :=
      Bool.eq_false_iff.2 fun hc => by simp [Table.add_of_contains hc] at hadded
    rw [Table.entries_add, hnew]
    rfl
  · rw [Table.entries_add, Table.add_fst_eq_false_iff.1 hnot]
    rfl

end AdaptiveAutomata
