/-
  Tables as they read.

  A table compares what is added, and what is looked for, with its entries as they
  were stored.  A cell that stands in an entry can be bound later, and then the entry
  reads otherwise than it was stored: two entries may read the same, and a tuple that
  one of them reads as may be added once more.

  * `Table.asRead` lists what the entries read as; `Table.IsSetAsRead` says that these
    are distinct, and that the table finds exactly those;
  * `isSetAsRead_iff_perm`: this is so exactly if the entries read, up to order, as
    they were stored;
  * `unbound_of_isSetAsRead`: where cells are told apart by their identifiers, it takes
    that no cell in the entries is bound;
  * `isSetAsRead_iff_of_reached` says so of every table in the course of a run;
  * `doubled`: a cell that is bound after it was stored can make two entries equal.
-/
import AdaptiveAutomata.Proofs.Acyclic
import AdaptiveAutomata.Proofs.Tables
import AdaptiveAutomata.Spec.Check

namespace AdaptiveAutomata

/-- Values with the same outline have cells with the same identifiers. -/
theorem Value.exists_cell_of_outline_eq {v w : Value} {c : Cell} (h : v.outline = w.outline)
    (hc : .cell c ∈ v.leaves) : ∃ d, .cell d ∈ w.leaves ∧ d.id = c.id := by
  induction v using recParts generalizing w with
  | leaf v hv =>
    rw [leaves_of_isLeaf hv, List.mem_singleton] at hc
    subst hc
    cases w with
    | cell d => exact ⟨d, by simp, by simpa [outline_cell, eq_comm] using h⟩
    | _ => simp [outline, image] at h
  | call v ih =>
    cases w with
    | call w =>
      rw [outline_call, outline_call, Image.call.injEq] at h
      rw [leaves_call] at hc ⊢
      exact ih h hc
    | _ => simp [outline, image] at h
  | action v vs ih ihs =>
    cases w with
    | action w ws =>
      rw [outline_action, outline_action, Image.action.injEq] at h
      simp only [leaves_action, List.mem_append, List.mem_flatMap] at hc ⊢
      rcases hc with hc | ⟨u, hu, hc⟩
      · obtain ⟨d, hd, hid⟩ := ih h.1 hc
        exact ⟨d, .inl hd, hid⟩
      · obtain ⟨x, hx, hux⟩ := List.mem_map.1 (h.2 ▸ List.mem_map_of_mem (f := outline) hu)
        obtain ⟨d, hd, hid⟩ := ihs u hu hux.symm hc
        exact ⟨d, .inr ⟨x, hx, hd⟩, hid⟩
    | _ => simp [outline, image] at h

namespace Table

variable {t : Table Value} {s : Store} {x y : Entry Value}

/-- No two entries read the same, and the table finds an entry exactly if it reads the
    same as one of its own. -/
structure IsSetAsRead (s : Store) (t : Table Value) : Prop where
  distinct : (t.asRead s).Nodup
  contains : ∀ e, t.contains s e = true ↔
    ∃ x ∈ t.entries, (x.resolve s).outline = (e.resolve s).outline

theorem exists_asRead_iff {o : Entry Image} :
    (∃ x ∈ t.entries, (x.resolve s).outline = o) ↔ o ∈ t.asRead s := by
  rw [asRead, List.mem_map]

theorem contains_iff_mem {e : Entry Value} :
    t.contains s e = true ↔ (e.resolve s).outline ∈ t.tuples := by
  rw [contains_iff, tuples, List.mem_map]

/-- **A table is a set as it reads** exactly if its entries read, up to order, as they
    were stored. -/
theorem isSetAsRead_iff_perm (hd : t.Distinct) :
    t.IsSetAsRead s ↔ (t.asRead s).Perm t.tuples := by
  constructor
  · intro h
    have hsub : t.asRead s ⊆ t.tuples := by
      intro o ho
      obtain ⟨x, hx, rfl⟩ := List.mem_map.1 ho
      exact contains_iff_mem.1 ((h.contains x).2 ⟨x, hx, rfl⟩)
    refine (List.subperm_of_subset h.distinct hsub).perm_of_length_le ?_
    rw [tuples, asRead, List.length_map, List.length_map]
  · intro h
    refine ⟨h.nodup_iff.2 hd, fun e => ?_⟩
    rw [contains_iff_mem, exists_asRead_iff, h.mem_iff]

/-- Every cell that stands in an entry is unbound. -/
def Unbound (s : Store) (t : Table Value) : Prop :=
  ∀ e ∈ t.entries, ∀ v ∈ e.components, ∀ c, .cell c ∈ v.leaves → s.binding? c = none

theorem Unbound.isSetAsRead (h : t.Unbound s) (hd : t.Distinct) : t.IsSetAsRead s := by
  have hread : t.asRead s = t.tuples := by
    refine List.map_congr_left fun e he => Entry.outline_resolve_eq_iff.2 fun v hv c hc => ?_
    rw [Store.resolve_cell_of_none (h e he v hv c hc), Value.outline_cell]
  exact (isSetAsRead_iff_perm hd).2 (hread ▸ .refl _)

/-- The cells that one comes to from the entries are told apart by their
    identifiers. -/
def Identified (s : Store) (t : Table Value) : Prop :=
  ∀ c d, t.Holds s (.cell c) → t.Holds s (.cell d) → c.id = d.id → c.place = d.place

/-- A stored entry that is equal to what another one reads as has unbound cells only. -/
theorem unbound_of_outline_eq (hs : s.Acyclic) (hid : t.Identified s) (hx : x ∈ t.entries)
    (hy : y ∈ t.entries) (h : y.outline = (x.resolve s).outline) {v : Value}
    (hv : v ∈ y.components) {c : Cell} (hc : .cell c ∈ v.leaves) : s.binding? c = none := by
  have hmem := List.mem_map_of_mem (f := Value.outline) hv
  rw [← Entry.components_map, ← Entry.outline, h, Entry.outline, Entry.components_map,
    Entry.resolve, Entry.components_map, List.map_map] at hmem
  obtain ⟨u, hu, huv⟩ := List.mem_map.1 hmem
  obtain ⟨d, hd, hdc⟩ := Value.exists_cell_of_outline_eq huv.symm hc
  have hplace : d.place = c.place :=
    hid d c ⟨x, hx, u, hu, Store.reaches_of_mem_resolveWithin hd⟩ ⟨y, hy, v, hv, .leaf hc⟩ hdc
  rw [← Store.binding?_congr hplace]
  exact hs.unbound_of_mem_resolve hd

/-- Where cells do not lead back to themselves and are told apart by their
    identifiers, a table is a set as it reads only if no cell in its entries is
    bound. -/
theorem IsSetAsRead.unbound (h : t.IsSetAsRead s) (hs : s.Acyclic) (hid : t.Identified s) :
    t.Unbound s := by
  intro x hx v hv c hc
  obtain ⟨y, hy, hyx⟩ := contains_iff.1 ((h.contains x).2 ⟨x, hx, rfl⟩)
  have hfree (v : Value) (hv : v ∈ y.components) (c : Cell) (hc : .cell c ∈ v.leaves) :=
    unbound_of_outline_eq hs hid hx hy hyx hv hc
  -- the stored entry reads as itself, so it reads as the other one does and is that one
  have hread : (y.resolve s).outline = (x.resolve s).outline := by
    refine (Entry.outline_resolve_eq_iff.2 fun v hv c hc => ?_).trans hyx
    rw [Store.resolve_cell_of_none (hfree v hv c hc), Value.outline_cell]
  obtain rfl := List.inj_on_of_nodup_map h.distinct hy hx hread
  exact hfree v hv c hc

end Table

/-! ## Runs -/

/-- **Tables in the course of a run** never hold two equal entries as they are stored.
    As they read, they hold no two equal entries and find what they hold exactly if the
    entries read, up to order, as they were stored.  It is enough that no cell in the
    entries is bound, and where cells are told apart by their identifiers and none leads
    back to itself, it is needed. -/
theorem isSetAsRead_iff_of_reached {admits : World → List Value → Prop} {spec : Spec}
    {recording : Bool} {w₀ w : World} {a : Automaton}
    (h : Automaton.Reached admits spec recording w₀ (a, w)) :
    a.table.Distinct ∧
    (a.table.IsSetAsRead w.store ↔ (a.table.asRead w.store).Perm a.table.tuples) ∧
    (a.table.Unbound w.store → a.table.IsSetAsRead w.store) ∧
    (w.store.Acyclic → a.table.Identified w.store →
      (a.table.IsSetAsRead w.store ↔ a.table.Unbound w.store)) := by
  have hd := distinct_of_reached h
  refine ⟨hd, Table.isSetAsRead_iff_perm hd, fun hu => hu.isSetAsRead hd, fun hs hid => ?_⟩
  exact ⟨fun ht => ht.unbound hs hid, fun hu => hu.isSetAsRead hd⟩

/-! ## Cells that are bound after they were stored -/

/-- An action that adds a transition to the state `?x`, and then looks for a transition
    to it that consumes a symbol. -/
def Spec.seekAction (symbol : String) : Spec.Action :=
  (Action.named "seek").withVariable "?x"
    |>.withStep ((Step.of .add "1" "?x").consuming "a")
    |>.withStep ((Step.of .query "1" "?x").consuming symbol)

/-- A transition to be found by the symbol `b`, and one that runs the action. -/
def Spec.seeking (symbol : String) : Spec where
  transitions := [(Transition.between "1" "2").consuming "b",
    (Transition.between "2" "1").after (.to "seek" [])]
  submachines := [(Submachine.named "m").withState (State.named "1").starting
    |>.withState (State.named "2").acceptingAt]
  actions := [seekAction symbol]

/-- The entry that runs the action. -/
def Spec.seekingEntry : Entry Value :=
  ⟨none, .state "2", .epsilon, .state "1", some ⟨.literal "seek", []⟩⟩

/-- What it is after the action was run so many times. -/
def Spec.sought (symbol : String) : Nat → Automaton × World
  | 0 => Automaton.build (seeking symbol) false .initial
  | n + 1 => (sought symbol n).1.run (.ofSpec (seekAction symbol)) [] (sought symbol n).2

theorem reached_sought_once (symbol : String) :
    Automaton.Reached (fun _ _ => False) (Spec.seeking symbol) false .initial
      (Spec.sought symbol 1) := by
  refine .single (.posterior (e := Spec.seekingEntry) ?_
    (show _ = Except.ok (true, Spec.sought symbol 1) from rfl))
  exact .tail _ (.head _)

theorem reached_sought_twice :
    Automaton.Reached (fun _ _ => False) (Spec.seeking "b") false .initial
      (Spec.sought "b" 2) := by
  refine (reached_sought_once "b").tail (.posterior (e := Spec.seekingEntry) ?_
    (show _ = Except.ok (true, Spec.sought "b" 2) from rfl))
  exact .tail _ (.head _)

/-- Where nothing is found, the table is a set as it reads, with a cell in it. -/
theorem isSetAsRead_sought :
    (Spec.sought "c" 1).1.table.IsSetAsRead (Spec.sought "c" 1).2.store ∧
      (Spec.sought "c" 1).1.table.Holds (Spec.sought "c" 1).2.store
        (.cell ⟨0, .numbered 0⟩) := by
  have hu : (Spec.sought "c" 1).1.table.Unbound (Spec.sought "c" 1).2.store := by
    rintro e - v - ⟨_ | n, id⟩ - <;> rfl
  refine ⟨(isSetAsRead_iff_of_reached (reached_sought_once "c")).2.2.1 hu, ?_⟩
  exact ⟨.plain (.state "1") (.symbol "a") (.cell ⟨0, .numbered 0⟩),
    .tail _ (.tail _ (.head _)), .cell ⟨0, .numbered 0⟩, .tail _ (.tail _ (.head _)),
    .leaf (by simp)⟩

/-- Where the state `2` is found, the transition to it is not found in the table by name,
    although an entry reads as it; and after a second time two entries read as it. -/
theorem doubled : (Spec.seeking "b").validate = .ok () ∧
    (∃ a w, Automaton.Reached (fun _ _ => False) (Spec.seeking "b") false .initial (a, w) ∧
      a.table.contains w.store (.plain (.state "1") (.symbol "a") (.state "2")) = false ∧
      ∃ x ∈ a.table.entries, (x.resolve w.store).outline =
        (Entry.plain (.state "1") (.symbol "a") (.state "2")).outline) ∧
    ∃ a w, Automaton.Reached (fun _ _ => False) (Spec.seeking "b") false .initial (a, w) ∧
      ¬ (a.table.asRead w.store).Nodup :=
  ⟨by decide, ⟨_, _, reached_sought_once "b", rfl,
    .plain (.state "1") (.symbol "a") (.cell ⟨0, .numbered 0⟩),
    .tail _ (.tail _ (.head _)), rfl⟩, _, _, reached_sought_twice, by decide⟩

end AdaptiveAutomata
