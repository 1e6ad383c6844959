/-
  Checkpoints that are put back.

  A checkpoint holds the entries of a table as they are stored.  They are put back
  by adding them to an empty table, which takes them as they read at that time.

  * `restored_iff`: a checkpoint of an automaton is accepted by a new automaton of
    the same description, gives it the counter, and gives it equal entries exactly
    if each cell in the entries still reads as itself;
  * `restored_fewer`: a cell that is bound can make two entries into one.
-/
import AdaptiveAutomata.Checkpoint
import AdaptiveAutomata.Proofs.Moves
import AdaptiveAutomata.Proofs.Tables
import AdaptiveAutomata.Spec.Check

namespace AdaptiveAutomata

variable {admits : World → List Value → Prop} {spec : Spec} {recording : Bool} {w₀ w : World}
  {a : Automaton}

/-! ## Putting back -/

theorem Automaton.counter_restore {b : Automaton} (h : b.generator < w.counters.size)
    (entries : List (Entry Value)) (next : StateId) :
    (b.restore entries next w).1.counter (b.restore entries next w).2 = ⟨next⟩ :=
  World.counter_setCounter_self h ⟨next⟩

/-- An automaton with the main submachine of the checkpoint accepts it. -/
theorem restoreInto_capture {b : Automaton} {w₁ : World} (id : String) (h : b.main = a.main) :
    (Checkpoint.capture id a w).restoreInto b w₁ =
      .ok (b.restore a.table.entries (a.counter w).next w₁) := by
  have hv : (Checkpoint.capture id a w).checkVersion = .ok () := rfl
  have hm : (Checkpoint.capture id a w).main = b.main := h.symm
  rw [Checkpoint.restoreInto, hv, if_pos hm]
  rfl

/-- **A checkpoint put back.**  Take a checkpoint of an automaton in the course of a
    run, let anything happen to the world, and build another automaton.  That
    automaton accepts the checkpoint and has the counter; it has equal entries, in
    the same order, exactly if each cell in the entries reads as itself. -/
theorem restored_iff (h : Automaton.Reached admits spec recording w₀ (a, w)) (id : String)
    (recording' : Bool) (w₁ : World) :
    ∃ b w₂, (Checkpoint.capture id a w).restoreInto (Automaton.build spec recording' w₁).1
        (Automaton.build spec recording' w₁).2 = .ok (b, w₂) ∧
      b.counter w₂ = a.counter w ∧
      (b.table.entries.map Entry.outline = a.table.entries.map Entry.outline ↔
        ∀ e ∈ a.table.entries, ∀ v ∈ e.components, ∀ c, .cell c ∈ v.leaves →
          (w₁.store.resolve (.cell c)).outline = .free c.id) := by
  have hb : Automaton.Reached admits spec recording' w₁ (Automaton.build spec recording' w₁) := .refl
  refine ⟨_, _, restoreInto_capture id (hb.frame.2.1.trans h.frame.2.1.symm), ?_, ?_⟩
  · exact Automaton.counter_restore hb.frame.2.2 _ _
  · have hstore : (Automaton.build spec recording' w₁).2.store = w₁.store := rfl
    rw [hstore, Table.ofEntries_outline_iff (distinct_of_reached h)]
    exact forall₂_congr fun e _ => Entry.outline_resolve_eq_iff

/-! ## Cells in the table -/

/-- An action that adds a transition to the state `?x`, looks for a transition to it
    that consumes a symbol, and adds a transition to the state `2`. -/
def Spec.findAction (symbol : String) : Spec.Action :=
  (Action.named "find").withVariable "?x"
    |>.withStep ((Step.of .add "1" "?x").consuming "a")
    |>.withStep ((Step.of .query "1" "?x").consuming symbol)
    |>.withStep ((Step.of .add "1" "2").consuming "a")

/-- A transition to be found by the symbol `b`, and one that runs the action. -/
def Spec.finding (symbol : String) : Spec where
  transitions := [(Transition.between "1" "2").consuming "b",
    (Transition.between "2" "1").after (.to "find" [])]
  submachines := [(Submachine.named "m").withState (State.named "1").starting
    |>.withState (State.named "2").acceptingAt]
  actions := [findAction symbol]

/-- What it is after the action was run once. -/
def Spec.found (symbol : String) : Automaton × World :=
  let x := Automaton.build (finding symbol) false .initial
  x.1.run (.ofSpec (findAction symbol)) [] x.2

theorem reached_found (symbol : String) :
    Automaton.Reached (fun _ _ => True) (Spec.finding symbol) false .initial
      (Spec.found symbol) := by
  refine .single (.named trivial (show Automaton.fire "find" [] _ _ = _ from ?_))
  rfl

/-- Where nothing is found, the cell stays unbound, and all four entries are put
    back. -/
theorem restored_unbound :
    ∃ b w, (Checkpoint.capture "cp" (Spec.found "c").1 (Spec.found "c").2).restoreInto
        (Automaton.build (Spec.finding "c") false (Spec.found "c").2).1
        (Automaton.build (Spec.finding "c") false (Spec.found "c").2).2 = .ok (b, w) ∧
      b.table.entries.map Entry.outline = (Spec.found "c").1.table.entries.map Entry.outline := by
  obtain ⟨b, w, hb, -, hiff⟩ := restored_iff (reached_found "c") "cp" false (Spec.found "c").2
  refine ⟨b, w, hb, hiff.2 fun e _ v _ c _ => ?_⟩
  have hc : (Spec.found "c").2.store.binding? c = none := by
    obtain ⟨_ | n, id⟩ := c <;> rfl
  rw [Store.resolve, Store.resolveWithin_cell_of_none hc, Value.outline_cell]

/-- Where the state `2` is found, the transition to it is there twice, through the
    cell and by name, and is put back once. -/
theorem restored_fewer : (Spec.finding "b").validate = .ok () ∧
    ∃ a w b w', Automaton.Reached (fun _ _ => True) (Spec.finding "b") false .initial (a, w) ∧
      (Checkpoint.capture "cp" a w).restoreInto (Automaton.build (Spec.finding "b") false w).1
        (Automaton.build (Spec.finding "b") false w).2 = .ok (b, w') ∧
      a.table.entries.length = 4 ∧ b.table.entries.length = 3 :=
  ⟨rfl, (Spec.found "b").1, (Spec.found "b").2, _, _, reached_found "b", rfl, rfl, rfl⟩

end AdaptiveAutomata
