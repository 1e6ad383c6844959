/-
  What it takes for a cell to refer to itself.

  Cells are bound one by one, by matching values and entries, by elementary
  actions, and by adaptive actions in the course of runs.

  * `Store.Use` is one thing that is done with cells;
  * `acyclic_iff_of_uses`: whatever is done with cells that do not lead back to
    themselves, they stay so exactly as long as no cell holds itself; then
    reading and matching end, and a cell can be bound safely to what does not
    hold it;
  * `tied_by_call`: a call with the cell inside is not refused, and actions of a
    valid description come to bind such a call.
-/
import AdaptiveAutomata.Proofs.Acyclic
import AdaptiveAutomata.Spec.Check

namespace AdaptiveAutomata

namespace Store

variable {s t : Store} {c d : Cell} {v w : Value}

/-- One thing that is done with cells. -/
inductive Use : Store → Store → Prop
  | make (s : Store) : Use s s.fresh.2
  | bind {s t : Store} {c : Cell} {v : Value} (h : s.bind? c v = some t) : Use s t
  | value (s : Store) (pattern stored : Value) : Use s (s.bindFrom pattern stored)
  | entry (s : Store) (pattern stored : Entry Value) : Use s (Entry.bindFrom s pattern stored)
  | dispatch (kind : Kind) (e : Entry Value) (σ : Scene) : Use σ.store (σ.dispatch kind e).2.store
  | fire {name : String} {arguments : List Value} {a a' : Automaton} {w w' : World}
      (h : a.fire name arguments w = .ok (a', w')) : Use w.store w'.store

theorem Use.moves (h : Use s t) : Moves s t := by
  cases h with
  | make => exact .single (.fresh s)
  | bind h => exact .single (.bind h)
  | value _ p v => exact bindingRule_moves.bindFrom trivial p
  | entry _ p e => exact bindingRule_moves.bindEntry (fun _ _ => trivial) p
  | dispatch kind e σ => exact bindingRule_moves.dispatch (fun _ _ _ _ => trivial) kind e
  | fire h => exact Automaton.moves_fire h

theorem moves_of_uses (h : Relation.ReflTransGen Use s t) : Moves s t := by
  induction h with
  | refl => exact .refl
  | tail _ h ih => exact ih.trans h.moves

/-- A binding is refused for two reasons: the cell is bound, or the value reads
    as a cell with its identifier. -/
theorem bind?_eq_none_iff :
    s.bind? c v = none ↔ s.binding? c ≠ none ∨ ∃ d, s.resolve v = .cell d ∧ d.id = c.id := by
  by_cases hb : s.binding? c = none
  · by_cases hd : ∃ d, s.resolve v = .cell d ∧ d.id = c.id
    · refine iff_of_true (Option.eq_none_iff_forall_ne_some.2 fun t ht => ?_) (.inr hd)
      obtain ⟨d, hr, hid⟩ := hd
      exact (bind?_eq_some_iff.1 ht).2.1 d hr hid
    · refine iff_of_false (fun hn => ?_) (by simp [hb, hd])
      have := bind?_eq_some_iff.2 ⟨hb, fun d hr hid => hd ⟨d, hr, hid⟩, rfl⟩
      rw [hn] at this
      exact absurd this (by simp)
  · refine iff_of_true (Option.eq_none_iff_forall_ne_some.2 fun t ht => ?_) (.inl hb)
    exact hb (bind?_eq_some_iff.1 ht).1

/-- **When cells refer to themselves.**  From cells that do not lead back to
    themselves, after anything was done with them:

    * one leads back to itself exactly if one stands in the value it is bound to;
    * a binding is refused only to a bound cell, or where the value reads as the
      cell itself;

    and if none leads back to itself, then reading any value ends, a cell can be
    bound safely to exactly those values that do not hold it as they read, and
    matching ends if it leaves such cells. -/
theorem acyclic_iff_of_uses (hs : s.Acyclic) (h : Relation.ReflTransGen Use s t) :
    (t.Acyclic ↔ ∀ c, ¬ t.HoldsItself c) ∧
    (∀ c v, t.bind? c v = none ↔
      t.binding? c ≠ none ∨ ∃ d, t.resolve v = .cell d ∧ d.id = c.id) ∧
    (t.Acyclic →
      (∀ v depth, t.size ≤ depth → t.resolveWithin depth v = t.resolve v) ∧
      (∀ c v u, c.place < t.size → t.bind? c v = some u →
        (u.Acyclic ↔ ∀ d, .cell d ∈ (t.resolve v).leaves → d.place ≠ c.place)) ∧
      ∀ p v depth, (t.bindFrom p v).Acyclic → t.size < depth →
        bindFromWithin depth p v t = t.bindFrom p v) := by
  refine ⟨hs.moves_iff (moves_of_uses h), fun c v => bind?_eq_none_iff, fun ht => ⟨?_, ?_, ?_⟩⟩
  · exact fun v depth hd => ht.resolveWithin_eq hd v
  · exact fun c v u hlt hu => ht.bind?_iff hlt hu
  · exact fun p v depth hp hd => hp.bindFromWithin_eq hd

/-- A cell that is bound to a call of another one. -/
theorem acyclic_after_binding : ∃ t, Relation.ReflTransGen Use (empty Uuid.numbered) t ∧
    t.binding? ⟨0, .numbered 0⟩ = some (.call (.cell ⟨1, .numbered 1⟩)) ∧ t.Acyclic := by
  let s₁ := (empty Uuid.numbered).fresh.2
  let s₂ := s₁.fresh.2
  let t := s₂.write ⟨0, .numbered 0⟩ (.call (.cell ⟨1, .numbered 1⟩))
  have hb : s₂.bind? ⟨0, .numbered 0⟩ (.call (.cell ⟨1, .numbered 1⟩)) = some t := rfl
  have hu : Relation.ReflTransGen Use (empty Uuid.numbered) t :=
    .tail (.tail (.single (.make _)) (.make s₁)) (.bind hb)
  refine ⟨t, hu, rfl, (acyclic_iff_of_uses (acyclic_empty _) hu).1.2 ?_⟩
  rintro ⟨_ | _ | n, id⟩ ⟨w, hw, d, hd, hp⟩
  · obtain rfl : Value.call (.cell ⟨1, .numbered 1⟩) = w := Option.some.inj hw
    rw [Value.leaves_call, Value.leaves_cell, List.mem_singleton, Value.cell.injEq] at hd
    rw [hd] at hp
    exact absurd hp (by simp)
  · exact absurd (show none = some w from hw) (by simp)
  · exact absurd (show none = some w from hw) (by simp)

end Store

/-! ## Calls that are tied -/

/-- An action that adds a call of the submachine `?x`, then asks what is
    consumed from the same state to the same state. -/
def Spec.tyingAction : Spec.Action :=
  ((Action.named "tie").withVariable "?x"
    |>.withStep ((Step.of .add "1" "2").calling "?x")
    |>.withStep ((Step.of .query "1" "2").consuming "?x"))

/-- A transition that runs it. -/
def Spec.tying : Spec where
  transitions := [(Transition.between "1" "2").after (.to "tie" [])]
  submachines := [(Submachine.named "m").withState (State.named "1").starting
    |>.withState (State.named "2").acceptingAt]
  actions := [tyingAction]

open Store in
/-- A call with the cell inside is not refused, nor one with a cell of the same
    identifier, and a valid description runs into one by itself. -/
theorem tied_by_call :
    (let s := (empty Uuid.numbered).fresh.2
     let c : Cell := ⟨0, .numbered 0⟩
     s.Acyclic ∧ s.bind? c (.cell c) = none ∧
       ∃ t, s.bind? c (.call (.cell c)) = some t ∧ t.LeadsToItself c) ∧
    (let s := (((empty Uuid.numbered).alloc (.numbered 0) none).2.alloc (.numbered 0) none).2
     let c : Cell := ⟨0, .numbered 0⟩
     let copy : Cell := ⟨1, .numbered 0⟩
     s.bind? copy (.cell c) = none ∧ s.bind? copy (.call (.cell c)) ≠ none) ∧
    Spec.tying.validate = .ok () ∧
    ∃ a w c, (Automaton.build Spec.tying false .initial).1.fire "tie" []
      (Automaton.build Spec.tying false .initial).2 = .ok (a, w) ∧ w.store.LeadsToItself c := by
  refine ⟨⟨?_, rfl, _, rfl, .call (.cell ⟨0, .numbered 0⟩), rfl, ⟨0, .numbered 0⟩,
    .leaf (by simp), rfl⟩, ⟨rfl, Option.some_ne_none _⟩, by decide, _, _, ⟨0, .numbered 0⟩, rfl,
    .call (.cell ⟨0, .numbered 0⟩), rfl, ⟨0, .numbered 0⟩, .leaf (by simp), rfl⟩
  exact (acyclic_empty _).of_move (.fresh _) fun c ⟨w, hb, _⟩ => by
    rw [binding?_fresh] at hb
    exact absurd (place_lt_size hb) (Nat.not_lt_zero _)

end AdaptiveAutomata
