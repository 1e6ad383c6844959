/-
  Runs of an automaton.

  An adaptive action is run by name, or because an entry of the table calls it.
  A run of an automaton is a sequence of these, each on the table that the ones
  before have left.

  * `Automaton.Fires` is one step, `Automaton.Reached` says what is reached from a
    new automaton;
  * `Fires.exists_run`: a step runs one of the actions, or does nothing;
  * `Reached.induction` is the induction over runs: what a new automaton has and
    every action of the description keeps;
  * `Registry.get?_ofSpec_isSome`: the actions that can be run are those of the
    description.
-/
import AdaptiveAutomata.Automaton
import AdaptiveAutomata.Proofs.Leaves
import Mathlib.Logic.Relation

namespace AdaptiveAutomata

/-! ## Registered actions -/

namespace Registry

variable {name : String} {action : Action}

/-- Of the actions with one name the one that is registered last is found. -/
theorem get?_foldl (actions : List Action) (r : Registry) (name : String) :
    (actions.foldl insert r).get? name =
      (actions.reverse.find? (·.name = name)).or (r.get? name) := by
  induction actions generalizing r with
  | nil => rfl
  | cons b actions ih =>
    rw [List.foldl_cons, ih, List.reverse_cons, List.find?_append, Option.or_assoc]
    congr 1
    by_cases hb : b.name = name
    · subst hb
      simp
    · simp [get?_insert_of_ne hb, hb]

theorem mem_of_get?_foldl {actions : List Action} {r : Registry}
    (h : (actions.foldl insert r).get? name = some action) :
    action ∈ actions ∨ r.get? name = some action := by
  rw [get?_foldl, Option.or_eq_some_iff] at h
  exact h.imp (fun h => List.mem_reverse.1 (List.mem_of_find?_eq_some h)) And.right

theorem get?_foldl_isSome {actions : List Action} {r : Registry} :
    ((actions.foldl insert r).get? name).isSome ↔
      (∃ b ∈ actions, b.name = name) ∨ (r.get? name).isSome := by
  rw [get?_foldl, Option.isSome_or, Bool.or_eq_true, List.find?_isSome]
  simp only [List.mem_reverse, decide_eq_true_eq]

theorem name_of_get? {r : Registry} (h : r.get? name = some action) : action.name = name := by
  rw [get?] at h
  simpa using List.find?_some h

variable {spec : Spec}

theorem mem_of_get?_ofSpec (h : (ofSpec spec).get? name = some action) :
    action ∈ spec.actions.map Action.ofSpec := by
  rcases mem_of_get?_foldl h with h | h
  · exact h
  · exact absurd h (by simp [get?, empty])

theorem get?_ofSpec_isSome :
    ((ofSpec spec).get? name).isSome ↔ ∃ b ∈ spec.actions, b.name.getD "" = name := by
  rw [ofSpec, get?_foldl_isSome]
  constructor
  · rintro (⟨b, hb, hn⟩ | h)
    · obtain ⟨c, hc, rfl⟩ := List.mem_map.1 hb
      exact ⟨c, hc, hn⟩
    · exact absurd h (by simp [get?, empty])
  · rintro ⟨b, hb, hn⟩
    exact .inl ⟨_, List.mem_map_of_mem hb, hn⟩

end Registry

/-! ## One step -/

/-- An identifier that has a number in its first byte. -/
def Uuid.numbered (n : Nat) : Uuid := ⟨UInt8.ofNat n :: List.replicate 15 0, rfl⟩

/-- A world in which nothing was made. -/
def World.initial : World := ⟨.empty .numbered, #[], ⟨0, 0, 0⟩⟩

namespace Automaton

variable {admits : World → List Value → Prop} {a : Automaton} {w : World} {spec : Spec}
  {recording : Bool} {w₀ : World} {x y : Automaton × World}

/-- One step of a run: an action is run by name, with arguments that are
    admitted, or as an entry of the table calls it. -/
inductive Fires (admits : World → List Value → Prop) :
    Automaton × World → Automaton × World → Prop
  | named {a : Automaton} {w : World} {name : String} {arguments : List Value}
      {x : Automaton × World} (ha : admits w arguments) (h : a.fire name arguments w = .ok x) :
      Fires admits (a, w) x
  | prior {a : Automaton} {w : World} {e : Entry Value} {called : Bool} {x : Automaton × World}
      (he : e ∈ a.table.entries) (h : a.firePrior e w = .ok (called, x)) : Fires admits (a, w) x
  | posterior {a : Automaton} {w : World} {e : Entry Value} {called : Bool}
      {x : Automaton × World} (he : e ∈ a.table.entries)
      (h : a.firePosterior e w = .ok (called, x)) : Fires admits (a, w) x

/-- The arguments of a step: they are admitted, or they are those of a call in the
    table as they read. -/
def Given (admits : World → List Value → Prop) (a : Automaton) (w : World)
    (arguments : List Value) : Prop :=
  admits w arguments ∨ ∃ e ∈ a.table.entries, ∃ q ∈ e.calls,
    arguments = q.arguments.map w.store.resolve

/-- What comes of an automaton in the course of a run. -/
def Reached (admits : World → List Value → Prop) (spec : Spec) (recording : Bool) (w₀ : World) :
    Automaton × World → Prop :=
  Relation.ReflTransGen (Fires admits) (build spec recording w₀)

theorem fire_eq_ok_iff {name : String} {arguments : List Value} :
    a.fire name arguments w = .ok x ↔
      ∃ action, a.actions.get? name = some action ∧ x = a.run action arguments w := by
  unfold fire
  cases a.actions.get? name with
  | none => simp
  | some action => simp [eq_comm]

/-- A call runs the action of the name that the name of the call reads as. -/
theorem fireReference_eq_ok_iff {q : Reference Value} :
    a.fireReference q w = .ok x ↔
      ∃ name action, w.store.name? (q.resolve w.store).name = some name ∧
        a.actions.get? name = some action ∧ x = a.run action (q.resolve w.store).arguments w := by
  simp only [fireReference]
  cases w.store.name? (q.resolve w.store).name with
  | none => simp
  | some name => simp [fire_eq_ok_iff]

theorem fireCall_eq_ok_iff {r : Option (Reference Value)} {called : Bool} :
    a.fireCall r w = .ok (called, x) ↔
      (r = none ∧ called = false ∧ x = (a, w)) ∨
        ∃ q, r = some q ∧ called = true ∧ a.fireReference q w = .ok x := by
  cases r with
  | none => simp [fireCall, eq_comm]
  | some q =>
    rw [fireCall]
    cases h : a.fireReference q w with
    | error e => simp [Except.map, h]
    | ok y => cases called <;> simp [Except.map, h]

/-- **A step** does nothing, or runs one of the actions with given arguments. -/
theorem Fires.exists_run (h : Fires admits (a, w) x) :
    x = (a, w) ∨ ∃ name action arguments, a.actions.get? name = some action ∧
      a.Given admits w arguments ∧ x = a.run action arguments w := by
  have key {r : Option (Reference Value)} {e : Entry Value} {called : Bool}
      (he : e ∈ a.table.entries) (hr : ∀ q, r = some q → q ∈ e.calls)
      (h : a.fireCall r w = .ok (called, x)) :
      x = (a, w) ∨ ∃ name action arguments, a.actions.get? name = some action ∧
        a.Given admits w arguments ∧ x = a.run action arguments w := by
    rcases fireCall_eq_ok_iff.1 h with ⟨-, -, hx⟩ | ⟨q, hq, -, h⟩
    · exact .inl hx
    · obtain ⟨name, action, -, hg, hx⟩ := fireReference_eq_ok_iff.1 h
      exact .inr ⟨name, action, _, hg, .inr ⟨e, he, q, hr q hq, rfl⟩, hx⟩
  cases h with
  | named ha h =>
    obtain ⟨action, hg, hx⟩ := fire_eq_ok_iff.1 h
    exact .inr ⟨_, action, _, hg, .inl ha, hx⟩
  | prior he h => exact key he (fun q => Entry.mem_calls_of_prior) h
  | posterior he h => exact key he (fun q => Entry.mem_calls_of_posterior) h

/-! ## Whole runs -/

/-- **Induction over runs**: what a new automaton has, and every action of the
    description keeps.  The automaton keeps its actions, its main submachine and
    its counter. -/
theorem Reached.induction {P : Automaton → World → Prop}
    (h : Reached admits spec recording w₀ x)
    (build : P (build spec recording w₀).1 (build spec recording w₀).2)
    (run : ∀ a w, ∀ b ∈ spec.actions, ∀ arguments, P a w → a.generator < w.counters.size →
      a.Given admits w arguments →
      P (a.run (.ofSpec b) arguments w).1 (a.run (.ofSpec b) arguments w).2) :
    P x.1 x.2 ∧ x.1.actions = .ofSpec spec ∧
      x.1.main = ((spec.submachines.filter (·.isMain)).filterMap (·.name)).getLast? ∧
      x.1.generator < x.2.counters.size := by
  induction h with
  | refl => exact ⟨build, rfl, rfl, by simp [Automaton.build]⟩
  | @tail y z _ hs ih =>
    obtain ⟨hp, ha, hm, hg⟩ := ih
    obtain ⟨a, w⟩ := y
    rcases hs.exists_run with rfl | ⟨name, action, arguments, hget, hgiven, rfl⟩
    · exact ⟨hp, ha, hm, hg⟩
    · have hget : (Registry.ofSpec spec).get? name = some action := ha ▸ hget
      obtain ⟨b, hb, rfl⟩ := List.mem_map.1 (Registry.mem_of_get?_ofSpec hget)
      refine ⟨run a w b hb arguments hp hg hgiven, ha, hm, ?_⟩
      simpa [Automaton.run, World.setCounter] using hg

theorem Reached.frame (h : Reached admits spec recording w₀ x) :
    x.1.actions = .ofSpec spec ∧
      x.1.main = ((spec.submachines.filter (·.isMain)).filterMap (·.name)).getLast? ∧
      x.1.generator < x.2.counters.size :=
  (h.induction (P := fun _ _ => True) trivial fun _ _ _ _ _ _ _ _ => trivial).2

theorem counter_run (h : a.generator < w.counters.size) (action : Action)
    (arguments : List Value) :
    (a.run action arguments w).1.counter (a.run action arguments w).2 =
      ((a.counter w).mints action.generators.length).2 := by
  refine World.counter_setCounter_self ?_ _
  exact h

theorem counter_build (spec : Spec) (recording : Bool) (w : World) :
    (build spec recording w).1.counter (build spec recording w).2 = ⟨spec.seed⟩ := by
  simp [build, counter, World.counter]

end Automaton

end AdaptiveAutomata
