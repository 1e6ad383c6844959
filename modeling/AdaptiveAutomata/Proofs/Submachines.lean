/-
  Submachines as they are declared, and the main one.

  A new automaton has a record of each declared submachine.  Which one is the main one it
  knows by name only, and it looks for that name when it is asked: what it finds is the
  first record of the name.  No rule asks that names of submachines are distinct.

  * `Spec.Submachine.Describes` says that a record has what a submachine declares;
  * `describes_ofSpec`: the record of a well-formed submachine does;
  * `mainSubmachine?_build`: the main submachine is the first one with the name of the one
    that carries the flag;
  * `submachines_of_build`: the records are the declared ones, and the main one is the
    flagged one exactly if no other record is found before it;
  * `mistaken_flaggedLast`: another one can be found.
-/
import AdaptiveAutomata.Proofs.Runs
import AdaptiveAutomata.Proofs.WellFormed
import Mathlib.Data.List.Find
import Mathlib.Data.List.Forall2

namespace AdaptiveAutomata

/-! ## Records -/

namespace Spec

/-- The value is the state that is declared. -/
def State.Is (q : State) (v : Value) : Prop := ∃ name, q.name = some name ∧ v = .state name

/-- A record has the name and the states that are declared, starts in the one state with
    a start flag, and accepts in those with an accepting flag. -/
structure Submachine.Describes (m : Submachine) (r : AdaptiveAutomata.Submachine Value) :
    Prop where
  name : m.name = some r.name
  states : List.Forall₂ State.Is m.states r.states
  initial : ∃ q v, m.startStates = [q] ∧ q.Is v ∧ r.initial = some v
  accepting : List.Forall₂ State.Is m.acceptingStates r.accepting
  accepting_ne_nil : r.accepting ≠ []
  accepting_subset : r.accepting ⊆ r.states

theorem forall₂_is {qs : List State} (h : ∀ q ∈ qs, q.WellFormed) :
    List.Forall₂ State.Is qs ((qs.filterMap (·.name)).map .state) := by
  induction qs with
  | nil => exact .nil
  | cons q qs ih =>
    obtain ⟨hq, hqs⟩ := List.forall_mem_cons.1 h
    obtain ⟨name, hn, -⟩ := hq.name
    rw [List.filterMap_cons_some hn, List.map_cons]
    exact .cons ⟨name, hn, rfl⟩ (ih hqs)

/-- **The record of a well-formed submachine** has what is declared. -/
theorem Submachine.describes_ofSpec {m : Submachine} (h : m.WellFormed) :
    m.Describes (.ofSpec m) := by
  have hstart (q : State) (hq : q ∈ m.startStates) : q.WellFormed :=
    h.states q (List.mem_filter.1 hq).1
  have haccept (q : State) (hq : q ∈ m.acceptingStates) : q.WellFormed :=
    h.states q (List.mem_filter.1 hq).1
  refine ⟨?_, forall₂_is h.states, ?_, forall₂_is haccept, ?_, ?_⟩
  · obtain ⟨name, hn, -⟩ := h.name
    rw [hn, AdaptiveAutomata.Submachine.ofSpec, hn, Option.getD_some]
  · obtain ⟨q, hq⟩ : ∃ q, m.startStates = [q] := by
      rw [← List.length_eq_one_iff, startStates, ← List.countP_eq_length_filter]
      exact h.start
    obtain ⟨name, hn, -⟩ := (hstart q (hq ▸ List.mem_singleton_self q)).name
    refine ⟨q, .state name, hq, ⟨name, hn, rfl⟩, ?_⟩
    rw [AdaptiveAutomata.Submachine.ofSpec, hq, List.filterMap_cons_some hn]
    rfl
  · obtain ⟨q, hq, ha⟩ := h.accepting
    obtain ⟨name, hn, -⟩ := (h.states q hq).name
    have hmem : name ∈ m.acceptingStates.filterMap (·.name) :=
      List.mem_filterMap.2 ⟨q, List.mem_filter.2 ⟨hq, ha⟩, hn⟩
    exact List.ne_nil_of_mem (List.mem_map_of_mem hmem)
  · exact List.map_subset _ (List.filterMap_subset _ fun q hq => (List.mem_filter.1 hq).1)

end Spec

/-! ## The main submachine -/

variable {s : Spec} {recording : Bool} {w : World}

/-- The one that carries a main flag is the only one that is kept. -/
theorem Spec.filter_isMain (h : s.WellFormed) {earlier later : List Spec.Submachine}
    {m : Spec.Submachine} (hs : s.submachines = earlier ++ m :: later) (hm : m.main ≠ none) :
    s.submachines.filter (·.isMain) = [m] := by
  have hflag : m.isMain = true := Option.isSome_iff_ne_none.2 hm
  have hcount : s.submachines.countP (·.isMain) ≤ 1 := h.main
  have hmem : m ∈ s.submachines.filter (·.isMain) :=
    List.mem_filter.2 ⟨by simp [hs], hflag⟩
  rw [List.countP_eq_length_filter] at hcount
  obtain ⟨n, hn⟩ := List.length_eq_one_iff.1
    (Nat.le_antisymm hcount (List.length_pos_of_mem hmem))
  rw [hn, List.mem_singleton] at hmem
  rw [hn, hmem]

/-- A search in records made of declared submachines is a search in these. -/
theorem Automaton.submachine?_build (h : s.WellFormed) (name : String) :
    (build s recording w).1.submachine? name =
      (s.submachines.find? (·.name = some name)).map .ofSpec := by
  have hname {m : Spec.Submachine} (hm : m ∈ s.submachines) :
      decide ((Submachine.ofSpec m).name = name) = decide (m.name = some name) := by
    obtain ⟨n, hn, -⟩ := (h.submachines m hm).name
    simp [Submachine.ofSpec, hn]
  rw [submachine?, build, List.find?_map]
  exact congrArg (Option.map _) (List.find?_congr fun m hm => hname hm)

/-- **The main submachine** is the first one that has the name of the flagged one. -/
theorem Automaton.mainSubmachine?_build (h : s.WellFormed) {earlier later : List Spec.Submachine}
    {m : Spec.Submachine} (hs : s.submachines = earlier ++ m :: later) (hm : m.main ≠ none) :
    (build s recording w).1.mainSubmachine? =
      some (.ofSpec ((earlier.find? (·.name = m.name)).getD m)) := by
  obtain ⟨name, hn, -⟩ := (h.submachines m (by simp [hs])).name
  have hmain : (build s recording w).1.main = some name := by
    rw [build, Spec.filter_isMain h hs hm, List.filterMap_cons_some hn]
    rfl
  -- the search ends at the flagged one at the latest
  rw [mainSubmachine?, hmain, Option.bind_some, submachine?_build h, hs, List.find?_append,
    List.find?_cons_of_pos (by simpa using hn)]
  simp only [hn]
  cases earlier.find? fun x => x.name = some name <;> rfl

theorem Automaton.mainSubmachine?_build_eq_none_iff (h : s.WellFormed) :
    (build s recording w).1.mainSubmachine? = none ↔ ∀ m ∈ s.submachines, m.main = none := by
  constructor
  · intro hnone m hm
    by_contra hflag
    obtain ⟨earlier, later, hs⟩ := List.append_of_mem hm
    rw [mainSubmachine?_build h hs hflag] at hnone
    cases hnone
  · intro hall
    have hmains : s.submachines.filter (·.isMain) = [] :=
      List.filter_eq_nil_iff.2 fun m hm => by simp [Spec.Submachine.isMain, hall m hm]
    rw [mainSubmachine?, build, hmains]
    rfl

/-- **The records of a new automaton** of an accepted description have what its submachines
    declare, one for each in their order.  There is a main one exactly if one is flagged, and
    it is the record of the flagged one exactly if the first one before it that has its name,
    if there is one, has the same record. -/
theorem submachines_of_build (hv : s.validate = .ok ()) (recording : Bool) (w : World) :
    List.Forall₂ Spec.Submachine.Describes s.submachines
      (Automaton.build s recording w).1.submachines ∧
    ((Automaton.build s recording w).1.mainSubmachine? = none ↔
      ∀ m ∈ s.submachines, m.main = none) ∧
    ∀ earlier m later, s.submachines = earlier ++ m :: later → m.main ≠ none →
      (Automaton.build s recording w).1.mainSubmachine? =
        some (.ofSpec ((earlier.find? (·.name = m.name)).getD m)) ∧
      ((Automaton.build s recording w).1.mainSubmachine? = some (.ofSpec m) ↔
        ∀ n, earlier.find? (·.name = m.name) = some n →
          Submachine.ofSpec n = Submachine.ofSpec m) := by
  have h := (Spec.validate_iff_wellFormed s).1.1 hv
  refine ⟨?_, Automaton.mainSubmachine?_build_eq_none_iff h, fun earlier m later hs hm => ?_⟩
  · rw [Automaton.build, List.forall₂_map_right_iff, List.forall₂_same]
    exact fun m hm => Spec.Submachine.describes_ofSpec (h.submachines m hm)
  · have hmain : (Automaton.build s recording w).1.mainSubmachine? =
        some (.ofSpec ((earlier.find? (·.name = m.name)).getD m)) :=
      Automaton.mainSubmachine?_build h hs hm
    refine ⟨hmain, ?_⟩
    rw [hmain, Option.some.injEq]
    cases earlier.find? fun x => x.name = m.name <;> simp

/-! ## Submachines of one name -/

/-- A submachine that starts in one state and accepts in another. -/
def Spec.Submachine.pair (name start accepting : String) : Spec.Submachine :=
  (Submachine.named name).withState (State.named start).starting
    |>.withState (State.named accepting).acceptingAt

/-- The flagged submachine comes first of those with its name. -/
def Spec.flaggedFirst : Spec where
  transitions := [.between "1" "2"]
  submachines := [.pair "helper" "1" "2", (Submachine.pair "m" "3" "4").asMain, .pair "m" "5" "6"]
  actions := []

/-- A record for each of the three submachines, and the main one is the second. -/
theorem submachines_flaggedFirst : Spec.flaggedFirst.validate = .ok () ∧
    List.Forall₂ Spec.Submachine.Describes Spec.flaggedFirst.submachines
      (Automaton.build Spec.flaggedFirst true .initial).1.submachines ∧
    (Automaton.build Spec.flaggedFirst true .initial).1.mainSubmachine? =
      some ⟨"m", [.state "3", .state "4"], some (.state "3"), [.state "4"]⟩ := by
  have hv : Spec.flaggedFirst.validate = .ok () := by decide
  have h := submachines_of_build hv true .initial
  have hfirst : [Spec.Submachine.pair "helper" "1" "2"].find? (·.name = some "m") = none := by
    decide
  refine ⟨hv, h.1, (h.2.2 [.pair "helper" "1" "2"] (Spec.Submachine.pair "m" "3" "4").asMain
    [.pair "m" "5" "6"] rfl (by decide)).2.2 fun n hn => ?_⟩
  cases hfirst.symm.trans hn

/-- The flagged submachine comes after another one with its name. -/
def Spec.flaggedLast : Spec where
  transitions := [.between "1" "2"]
  submachines := [.pair "m" "1" "2", (Submachine.pair "m" "3" "4").asMain]
  actions := []

/-- It is accepted, but its main submachine is taken for the one without a flag. -/
theorem mistaken_flaggedLast : Spec.flaggedLast.validate = .ok () ∧
    (Automaton.build Spec.flaggedLast true .initial).1.mainSubmachine? =
      some ⟨"m", [.state "1", .state "2"], some (.state "1"), [.state "2"]⟩ ∧
    Spec.flaggedLast.submachines.filter (·.main.isSome) =
      [(Spec.Submachine.pair "m" "3" "4").asMain] ∧
    (Automaton.build Spec.flaggedLast true .initial).1.mainSubmachine? ≠
      some (.ofSpec (Spec.Submachine.pair "m" "3" "4").asMain) := by
  have hmain : (Automaton.build Spec.flaggedLast true .initial).1.mainSubmachine? =
      some ⟨"m", [.state "1", .state "2"], some (.state "1"), [.state "2"]⟩ := rfl
  refine ⟨by decide, hmain, rfl, fun h => ?_⟩
  rw [hmain] at h
  have hinitial := congrArg Submachine.initial (Option.some.inj h)
  exact absurd (Value.state.inj (Option.some.inj hinitial)) (by decide)

end AdaptiveAutomata
