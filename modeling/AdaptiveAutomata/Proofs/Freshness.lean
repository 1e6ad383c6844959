/-
  Minted states against the states in the table.

  Minting starts past the declared states and never goes back.  A state that is
  not declared can come into the table in two ways: it was minted, or its name
  was written in an action or in a call and has become a state.

  * `Spec.written` lists the words that can become states without being declared;
  * `Spec.Passed` says that a name is written, or is no name of an identifier that
    is still to be minted; `Automaton.Passed` that all names in the table are so;
  * `passed_run` and `passed_of_reached`: this holds in the course of every run;
  * `mints_fresh`: a minted identifier is no declared state, and it is no state in
    the table at that time exactly if no written state in the table has its name;
  * `minted_of_literal`: one may have.
-/
import AdaptiveAutomata.Proofs.Moves
import AdaptiveAutomata.Proofs.Names
import AdaptiveAutomata.Proofs.Tables
import AdaptiveAutomata.Spec.Check

namespace AdaptiveAutomata

namespace Spec

/-- The words of a description that are not the names of declared states: what
    transitions consume and call, and all words of elementary actions. -/
def written (s : Spec) : List String :=
  s.transitions.flatMap (·.words) ++ s.actions.flatMap fun a => a.steps.flatMap (·.words)

/-- The name is written, or no identifier has it that is still to be minted. -/
def Passed (s : Spec) (next : StateId) (name : String) : Prop :=
  ∀ id : StateId, id.text = name → name ∈ s.written ∨ id < next ∨ id = StateId.greatest

/-- The arguments name no states but declared ones. -/
def Admits (s : Spec) (w : World) (arguments : List Value) : Prop :=
  ∀ v ∈ arguments, w.store.Only
    (Value.Named fun name => (∃ id : StateId, id.text = name) → name ∈ s.stateNames) v

variable {s : Spec} {next next' : StateId} {name : String}

theorem concernsIdentifiers_passed (s : Spec) (next : StateId) :
    ConcernsIdentifiers (s.Passed next) :=
  fun _ h id hid => absurd hid (h id)

theorem Passed.mono (h : s.Passed next name) (hle : next ≤ next') : s.Passed next' name := by
  intro id hid
  rcases h id hid with h | h | h
  · exact .inl h
  · exact .inr (.inl (Std.lt_of_lt_of_le h hle))
  · exact .inr (.inr h)

theorem passed_of_mem_written (h : name ∈ s.written) (next : StateId) : s.Passed next name :=
  fun _ _ => .inl h

theorem passed_of_mem_stateNames (h : name ∈ s.stateNames) (hle : s.seed ≤ next) :
    s.Passed next name := by
  rintro id rfl
  by_cases hg : id = StateId.greatest
  · exact .inr (.inr hg)
  · refine .inr (.inl (Std.lt_of_lt_of_le ?_ hle))
    by_cases h₀ : id = 0
    · exact h₀ ▸ s.seed_pos
    · exact lt_seed h (StateId.parse?_text h₀ hg)

theorem passed_of_mem_mints {c : Counter} {n : Nat} {id : StateId} (h : id ∈ (c.mints n).1) :
    s.Passed (c.mints n).2.next id.text := by
  intro i hi
  obtain rfl := StateId.text_injective hi
  exact .inr (Counter.mem_mints h).2.symm

end Spec

variable {spec : Spec} {recording : Bool} {w₀ w : World} {a : Automaton}

/-- The counter has not fallen back behind the seed, and the names in the table
    are passed. -/
structure Automaton.Passed (spec : Spec) (a : Automaton) (w : World) : Prop where
  seed_le : spec.seed ≤ (a.counter w).next
  table : a.table.Forall (w.store.Only (Value.Named (spec.Passed (a.counter w).next)))

theorem passed_build (spec : Spec) (recording : Bool) (w : World) :
    (Automaton.build spec recording w).1.Passed spec (Automaton.build spec recording w).2 := by
  have hend {t : Spec.Transition} (ht : t ∈ spec.transitions) {name : Option String}
      (hn : ∀ n, name = some n → n ∈ t.endpoints) : spec.Passed spec.seed (name.getD "") := by
    cases name with
    | none => exact fun id hid => absurd hid id.text_ne_empty
    | some n =>
      refine Spec.passed_of_mem_stateNames ?_ (UInt64.le_refl _)
      rw [Spec.stateNames, NameSet.mem_ofList, List.mem_append, List.mem_flatMap]
      exact .inl ⟨t, ht, hn n rfl⟩
  constructor
  · rw [Automaton.counter_build]
    exact UInt64.le_refl _
  · rw [Automaton.counter_build]
    intro x hx
    obtain ⟨e, he, rfl⟩ := Table.mem_ofEntries hx
    obtain ⟨t, ht, rfl⟩ := List.mem_map.1 he
    refine Entry.forall_resolve.2 fun u hu => ?_
    refine Store.Only.resolve (Entry.forall_ofSpec (t := t) only_named_epsilon ?_ ?_ ?_ u hu)
    · exact only_named_of_name rfl rfl
        (hend ht fun n hn => by simp [Spec.Transition.endpoints, hn])
    · exact only_named_of_name rfl rfl
        (hend ht fun n hn => by simp [Spec.Transition.endpoints, hn])
    · intro name hn
      have hp : spec.Passed spec.seed name := by
        refine Spec.passed_of_mem_written ?_ _
        rw [Spec.written, List.mem_append, List.mem_flatMap]
        exact .inl ⟨t, ht, hn⟩
      exact ⟨only_named_of_name rfl rfl hp, only_named_of_name rfl rfl hp,
        Store.only_call.2 (only_named_of_name rfl rfl hp)⟩

/-- The arguments of a step lead to passed names only. -/
theorem passed_of_given {arguments : List Value} (h : a.Passed spec w)
    (hargs : a.Given spec.Admits w arguments) :
    ∀ v ∈ arguments, w.store.Only (Value.Named (spec.Passed (a.counter w).next)) v := by
  intro v hv
  rcases hargs with hargs | ⟨e, he, q, hq, rfl⟩
  · refine (hargs v hv).mono fun u hu n hn id hid => ?_
    exact Spec.passed_of_mem_stateNames (hu n hn ⟨id, hid⟩) h.seed_le id hid
  · obtain ⟨u, hu, rfl⟩ := List.mem_map.1 hv
    have hm : u ∈ e.components :=
      Entry.mem_components_of_mem_calls hq (List.mem_cons_of_mem _ hu)
    exact (h.table e he u hm).resolve

/-- **An action** leaves only passed names in the table. -/
theorem passed_run {action : Spec.Action} {arguments : List Value} (h : a.Passed spec w)
    (hg : a.generator < w.counters.size) (ha : action ∈ spec.actions)
    (hargs : a.Given spec.Admits w arguments) :
    (a.run (.ofSpec action) arguments w).1.Passed spec (a.run (.ofSpec action) arguments w).2 := by
  have hle := (a.counter w).next_le_mints (Action.ofSpec action).generators.length
  refine ⟨by rw [Automaton.counter_run hg]; exact UInt64.le_trans h.seed_le hle, ?_⟩
  rw [Automaton.counter_run hg]
  generalize hnext : ((a.counter w).mints (Action.ofSpec action).generators.length).2.next = next
    at hle
  -- what was passed before the run is passed after it, and new cells change nothing
  have hold {v : Value} (hv : w.store.Only (Value.Named (spec.Passed (a.counter w).next)) v) :
      (w.store.freshCells (Action.ofSpec action).freeVariables.length).2.Only
        (Value.Named (spec.Passed next)) v :=
    (hv.mono fun u hu n hn => (hu n hn).mono hle).of_binding? (Store.binding?_freshCells _ _)
  have hr := Store.bindingRule_only (Value.Named (spec.Passed next))
  refine (hr.runSteps ⟨a.table, _⟩ (fun e he v hv => hold (h.table e he v hv)) ?_).2
  rintro t hst ⟨kind, e⟩ hx -
  have he := (Action.mem_steps_ofSpec.1 hx).1
  refine Environment.forall_resolveStep only_named_epsilon fun site name hn => ?_
  refine Environment.only_resolve (spec.concernsIdentifiers_passed next) ?_ (fun b hb => ?_) site
  · refine Spec.passed_of_mem_written ?_ _
    rw [Spec.written, List.mem_append, List.mem_flatMap]
    exact .inr (List.mem_flatMap.2 ⟨action, ha, List.mem_flatMap.2 ⟨e, he, hn⟩⟩)
  · rcases Environment.lookup_bind hb with ⟨-, c, hc, rfl⟩ | ⟨-, id, hid, rfl⟩ | ⟨-, v, hv, rfl⟩
    · refine hst _ (Store.only_of_unbound ?_ fun n hn => absurd hn (by simp [Value.name?]))
      exact (Store.binding?_freshCells _ _ c).trans (Store.binding?_of_mem_freshCells hc)
    · exact hnext ▸ Spec.passed_of_mem_mints hid
    · exact hst _ (hold (passed_of_given h hargs v hv))

theorem passed_of_reached (h : Automaton.Reached spec.Admits spec recording w₀ (a, w)) :
    a.Passed spec w := by
  refine (h.induction (P := fun a w => a.Passed spec w) (passed_build spec recording w₀) ?_).1
  exact fun a w b hb arguments hp hg hargs => passed_run hp hg hb hargs

/-- **Minted states**: what is minted in the course of a run, if it is not the
    greatest word, is no declared state.  It is no state in the table exactly if no
    written word has its name that is a state in the table; so it is none if the
    written words that are identifiers are below the seed. -/
theorem mints_fresh (h : Automaton.Reached spec.Admits spec recording w₀ (a, w)) (n : Nat) :
    (∀ id ∈ ((a.counter w).mints n).1, id ≠ StateId.greatest → id.text ∉ spec.stateNames) ∧
    ((∀ id ∈ ((a.counter w).mints n).1, id ≠ StateId.greatest →
        ¬ a.table.Holds w.store (.state id.text)) ↔
      ∀ name ∈ spec.written, a.table.Holds w.store (.state name) →
        ∀ id ∈ ((a.counter w).mints n).1, id ≠ StateId.greatest → id.text ≠ name) ∧
    ((∀ i ∈ spec.written.filterMap StateId.parse?, i < spec.seed) →
      ∀ id ∈ ((a.counter w).mints n).1, id ≠ StateId.greatest →
        ¬ a.table.Holds w.store (.state id.text)) := by
  obtain ⟨hseed, htable⟩ := passed_of_reached h
  have hge {id : StateId} (hid : id ∈ ((a.counter w).mints n).1) : spec.seed ≤ id :=
    UInt64.le_trans hseed (Counter.mem_mints hid).1
  have hparse {id : StateId} (hid : id ∈ ((a.counter w).mints n).1)
      (hne : id ≠ StateId.greatest) : StateId.parse? id.text = some id := by
    refine StateId.parse?_text ?_ hne
    rintro rfl
    exact absurd spec.seed_pos (UInt64.not_lt.2 (hge hid))
  -- a state in the table with the name of a minted identifier can only be written
  have hwritten {id : StateId} (hid : id ∈ ((a.counter w).mints n).1)
      (hne : id ≠ StateId.greatest) (hr : a.table.Holds w.store (.state id.text)) :
      id.text ∈ spec.written := by
    obtain ⟨e, he, v, hv, hr⟩ := hr
    rcases htable e he v hv _ hr id.text rfl id rfl with h | h | h
    · exact h
    · exact absurd h (UInt64.not_lt.2 (Counter.mem_mints hid).1)
    · exact absurd h hne
  refine ⟨fun id hid hne hm => ?_, ⟨fun hf name _ hr id hid hne heq => ?_,
    fun hw id hid hne hr => ?_⟩, fun hw id hid hne hr => ?_⟩
  · exact absurd (Spec.lt_seed hm (hparse hid hne)) (UInt64.not_lt.2 (hge hid))
  · exact hf id hid hne (heq ▸ hr)
  · exact hw _ (hwritten hid hne hr) hr id hid hne rfl
  · have hi := List.mem_filterMap.2 ⟨_, hwritten hid hne hr, hparse hid hne⟩
    exact absurd (hw id hi) (UInt64.not_lt.2 (hge hid))

/-! ## Written states -/

/-- An action that adds a transition to a written state and one to a new state. -/
def Spec.growAction (target : String) : Spec.Action :=
  (Action.named "grow").withGenerator "g*"
    |>.withStep ((Step.of .add "1" target).consuming "a")
    |>.withStep ((Step.of .add "1" "g*").consuming "b")

/-- A transition that runs it. -/
def Spec.growing (target : String) : Spec where
  transitions := [(Transition.between "1" "2").after (.to "grow" [])]
  submachines := [(Submachine.named "m").withState (State.named "1").starting
    |>.withState (State.named "2").acceptingAt]
  actions := [growAction target]

/-- What it is after the action was run once. -/
def Spec.grown (target : String) : Automaton × World :=
  let x := Automaton.build (growing target) false .initial
  x.1.run (.ofSpec (growAction target)) [] x.2

theorem reached_grown (target : String) :
    Automaton.Reached (Spec.growing target).Admits (Spec.growing target) false .initial
      (Spec.grown target) := by
  refine .single (.posterior (e := ⟨none, .state "1", .epsilon, .state "2",
    some ⟨.literal "grow", []⟩⟩) ?_ (show _ = Except.ok (true, Spec.grown target) from ?_))
  · exact List.mem_singleton_self _
  · rfl

/-- If a declared state is written, what is minted next is no state in the table. -/
theorem mints_fresh_declared :
    ¬ (Spec.grown "1").1.table.Holds (Spec.grown "1").2.store (.state (StateId.text 4)) := by
  have hw : (Spec.growing "1").written.filterMap StateId.parse? = [1, 1, 1] := by decide
  have hs : (Spec.growing "1").seed = 3 := by decide
  refine (mints_fresh (reached_grown "1") 1).2.2 (fun i hi => ?_) 4 (by decide) (by decide)
  rw [hw] at hi
  obtain rfl : i = 1 := by simpa using hi
  rw [hs]
  decide

/-- If the state `4` is written, what is minted next is the state `4` in the table. -/
theorem minted_of_literal : (Spec.growing "4").validate = .ok () ∧
    ∃ a w, Automaton.Reached (Spec.growing "4").Admits (Spec.growing "4") false .initial (a, w) ∧
      ∃ id ∈ ((a.counter w).mints 1).1, id ≠ StateId.greatest ∧
        ∃ e ∈ a.table.entries, e.target = .state id.text :=
  ⟨by decide, (Spec.grown "4").1, (Spec.grown "4").2, reached_grown "4", 4, by decide, by decide,
    .plain (.state "1") (.symbol "a") (.state "4"), .tail _ (.head _), rfl⟩

end AdaptiveAutomata
