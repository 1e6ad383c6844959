/-
  Which descriptions are accepted.

  A description is well formed if its parts are, and if what its transitions
  call is declared.  This is said here without the rules, in the words of a
  reader of descriptions.

  * `Spec.WellFormed` is the predicate, with one for each part beside it;
  * `checkHasTransitions_eq_none_iff` and the nine lemmas after it say what each
    rule asks for by itself.  Some pass over what an earlier rule reports;
  * `validate_iff_wellFormed`: together they ask for well-formedness and nothing
    else, and the list of all violations has the first violation of each broken
    rule, in the order of the rules.
-/
import AdaptiveAutomata.Proofs.Identifiers
import AdaptiveAutomata.Proofs.Validity
import Mathlib.Data.List.Pairwise

namespace AdaptiveAutomata

/-! ## Well-formed parts -/

/-- A state is called by the decimal text of a positive number below the
    greatest word. -/
def StateId.IsName (name : String) : Prop :=
  ∃ n : Nat, 1 ≤ n ∧ n ≤ 2 ^ 64 - 2 ∧ name = toString n

theorem StateId.isName_iff {name : String} :
    StateId.IsName name ↔ (StateId.parse? name).isNone = false := by
  rw [Option.isNone_eq_false_iff, Option.isSome_iff_exists]
  simp only [StateId.parse?_eq_some_iff]
  constructor
  · rintro ⟨n, hpos, hle, rfl⟩
    have hn : (UInt64.ofNat n).toNat = n := by
      rw [UInt64.toNat_ofNat', Nat.mod_eq_of_lt (by omega)]
    refine ⟨.ofNat n, fun h => ?_, fun h => ?_, ?_⟩
    · rw [h] at hn
      exact absurd hn (by simp; omega)
    · rw [h] at hn
      have : StateId.greatest.toNat = 2 ^ 64 - 1 := rfl
      omega
    · rw [StateId.text, hn, Nat.toString_eq_ofList_toDigits]
  · rintro ⟨id, h₀, hg, rfl⟩
    have hpos : id.toNat ≠ 0 := fun h => h₀ (UInt64.toNat_inj.1 h)
    have hne : id.toNat ≠ 2 ^ 64 - 1 := fun h => hg (UInt64.toNat_inj.1 h)
    have := id.toNat_lt
    exact ⟨id.toNat, by omega, by omega, by rw [StateId.text, Nat.toString_eq_ofList_toDigits]⟩

theorem Kind.isNone_parse?_iff {word : String} :
    (parse? word).isNone = false ↔ word = "add" ∨ word = "remove" ∨ word = "query" := by
  unfold parse?
  split_ifs with h₁ h₂ h₃ <;> simp [*]

namespace Spec

/-- A name that is there and not empty. -/
def IsProper (name : Option String) : Prop := ∃ n, name = some n ∧ n ≠ ""

/-- A flag that is missing or has its one value. -/
def IsFlag (value : Option String) : Prop := value = none ∨ value = some "true"

structure State.WellFormed (q : State) : Prop where
  name : IsProper q.name
  start : IsFlag q.start
  accepting : IsFlag q.accepting

structure Submachine.WellFormed (m : Submachine) : Prop where
  name : IsProper m.name
  main : IsFlag m.main
  states_ne_nil : m.states ≠ []
  states : ∀ q ∈ m.states, q.WellFormed
  start : m.states.countP (·.start.isSome) = 1
  accepting : ∃ q ∈ m.states, q.accepting.isSome

structure Step.WellFormed (e : Step) : Prop where
  source : IsProper e.source
  target : IsProper e.target
  kind : e.kind = some "add" ∨ e.kind = some "remove" ∨ e.kind = some "query"

structure Action.WellFormed (a : Action) : Prop where
  name : IsProper a.name
  freeVariables : ∀ v ∈ a.freeVariables, ∃ cs, v.toList = '?' :: cs
  generators : ∀ g ∈ a.generators, ∃ cs, g.toList = cs ++ ['*']
  steps_ne_nil : a.steps ≠ []
  steps : ∀ e ∈ a.steps, e.WellFormed

/-- A well-formed description. -/
structure WellFormed (s : Spec) : Prop where
  transitions_ne_nil : s.transitions ≠ []
  endpoints : ∀ t ∈ s.transitions, t.source.isSome ∧ t.target.isSome
  submachines_ne_nil : s.submachines ≠ []
  /-- All endpoints and all declared states are called by identifiers. -/
  identifiers : ∀ name ∈ s.transitions.flatMap (·.endpoints) ++ s.declaredStates,
    StateId.IsName name
  submachines : ∀ m ∈ s.submachines, m.WellFormed
  main : s.submachines.countP (·.main.isSome) ≤ 1
  consumption : ∀ t ∈ s.transitions, t.symbol = none ∨ t.call = none
  submachineCalls : ∀ t ∈ s.transitions, ∀ name ∈ t.call, ∃ m ∈ s.submachines, m.name = some name
  actionCalls : ∀ t ∈ s.transitions, ∀ c ∈ t.calls, ∃ name, c.name = some name ∧ name ≠ "" ∧
    s.Declares name
  actions : ∀ a ∈ s.actions, a.WellFormed

variable {s : Spec} {name : Option String}

/-! ## Names and flags -/

theorem isProper_iff : IsProper name ↔ (properName name).isNone = false := by
  rw [Option.isNone_eq_false_iff, Option.isSome_iff_exists]
  simp only [properName_eq_some_iff, IsProper]

theorem properName_eq_none_iff : properName name = none ↔ ¬ IsProper name := by
  rw [isProper_iff, Bool.not_eq_false, Option.isNone_iff_eq_none]

theorem filter_flag_eq_none_iff {value : Option String} :
    value.filter (· ≠ flag) = none ↔ IsFlag value := by
  cases value with
  | none => simp [IsFlag]
  | some v => by_cases h : v = "true" <;> simp [IsFlag, flag, h, Option.filter]

/-! ## Positions -/

/-- A search along positions fails if it fails for each item, whatever its
    position. -/
theorem findSome?_zipIdx_eq_none_iff {α β : Type} {f : α × Nat → Option β} {P : α → Prop}
    (h : ∀ x i, f (x, i) = none ↔ P x) (xs : List α) :
    xs.zipIdx.findSome? f = none ↔ ∀ x ∈ xs, P x := by
  rw [List.findSome?_eq_none_iff]
  constructor
  · intro hn x hx
    obtain ⟨i, hi⟩ := exists_mem_zipIdx hx
    exact (h x i).1 (hn _ hi)
  · rintro hp ⟨x, i⟩ hi
    exact (h x i).2 (hp x (List.fst_mem_of_mem_zipIdx hi))

/-- At most one item has a property if none has it after one that has. -/
theorem countP_le_one_iff {α : Type} {p : α → Bool} {xs : List α} :
    xs.countP p ≤ 1 ↔ ∀ x i, (x, i) ∈ xs.zipIdx → (p x && (xs.take i).any p) = false := by
  induction xs using List.reverseRecOn with
  | nil => simp
  | append_singleton xs x ih =>
    have hbefore : (∀ y i, (y, i) ∈ xs.zipIdx → (p y && ((xs ++ [x]).take i).any p) = false) ↔
        xs.countP p ≤ 1 := by
      rw [ih]
      refine forall₂_congr fun y i => forall_congr' fun hi => ?_
      have hlt : i < xs.length := by simpa using List.snd_lt_of_mem_zipIdx hi
      rw [List.take_append_of_le_length hlt.le]
    have hlast : (p x && xs.any p) = false ↔ (p x = true → xs.countP p = 0) := by
      simp [List.countP_eq_zero]
    simp only [List.zipIdx_append, List.mem_append, or_imp, forall_and, hbefore]
    simp only [List.zipIdx_singleton, List.mem_singleton, Prod.mk.injEq, and_imp,
      forall_eq_apply_imp_iff, forall_eq, Nat.zero_add, List.take_left, hlast, List.countP_append,
      List.countP_singleton]
    by_cases hx : p x = true
    · simp only [hx, if_true, forall_const]
      omega
    · simp [hx]

/-! ## Rule by rule -/

theorem checkHasTransitions_eq_none_iff : s.checkHasTransitions = none ↔ s.transitions ≠ [] := by
  rw [checkHasTransitions, reportIf_eq_none_iff, List.isEmpty_eq_false_iff]

theorem checkHasEndpoints_eq_none_iff :
    s.checkHasEndpoints = none ↔ ∀ t ∈ s.transitions, t.source.isSome ∧ t.target.isSome := by
  simp [checkHasEndpoints, List.findIdx?_eq_none_iff, Option.isSome_iff_ne_none]

theorem checkHasSubmachines_eq_none_iff : s.checkHasSubmachines = none ↔ s.submachines ≠ [] := by
  rw [checkHasSubmachines, reportIf_eq_none_iff, List.isEmpty_eq_false_iff]

theorem checkIntegerStates_eq_none_iff :
    s.checkIntegerStates = none ↔ ∀ name ∈ s.stateMentions, StateId.IsName name := by
  rw [checkIntegerStates, Option.map_eq_none_iff, List.find?_eq_none]
  refine forall₂_congr fun name _ => ?_
  rw [StateId.isName_iff, Bool.not_eq_true]

theorem State.violation?_eq_none_iff {m : String} {q : State} :
    q.violation? m = none ↔ q.WellFormed := by
  rw [State.violation?]
  split
  · next h => exact iff_of_false (by simp) fun hq => properName_eq_none_iff.1 h hq.name
  · next name h =>
    have hp : IsProper q.name := ⟨name, properName_eq_some_iff.1 h⟩
    split
    · next value ha =>
      refine iff_of_false (by simp) fun hq => ?_
      rw [filter_flag_eq_none_iff.2 hq.accepting] at ha
      exact absurd ha (by simp)
    · next value hs =>
      refine iff_of_false (by simp) fun hq => ?_
      rw [filter_flag_eq_none_iff.2 hq.start] at hs
      exact absurd hs (by simp)
    · next ha hs =>
      exact iff_of_true rfl ⟨hp, filter_flag_eq_none_iff.1 hs, filter_flag_eq_none_iff.1 ha⟩

theorem Submachine.flagViolation?_eq_none_iff {n : String} {m : Submachine} :
    m.flagViolation? n = none ↔
      m.states.countP (·.start.isSome) = 1 ∧ ∃ q ∈ m.states, q.accepting.isSome := by
  have hstart : m.startStates.length = m.states.countP (·.start.isSome) := by
    rw [startStates, List.countP_eq_length_filter]
  have haccept : m.acceptingStates.isEmpty = false ↔ ∃ q ∈ m.states, q.accepting.isSome := by
    simp [acceptingStates, Option.isSome_iff_ne_none]
  rw [flagViolation?, hstart]
  split
  · next h => simp [h]
  · next h => rw [reportIf_eq_none_iff, haccept, h, and_iff_right rfl]
  · next n _ h => exact iff_of_false (by simp) fun h' => h h'.1

theorem Submachine.violation?_eq_none_iff {i : Nat} {seen : Bool} {m : Submachine} :
    m.violation? i seen = none ↔ m.WellFormed ∧ (m.isMain && seen) = false := by
  rw [violation?]
  split
  · next h => exact iff_of_false (by simp) fun hm => properName_eq_none_iff.1 h hm.1.name
  · next name h =>
    have hp : IsProper m.name := ⟨name, properName_eq_some_iff.1 h⟩
    simp only [Option.orElse_eq_orElse, Option.orElse_eq_or, Option.or_eq_none_iff,
      reportIf_eq_none_iff, Option.map_eq_none_iff, List.findSome?_eq_none_iff,
      State.violation?_eq_none_iff, flagViolation?_eq_none_iff, List.isEmpty_eq_false_iff,
      filter_flag_eq_none_iff]
    constructor
    · rintro ⟨hne, hmain, hseen, hstates, hstart, hacc⟩
      exact ⟨⟨hp, hmain, hne, hstates, hstart, hacc⟩, hseen⟩
    · rintro ⟨hm, hseen⟩
      exact ⟨hm.states_ne_nil, hm.main, hseen, hm.states, hm.start, hm.accepting⟩

theorem checkValidSubmachines_eq_none_iff :
    s.checkValidSubmachines = none ↔
      (∀ m ∈ s.submachines, m.WellFormed) ∧ s.submachines.countP (·.main.isSome) ≤ 1 := by
  rw [checkValidSubmachines, List.findSome?_eq_none_iff, Prod.forall, countP_le_one_iff]
  simp only [Submachine.violation?_eq_none_iff, imp_and, forall_and]
  refine and_congr_left' ⟨fun h m hm => ?_, fun h m i hi => h m (List.fst_mem_of_mem_zipIdx hi)⟩
  obtain ⟨i, hi⟩ := exists_mem_zipIdx hm
  exact h m i hi

theorem checkSymbolCallExclusive_eq_none_iff :
    s.checkSymbolCallExclusive = none ↔ ∀ t ∈ s.transitions, t.symbol = none ∨ t.call = none := by
  refine findSome?_zipIdx_eq_none_iff (fun t i => ?_) _
  simp [reportIf_eq_none_iff, Decidable.imp_iff_not_or]

theorem checkSubmachineCalls_eq_none_iff :
    s.checkSubmachineCalls = none ↔
      ∀ t ∈ s.transitions, ∀ name ∈ t.call, ∃ m ∈ s.submachines, m.name = some name := by
  rw [checkSubmachineCalls, reportIf_eq_none_iff, Bool.not_eq_false', List.isEmpty_iff,
    List.eq_nil_iff_forall_not_mem]
  simp only [undefinedSubmachines, NameSet.mem_ofList, List.mem_filter, List.mem_filterMap,
    Bool.not_eq_true', not_and, Bool.not_eq_false, List.contains_iff_mem, Option.mem_def]
  constructor
  · exact fun h t ht name hc => h name ⟨t, ht, hc⟩
  · rintro h name ⟨t, ht, hc⟩
    exact h t ht name hc

theorem checkActionCallNames_eq_none_iff :
    s.checkActionCallNames = none ↔ ∀ t ∈ s.transitions, ∀ c ∈ t.calls, IsProper c.name := by
  refine findSome?_zipIdx_eq_none_iff (fun t i => ?_) _
  simp only [Option.orElse_eq_orElse, Option.orElse_eq_or, Option.or_eq_none_iff,
    Option.bind_eq_none_iff, reportIf_eq_none_iff, ← isProper_iff, Transition.calls,
    List.mem_append, Option.mem_toList, or_imp, forall_and]

theorem Step.violation?_eq_none_iff {a : String} {i : Nat} {e : Step} :
    e.violation? a i = none ↔ e.WellFormed := by
  have hends : ((properName e.source).isNone || (properName e.target).isNone) = false ↔
      IsProper e.source ∧ IsProper e.target := by
    rw [Bool.or_eq_false_iff, isProper_iff, isProper_iff]
  rw [violation?]
  split
  · next h =>
    refine iff_of_false (by simp) fun he => ?_
    rw [hends.2 ⟨he.source, he.target⟩] at h
    exact absurd h (by simp)
  · next h =>
    obtain ⟨hs, ht⟩ := hends.1 (Bool.not_eq_true _ ▸ h)
    cases hk : e.kind with
    | none => exact iff_of_false (by simp) fun he => by simpa [hk] using he.kind
    | some word =>
      rw [reportIf_eq_none_iff, Kind.isNone_parse?_iff]
      exact ⟨fun h => ⟨hs, ht, by simpa [hk] using h⟩, fun he => by simpa [hk] using he.kind⟩

theorem Action.violation?_eq_none_iff {i : Nat} {a : Action} :
    a.violation? i = none ↔ a.WellFormed := by
  have hfirst (v : String) : v.toList.head? = some variableSign ↔ ∃ cs, v.toList = '?' :: cs :=
    List.head?_eq_some_iff
  have hlast (g : String) :
      g.toList.getLast? = some generatorSign ↔ ∃ cs, g.toList = cs ++ ['*'] :=
    List.getLast?_eq_some_iff
  have hsteps (name : String) :
      (a.steps.zipIdx.findSome? fun x => x.1.violation? name x.2) = none ↔
        ∀ e ∈ a.steps, e.WellFormed :=
    findSome?_zipIdx_eq_none_iff (fun _ _ => Step.violation?_eq_none_iff) _
  rw [violation?]
  split
  · next h => exact iff_of_false (by simp) fun ha => properName_eq_none_iff.1 h ha.name
  · next name h =>
    have hp : IsProper a.name := ⟨name, properName_eq_some_iff.1 h⟩
    simp only [Option.orElse_eq_orElse, Option.orElse_eq_or, Option.or_eq_none_iff,
      Option.map_eq_none_iff, List.find?_eq_none, decide_eq_true_eq, not_not, hfirst, hlast,
      reportIf_eq_none_iff, List.isEmpty_eq_false_iff, hsteps]
    constructor
    · rintro ⟨hv, hg, hne, hs⟩
      exact ⟨hp, hv, hg, hne, hs⟩
    · exact fun ha => ⟨ha.freeVariables, ha.generators, ha.steps_ne_nil, ha.steps⟩

theorem checkAdaptiveActions_eq_none_iff :
    s.checkAdaptiveActions = none ↔ ∀ a ∈ s.actions, a.WellFormed :=
  findSome?_zipIdx_eq_none_iff (fun _ _ => Action.violation?_eq_none_iff) _

theorem checkActionCallsDefined_eq_none_iff :
    s.checkActionCallsDefined = none ↔
      ∀ t ∈ s.transitions, ∀ c ∈ t.calls, ∀ name, c.name = some name → name ≠ "" →
        s.Declares name := by
  rw [checkActionCallsDefined, Option.map_eq_none_iff, List.find?_eq_none]
  simp only [referencedActions, NameSet.mem_ofList, List.mem_filterMap, List.mem_flatMap,
    properName_eq_some_iff, Bool.not_eq_true, Bool.not_eq_false', List.contains_iff_mem]
  constructor
  · intro h t ht c hc name hname hne
    obtain ⟨a, ha, hn, -⟩ := h name ⟨c, ⟨t, ht, hc⟩, hname, hne⟩
    exact ⟨a, ha, hn⟩
  · rintro h name ⟨c, ⟨t, ht, hc⟩, hname, hne⟩
    obtain ⟨a, ha, hn⟩ := h t ht c hc name hname hne
    exact ⟨a, ha, hn, hne⟩

end Spec

/-! ## Reports -/

/-- The rule that a violation breaks, by name. -/
def Violation.rule : Violation → String
  | noTransitions => "has_transitions"
  | missingEndpoints _ => "has_endpoints"
  | noSubmachines => "has_submachines"
  | nonIntegerState _ => "integer_states"
  | anonymousSubmachine _ | emptySubmachine _ | invalidMainFlag .. | multipleMainSubmachines _
  | anonymousState _ | invalidAcceptingFlag .. | invalidStartFlag .. | missingStartState _
  | multipleStartStates .. | missingAcceptingState _ => "valid_submachines"
  | symbolAndCall .. => "symbol_call_exclusive"
  | undefinedSubmachines _ => "submachine_calls"
  | anonymousActionCall .. => "action_call_names"
  | anonymousAction _ | invalidVariableName .. | invalidGeneratorName .. | emptyAction _
  | missingElementaryEndpoints .. | missingElementaryKind .. | invalidElementaryKind .. =>
    "adaptive_actions"
  | undefinedAction _ => "action_calls_defined"

namespace Spec

variable {s : Spec} {v : Violation} {r : String}

/-- What is reported, if anything, breaks the rule of the given name. -/
def Reports (r : String) (report : Option Violation) : Prop := ∀ v ∈ report, v.rule = r

namespace Reports

theorem none : Reports r none := fun _ h => absurd h (by simp)

theorem some (h : v.rule = r) : Reports r (some v) := fun w hw => by
  obtain rfl := Option.some.inj hw
  exact h

theorem reportIf {condition : Bool} (h : v.rule = r) : Reports r (reportIf condition v) := by
  cases condition
  · exact none
  · exact some h

theorem or {a b : Option Violation} (ha : Reports r a) (hb : Reports r b) :
    Reports r (a <|> b) := by
  intro v hv
  rw [Option.orElse_eq_orElse, Option.orElse_eq_or, Option.mem_def, Option.or_eq_some_iff] at hv
  rcases hv with hv | ⟨-, hv⟩
  · exact ha v hv
  · exact hb v hv

theorem map {α : Type} {f : α → Violation} {o : Option α} (h : ∀ a, (f a).rule = r) :
    Reports r (o.map f) := by
  intro v hv
  obtain ⟨a, -, rfl⟩ := Option.map_eq_some_iff.1 hv
  exact h a

theorem findSome? {α : Type} {f : α → Option Violation} {xs : List α}
    (h : ∀ a, Reports r (f a)) : Reports r (xs.findSome? f) := by
  intro v hv
  obtain ⟨a, -, ha⟩ := List.exists_of_findSome?_eq_some hv
  exact h a v ha

theorem stateViolation (m : String) (q : State) : Reports "valid_submachines" (q.violation? m) := by
  rw [State.violation?]
  split
  · exact some rfl
  · split <;> first | exact some rfl | exact none

theorem submachineViolation (i : Nat) (seen : Bool) (m : Submachine) :
    Reports "valid_submachines" (m.violation? i seen) := by
  rw [Submachine.violation?]
  split
  · exact some rfl
  · next name _ =>
    refine or (reportIf rfl) (or (map fun _ => rfl) (or (reportIf rfl) (or ?_ ?_)))
    · exact findSome? (stateViolation name)
    · rw [Submachine.flagViolation?]
      split
      · exact some rfl
      · exact reportIf rfl
      · exact some rfl

theorem stepViolation (a : String) (i : Nat) (e : Step) :
    Reports "adaptive_actions" (e.violation? a i) := by
  rw [Step.violation?]
  split
  · exact some rfl
  · split
    · exact some rfl
    · exact reportIf rfl

theorem actionViolation (i : Nat) (a : Action) : Reports "adaptive_actions" (a.violation? i) := by
  rw [Action.violation?]
  split
  · exact some rfl
  · next name _ =>
    refine or (map fun _ => rfl) (or (map fun _ => rfl) (or (reportIf rfl) ?_))
    exact findSome? fun x => stepViolation name x.2 x.1

theorem actionCallNames (s : Spec) : Reports "action_call_names" s.checkActionCallNames := by
  refine findSome? fun x => ?_
  have hcall (position : Position) (call : Option Call) :
      Reports "action_call_names" (call.bind fun c =>
        Spec.reportIf (properName c.name).isNone (.anonymousActionCall x.2 position)) := by
    cases call with
    | none => exact none
    | some c => exact reportIf rfl
  exact or (hcall .prior _) (hcall .posterior _)

end Reports

/-- Every rule reports violations of itself only. -/
theorem reports_of_mem_checks {rule : String × (Spec → Option Violation)} (h : rule ∈ checks)
    (s : Spec) : Reports rule.1 (rule.2 s) := by
  simp only [checks, List.mem_cons, List.not_mem_nil, or_false] at h
  rcases h with rfl | rfl | rfl | rfl | rfl | rfl | rfl | rfl | rfl | rfl
  · exact .reportIf rfl
  · exact .map fun _ => rfl
  · exact .reportIf rfl
  · exact .map fun _ => rfl
  · exact .findSome? fun x => .submachineViolation x.2 _ x.1
  · exact .findSome? fun _ => .reportIf rfl
  · exact .reportIf rfl
  · exact .actionCallNames s
  · exact .findSome? fun x => .actionViolation x.2 x.1
  · exact .map fun _ => rfl

/-! ## All rules -/

theorem wellFormed_iff : (∀ rule ∈ checks, rule.2 s = none) ↔ s.WellFormed := by
  simp only [checks, List.forall_mem_cons, List.not_mem_nil, false_imp_iff, implies_true, and_true,
    checkHasTransitions_eq_none_iff, checkHasEndpoints_eq_none_iff,
    checkHasSubmachines_eq_none_iff, checkIntegerStates_eq_none_iff,
    checkValidSubmachines_eq_none_iff, checkSymbolCallExclusive_eq_none_iff,
    checkSubmachineCalls_eq_none_iff, checkActionCallNames_eq_none_iff,
    checkAdaptiveActions_eq_none_iff, checkActionCallsDefined_eq_none_iff]
  constructor
  · rintro ⟨ht, he, hm, hi, ⟨hs, hmain⟩, hx, hc, hn, ha, hd⟩
    refine ⟨ht, he, hm, fun name hname => hi name ?_, hs, hmain, hx, hc, fun t ht c hc => ?_, ha⟩
    · -- the rule on identifiers passes over empty names, which the rule on submachines reports
      refine List.mem_append.2 ((List.mem_append.1 hname).imp_right fun hname => ?_)
      obtain ⟨m, hm, hq⟩ := List.mem_flatMap.1 hname
      obtain ⟨q, hq, hqn⟩ := List.mem_filterMap.1 hq
      obtain ⟨n, hn, hne⟩ := ((hs m hm).states q hq).name
      obtain rfl : n = name := Option.some.inj (hn.symm.trans hqn)
      exact List.mem_filter.2 ⟨hname, by simpa using hne⟩
    · obtain ⟨name, hname, hne⟩ := hn t ht c hc
      exact ⟨name, hname, hne, hd t ht c hc name hname hne⟩
  · intro h
    refine ⟨h.transitions_ne_nil, h.endpoints, h.submachines_ne_nil, fun name hname => ?_,
      ⟨h.submachines, h.main⟩, h.consumption, h.submachineCalls, fun t ht c hc => ?_, h.actions,
      fun t ht c hc name hname _ => ?_⟩
    · refine h.identifiers name (List.mem_append.2 ((List.mem_append.1 hname).imp_right ?_))
      exact fun hname => (List.mem_filter.1 hname).1
    · obtain ⟨name, hname, hne, -⟩ := h.actionCalls t ht c hc
      exact ⟨name, hname, hne⟩
    · obtain ⟨n, hn, -, hd⟩ := h.actionCalls t ht c hc
      obtain rfl : n = name := Option.some.inj (hn.symm.trans hname)
      exact hd

theorem validate_eq_error_iff : s.validate = .error v ↔ s.diagnose.head? = some v := by
  rw [validate, diagnose, List.head?_filterMap]
  cases checks.findSome? fun rule => rule.2 s <;> simp

/-- Rules that report violations of themselves report them in their order, each at
    most one. -/
theorem map_rule_filterMap_sublist {rules : List (String × (Spec → Option Violation))}
    (h : ∀ rule ∈ rules, Reports rule.1 (rule.2 s)) :
    ((rules.filterMap fun rule => rule.2 s).map Violation.rule).Sublist (rules.map (·.1)) := by
  induction rules with
  | nil => exact .slnil
  | cons rule rules ih =>
    have ih := ih fun r hr => h r (List.mem_cons_of_mem rule hr)
    cases hv : rule.2 s with
    | none =>
      rw [List.filterMap_cons, hv]
      exact ih.cons _
    | some v =>
      rw [List.filterMap_cons, hv, List.map_cons, List.map_cons, h rule List.mem_cons_self v hv]
      exact ih.cons_cons _

/-- **The rules ask for well-formedness**, and for nothing else.  The list of all
    violations is empty exactly for a well-formed description.  It starts with the
    violation for which the description is refused, and it holds the violation that
    each broken rule reports, one for each, in the order of the rules. -/
theorem validate_iff_wellFormed (s : Spec) :
    (s.validate = .ok () ↔ s.WellFormed) ∧ (s.diagnose = [] ↔ s.WellFormed) ∧
    (∀ v, s.validate = .error v ↔ s.diagnose.head? = some v) ∧
    (∀ v, v ∈ s.diagnose ↔ ∃ check, (v.rule, check) ∈ checks ∧ check s = some v) ∧
    (s.diagnose.map Violation.rule).Sublist (checks.map (·.1)) := by
  refine ⟨validate_eq_ok_iff.trans wellFormed_iff, ?_, fun v => validate_eq_error_iff,
    fun v => ?_, ?_⟩
  · rw [← wellFormed_iff, diagnose, List.filterMap_eq_nil_iff]
  · rw [diagnose, List.mem_filterMap]
    constructor
    · rintro ⟨⟨name, check⟩, hr, hv⟩
      obtain rfl : v.rule = name := reports_of_mem_checks hr s v hv
      exact ⟨check, hr, hv⟩
    · rintro ⟨check, hr, hv⟩
      exact ⟨_, hr, hv⟩
  · exact map_rule_filterMap_sublist fun rule hr => reports_of_mem_checks hr s

end Spec

end AdaptiveAutomata
