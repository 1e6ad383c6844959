/-
  Which violation is reported.

  A description with several faults is refused for one of them: the first fault of the
  first broken rule.  What the first fault is, rule by rule and part by part, is said here
  as a relation between descriptions and violations, without the searches that find it.

  * `ComesTo` says that a list comes to an item after items with a property;
  * `State.FirstFault`, `Submachine.FirstFault`, `Step.FirstFault` and
    `Action.FirstFault` are the relations for the parts of a description,
    `Spec.FirstFault` is that for the whole: each rule has its place and a constructor or
    two;
  * `checkHasEndpoints_eq_some_iff` and the nine lemmas with it say what each rule reports;
  * `mem_diagnose_iff_firstFault`: the list of all violations has the first fault of every
    broken rule;
  * `validate_eq_error_iff_firstFault`: a description is refused for a first fault of which
    all rules before are kept.
-/
import AdaptiveAutomata.Proofs.WellFormed
import Mathlib.Data.List.Sort

namespace AdaptiveAutomata

/-! ## First items -/

/-- A list comes to an item after items with a property. -/
structure ComesTo {α : Type} (P : α → Prop) (xs earlier : List α) (x : α) : Prop where
  eq_append : ∃ later, xs = earlier ++ x :: later
  earlier : ∀ y ∈ earlier, P y

section

variable {α β : Type} {P : α → Prop} {xs : List α} {x : α} {b : β}

theorem ComesTo.ne_nil {earlier : List α} (h : ComesTo P xs earlier x) : xs ≠ [] := by
  obtain ⟨later, rfl⟩ := h.eq_append
  simp

theorem find?_eq_some_iff_comesTo {p : α → Bool} (hp : ∀ x, p x = false ↔ P x) :
    xs.find? p = some x ↔ ∃ earlier, ComesTo P xs earlier x ∧ ¬ P x := by
  simp only [List.find?_eq_some_iff_append, Bool.not_eq_true', hp]
  rw [← hp, Bool.not_eq_false]
  constructor
  · rintro ⟨hx, earlier, later, heq, hearlier⟩
    exact ⟨earlier, ⟨⟨later, heq⟩, hearlier⟩, hx⟩
  · rintro ⟨earlier, ⟨⟨later, heq⟩, hearlier⟩, hx⟩
    exact ⟨hx, earlier, later, heq, hearlier⟩

theorem findSome?_eq_some_iff_comesTo {f : α → Option β} (hf : ∀ x, f x = none ↔ P x) :
    xs.findSome? f = some b ↔ ∃ earlier x, ComesTo P xs earlier x ∧ f x = some b := by
  simp only [List.findSome?_eq_some_iff, hf]
  constructor
  · rintro ⟨earlier, x, later, heq, hx, hearlier⟩
    exact ⟨earlier, x, ⟨⟨later, heq⟩, hearlier⟩, hx⟩
  · rintro ⟨earlier, x, ⟨⟨later, heq⟩, hearlier⟩, hx⟩
    exact ⟨earlier, x, later, heq, hx, hearlier⟩

/-- A search ends at the first place where something is found. -/
theorem findSome?_eq_some_iff_getElem? {f : α → Option β} :
    xs.findSome? f = some b ↔ ∃ place : Nat, xs[place]?.bind f = some b ∧
      ∀ before < place, xs[before]?.bind f = none := by
  rw [List.findSome?_eq_some_iff]
  constructor
  · rintro ⟨earlier, x, later, rfl, hx, hearlier⟩
    refine ⟨earlier.length, by simpa using hx, fun i hi => ?_⟩
    rw [List.getElem?_append_left hi, List.getElem?_eq_getElem hi]
    exact hearlier _ (List.getElem_mem hi)
  · rintro ⟨place, hb, hbefore⟩
    obtain ⟨x, hx, hb⟩ := Option.bind_eq_some_iff.1 hb
    obtain ⟨hlt, rfl⟩ := List.getElem?_eq_some_iff.1 hx
    refine ⟨xs.take place, xs[place], xs.drop (place + 1), ?_, hb, fun y hy => ?_⟩
    · rw [← List.drop_eq_getElem_cons hlt, List.take_append_drop]
    · obtain ⟨i, hi, rfl⟩ := List.mem_take_iff_getElem.1 hy
      have := hbefore i (by omega)
      rwa [List.getElem?_eq_getElem (by omega)] at this

/-- A search along positions ends at the position that is the number of the items before. -/
theorem findSome?_zipIdx_eq_some_iff {f : α × Nat → Option β} :
    xs.zipIdx.findSome? f = some b ↔ ∃ earlier x later, xs = earlier ++ x :: later ∧
      earlier.zipIdx.findSome? f = none ∧ f (x, earlier.length) = some b := by
  rw [List.findSome?_eq_some_iff]
  constructor
  · rintro ⟨l, a, l', heq, ha, hl⟩
    obtain ⟨earlier, rest, rfl, rfl, hrest⟩ := List.zipIdx_eq_append_iff.1 heq
    obtain ⟨x, later, rfl, rfl, -⟩ := List.zipIdx_eq_cons_iff.1 hrest.symm
    rw [Nat.zero_add] at ha
    exact ⟨earlier, x, later, rfl, List.findSome?_eq_none_iff.2 hl, ha⟩
  · rintro ⟨earlier, x, later, rfl, hl, ha⟩
    refine ⟨earlier.zipIdx, (x, earlier.length), later.zipIdx (earlier.length + 1), ?_, ha,
      List.findSome?_eq_none_iff.1 hl⟩
    rw [List.zipIdx_append, List.zipIdx_cons, Nat.zero_add]

theorem findSome?_zipIdx_eq_some_iff_comesTo {f : α × Nat → Option β}
    (hf : ∀ x i, f (x, i) = none ↔ P x) :
    xs.zipIdx.findSome? f = some b ↔
      ∃ earlier x, ComesTo P xs earlier x ∧ f (x, earlier.length) = some b := by
  rw [findSome?_zipIdx_eq_some_iff]
  simp only [Spec.findSome?_zipIdx_eq_none_iff hf]
  constructor
  · rintro ⟨earlier, x, later, heq, hearlier, hx⟩
    exact ⟨earlier, x, ⟨⟨later, heq⟩, hearlier⟩, hx⟩
  · rintro ⟨earlier, x, ⟨⟨later, heq⟩, hearlier⟩, hx⟩
    exact ⟨earlier, x, later, heq, hearlier, hx⟩

end

namespace Spec

/-! ## First faults -/

/-- The first fault of a state of the submachine of the given name: its name, then its
    accepting flag, then its start flag. -/
inductive State.FirstFault (submachine : String) (q : State) : Violation → Prop
  | anonymous (hn : ¬ IsProper q.name) : FirstFault submachine q (.anonymousState submachine)
  | accepting {name value : String} (hn : q.name = some name ∧ name ≠ "")
      (ha : q.accepting = some value) (hv : value ≠ "true") :
      FirstFault submachine q (.invalidAcceptingFlag submachine name value)
  | start {name value : String} (hn : q.name = some name ∧ name ≠ "") (ha : IsFlag q.accepting)
      (hs : q.start = some value) (hv : value ≠ "true") :
      FirstFault submachine q (.invalidStartFlag submachine name value)

/-- The first fault inside the submachine of the given name: its states one by one, then the
    number of start states, then the accepting ones. -/
inductive Submachine.InnerFault (name : String) (m : Submachine) : Violation → Prop
  | state {earlier : List State} {q : State} {v : Violation}
      (h : ComesTo State.WellFormed m.states earlier q) (hv : q.FirstFault name v) :
      InnerFault name m v
  | noStart (h : ∀ q ∈ m.states, q.WellFormed) (hc : m.states.countP (·.start.isSome) = 0) :
      InnerFault name m (.missingStartState name)
  | starts (h : ∀ q ∈ m.states, q.WellFormed) (hc : 2 ≤ m.states.countP (·.start.isSome)) :
      InnerFault name m (.multipleStartStates name (m.states.countP (·.start.isSome)))
  | noAccepting (h : ∀ q ∈ m.states, q.WellFormed) (hc : m.states.countP (·.start.isSome) = 1)
      (ha : ∀ q ∈ m.states, q.accepting = none) : InnerFault name m (.missingAcceptingState name)

/-- The first fault of the submachine after those given: its name, then that it has no states,
    then its main flag, then that it is the second main one, then what is inside. -/
inductive Submachine.FirstFault (before : List Submachine) (m : Submachine) : Violation → Prop
  | anonymous (hn : ¬ IsProper m.name) : FirstFault before m (.anonymousSubmachine before.length)
  | empty {name : String} (hn : m.name = some name ∧ name ≠ "") (hs : m.states = []) :
      FirstFault before m (.emptySubmachine name)
  | main {name value : String} (hn : m.name = some name ∧ name ≠ "") (hs : m.states ≠ [])
      (hm : m.main = some value) (hv : value ≠ "true") :
      FirstFault before m (.invalidMainFlag name value)
  | second {name : String} (hn : m.name = some name ∧ name ≠ "") (hs : m.states ≠ [])
      (hm : m.main = some "true") (hb : ∃ other ∈ before, other.main.isSome) :
      FirstFault before m (.multipleMainSubmachines name)
  | inner {name : String} {v : Violation} (hn : m.name = some name ∧ name ≠ "")
      (hs : m.states ≠ []) (hm : IsFlag m.main)
      (hb : m.main = none ∨ ∀ other ∈ before, other.main = none) (hv : m.InnerFault name v) :
      FirstFault before m v

/-- The first fault of an elementary action: its endpoints, then its kind. -/
inductive Step.FirstFault (action : String) (index : Nat) (e : Step) : Violation → Prop
  | endpoints (he : ¬ (IsProper e.source ∧ IsProper e.target)) :
      FirstFault action index e (.missingElementaryEndpoints action index)
  | noKind (he : IsProper e.source ∧ IsProper e.target) (hk : e.kind = none) :
      FirstFault action index e (.missingElementaryKind action index)
  | kind {word : String} (he : IsProper e.source ∧ IsProper e.target) (hk : e.kind = some word)
      (hw : word ≠ "add" ∧ word ≠ "remove" ∧ word ≠ "query") :
      FirstFault action index e (.invalidElementaryKind action index word)

/-- The name starts with the sign of variables. -/
def IsVariable (name : String) : Prop := ∃ cs, name.toList = '?' :: cs

/-- The name ends with the sign of generators. -/
def IsGenerator (name : String) : Prop := ∃ cs, name.toList = cs ++ ['*']

/-- The first fault of the adaptive action at the given position: its name, then its
    variables, its generators and its elementary actions, one by one. -/
inductive Action.FirstFault (index : Nat) (a : Action) : Violation → Prop
  | anonymous (hn : ¬ IsProper a.name) : FirstFault index a (.anonymousAction index)
  | freeVariable {name v : String} {earlier : List String} (hn : a.name = some name ∧ name ≠ "")
      (h : ComesTo IsVariable a.freeVariables earlier v) (hv : ¬ IsVariable v) :
      FirstFault index a (.invalidVariableName name v)
  | generator {name g : String} {earlier : List String} (hn : a.name = some name ∧ name ≠ "")
      (hv : ∀ v ∈ a.freeVariables, IsVariable v) (h : ComesTo IsGenerator a.generators earlier g)
      (hg : ¬ IsGenerator g) : FirstFault index a (.invalidGeneratorName name g)
  | empty {name : String} (hn : a.name = some name ∧ name ≠ "")
      (hv : ∀ v ∈ a.freeVariables, IsVariable v) (hg : ∀ g ∈ a.generators, IsGenerator g)
      (hs : a.steps = []) : FirstFault index a (.emptyAction name)
  | step {name : String} {earlier : List Step} {e : Step} {v : Violation}
      (hn : a.name = some name ∧ name ≠ "") (hv : ∀ v ∈ a.freeVariables, IsVariable v)
      (hg : ∀ g ∈ a.generators, IsGenerator g) (h : ComesTo Step.WellFormed a.steps earlier e)
      (he : e.FirstFault name earlier.length v) : FirstFault index a v

/-- The name is called by a transition as that of an adaptive action, and no action has
    it. -/
def Misses (s : Spec) (name : String) : Prop :=
  (∃ t ∈ s.transitions, ∃ c ∈ t.calls, c.name = some name) ∧ name ≠ "" ∧ ¬ s.Declares name

/-- The first fault of a description for each rule that it breaks, with the place of the rule
    in the order of all rules. -/
inductive FirstFault (s : Spec) : Nat → Violation → Prop
  | noTransitions (h : s.transitions = []) : FirstFault s 0 .noTransitions
  | endpoints {earlier : List Transition} {t : Transition}
      (h : ComesTo (fun u => u.source.isSome ∧ u.target.isSome) s.transitions earlier t)
      (ht : ¬ (t.source.isSome ∧ t.target.isSome)) :
      FirstFault s 1 (.missingEndpoints earlier.length)
  | noSubmachines (h : s.submachines = []) : FirstFault s 2 .noSubmachines
  | identifier {earlier : List String} {name : String}
      (h : ComesTo StateId.IsName
        (s.transitions.flatMap (·.endpoints) ++ s.declaredStates.filter (· ≠ "")) earlier name)
      (hn : ¬ StateId.IsName name) : FirstFault s 3 (.nonIntegerState name)
  | submachine {earlier : List Submachine} {m : Submachine} {v : Violation}
      (h : ComesTo Submachine.WellFormed s.submachines earlier m)
      (hm : earlier.countP (·.main.isSome) ≤ 1) (hv : m.FirstFault earlier v) : FirstFault s 4 v
  | consumption {earlier : List Transition} {t : Transition}
      (h : ComesTo (fun u => u.symbol = none ∨ u.call = none) s.transitions earlier t)
      (ht : ¬ (t.symbol = none ∨ t.call = none)) :
      FirstFault s 5 (.symbolAndCall earlier.length (t.source.getD "") (t.target.getD ""))
  | submachineCalls {names : List String} (hne : names ≠ []) (hs : names.Pairwise (· < ·))
      (h : ∀ name, name ∈ names ↔ (∃ t ∈ s.transitions, t.call = some name) ∧
        ∀ m ∈ s.submachines, m.name ≠ some name) : FirstFault s 6 (.undefinedSubmachines names)
  | prior {earlier : List Transition} {t : Transition} {c : Call}
      (h : ComesTo (fun u => ∀ c ∈ u.calls, IsProper c.name) s.transitions earlier t)
      (hc : t.prior = some c) (hn : ¬ IsProper c.name) :
      FirstFault s 7 (.anonymousActionCall earlier.length .prior)
  | posterior {earlier : List Transition} {t : Transition} {c : Call}
      (h : ComesTo (fun u => ∀ c ∈ u.calls, IsProper c.name) s.transitions earlier t)
      (hp : ∀ c ∈ t.prior, IsProper c.name) (hc : t.posterior = some c) (hn : ¬ IsProper c.name) :
      FirstFault s 7 (.anonymousActionCall earlier.length .posterior)
  | action {earlier : List Action} {a : Action} {v : Violation}
      (h : ComesTo Action.WellFormed s.actions earlier a) (hv : a.FirstFault earlier.length v) :
      FirstFault s 8 v
  | actionCalls {name : String} (h : s.Misses name)
      (hmin : ∀ other, s.Misses other → name ≤ other) : FirstFault s 9 (.undefinedAction name)

/-! ## Part by part -/

variable {s : Spec} {v : Violation}

theorem reportIf_eq_some_iff {condition : Bool} {w : Violation} :
    reportIf condition v = some w ↔ condition = true ∧ w = v := by
  cases condition <;> simp [reportIf, eq_comm]

theorem filter_flag_eq_some_iff {value : Option String} {x : String} :
    value.filter (· ≠ flag) = some x ↔ value = some x ∧ x ≠ "true" := by
  rw [Option.filter_eq_some_iff, decide_eq_true_eq]
  rfl

theorem State.violation?_eq_some_iff {m : String} {q : State} :
    q.violation? m = some v ↔ q.FirstFault m v := by
  rw [violation?]
  constructor
  · intro h
    split at h
    · next hn =>
      obtain rfl := Option.some.inj h
      exact .anonymous (properName_eq_none_iff.1 hn)
    · next name hn =>
      have hn := properName_eq_some_iff.1 hn
      split at h
      · next ha =>
        obtain rfl := Option.some.inj h
        obtain ⟨ha, hv⟩ := filter_flag_eq_some_iff.1 ha
        exact .accepting hn ha hv
      · next ha hs =>
        obtain rfl := Option.some.inj h
        obtain ⟨hs, hv⟩ := filter_flag_eq_some_iff.1 hs
        exact .start hn (filter_flag_eq_none_iff.1 ha) hs hv
      · exact absurd h (by simp)
  · intro h
    cases h with
    | anonymous hn => rw [properName_eq_none_iff.2 hn]
    | accepting hn ha hv =>
      rw [properName_eq_some_iff.2 hn, filter_flag_eq_some_iff.2 ⟨ha, hv⟩]
    | start hn ha hs hv =>
      rw [properName_eq_some_iff.2 hn, filter_flag_eq_none_iff.2 ha,
        filter_flag_eq_some_iff.2 ⟨hs, hv⟩]

theorem Submachine.flagViolation?_eq_some_iff {name : String} {m : Submachine} :
    m.flagViolation? name = some v ↔
      (m.states.countP (·.start.isSome) = 0 ∧ v = .missingStartState name) ∨
      (2 ≤ m.states.countP (·.start.isSome) ∧
        v = .multipleStartStates name (m.states.countP (·.start.isSome))) ∨
      m.states.countP (·.start.isSome) = 1 ∧ (∀ q ∈ m.states, q.accepting = none) ∧
        v = .missingAcceptingState name := by
  have hstart : m.startStates.length = m.states.countP (·.start.isSome) := by
    rw [startStates, List.countP_eq_length_filter]
  have haccept : m.acceptingStates.isEmpty = true ↔ ∀ q ∈ m.states, q.accepting = none := by
    simp [acceptingStates]
  rw [flagViolation?, hstart]
  split
  · next h => simp [h, eq_comm]
  · next h => simp [h, reportIf_eq_some_iff, haccept]
  · next n h₀ h₁ =>
    have h₂ : 2 ≤ m.states.countP (·.start.isSome) := by
      have : m.states.countP (·.start.isSome) ≠ 0 := h₀
      have : m.states.countP (·.start.isSome) ≠ 1 := h₁
      omega
    rw [Option.some.injEq, eq_comm, or_iff_right fun h => h₀ h.1, or_iff_left fun h => h₁ h.1,
      and_iff_right h₂]

theorem Submachine.innerFault_iff {name : String} {m : Submachine} :
    ((m.states.findSome? (·.violation? name)).or (m.flagViolation? name)) = some v ↔
      m.InnerFault name v := by
  simp only [Option.or_eq_some_iff, flagViolation?_eq_some_iff, List.findSome?_eq_none_iff,
    findSome?_eq_some_iff_comesTo fun q => State.violation?_eq_none_iff,
    State.violation?_eq_none_iff, State.violation?_eq_some_iff]
  constructor
  · rintro (⟨earlier, q, h, hv⟩ | ⟨h, ⟨hc, rfl⟩ | ⟨hc, rfl⟩ | ⟨hc, ha, rfl⟩⟩)
    · exact .state h hv
    · exact .noStart h hc
    · exact .starts h hc
    · exact .noAccepting h hc ha
  · intro hf
    cases hf with
    | state h hv => exact .inl ⟨_, _, h, hv⟩
    | noStart h hc => exact .inr ⟨h, .inl ⟨hc, rfl⟩⟩
    | starts h hc => exact .inr ⟨h, .inr (.inl ⟨hc, rfl⟩)⟩
    | noAccepting h hc ha => exact .inr ⟨h, .inr (.inr ⟨hc, ha, rfl⟩)⟩

theorem Submachine.violation?_eq_some_iff {before : List Submachine} {m : Submachine} :
    m.violation? before.length (before.any (·.isMain)) = some v ↔ m.FirstFault before v := by
  have hsome : before.any (·.isMain) = true ↔ ∃ other ∈ before, other.main.isSome := by
    rw [List.any_eq_true]
    rfl
  have hnone : (m.isMain && before.any (·.isMain)) = false ↔
      m.main = none ∨ ∀ other ∈ before, other.main = none := by
    rw [Bool.and_eq_false_iff, isMain, Option.isSome_eq_false_iff, Option.isNone_iff_eq_none]
    simp [isMain]
  by_cases hn : IsProper m.name
  · obtain ⟨name, hn⟩ := hn
    have hname {other : String} (ho : m.name = some other ∧ other ≠ "") : name = other :=
      Option.some.inj (hn.1.symm.trans ho.1)
    rw [violation?, properName_eq_some_iff.2 hn]
    simp only [Option.orElse_eq_orElse, Option.orElse_eq_or]
    generalize hinner : (m.states.findSome? (·.violation? name)).or (m.flagViolation? name) = inner
    have hinner : inner = some v ↔ m.InnerFault name v := by rw [← hinner, innerFault_iff]
    simp only [Option.or_eq_some_iff, reportIf_eq_some_iff, reportIf_eq_none_iff,
      Option.map_eq_some_iff, Option.map_eq_none_iff, filter_flag_eq_some_iff,
      filter_flag_eq_none_iff, List.isEmpty_iff, List.isEmpty_eq_false_iff, hnone, hsome,
      Bool.and_eq_true, hinner]
    constructor
    · rintro (⟨hs, rfl⟩ | ⟨hs, ⟨value, ⟨hm, hv⟩, rfl⟩ | ⟨hm, ⟨⟨hmain, hb⟩, rfl⟩ | ⟨hb, hv⟩⟩⟩)
      · exact .empty hn hs
      · exact .main hn hs hm hv
      · exact .second hn hs (hm.resolve_left (Option.isSome_iff_ne_none.1 hmain)) hb
      · exact .inner hn hs hm hb hv
    · intro h
      cases h with
      | anonymous hn' => exact absurd ⟨name, hn⟩ hn'
      | empty ho hs => exact .inl ⟨hs, by rw [hname ho]⟩
      | main ho hs hm hv => exact .inr ⟨hs, .inl ⟨_, ⟨hm, hv⟩, by rw [hname ho]⟩⟩
      | second ho hs hm hb =>
        refine .inr ⟨hs, .inr ⟨.inr hm, .inl ⟨⟨?_, hb⟩, by rw [hname ho]⟩⟩⟩
        rw [isMain, hm]
        rfl
      | inner ho hs hm hb hv =>
        obtain rfl := hname ho
        exact .inr ⟨hs, .inr ⟨hm, .inr ⟨hb, hv⟩⟩⟩
  · rw [violation?, properName_eq_none_iff.2 hn]
    constructor
    · intro h
      obtain rfl := Option.some.inj h
      exact .anonymous hn
    · intro h
      cases h with
      | anonymous => rfl
      | empty ho | main ho | second ho | inner ho => exact absurd ⟨_, ho⟩ hn

theorem checkValidSubmachines_eq_some_iff :
    s.checkValidSubmachines = some v ↔ ∃ earlier m, ComesTo Submachine.WellFormed s.submachines
      earlier m ∧ earlier.countP (·.main.isSome) ≤ 1 ∧ m.FirstFault earlier v := by
  -- the rule passes the submachines before if it passes them as a whole description
  have hbefore {earlier later : List Submachine} (heq : s.submachines = earlier ++ later) :
      (earlier.zipIdx.findSome? fun x =>
        x.1.violation? x.2 ((s.submachines.take x.2).any (·.isMain))) = none ↔
      (∀ m ∈ earlier, m.WellFormed) ∧ earlier.countP (·.main.isSome) ≤ 1 := by
    rw [← checkValidSubmachines_eq_none_iff (s := { s with submachines := earlier }),
      checkValidSubmachines, List.findSome?_eq_none_iff, List.findSome?_eq_none_iff]
    refine forall₂_congr fun x hx => ?_
    have hlt : x.2 < earlier.length := by simpa using List.snd_lt_of_mem_zipIdx hx
    simp only [heq, List.take_append_of_le_length hlt.le]
  rw [checkValidSubmachines, findSome?_zipIdx_eq_some_iff]
  constructor
  · rintro ⟨earlier, m, later, heq, hnone, hv⟩
    obtain ⟨hw, hm⟩ := (hbefore heq).1 hnone
    simp only [heq, List.take_left, Submachine.violation?_eq_some_iff] at hv
    exact ⟨earlier, m, ⟨⟨later, heq⟩, hw⟩, hm, hv⟩
  · rintro ⟨earlier, m, ⟨⟨later, heq⟩, hw⟩, hm, hv⟩
    refine ⟨earlier, m, later, heq, (hbefore heq).2 ⟨hw, hm⟩, ?_⟩
    simp only [heq, List.take_left, Submachine.violation?_eq_some_iff]
    exact hv

theorem Step.violation?_eq_some_iff {action : String} {index : Nat} {e : Step} :
    e.violation? action index = some v ↔ e.FirstFault action index v := by
  have hends : ((properName e.source).isNone || (properName e.target).isNone) = false ↔
      IsProper e.source ∧ IsProper e.target := by
    rw [Bool.or_eq_false_iff, isProper_iff, isProper_iff]
  have hword {word : String} : (Kind.parse? word).isNone = true ↔
      word ≠ "add" ∧ word ≠ "remove" ∧ word ≠ "query" := by
    rw [← Bool.not_eq_false, Kind.isNone_parse?_iff, not_or, not_or]
  rw [violation?]
  constructor
  · intro h
    split at h
    · next he =>
      obtain rfl := Option.some.inj h
      exact .endpoints fun hp => by rw [hends.2 hp] at he; exact absurd he (by simp)
    · next he =>
      have he := hends.1 (Bool.not_eq_true _ ▸ he)
      split at h
      · next hk =>
        obtain rfl := Option.some.inj h
        exact .noKind he hk
      · next word hk =>
        obtain ⟨hw, rfl⟩ := reportIf_eq_some_iff.1 h
        exact .kind he hk (hword.1 hw)
  · intro h
    cases h with
    | endpoints he => rw [if_pos (by rwa [← hends, Bool.not_eq_false] at he)]
    | noKind he hk => rw [hends.2 he, if_neg (by simp), hk]
    | kind he hk hw =>
      rw [hends.2 he, if_neg (by simp), hk]
      exact reportIf_eq_some_iff.2 ⟨hword.2 hw, rfl⟩

theorem Action.violation?_eq_some_iff {index : Nat} {a : Action} :
    a.violation? index = some v ↔ a.FirstFault index v := by
  have hfirst (v : String) :
      decide (v.toList.head? ≠ some variableSign) = false ↔ IsVariable v := by
    rw [decide_eq_false_iff_not, not_not]
    exact List.head?_eq_some_iff
  have hlast (g : String) :
      decide (g.toList.getLast? ≠ some generatorSign) = false ↔ IsGenerator g := by
    rw [decide_eq_false_iff_not, not_not]
    exact List.getLast?_eq_some_iff
  have hsteps (name : String) :
      (a.steps.zipIdx.findSome? fun x => x.1.violation? name x.2) = some v ↔
        ∃ earlier e, ComesTo Step.WellFormed a.steps earlier e ∧
          e.FirstFault name earlier.length v := by
    rw [findSome?_zipIdx_eq_some_iff_comesTo fun _ _ => Step.violation?_eq_none_iff]
    simp only [Step.violation?_eq_some_iff]
  by_cases hn : IsProper a.name
  · obtain ⟨name, hn⟩ := hn
    have hname {other : String} (ho : a.name = some other ∧ other ≠ "") : name = other :=
      Option.some.inj (hn.1.symm.trans ho.1)
    rw [violation?, properName_eq_some_iff.2 hn]
    simp only [Option.orElse_eq_orElse, Option.orElse_eq_or, Option.or_eq_some_iff,
      reportIf_eq_some_iff, reportIf_eq_none_iff, Option.map_eq_some_iff,
      Option.map_eq_none_iff, List.isEmpty_iff, List.isEmpty_eq_false_iff,
      find?_eq_some_iff_comesTo hfirst, find?_eq_some_iff_comesTo hlast, List.find?_eq_none,
      hsteps, Bool.not_eq_true, hfirst, hlast]
    constructor
    · rintro (⟨v, ⟨earlier, h, hv⟩, rfl⟩ | ⟨hv, ⟨g, ⟨earlier, h, hg⟩, rfl⟩ | ⟨hg, h⟩⟩)
      · exact .freeVariable hn h hv
      · exact .generator hn hv h hg
      · rcases h with ⟨hs, rfl⟩ | ⟨-, earlier, e, h, he⟩
        · exact .empty hn hv hg hs
        · exact .step hn hv hg h he
    · intro h
      cases h with
      | anonymous hn' => exact absurd ⟨name, hn⟩ hn'
      | freeVariable ho h hv => exact .inl ⟨_, ⟨_, h, hv⟩, by rw [hname ho]⟩
      | generator ho hv h hg => exact .inr ⟨hv, .inl ⟨_, ⟨_, h, hg⟩, by rw [hname ho]⟩⟩
      | empty ho hv hg hs => exact .inr ⟨hv, .inr ⟨hg, .inl ⟨hs, by rw [hname ho]⟩⟩⟩
      | step ho hv hg h he =>
        obtain rfl := hname ho
        exact .inr ⟨hv, .inr ⟨hg, .inr ⟨h.ne_nil, _, _, h, he⟩⟩⟩
  · rw [violation?, properName_eq_none_iff.2 hn]
    constructor
    · intro h
      obtain rfl := Option.some.inj h
      exact .anonymous hn
    · intro h
      cases h with
      | anonymous => rfl
      | freeVariable ho | generator ho | empty ho | step ho => exact absurd ⟨_, ho⟩ hn

/-! ## Rule by rule -/

theorem checkHasTransitions_eq_some_iff :
    s.checkHasTransitions = some v ↔ s.transitions = [] ∧ v = .noTransitions := by
  rw [checkHasTransitions, reportIf_eq_some_iff, List.isEmpty_iff]

theorem checkHasEndpoints_eq_some_iff :
    s.checkHasEndpoints = some v ↔ ∃ earlier t,
      ComesTo (fun u => u.source.isSome ∧ u.target.isSome) s.transitions earlier t ∧
        ¬ (t.source.isSome ∧ t.target.isSome) ∧ v = .missingEndpoints earlier.length := by
  have hends (t : Transition) : (t.source.isNone || t.target.isNone) = false ↔
      t.source.isSome ∧ t.target.isSome := by
    rw [Bool.or_eq_false_iff, Option.isNone_eq_false_iff, Option.isNone_eq_false_iff]
  have hnone (t : Transition) (i : Nat) :
      (if (t.source.isNone || t.target.isNone) = true then some i else none) = none ↔
        t.source.isSome ∧ t.target.isSome := by
    rw [← hends, ite_eq_right_iff, ← Bool.not_eq_true]
    simp
  have hsome (t : Transition) (i j : Nat) :
      (if (t.source.isNone || t.target.isNone) = true then some i else none) = some j ↔
        ¬ (t.source.isSome ∧ t.target.isSome) ∧ i = j := by
    rw [← hends, Bool.not_eq_false]
    split <;> simp [*]
  have hfind (i : Nat) : s.transitions.findIdx? (fun t => t.source.isNone || t.target.isNone) =
      some i ↔ ∃ earlier t,
        ComesTo (fun u => u.source.isSome ∧ u.target.isSome) s.transitions earlier t ∧
          ¬ (t.source.isSome ∧ t.target.isSome) ∧ earlier.length = i := by
    rw [List.findIdx?_eq_findSome?_zipIdx, findSome?_zipIdx_eq_some_iff_comesTo hnone]
    simp only [hsome]
  simp only [checkHasEndpoints, Option.map_eq_some_iff, hfind]
  constructor
  · rintro ⟨i, ⟨earlier, t, h, ht, rfl⟩, rfl⟩
    exact ⟨earlier, t, h, ht, rfl⟩
  · rintro ⟨earlier, t, h, ht, rfl⟩
    exact ⟨_, ⟨earlier, t, h, ht, rfl⟩, rfl⟩

theorem checkHasSubmachines_eq_some_iff :
    s.checkHasSubmachines = some v ↔ s.submachines = [] ∧ v = .noSubmachines := by
  rw [checkHasSubmachines, reportIf_eq_some_iff, List.isEmpty_iff]

theorem checkIntegerStates_eq_some_iff :
    s.checkIntegerStates = some v ↔ ∃ earlier name,
      ComesTo StateId.IsName s.stateMentions earlier name ∧ ¬ StateId.IsName name ∧
        v = .nonIntegerState name := by
  simp only [checkIntegerStates, Option.map_eq_some_iff,
    find?_eq_some_iff_comesTo fun name => StateId.isName_iff.symm]
  constructor
  · rintro ⟨name, ⟨earlier, h, hn⟩, rfl⟩
    exact ⟨earlier, name, h, hn, rfl⟩
  · rintro ⟨earlier, name, h, hn, rfl⟩
    exact ⟨name, ⟨earlier, h, hn⟩, rfl⟩

theorem checkSymbolCallExclusive_eq_some_iff :
    s.checkSymbolCallExclusive = some v ↔ ∃ earlier t,
      ComesTo (fun u => u.symbol = none ∨ u.call = none) s.transitions earlier t ∧
        ¬ (t.symbol = none ∨ t.call = none) ∧
        v = .symbolAndCall earlier.length (t.source.getD "") (t.target.getD "") := by
  have hboth (t : Transition) : (t.symbol.isSome && t.call.isSome) = false ↔
      t.symbol = none ∨ t.call = none := by
    simp [Decidable.imp_iff_not_or]
  rw [checkSymbolCallExclusive, findSome?_zipIdx_eq_some_iff_comesTo fun t i => by
    rw [reportIf_eq_none_iff, hboth]]
  simp only [reportIf_eq_some_iff, ← hboth, Bool.not_eq_false]

theorem checkSubmachineCalls_eq_some_iff :
    s.checkSubmachineCalls = some v ↔ ∃ names, names ≠ [] ∧ names.Pairwise (· < ·) ∧
      (∀ name, name ∈ names ↔ (∃ t ∈ s.transitions, t.call = some name) ∧
        ∀ m ∈ s.submachines, m.name ≠ some name) ∧ v = .undefinedSubmachines names := by
  have hmem (name : String) : name ∈ s.undefinedSubmachines ↔
      (∃ t ∈ s.transitions, t.call = some name) ∧ ∀ m ∈ s.submachines, m.name ≠ some name := by
    simp [undefinedSubmachines]
  have hsorted : s.undefinedSubmachines.Pairwise (· < ·) := NameSet.sorted_ofList _
  rw [checkSubmachineCalls, reportIf_eq_some_iff, Bool.not_eq_true', List.isEmpty_eq_false_iff]
  constructor
  · rintro ⟨hne, rfl⟩
    exact ⟨_, hne, hsorted, hmem, rfl⟩
  · rintro ⟨names, hne, hs, h, rfl⟩
    obtain rfl : s.undefinedSubmachines = names :=
      hsorted.eq_of_mem_iff hs fun name => (hmem name).trans (h name).symm
    exact ⟨hne, rfl⟩

theorem checkActionCallNames_eq_some_iff :
    s.checkActionCallNames = some v ↔ ∃ earlier t,
      ComesTo (fun u => ∀ c ∈ u.calls, IsProper c.name) s.transitions earlier t ∧
        ((∃ c, t.prior = some c ∧ ¬ IsProper c.name ∧
            v = .anonymousActionCall earlier.length .prior) ∨
          (∀ c ∈ t.prior, IsProper c.name) ∧ ∃ c, t.posterior = some c ∧ ¬ IsProper c.name ∧
            v = .anonymousActionCall earlier.length .posterior) := by
  rw [checkActionCallNames, findSome?_zipIdx_eq_some_iff_comesTo
    (P := fun u => ∀ c ∈ u.calls, IsProper c.name) fun t i => by
      simp only [Option.orElse_eq_orElse, Option.orElse_eq_or, Option.or_eq_none_iff,
        Option.bind_eq_none_iff, reportIf_eq_none_iff, ← isProper_iff, Transition.calls,
        List.mem_append, Option.mem_toList, or_imp, forall_and]]
  simp only [Option.orElse_eq_orElse, Option.orElse_eq_or, Option.or_eq_some_iff,
    Option.bind_eq_some_iff, Option.bind_eq_none_iff, reportIf_eq_some_iff, reportIf_eq_none_iff,
    isProper_iff, Bool.not_eq_false, Option.mem_def]

theorem checkAdaptiveActions_eq_some_iff :
    s.checkAdaptiveActions = some v ↔ ∃ earlier a,
      ComesTo Action.WellFormed s.actions earlier a ∧ a.FirstFault earlier.length v := by
  rw [checkAdaptiveActions,
    findSome?_zipIdx_eq_some_iff_comesTo fun _ _ => Action.violation?_eq_none_iff]
  simp only [Action.violation?_eq_some_iff]

theorem checkActionCallsDefined_eq_some_iff :
    s.checkActionCallsDefined = some v ↔ ∃ name, s.Misses name ∧
      (∀ other, s.Misses other → name ≤ other) ∧ v = .undefinedAction name := by
  let missing (name : String) : Bool :=
    !(s.actions.filterMap fun a => properName a.name).contains name
  have hdeclares {name : String} (hne : name ≠ "") : missing name = true ↔ ¬ s.Declares name := by
    simp [missing, properName_eq_some_iff, Declares, hne]
  have hmisses {name : String} : s.Misses name ↔
      name ∈ s.referencedActions ∧ missing name = true := by
    simp only [Misses, referencedActions, NameSet.mem_ofList, List.mem_filterMap,
      List.mem_flatMap, properName_eq_some_iff]
    constructor
    · rintro ⟨⟨t, ht, c, hc, hn⟩, hne, hd⟩
      exact ⟨⟨c, ⟨t, ht, hc⟩, hn, hne⟩, (hdeclares hne).2 hd⟩
    · rintro ⟨⟨c, ⟨t, ht, hc⟩, hn, hne⟩, hd⟩
      exact ⟨⟨t, ht, c, hc, hn⟩, hne, (hdeclares hne).1 hd⟩
  -- the names are sorted, so the first that is missing is the least
  have hleast {name : String} (h : s.referencedActions.find? missing = some name) :
      s.Misses name ∧ ∀ other, s.Misses other → name ≤ other := by
    refine ⟨hmisses.2 ⟨List.mem_of_find?_eq_some h, List.find?_some h⟩, fun other ho => ?_⟩
    obtain ⟨-, earlier, later, heq, hearlier⟩ := List.find?_eq_some_iff_append.1 h
    have hsorted : s.referencedActions.Pairwise (· < ·) := NameSet.sorted_ofList _
    obtain ⟨hm, hd⟩ := hmisses.1 ho
    rw [heq] at hm hsorted
    rcases List.mem_append.1 hm with hm | hm
    · have := hearlier other hm
      rw [hd] at this
      exact absurd this (by simp)
    · rcases List.mem_cons.1 hm with rfl | hm
      · exact String.le_refl _
      · have hlater := (List.pairwise_append.1 hsorted).2.1
        exact Std.le_of_lt ((List.pairwise_cons.1 hlater).1 other hm)
  rw [checkActionCallsDefined, Option.map_eq_some_iff]
  constructor
  · rintro ⟨name, h, rfl⟩
    exact ⟨name, (hleast h).1, (hleast h).2, rfl⟩
  · rintro ⟨name, hm, hmin, rfl⟩
    obtain ⟨first, hf⟩ := Option.isSome_iff_exists.1 (List.find?_isSome.2 ⟨name, hmisses.1 hm⟩)
    obtain ⟨hfm, hfmin⟩ := hleast hf
    rw [String.le_antisymm (hmin first hfm) (hfmin name hm)]
    exact ⟨first, hf, rfl⟩

/-! ## The description as a whole -/

/-- **First faults are what the rules report**, each at the place of its rule. -/
theorem firstFault_iff {place : Nat} :
    s.FirstFault place v ↔ (checks[place]?.bind fun rule => rule.2 s) = some v := by
  constructor
  · intro h
    cases h with
    | noTransitions h => exact checkHasTransitions_eq_some_iff.2 ⟨h, rfl⟩
    | endpoints h ht => exact checkHasEndpoints_eq_some_iff.2 ⟨_, _, h, ht, rfl⟩
    | noSubmachines h => exact checkHasSubmachines_eq_some_iff.2 ⟨h, rfl⟩
    | identifier h hn => exact checkIntegerStates_eq_some_iff.2 ⟨_, _, h, hn, rfl⟩
    | submachine h hm hv => exact checkValidSubmachines_eq_some_iff.2 ⟨_, _, h, hm, hv⟩
    | consumption h ht => exact checkSymbolCallExclusive_eq_some_iff.2 ⟨_, _, h, ht, rfl⟩
    | submachineCalls hne hs h => exact checkSubmachineCalls_eq_some_iff.2 ⟨_, hne, hs, h, rfl⟩
    | prior h hc hn =>
      exact checkActionCallNames_eq_some_iff.2 ⟨_, _, h, .inl ⟨_, hc, hn, rfl⟩⟩
    | posterior h hp hc hn =>
      exact checkActionCallNames_eq_some_iff.2 ⟨_, _, h, .inr ⟨hp, _, hc, hn, rfl⟩⟩
    | action h hv => exact checkAdaptiveActions_eq_some_iff.2 ⟨_, _, h, hv⟩
    | actionCalls h hmin => exact checkActionCallsDefined_eq_some_iff.2 ⟨_, h, hmin, rfl⟩
  · intro hv
    obtain ⟨rule, hrule, -⟩ := Option.bind_eq_some_iff.1 hv
    have hlt : place < 10 := (List.getElem?_eq_some_iff.1 hrule).1
    interval_cases place
    · obtain ⟨h, rfl⟩ := checkHasTransitions_eq_some_iff.1 hv
      exact .noTransitions h
    · obtain ⟨_, _, h, ht, rfl⟩ := checkHasEndpoints_eq_some_iff.1 hv
      exact .endpoints h ht
    · obtain ⟨h, rfl⟩ := checkHasSubmachines_eq_some_iff.1 hv
      exact .noSubmachines h
    · obtain ⟨_, _, h, hn, rfl⟩ := checkIntegerStates_eq_some_iff.1 hv
      exact .identifier h hn
    · obtain ⟨_, _, h, hm, hv⟩ := checkValidSubmachines_eq_some_iff.1 hv
      exact .submachine h hm hv
    · obtain ⟨_, _, h, ht, rfl⟩ := checkSymbolCallExclusive_eq_some_iff.1 hv
      exact .consumption h ht
    · obtain ⟨_, hne, hs, h, rfl⟩ := checkSubmachineCalls_eq_some_iff.1 hv
      exact .submachineCalls hne hs h
    · obtain ⟨_, _, h, ⟨_, hc, hn, rfl⟩ | ⟨hp, _, hc, hn, rfl⟩⟩ :=
        checkActionCallNames_eq_some_iff.1 hv
      · exact .prior h hc hn
      · exact .posterior h hp hc hn
    · obtain ⟨_, _, h, hv⟩ := checkAdaptiveActions_eq_some_iff.1 hv
      exact .action h hv
    · obtain ⟨_, h, hmin, rfl⟩ := checkActionCallsDefined_eq_some_iff.1 hv
      exact .actionCalls h hmin

/-- The list of all violations has the first fault of every broken rule. -/
theorem mem_diagnose_iff_firstFault : v ∈ s.diagnose ↔ ∃ place, s.FirstFault place v := by
  simp only [firstFault_iff, Option.bind_eq_some_iff]
  rw [diagnose, List.mem_filterMap]
  constructor
  · rintro ⟨rule, hmem, hv⟩
    obtain ⟨place, hrule⟩ := List.mem_iff_getElem?.1 hmem
    exact ⟨place, rule, hrule, hv⟩
  · rintro ⟨place, rule, hrule, hv⟩
    exact ⟨rule, List.mem_of_getElem? hrule, hv⟩

/-- **The violation that is reported** is the first fault of a rule of which all rules before
    are kept. -/
theorem validate_eq_error_iff_firstFault (s : Spec) (v : Violation) :
    s.validate = .error v ↔ ∃ place, s.FirstFault place v ∧
      ∀ before < place, ∀ w, ¬ s.FirstFault before w := by
  rw [validate_eq_error_iff, diagnose, List.head?_filterMap, findSome?_eq_some_iff_getElem?]
  simp only [firstFault_iff, Option.eq_none_iff_forall_ne_some, ne_eq]

/-- A call without a name comes first in the description, but a rule before that on the
    names of calls is broken too. -/
example :
    let transitions := [(Transition.between "1" "2").before ⟨none, []⟩,
      ((Transition.between "2" "3").consuming "a").calling "m"]
    let m := (Submachine.named "m").withState (State.named "1").starting.acceptingAt
    Spec.validate ⟨transitions, [m], []⟩ = .error (.symbolAndCall 1 "2" "3") := by
  decide

end Spec

end AdaptiveAutomata
