/-
  What a description keeps to when no rule is broken.

  * `validate_eq_ok_iff`: a description is accepted exactly if no rule reports
    anything;
  * `exists_name_of_validate`: then every action has a name;
  * `declares_of_validate`: then every call of a transition names a declared
    action.
-/
import AdaptiveAutomata.Spec.Check

namespace AdaptiveAutomata

namespace Spec

variable {s : Spec}

/-- There is an action of this name. -/
def Declares (s : Spec) (name : String) : Prop := ∃ a ∈ s.actions, a.name = some name

/-- A description is accepted exactly if no rule reports anything. -/
theorem validate_eq_ok_iff : s.validate = .ok () ↔ ∀ rule ∈ checks, rule.2 s = none := by
  rw [validate, ← List.findSome?_eq_none_iff]
  cases checks.findSome? fun rule => rule.2 s <;> simp

theorem exists_mem_zipIdx {α : Type} {x : α} {xs : List α} (h : x ∈ xs) :
    ∃ i, (x, i) ∈ xs.zipIdx := by
  obtain ⟨i, hi, rfl⟩ := List.mem_iff_getElem.1 h
  exact ⟨i, by simp [List.mk_mem_zipIdx_iff_getElem?, hi]⟩

theorem reportIf_eq_none_iff {condition : Bool} {v : Violation} :
    reportIf condition v = none ↔ condition = false := by
  cases condition <;> simp [reportIf]

theorem properName_eq_some_iff {name : Option String} {n : String} :
    properName name = some n ↔ name = some n ∧ n ≠ "" := by
  cases name <;> simp [properName, Option.filter_eq_some_iff]

theorem exists_name_of_validate (h : s.validate = .ok ()) {a : Action} (ha : a ∈ s.actions) :
    ∃ name, a.name = some name ∧ name ≠ "" := by
  have hc : s.checkAdaptiveActions = none :=
    validate_eq_ok_iff.1 h ("adaptive_actions", checkAdaptiveActions) (by simp [checks])
  obtain ⟨i, hi⟩ := exists_mem_zipIdx ha
  have hv : a.violation? i = none := List.findSome?_eq_none_iff.1 hc _ hi
  rw [Action.violation?] at hv
  split at hv
  · exact absurd hv (by simp)
  · next name hn => exact ⟨name, properName_eq_some_iff.1 hn⟩

theorem exists_call_name_of_validate (h : s.validate = .ok ()) {t : Transition}
    (ht : t ∈ s.transitions) {c : Call} (hc : c ∈ t.calls) :
    ∃ name, properName c.name = some name := by
  have hr : s.checkActionCallNames = none :=
    validate_eq_ok_iff.1 h ("action_call_names", checkActionCallNames) (by simp [checks])
  obtain ⟨i, hi⟩ := exists_mem_zipIdx ht
  have hv := List.findSome?_eq_none_iff.1 hr _ hi
  simp only [Option.orElse_eq_orElse, Option.orElse_eq_or, Option.or_eq_none_iff,
    Option.bind_eq_none_iff, reportIf_eq_none_iff] at hv
  have hn : (properName c.name).isNone = false := by
    rcases List.mem_append.1 hc with hc | hc
    · exact hv.1 c (Option.mem_toList.1 hc)
    · exact hv.2 c (Option.mem_toList.1 hc)
  exact Option.ne_none_iff_exists'.1 fun hnone => by simp [hnone] at hn

/-- **Every call of a transition** of an accepted description names a declared
    action. -/
theorem declares_of_validate (h : s.validate = .ok ()) {t : Transition}
    (ht : t ∈ s.transitions) {c : Call} (hc : c ∈ t.calls) : s.Declares (c.name.getD "") := by
  have hr : s.checkActionCallsDefined = none :=
    validate_eq_ok_iff.1 h ("action_calls_defined", checkActionCallsDefined) (by simp [checks])
  rw [checkActionCallsDefined, Option.map_eq_none_iff, List.find?_eq_none] at hr
  obtain ⟨name, hname⟩ := exists_call_name_of_validate h ht hc
  have hm : name ∈ s.referencedActions := by
    rw [referencedActions, NameSet.mem_ofList, List.mem_filterMap]
    exact ⟨c, List.mem_flatMap.2 ⟨t, ht, hc⟩, hname⟩
  have hd := hr name hm
  simp only [Bool.not_eq_true, Bool.not_eq_false', List.contains_iff_mem, List.mem_filterMap] at hd
  obtain ⟨a, ha, hn⟩ := hd
  rw [(properName_eq_some_iff.1 hname).1]
  exact ⟨a, ha, (properName_eq_some_iff.1 hn).1⟩

end Spec

end AdaptiveAutomata
