/-
  Descriptions are read back from their texts.

  What is left out when missing is missing in a blank record, and what is written
  as `null` is read as missing, so no field gets lost.

  * `Spec.ofJson_toJson`: the text of a description stands for the description.
-/
import AdaptiveAutomata.Proofs.Codecs
import AdaptiveAutomata.Spec.Json

namespace AdaptiveAutomata

namespace Spec

open Json (Codec Field)
open Json.Codec (toJson_record_ne_null within_text)
open Json.Field (moves_nullable_text moves_omitted_text moves_omitted moves_defaulted
  moves_defaulted_texts within_nullable within_omitted within_defaulted)

/-! ## Every part is read back -/

theorem Call.returns_json (c : Call) : Call.json.Returns c := by
  refine .record ?_ (by decide)
  refine .cons moves_nullable_text ?_
  refine .cons (moves_defaulted_texts.alsoCalled "parameter") ?_
  exact .nil

theorem Transition.returns_json (t : Transition) : Transition.json.Returns t := by
  refine .record ?_ (by decide)
  refine .cons moves_nullable_text ?_
  refine .cons moves_nullable_text ?_
  refine .cons (moves_omitted_text rfl) ?_
  refine .cons (moves_omitted_text rfl) ?_
  refine .cons (moves_omitted (fun c _ => c.returns_json) toJson_record_ne_null rfl) ?_
  refine .cons (moves_omitted (fun c _ => c.returns_json) toJson_record_ne_null rfl) ?_
  exact .nil

theorem State.returns_json (s : State) : State.json.Returns s := by
  refine .record ?_ (by decide)
  refine .cons moves_nullable_text ?_
  refine .cons (moves_omitted_text rfl) ?_
  refine .cons (moves_omitted_text rfl) ?_
  exact .nil

theorem Submachine.returns_json (m : Submachine) : Submachine.json.Returns m := by
  refine .record ?_ (by decide)
  refine .cons moves_nullable_text ?_
  refine .cons (moves_omitted_text rfl) ?_
  refine .cons (moves_defaulted (.list fun s _ => s.returns_json)) ?_
  exact .nil

theorem Step.returns_json (s : Step) : Step.json.Returns s := by
  refine .record ?_ (by decide)
  refine .cons moves_nullable_text.withDefault ?_
  refine .cons moves_nullable_text ?_
  refine .cons moves_nullable_text ?_
  refine .cons (moves_omitted_text rfl) ?_
  refine .cons (moves_omitted_text rfl) ?_
  refine .cons (moves_omitted (fun c _ => c.returns_json) toJson_record_ne_null rfl) ?_
  refine .cons (moves_omitted (fun c _ => c.returns_json) toJson_record_ne_null rfl) ?_
  exact .nil

theorem Action.returns_json (a : Action) : Action.json.Returns a := by
  refine .record ?_ (by decide)
  refine .cons moves_nullable_text ?_
  refine .cons moves_defaulted_texts ?_
  refine .cons moves_defaulted_texts ?_
  refine .cons moves_defaulted_texts ?_
  refine .cons (moves_defaulted (.list fun s _ => s.returns_json)) ?_
  exact .nil

theorem returns_json (s : Spec) : json.Returns s := by
  refine .record ?_ (by decide)
  refine .cons (moves_defaulted (.list fun t _ => t.returns_json)) ?_
  refine .cons (moves_defaulted (.list fun m _ => m.returns_json)) ?_
  refine .cons (moves_defaulted (.list fun a _ => a.returns_json)) ?_
  exact .nil

/-! ## How deep descriptions nest -/

variable (n : Nat)

theorem Call.within_json : Call.json.Within (n + 2) :=
  .record ⟨within_nullable (within_text _),
    (within_defaulted (within_text _).list).alsoCalled "parameter"⟩

theorem Transition.within_json : Transition.json.Within (n + 3) :=
  .record ⟨within_nullable (within_text _), within_nullable (within_text _),
    within_omitted (within_text _), within_omitted (within_text _),
    within_omitted (Call.within_json n), within_omitted (Call.within_json n)⟩

theorem State.within_json : State.json.Within (n + 1) :=
  .record ⟨within_nullable (within_text _), within_omitted (within_text _),
    within_omitted (within_text _)⟩

theorem Submachine.within_json : Submachine.json.Within (n + 3) :=
  .record ⟨within_nullable (within_text _), within_omitted (within_text _),
    within_defaulted (State.within_json n).list⟩

theorem Step.within_json : Step.json.Within (n + 3) :=
  .record ⟨(within_nullable (within_text _)).withDefault, within_nullable (within_text _),
    within_nullable (within_text _), within_omitted (within_text _), within_omitted (within_text _),
    within_omitted (Call.within_json n), within_omitted (Call.within_json n)⟩

theorem Action.within_json : Action.json.Within (n + 5) :=
  .record ⟨within_nullable (within_text _), within_defaulted (within_text _).list,
    within_defaulted (within_text _).list, within_defaulted (within_text _).list,
    within_defaulted (Step.within_json n).list⟩

theorem within_json : json.Within 7 :=
  .record ⟨within_defaulted (Transition.within_json 2).list,
    within_defaulted (Submachine.within_json 2).list, within_defaulted (Action.within_json 0).list⟩

/-- **The text of a description** stands for the description. -/
theorem ofJson_toJson (s : Spec) : ofJson s.toJson = .ok s :=
  Codec.read_pretty s.returns_json ((within_json s).trans (by decide))

end Spec

end AdaptiveAutomata
