/-
  The spellings of descriptions.

  Each part of a description has its places listed once, as its codec lists its fields.

  * `Spec.Spelling`: the texts that stand for a description;
  * `Spec.spelling_toJson`: its own text is one of them;
  * `Spec.ofJson_spelling`: they are all read as the description.
-/
import AdaptiveAutomata.Proofs.Spellings
import AdaptiveAutomata.Spec.Json

namespace AdaptiveAutomata

namespace Spec

open Json (ArrayOf Blanks MemberOf ObjectOf Place Quotes blanks_nil quoted quotes_quoted)
open Json.Reader (Swap)
open Json.Scan (AnyText Digits NumberText)
open Json.Codec (accepts_record)
open Json.Field (stands_nullable stands_nullable_text stands_omitted stands_omitted_text
  stands_list stands_texts)

/-! ## Texts -/

/-- The texts of a call. -/
def Call.Texts (c : Call) : List Char → Prop := ObjectOf [
  .optional "name" Quotes c.name,
  (Place.list "parameters" Quotes c.arguments).alsoCalled "parameter"]

/-- The texts of a transition. -/
def Transition.Texts (t : Transition) : List Char → Prop := ObjectOf [
  .optional "from" Quotes t.source,
  .optional "to" Quotes t.target,
  .optional "symbol" Quotes t.symbol,
  .optional "call" Quotes t.call,
  .optional "preAdaptiveFunction" Call.Texts t.prior,
  .optional "postAdaptiveFunction" Call.Texts t.posterior]

/-- The texts of a state. -/
def State.Texts (s : State) : List Char → Prop := ObjectOf [
  .optional "name" Quotes s.name,
  .optional "start" Quotes s.start,
  .optional "accepting" Quotes s.accepting]

/-- The texts of a submachine. -/
def Submachine.Texts (m : Submachine) : List Char → Prop := ObjectOf [
  .optional "name" Quotes m.name,
  .optional "main" Quotes m.main,
  .list "states" State.Texts m.states]

/-- The texts of an elementary action. -/
def Step.Texts (s : Step) : List Char → Prop := ObjectOf [
  .optional "type" Quotes s.kind,
  .optional "from" Quotes s.source,
  .optional "to" Quotes s.target,
  .optional "symbol" Quotes s.symbol,
  .optional "call" Quotes s.call,
  .optional "preAdaptiveFunction" Call.Texts s.prior,
  .optional "postAdaptiveFunction" Call.Texts s.posterior]

/-- The texts of an adaptive action. -/
def Action.Texts (a : Action) : List Char → Prop := ObjectOf [
  .optional "name" Quotes a.name,
  .list "parameters" Quotes a.parameters,
  .list "variables" Quotes a.freeVariables,
  .list "generators" Quotes a.generators,
  .list "actions" Step.Texts a.steps]

/-- The texts of a description, without blanks around them. -/
def Texts (s : Spec) : List Char → Prop := ObjectOf [
  .list "transitions" Transition.Texts s.transitions,
  .list "submachines" Submachine.Texts s.submachines,
  .list "actions" Action.Texts s.actions]

/-- A text that stands for a description: objects in which the members may be in any order,
    missing values left out or `null`, empty lists left out, and other members added, with any
    blanks between the tokens. -/
def Spelling (s : Spec) (text : String) : Prop :=
  ∃ b cs b', Blanks b ∧ s.Texts cs ∧ Blanks b' ∧ text.toList = b ++ (cs ++ b')

/-! ## Every part is read off its texts -/

variable (n : Nat)

theorem Call.accepts_json (c : Call) : Call.json.Accepts (n + 2) c.Texts c := by
  refine accepts_record (.cons (stands_nullable_text rfl) <|
    .cons ((stands_texts rfl).alsoCalled "parameter") <| .nil) (by decide) ?_ rfl
  simp [Swap]

theorem Transition.accepts_json (t : Transition) :
    Transition.json.Accepts (n + 3) t.Texts t := by
  refine accepts_record (.cons (stands_nullable_text rfl) <|
    .cons (stands_nullable_text rfl) <|
    .cons (stands_omitted_text rfl) <|
    .cons (stands_omitted_text rfl) <|
    .cons (stands_omitted (fun c _ => c.accepts_json n) rfl) <|
    .cons (stands_omitted (fun c _ => c.accepts_json n) rfl) <| .nil) (by decide) ?_ rfl
  simp [Swap]

theorem State.accepts_json (s : State) : State.json.Accepts (n + 1) s.Texts s := by
  refine accepts_record (.cons (stands_nullable_text rfl) <|
    .cons (stands_omitted_text rfl) <|
    .cons (stands_omitted_text rfl) <| .nil) (by decide) ?_ rfl
  simp [Swap]

theorem Submachine.accepts_json (m : Submachine) :
    Submachine.json.Accepts (n + 3) m.Texts m := by
  refine accepts_record (.cons (stands_nullable_text rfl) <|
    .cons (stands_omitted_text rfl) <|
    .cons (stands_list (fun s _ => s.accepts_json n) rfl) <| .nil) (by decide) ?_ rfl
  simp [Swap]

theorem Step.accepts_json (s : Step) : Step.json.Accepts (n + 3) s.Texts s := by
  refine accepts_record (.cons (stands_nullable_text rfl).withDefault <|
    .cons (stands_nullable_text rfl) <|
    .cons (stands_nullable_text rfl) <|
    .cons (stands_omitted_text rfl) <|
    .cons (stands_omitted_text rfl) <|
    .cons (stands_omitted (fun c _ => c.accepts_json n) rfl) <|
    .cons (stands_omitted (fun c _ => c.accepts_json n) rfl) <| .nil) (by decide) ?_ rfl
  simp [Swap]

theorem Action.accepts_json (a : Action) : Action.json.Accepts (n + 5) a.Texts a := by
  refine accepts_record (.cons (stands_nullable_text rfl) <|
    .cons (stands_texts rfl) <|
    .cons (stands_texts rfl) <|
    .cons (stands_texts rfl) <|
    .cons (stands_list (fun s _ => s.accepts_json n) rfl) <| .nil) (by decide) ?_ rfl
  simp [Swap]

theorem accepts_json (s : Spec) : json.Accepts 7 s.Texts s := by
  refine accepts_record (.cons (stands_list (fun t _ => t.accepts_json 2) rfl) <|
    .cons (stands_list (fun m _ => m.accepts_json 2) rfl) <|
    .cons (stands_list (fun a _ => a.accepts_json 0) rfl) <| .nil) (by decide) ?_ rfl
  simp [Swap]

/-- The text of a description is one of its spellings. -/
theorem spelling_toJson (s : Spec) : s.Spelling s.toJson := by
  have hw := Json.writes_write Json.Layout.isBlank_pretty 0 (json.toJson s)
  refine ⟨[], _, [], Json.blanks_nil, s.accepts_json.writes _ hw, Json.blanks_nil, ?_⟩
  rw [List.nil_append, List.append_nil]
  exact String.toList_ofList

/-- **Every spelling of a description** is read as the description. -/
theorem ofJson_spelling {s : Spec} {text : String} (h : s.Spelling text) : ofJson text = .ok s := by
  obtain ⟨b, cs, b', hb, hs, hb', htext⟩ := h
  exact s.accepts_json.takes.read (by decide) hb hs hb' htext

/-- A transition with its members in another order, some of them left out, one `null` and one by
    its other name, after a member that is no field. -/
theorem ofJson_spelling_scattered :
    ofJson ("\x7b \"note\":[-1.5e3, \x7b\x7d], \"transitions\":[\x7b\"to\":\"b\",\"from\":null," ++
      "\"preAdaptiveFunction\":\x7b\"parameter\":[\"x\"],\"name\":\"f\"\x7d\x7d]\x7d\n") =
      .ok ⟨[⟨none, some "b", none, none, some ⟨some "f", ["x"]⟩, none⟩], [], []⟩ := by
  have hspace : Blanks [' '] := by simp [Blanks, Json.Scan.isBlank]
  have hnewline : Blanks ['\n'] := by simp [Blanks, Json.Scan.isBlank]
  have member (name : String) {T : List Char → Prop} {e : List Char} (h : T e) :
      MemberOf name T (quoted name ++ ([] ++ ':' :: ([] ++ e))) :=
    ⟨_, [], [], e, quotes_quoted name, blanks_nil, blanks_nil, h, rfl⟩
  have array {T : List Char → Prop} {e : List Char} (h : T e) : ArrayOf [T] ('[' :: (e ++ [']'])) :=
    ⟨[e], _, .cons h .nil, .cons blanks_nil blanks_nil (.nil blanks_nil), rfl⟩
  have hcall : Call.Texts ⟨some "f", ["x"]⟩ _ :=
    ⟨_, [], _, _,
      .member (.head _) (member "name" (quotes_quoted "f")) <|
      .member (.tail _ (.head _)) (member "parameter" (array (quotes_quoted "x"))) <| .nil,
      List.forall_mem_nil _, .swap _ _ _,
      .cons blanks_nil blanks_nil <| .cons blanks_nil blanks_nil <| .nil blanks_nil, rfl⟩
  have htransition :
      Transition.Texts ⟨none, some "b", none, none, some ⟨some "f", ["x"]⟩, none⟩ _ :=
    ⟨_, [], _, _,
      .member (.head _) (member "from" .null) <|
      .member (.head _) (member "to" (quotes_quoted "b")) <|
      .missing rfl <| .missing rfl <|
      .member (.head _) (member "preAdaptiveFunction" hcall) <| .missing rfl <| .nil,
      List.forall_mem_nil _, .swap _ _ _,
      .cons blanks_nil blanks_nil <| .cons blanks_nil blanks_nil <| .cons blanks_nil blanks_nil <|
      .nil blanks_nil, rfl⟩
  have digit (d : Char) (hd : d.isDigit = true) : Digits [d] :=
    ⟨List.forall_mem_singleton.2 hd, List.cons_ne_nil d []⟩
  have hnumber : AnyText ['-', '1', '.', '5', 'e', '3'] :=
    .number (.mk (.inr rfl) (digit '1' rfl) (by decide) (.some (digit '5' rfl))
      (.some (.inl rfl) (.inl rfl) (digit '3' rfl)))
  have hobject : AnyText ['\x7b', '\x7d'] :=
    @AnyText.object [] _ (List.forall_mem_nil _) (List.forall_mem_nil _) (.nil blanks_nil)
  have hvalue : AnyText _ :=
    .array (List.forall_mem_cons.2 ⟨hnumber, List.forall_mem_singleton.2 hobject⟩)
      (.cons blanks_nil blanks_nil <| .cons blanks_nil hspace <| .nil blanks_nil)
  have htexts : Texts ⟨[⟨none, some "b", none, none, some ⟨some "f", ["x"]⟩, none⟩], [], []⟩ _ :=
    ⟨_, [_], _, _,
      .member (.head _) (member "transitions" (array htransition)) <|
      .missing rfl <| .missing rfl <| .nil,
      List.forall_mem_singleton.2 ⟨"note", by decide, member "note" hvalue⟩, .swap _ _ _,
      .cons blanks_nil hspace <| .cons blanks_nil hspace <| .nil blanks_nil, rfl⟩
  exact ofJson_spelling ⟨[], _, ['\n'], blanks_nil, htexts, hnewline, by decide +kernel⟩

end Spec

end AdaptiveAutomata
