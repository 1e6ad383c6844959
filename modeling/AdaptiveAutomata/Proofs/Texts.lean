/-
  The texts of a document.

  Between the tokens of a document any blanks may stand, so it has many texts.
  `Writes` is the grammar: the items of an array and the members of an object are
  a `Row` of texts up to the closing bracket.

  * `Json.writes_write`: what is written under a layout of blanks is a text of the
    document;
  * `exists_cons_of_writes` says how a text begins, `Json.depth` how many brackets stand
    inside each other.
-/
import AdaptiveAutomata.Proofs.Tokens
import Mathlib.Data.List.Forall2

namespace AdaptiveAutomata

namespace Json

/-! ## Induction over documents -/

mutual

/-- **Induction over documents**, with a hypothesis for each item and each member. -/
theorem induct {P : Json → Prop} (null : P .null) (bool : ∀ b, P (.bool b))
    (number : ∀ n, P (.number n)) (string : ∀ s, P (.string s))
    (array : ∀ items, (∀ j ∈ items, P j) → P (.array items))
    (object : ∀ members, (∀ m ∈ members, P m.2) → P (.object members)) : ∀ j, P j
  | .null => null
  | .bool b => bool b
  | .number n => number n
  | .string s => string s
  | .array items => array items (inductItems null bool number string array object items)
  | .object members => object members (inductMembers null bool number string array object members)
termination_by structural j => j

theorem inductItems {P : Json → Prop} (null : P .null) (bool : ∀ b, P (.bool b))
    (number : ∀ n, P (.number n)) (string : ∀ s, P (.string s))
    (array : ∀ items, (∀ j ∈ items, P j) → P (.array items))
    (object : ∀ members, (∀ m ∈ members, P m.2) → P (.object members)) :
    ∀ items : List Json, ∀ j ∈ items, P j
  | [] => fun _ h => absurd h List.not_mem_nil
  | item :: items => List.forall_mem_cons.2
      ⟨induct null bool number string array object item,
        inductItems null bool number string array object items⟩
termination_by structural items => items

theorem inductMembers {P : Json → Prop} (null : P .null) (bool : ∀ b, P (.bool b))
    (number : ∀ n, P (.number n)) (string : ∀ s, P (.string s))
    (array : ∀ items, (∀ j ∈ items, P j) → P (.array items))
    (object : ∀ members, (∀ m ∈ members, P m.2) → P (.object members)) :
    ∀ members : List (String × Json), ∀ m ∈ members, P m.2
  | [] => fun _ h => absurd h List.not_mem_nil
  | member :: members => List.forall_mem_cons.2
      ⟨inductMember null bool number string array object member,
        inductMembers null bool number string array object members⟩
termination_by structural members => members

theorem inductMember {P : Json → Prop} (null : P .null) (bool : ∀ b, P (.bool b))
    (number : ∀ n, P (.number n)) (string : ∀ s, P (.string s))
    (array : ∀ items, (∀ j ∈ items, P j) → P (.array items))
    (object : ∀ members, (∀ m ∈ members, P m.2) → P (.object members)) :
    ∀ member : String × Json, P member.2
  | (_, value) => induct null bool number string array object value
termination_by structural member => member

end

/-! ## Depth -/

mutual

/-- How many brackets stand inside each other. -/
def depth : Json → Nat
  | .null | .bool _ | .number _ | .string _ => 0
  | .array items => depths items + 1
  | .object members => memberDepths members + 1
termination_by structural j => j

/-- The greatest depth of several documents. -/
def depths : List Json → Nat
  | [] => 0
  | item :: items => max (depth item) (depths items)
termination_by structural items => items

/-- The greatest depth of several members. -/
def memberDepths : List (String × Json) → Nat
  | [] => 0
  | member :: members => max (memberDepth member) (memberDepths members)
termination_by structural members => members

def memberDepth : String × Json → Nat
  | (_, value) => depth value
termination_by structural member => member

end

theorem depth_array_le_iff {items : List Json} {n : Nat} :
    (array items).depth ≤ n + 1 ↔ ∀ j ∈ items, j.depth ≤ n := by
  rw [depth, Nat.add_le_add_iff_right]
  induction items with
  | nil => simp [depths]
  | cons j items ih => rw [depths, Nat.max_le, ih, List.forall_mem_cons]

theorem depth_object_le_iff {members : List (String × Json)} {n : Nat} :
    (object members).depth ≤ n + 1 ↔ ∀ m ∈ members, m.2.depth ≤ n := by
  rw [depth, Nat.add_le_add_iff_right]
  induction members with
  | nil => simp [memberDepths]
  | cons m members ih => rw [memberDepths, Nat.max_le, ih, List.forall_mem_cons, memberDepth]

theorem depth_item_lt {items : List Json} {j : Json} (h : j ∈ items) :
    j.depth < (array items).depth :=
  Nat.lt_succ_of_le (depth_array_le_iff.1 le_rfl j h)

theorem depth_member_lt {members : List (String × Json)} {name : String} {j : Json}
    (h : (name, j) ∈ members) : j.depth < (object members).depth :=
  Nat.lt_succ_of_le (depth_object_le_iff.1 le_rfl _ h)

/-! ## Texts -/

/-- A row of texts up to a closing bracket: a comma before each, but `lead` before
    the first. -/
inductive Row (close : Char) : (lead : List Char) → List (List Char) → List Char → Prop
  | nil {lead b : List Char} (hb : Blanks b) : Row close lead [] (b ++ [close])
  | cons {lead b b' d cs : List Char} {ds : List (List Char)} (hb : Blanks b) (hb' : Blanks b')
      (h : Row close [','] ds cs) : Row close lead (d :: ds) (b ++ (lead ++ (b' ++ (d ++ cs))))

/-- The texts of a string. -/
def Quotes (s : String) (q : List Char) : Prop :=
  ∃ cs, Scan.Spells s.toList cs ∧ q = '"' :: (cs ++ ['"'])

/-- The texts of an array, given those of its items. -/
def ArrayOf (items : List (List Char → Prop)) (cs : List Char) : Prop :=
  ∃ ds tail, List.Forall₂ (fun T d => T d) items ds ∧ Row ']' [] ds tail ∧ cs = '[' :: tail

/-- The texts of a member of an object, given those of its value. -/
def MemberOf (name : String) (T : List Char → Prop) (d : List Char) : Prop :=
  ∃ q b b' e, Quotes name q ∧ Blanks b ∧ Blanks b' ∧ T e ∧ d = q ++ (b ++ ':' :: (b' ++ e))

theorem quotes_quoted (s : String) : Quotes s (quoted s) :=
  ⟨_, Scan.spells_flatMap_escape s.toList, rfl⟩

theorem MemberOf.ne_nil {name : String} {T : List Char → Prop} {d : List Char}
    (h : MemberOf name T d) : d ≠ [] := by
  obtain ⟨_, b, b', e, ⟨cs, -, rfl⟩, -, -, -, rfl⟩ := h
  exact List.cons_ne_nil _ _

theorem MemberOf.imp {name : String} {T U : List Char → Prop} {d : List Char}
    (h : MemberOf name T d) (hT : ∀ cs, T cs → U cs) : MemberOf name U d := by
  obtain ⟨q, b, b', e, hq, hb, hb', he, rfl⟩ := h
  exact ⟨q, b, b', e, hq, hb, hb', hT e he, rfl⟩

mutual

/-- The texts of a document, without blanks around them. -/
inductive Writes : Json → List Char → Prop
  | null : Writes .null ['n', 'u', 'l', 'l']
  | true : Writes (.bool true) ['t', 'r', 'u', 'e']
  | false : Writes (.bool false) ['f', 'a', 'l', 's', 'e']
  | number (n : Nat) : Writes (.number n) (Nat.toDigits 10 n)
  | string (s : String) : Writes (.string s) (quoted s)
  | array {items : List Json} {ds : List (List Char)} {cs : List Char}
      (h : List.Forall₂ Writes items ds) (hr : Row ']' [] ds cs) : Writes (.array items) ('[' :: cs)
  | object {members : List (String × Json)} {ds : List (List Char)} {cs : List Char}
      (h : List.Forall₂ WritesMember members ds) (hr : Row '}' [] ds cs) :
      Writes (.object members) ('{' :: cs)

/-- The texts of a member of an object. -/
inductive WritesMember : String × Json → List Char → Prop
  | mk {name : String} {j : Json} {b b' cs : List Char} (hb : Blanks b) (hb' : Blanks b')
      (h : Writes j cs) : WritesMember (name, j) (quoted name ++ (b ++ ':' :: (b' ++ cs)))

end

/-! ## Written texts -/

/-- A layout that has nothing but blanks between tokens. -/
structure Layout.IsBlank (l : Layout) : Prop where
  line : ∀ level, Blanks (l.line level)
  colon : ∃ b b', Blanks b ∧ Blanks b' ∧ l.colon = b ++ ':' :: b'

theorem Layout.isBlank_pretty : Layout.pretty.IsBlank where
  line level c hc := by
    rcases List.mem_cons.1 hc with rfl | hc
    · rfl
    · rw [List.eq_of_mem_replicate hc]
      rfl
  colon := ⟨[], [' '], blanks_nil, by simp [Blanks, Scan.isBlank], rfl⟩

theorem row_writeItems {l : Layout} (hl : l.IsBlank) (level : Nat) (lead : List Char)
    (items : List Json) {b : List Char} (hb : Blanks b) :
    Row ']' lead (items.map (write l level)) (writeItems l level lead items ++ (b ++ [']'])) := by
  induction items generalizing lead with
  | nil => exact .nil hb
  | cons item items ih =>
    rw [writeItems]
    simp only [List.append_assoc]
    exact .cons blanks_nil (hl.line level) (ih [','])

theorem row_writeMembers {l : Layout} (hl : l.IsBlank) (level : Nat) (lead : List Char)
    (members : List (String × Json)) {b : List Char} (hb : Blanks b) :
    Row '}' lead (members.map (writeMember l level))
      (writeMembers l level lead members ++ (b ++ ['}'])) := by
  induction members generalizing lead with
  | nil => exact .nil hb
  | cons member members ih =>
    rw [writeMembers]
    simp only [List.append_assoc]
    exact .cons blanks_nil (hl.line level) (ih [','])

/-- **What is written** of a document under a layout of blanks is one of its texts. -/
theorem writes_write {l : Layout} (hl : l.IsBlank) (level : Nat) (j : Json) :
    Writes j (write l level j) := by
  have hline (p : Bool) (n : Nat) : Blanks (if p then [] else l.line n) := by
    split
    · exact blanks_nil
    · exact hl.line n
  induction j using Json.induct generalizing level with
  | null => exact .null
  | bool b => cases b <;> constructor
  | number n => exact .number n
  | string s => exact .string s
  | array items ih =>
    rw [write]
    refine .array (List.forall₂_map_right_iff.2 (List.forall₂_same.2 fun j hj => ih j hj _))
      (row_writeItems hl (level + 1) [] items (hline _ level))
  | object members ih =>
    obtain ⟨b, b', hb, hb', hc⟩ := hl.colon
    rw [write]
    refine .object (List.forall₂_map_right_iff.2 (List.forall₂_same.2 fun m hm => ?_))
      (row_writeMembers hl (level + 1) [] members (hline _ level))
    obtain ⟨name, value⟩ := m
    rw [writeMember, hc, List.append_assoc, List.cons_append]
    exact .mk hb hb' (ih _ hm _)

/-! ## How texts begin -/

/-- A text begins with a character that is no blank and no end, and with an `n` only
    if it is `null`. -/
theorem exists_cons_of_writes {j : Json} {cs : List Char} (h : Writes j cs) :
    ∃ c ds, cs = c :: ds ∧ Scan.isBlank c = false ∧ c ≠ ']' ∧ (j ≠ .null → c ≠ 'n') := by
  cases h with
  | null => exact ⟨_, _, rfl, rfl, by decide, fun h => absurd rfl h⟩
  | number n =>
    obtain ⟨d, ds, hds⟩ := List.exists_cons_of_ne_nil (Nat.toDigits_ne_nil (n := n) (b := 10))
    have hd : d.isDigit = true := Scan.isDigit_of_mem_toDigits (hds ▸ List.mem_cons_self)
    have ne {c : Char} (hc : c.isDigit = false) : d ≠ c := by
      rintro rfl
      rw [hd] at hc
      cases hc
    exact ⟨d, ds, hds, Scan.isBlank_of_isDigit hd, ne rfl, fun _ => ne rfl⟩
  | true | false | string | array | object => exact ⟨_, _, rfl, rfl, by decide, fun _ => by decide⟩

theorem Row.ends {close : Char} {ds : List (List Char)} {cs : List Char} (h : Row close [','] ds cs)
    (hc : close = ']' ∨ close = '}') (rest : List Char) : Ends (cs ++ rest) := by
  cases h with
  | nil hb =>
    rw [List.append_assoc]
    exact ends_append hb (.inr hc) rest
  | cons hb _ _ =>
    simp only [List.append_assoc]
    exact ends_append hb (.inl rfl) _

/-- A row of texts that are not empty is longer than there are texts. -/
theorem Row.length_lt {close : Char} {lead : List Char} {ds : List (List Char)} {cs : List Char}
    (h : Row close lead ds cs) (hne : ∀ d ∈ ds, d ≠ []) : ds.length < cs.length := by
  induction h with
  | nil _ =>
    rw [List.length_append]
    exact Nat.lt_of_lt_of_le Nat.one_pos (Nat.le_add_left _ _)
  | cons _ _ _ ih =>
    obtain ⟨hd, hds⟩ := List.forall_mem_cons.1 hne
    have := ih hds
    have := List.length_pos_iff.2 hd
    simp only [List.length_append, List.length_cons]
    omega

theorem WritesMember.memberOf {name : String} {j : Json} {d : List Char}
    (h : WritesMember (name, j) d) : MemberOf name (Writes j) d := by
  cases h with
  | mk hb hb' hw => exact ⟨_, _, _, _, quotes_quoted name, hb, hb', hw, rfl⟩

end Json

end AdaptiveAutomata
