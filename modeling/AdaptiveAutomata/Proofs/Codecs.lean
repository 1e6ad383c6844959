/-
  Laws of the codecs: what is written of a value is read as it.

  A field of a record is either written, and then read into the record by the slot
  of its name, or left out, and then the record has its value already.  So the
  members of the written object fill the record field by field.

  * `Codec.Returns` is the law of a codec at a value, with a rule for every way to
    make a codec; `Field.Moves` is that of a field;
  * `Codec.Returns.record`: a record returns if all its fields move;
  * `Codec.read_pretty`: the text of a value that returns is read as the value,
    unless its brackets nest too deep.
-/
import AdaptiveAutomata.Json.Codec
import AdaptiveAutomata.Proofs.Readers
import Mathlib.Data.List.Flatten

namespace AdaptiveAutomata

namespace Json

open Reader (Reads Slot Fills)

variable {α β σ : Type}

namespace Codec

variable {c : Codec α} {d : Codec β} {a : α}

/-- What is written of the value is read as it. -/
def Returns (c : Codec α) (a : α) : Prop := Reads c.reader (c.toJson a) a

/-- **Writing and reading** gives the value back. -/
theorem read_pretty (h : c.Returns a) (hd : (c.toJson a).depth ≤ Reader.maxDepth) :
    c.read (c.pretty a) = .ok a := by
  have hw := writes_write Layout.isBlank_pretty 0 (c.toJson a)
  refine Reader.Takes.read h hd blanks_nil hw blanks_nil ?_
  rw [List.nil_append, List.append_nil]
  exact String.toList_ofList

/-! ## Plain values -/

theorem returns_text (s : String) : text.Returns s := Reader.reads_text s

theorem returns_word32 (n : UInt32) : word32.Returns n := by
  have := (Reader.reads_natural (lt_trans n.toNat_lt (by decide)) n.toNat_lt).map UInt32.ofNat
  rwa [UInt32.ofNat_toNat] at this

theorem returns_word64 (n : UInt64) : word64.Returns n := by
  have := (Reader.reads_natural n.toNat_lt n.toNat_lt).map UInt64.ofNat
  rwa [UInt64.ofNat_toNat] at this

theorem Returns.nullable {o : Option α} (h : ∀ a ∈ o, c.Returns a)
    (hc : ∀ a, c.toJson a ≠ .null) : c.nullable.Returns o := by
  cases o with
  | none => exact Reader.reads_nullable_null c.reader
  | some a => exact Reads.nullable (h a rfl) (hc a)

theorem Returns.list {as : List α} (h : ∀ a ∈ as, c.Returns a) : c.list.Returns as := Reads.list h

theorem toJson_text_ne_null (s : String) : text.toJson s ≠ .null := Json.noConfusion

theorem toJson_record_ne_null {blank : σ} {fields : List (Field σ)} (x : σ) :
    (record blank fields).toJson x ≠ .null := Json.noConfusion

theorem Returns.via {toOther : α → β} {ofOther? : β → Option α} (h : d.Returns (toOther a))
    (ha : ofOther? (toOther a) = some a) : (d.via toOther ofOther?).Returns a := Reads.refine h ha

end Codec

/-! ## Fields -/

/-- A field takes its value in `x` into the record `y`, which becomes `z`: it is
    written and read into `y`, or left out and `y` has its value already. -/
inductive Field.Moves (f : Field σ) (x : σ) : (y z : σ) → Prop
  | written {j : Json} {set : σ → σ} {y : σ} (hw : f.write x = some j)
      (hn : f.name ∈ f.slot.names) (hr : Reads f.slot.read j set) : Moves f x y (set y)
  | omitted {y : σ} (hw : f.write x = none) (hp : f.slot.presence ≠ .required) : Moves f x y y

/-- The fields take their values one after the other. -/
inductive Field.MovesAll (x : σ) : List (Field σ) → (y z : σ) → Prop
  | nil {y : σ} : MovesAll x [] y y
  | cons {f : Field σ} {fs : List (Field σ)} {y y' z : σ} (hf : f.Moves x y y')
      (h : MovesAll x fs y' z) : MovesAll x (f :: fs) y z

namespace Field

variable {c : Codec α} {name : String} {x y z : σ}

theorem moves_required {get : σ → α} {set : α → σ → σ} (h : c.Returns (get x)) :
    (required name c get set).Moves x y (set (get x) y) :=
  .written rfl (List.mem_singleton.2 rfl) (h.map set)

theorem moves_defaulted {get : σ → α} {set : α → σ → σ} (h : c.Returns (get x)) :
    (defaulted name c get set).Moves x y (set (get x) y) :=
  .written rfl (List.mem_singleton.2 rfl) (h.map set)

theorem moves_nullable {get : σ → Option α} {set : Option α → σ → σ}
    (h : ∀ a ∈ get x, c.Returns a) (hc : ∀ a, c.toJson a ≠ .null) :
    (nullable name c get set).Moves x y (set (get x) y) :=
  .written rfl (List.mem_singleton.2 rfl) ((Codec.Returns.nullable h hc).map set)

/-- A field that is left out when missing, read into a record in which it is
    missing. -/
theorem moves_omitted {get : σ → Option α} {set : Option α → σ → σ}
    (h : ∀ a ∈ get x, c.Returns a) (hc : ∀ a, c.toJson a ≠ .null) (hy : set none y = y) :
    (omitted name c get set).Moves x y (set (get x) y) := by
  have hw : (omitted name c get set).write x = (get x).map c.toJson := rfl
  cases hx : get x with
  | none =>
    rw [hx] at hw
    rw [hy]
    exact .omitted hw Reader.Presence.noConfusion
  | some a =>
    rw [hx] at hw
    have hr : Reads (fun depth => set <$> c.nullable.reader depth) (c.toJson a) (set (some a)) :=
      (Reads.nullable (h a hx) (hc a)).map set
    exact .written hw (List.mem_singleton.2 rfl) hr

theorem moves_nullable_text {get : σ → Option String} {set : Option String → σ → σ} :
    (nullable name .text get set).Moves x y (set (get x) y) :=
  moves_nullable (fun s _ => Codec.returns_text s) Codec.toJson_text_ne_null

theorem moves_omitted_text {get : σ → Option String} {set : Option String → σ → σ}
    (hy : set none y = y) : (omitted name .text get set).Moves x y (set (get x) y) :=
  moves_omitted (fun s _ => Codec.returns_text s) Codec.toJson_text_ne_null hy

theorem moves_defaulted_texts {get : σ → List String} {set : List String → σ → σ} :
    (defaulted name (.list .text) get set).Moves x y (set (get x) y) :=
  moves_defaulted (.list fun s _ => Codec.returns_text s)

theorem Moves.withDefault {f : Field σ} (h : f.Moves x y z) : f.withDefault.Moves x y z := by
  cases h with
  | written hw hn hr => exact .written hw hn hr
  | omitted hw _ => exact .omitted hw Reader.Presence.noConfusion

theorem Moves.alsoCalled {f : Field σ} (h : f.Moves x y z) (other : String) :
    (f.alsoCalled other).Moves x y z := by
  cases h with
  | written hw hn hr => exact .written hw (List.mem_append_left _ hn) hr
  | omitted hw hp => exact .omitted hw hp

/-! ## Records -/

/-- A name of one slot is none of the others, if no name is there twice. -/
theorem not_has_of_nodup {ps qs : List (Slot σ)} {s t : Slot σ}
    (hn : ((ps ++ s :: qs).flatMap (·.names)).Nodup) (hname : name ∈ s.names)
    (ht : t ∈ ps ++ qs) : t.has name = false := by
  rw [Slot.has, ← Bool.not_eq_true, List.contains_iff_mem]
  intro hnt
  rw [List.flatMap_append, List.flatMap_cons, List.nodup_append, List.nodup_append] at hn
  obtain ⟨-, ⟨-, -, hqs⟩, hps⟩ := hn
  rcases List.mem_append.1 ht with ht | ht
  · exact hps name (List.mem_flatMap.2 ⟨t, ht, hnt⟩) name (List.mem_append_left _ hname) rfl
  · exact hqs name hname name (List.mem_flatMap.2 ⟨t, ht, hnt⟩) rfl

theorem has_of_mem {s : Slot σ} (h : name ∈ s.names) : s.has name = true :=
  List.contains_iff_mem.2 h

/-- The slot of a name is found among others, and nothing else goes with it. -/
theorem find?_slot {ps qs : List (Slot σ)} {s : Slot σ}
    (hn : ((ps ++ s :: qs).flatMap (·.names)).Nodup) (hname : name ∈ s.names) :
    (ps ++ s :: qs).find? (·.has name) = some s ∧
      (ps ++ s :: qs).filter (!·.has name) = ps ++ qs := by
  have hps (t : Slot σ) (ht : t ∈ ps) := not_has_of_nodup hn hname (List.mem_append_left qs ht)
  have hqs (t : Slot σ) (ht : t ∈ qs) := not_has_of_nodup hn hname (List.mem_append_right ps ht)
  constructor
  · rw [List.find?_append, List.find?_eq_none.2 fun t ht => by simp [hps t ht],
      Option.none_or]
    exact List.find?_cons_of_pos (has_of_mem hname)
  · have hs : (s :: qs).filter (!·.has name) = qs.filter (!·.has name) :=
      List.filter_cons_of_neg (by simp [has_of_mem hname])
    rw [List.filter_append, hs, List.filter_eq_self.2 fun t ht => by simp [hps t ht],
      List.filter_eq_self.2 fun t ht => by simp [hqs t ht]]

/-- Fields that move fill a record, also where other fields are pending that need not
    be present. -/
theorem MovesAll.fills {fields : List (Field σ)} {skipped : List (Slot σ)}
    (h : MovesAll x fields y z) (hs : ∀ s ∈ skipped, s.presence ≠ .required)
    (hn : ((skipped ++ fields.map (·.slot)).flatMap (·.names)).Nodup) :
    Fills (skipped ++ fields.map (·.slot)) y
      (fields.filterMap fun f => (f.write x).map (f.name, ·)) z := by
  induction h generalizing skipped with
  | nil =>
    rw [List.map_nil, List.append_nil]
    exact .nil hs
  | @cons f fs y y' z hf _ ih =>
    rw [List.map_cons] at hn ⊢
    cases hf with
    | @written j set y hw hname hr =>
      obtain ⟨hfind, hfilter⟩ := find?_slot hn hname
      rw [List.filterMap_cons_some (by rw [hw]; rfl)]
      refine .cons hfind hr ?_
      rw [hfilter]
      refine ih hs (hn.sublist ?_)
      exact ((List.sublist_cons_self _ _).append_left skipped).flatMap _
    | omitted hw hp =>
      rw [List.filterMap_cons_none (by rw [hw]; rfl), List.append_cons]
      rw [List.append_cons] at hn
      refine ih (fun s hmem => ?_) hn
      rcases List.mem_append.1 hmem with hmem | hmem
      · exact hs s hmem
      · exact List.mem_singleton.1 hmem ▸ hp

end Field

/-- **A record** returns if its fields move, and no two of them go by one name. -/
theorem Codec.Returns.record {blank x : σ} {fields : List (Field σ)}
    (h : Field.MovesAll x fields blank x) (hn : (fields.flatMap (·.slot.names)).Nodup) :
    (Codec.record blank fields).Returns x := by
  refine Fills.reads (h.fills (fun s (hs : s ∈ []) => absurd hs List.not_mem_nil) ?_)
  rwa [List.nil_append, List.flatMap_map]

/-! ## Depth -/

/-- Nothing that is written nests deeper. -/
def Codec.Within (c : Codec α) (n : Nat) : Prop := ∀ a, (c.toJson a).depth ≤ n

/-- Nothing that is written of the field nests deeper. -/
def Field.Within (f : Field σ) (n : Nat) : Prop := ∀ x, ∀ j ∈ f.write x, j.depth ≤ n

namespace Codec

variable {c : Codec α} {n : Nat}

theorem within_text (n : Nat) : text.Within n := fun _ => Nat.zero_le n

theorem Within.nullable (h : c.Within n) : c.nullable.Within n
  | none => Nat.zero_le n
  | some a => h a

theorem Within.list (h : c.Within n) : c.list.Within (n + 1) := fun _ =>
  depth_array_le_iff.2 fun _ hj => by
    obtain ⟨a, -, rfl⟩ := List.mem_map.1 hj
    exact h a

theorem Within.record {blank : σ} {fields : List (Field σ)} (h : fields.Forall (·.Within n)) :
    (Codec.record blank fields).Within (n + 1) := fun x =>
  depth_object_le_iff.2 fun m hm => by
    obtain ⟨f, hf, hm⟩ := List.mem_filterMap.1 hm
    obtain ⟨j, hj, rfl⟩ := Option.map_eq_some_iff.1 hm
    exact List.forall_iff_forall_mem.1 h f hf x j hj

end Codec

namespace Field

variable {c : Codec α} {n : Nat} {name : String}

theorem within_defaulted {get : σ → α} {set : α → σ → σ} (h : c.Within n) :
    (defaulted name c get set).Within n := fun x j hj => by
  cases hj
  exact h (get x)

theorem within_nullable {get : σ → Option α} {set : Option α → σ → σ} (h : c.Within n) :
    (nullable name c get set).Within n := fun x j hj => by
  cases hj
  exact h.nullable (get x)

theorem within_omitted {get : σ → Option α} {set : Option α → σ → σ} (h : c.Within n) :
    (omitted name c get set).Within n := fun x j hj => by
  obtain ⟨a, -, rfl⟩ := Option.map_eq_some_iff.1 hj
  exact h a

theorem Within.withDefault {f : Field σ} (h : f.Within n) : f.withDefault.Within n := h

theorem Within.alsoCalled {f : Field σ} (h : f.Within n) (other : String) :
    (f.alsoCalled other).Within n := h

end Field

end Json

end AdaptiveAutomata
