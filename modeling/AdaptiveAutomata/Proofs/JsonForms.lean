/-
  The JSON form of checkpoints.

  An identifier is read back from its written form, an image from its document as
  deep as brackets nest in it, and so is a checkpoint, which is accepted as long as
  its brackets do not nest too deep for a reader.

  * `Uuid.ofText?_text` and `Image.returns_json` are the laws of the parts,
    `Checkpoint.returns_json` that of checkpoints;
  * `Checkpoint.ofJson_toJson_copies`: what is read from the text of a checkpoint makes a copy
    of it.
-/
import AdaptiveAutomata.Proofs.Codecs
import AdaptiveAutomata.Proofs.Copies

namespace AdaptiveAutomata

open Json (Codec Reader)
open Json.Reader (Reads)

/-! ## Identifiers -/

namespace Uuid

theorem ofHex?_flatMap (bs : List UInt8) : ofHex? (bs.flatMap hexPair) = some bs := by
  induction bs with
  | nil => rfl
  | cons b bs ih =>
    have hb : UInt8.ofNat (b.toNat / 16 % 16 * 16 + b.toNat % 16) = b := by
      have := b.toNat_lt
      rw [show b.toNat / 16 % 16 * 16 + b.toNat % 16 = b.toNat by omega, UInt8.ofNat_toNat]
    rw [List.flatMap_cons, hexPair, List.cons_append, List.singleton_append, ofHex?,
      Json.Scan.hexValue?_hexDigit, Json.Scan.hexValue?_hexDigit, ih]
    simp only [Option.bind_eq_bind, Option.bind_some, hb]
    rfl

theorem unhyphenate?_hyphenate {ns : List Nat} {cs : List Char} (h : ns.sum ≤ cs.length) :
    unhyphenate? ns (hyphenate ns cs) = some cs := by
  induction ns generalizing cs with
  | nil => rfl
  | cons n ns ih =>
    rw [List.sum_cons] at h
    have hn : (cs.take n).length = n := List.length_take_of_le (by omega)
    have hdrop : (hyphenate (n :: ns) cs).drop n = '-' :: hyphenate ns (cs.drop n) := by
      rw [hyphenate, List.drop_append_of_le_length hn.ge, List.drop_of_length_le hn.le,
        List.nil_append]
    have htake : (hyphenate (n :: ns) cs).take n = cs.take n := by
      rw [hyphenate, List.take_append_of_le_length hn.ge, List.take_of_length_le hn.le]
    rw [unhyphenate?, hdrop]
    simp only [ih (show ns.sum ≤ (cs.drop n).length by rw [List.length_drop]; omega), htake]
    rw [Option.map_some, List.take_append_drop]

theorem length_hyphenate {ns : List Nat} {cs : List Char} (h : ns.sum ≤ cs.length) :
    (hyphenate ns cs).length = cs.length + ns.length := by
  induction ns generalizing cs with
  | nil => rfl
  | cons n ns ih =>
    rw [List.sum_cons] at h
    rw [hyphenate, List.length_append, List.length_cons,
      ih (show ns.sum ≤ (cs.drop n).length by rw [List.length_drop]; omega), List.length_take,
      List.length_drop, List.length_cons]
    omega

/-- **An identifier** is read back from its written form. -/
theorem ofText?_text (u : Uuid) : ofText? u.text = some u := by
  have hsum : groups.sum ≤ u.digits.length := by
    rw [length_digits]
    decide
  have hlen : (hyphenate groups u.digits).length = 36 := by
    rw [length_hyphenate hsum, length_digits]
    rfl
  obtain ⟨b, bs, hb⟩ : ∃ b bs, u.bytes = b :: bs :=
    List.exists_cons_of_length_pos (by rw [u.length_bytes]; decide)
  -- The form is told from the others by its length and its first digit.
  obtain ⟨cs, hcs⟩ : ∃ cs, hyphenate groups u.digits = Json.hexDigit (b.toNat / 16) :: cs :=
    ⟨_, by rw [digits, hb]; rfl⟩
  have hdigit : ∀ n < 16, Nat.digitChar n ≠ '\x7b' ∧ (Nat.digitChar n).toLower ≠ 'u' := by decide
  obtain ⟨hbrace, hurn⟩ := hdigit (b.toNat / 16 % 16) (Nat.mod_lt _ (by decide))
  have htext : u.text.toList = hyphenate groups u.digits := String.toList_ofList
  have h₂ : ¬ ((hyphenate groups u.digits).head? = some '\x7b' ∧
      (hyphenate groups u.digits).getLast? = some '\x7d') := by
    rintro ⟨h, -⟩
    rw [hcs] at h
    exact hbrace (Option.some.inj h)
  have h₃ : ((hyphenate groups u.digits).take 9).map Char.toLower ≠ urn := by
    rw [hcs]
    exact fun h => hurn (List.head_eq_of_cons_eq h)
  rw [ofText?]
  simp only [htext]
  rw [if_neg (by omega), if_neg h₂, if_neg h₃, ofGrouped?, unhyphenate?_hyphenate hsum,
    Option.bind_some, digits, ofHex?_flatMap, Option.bind_some, ofBytes?_bytes]

theorem returns_json (u : Uuid) : json.Returns u := (Codec.returns_text u.text).via u.ofText?_text

end Uuid

/-! ## Images -/

namespace Reference

variable {α : Type} [Inhabited α] {c : Codec α}

theorem returns_json {r : Reference α} (h : ∀ a ∈ r.components, c.Returns a) :
    (Reference.json c).Returns r := by
  refine .record ?_ (show ["name", "arguments"].Nodup by decide)
  refine .cons (Json.Field.moves_required (h _ List.mem_cons_self)) ?_
  refine .cons (Json.Field.moves_required (.list fun a ha => h a (List.mem_cons_of_mem _ ha))) ?_
  exact .nil

end Reference

namespace Image

theorem toJson_ne_null (a : Image) : a.toJson ≠ .null := by
  cases a <;> exact Json.noConfusion

theorem CellImage.returns_json {c : Codec Image} {x : CellImage}
    (h : ∀ a ∈ x.binding, c.Returns a) (hc : ∀ a, c.toJson a ≠ .null) : (cellJson c).Returns x := by
  refine .record ?_ (show ["id", "binding"].Nodup by decide)
  refine .cons (Json.Field.moves_required x.id.returns_json) ?_
  refine .cons (Json.Field.moves_nullable h hc) ?_
  exact .nil

theorem depth_lt_call (a : Image) : a.toJson.depth < (call a).toJson.depth := by
  rw [toJson]
  exact Json.depth_member_lt (List.mem_singleton_self _)

theorem depth_lt_action {a b : Image} {as : List Image} (hb : b ∈ a :: as) :
    b.toJson.depth < (action a as).toJson.depth := by
  rw [toJson, toJsons_eq_map]
  have hc : b.toJson.depth < (Json.object
      [("name", a.toJson), ("arguments", .array (as.map toJson))]).depth := by
    rcases List.mem_cons.1 hb with rfl | hb
    · exact Json.depth_member_lt List.mem_cons_self
    · exact (Json.depth_item_lt (List.mem_map_of_mem hb)).trans
        (Json.depth_member_lt (List.mem_cons_of_mem _ (List.mem_singleton_self _)))
  exact hc.trans (Json.depth_member_lt (List.mem_singleton_self _))

theorem depth_lt_bound (id : Uuid) (a : Image) : a.toJson.depth < (bound id a).toJson.depth := by
  rw [toJson]
  have hc : a.toJson.depth < (Json.object [("id", .string id.text), ("binding", a.toJson)]).depth :=
    Json.depth_member_lt (List.mem_cons_of_mem _ (List.mem_singleton_self _))
  exact hc.trans (Json.depth_member_lt (List.mem_singleton_self _))

/-- An image is read from its document as deep as brackets nest in it. -/
theorem reads_readerWithin {n : Nat} {a : Image} (h : a.toJson.depth ≤ n) :
    Reads (readerWithin (n + 1)) a.toJson a := by
  induction a using Image.induct generalizing n with
  | epsilon => exact Json.Reader.reads_tagged_unit rfl
  | state name => exact .tagged rfl ((Json.Reader.reads_text name).map state)
  | symbol name => exact .tagged rfl ((Json.Reader.reads_text name).map symbol)
  | literal name => exact .tagged rfl ((Json.Reader.reads_text name).map literal)
  | call a ih =>
    have hd := depth_lt_call a
    obtain ⟨n, rfl⟩ : ∃ m, n = m + 1 := ⟨n - 1, by omega⟩
    exact .tagged rfl ((ih (by omega)).map call)
  | action a as ih ihs =>
    have hd (b : Image) (hb : b ∈ a :: as) := depth_lt_action hb
    obtain ⟨n, rfl⟩ : ∃ m, n = m + 1 := ⟨n - 1, by have := hd a List.mem_cons_self; omega⟩
    have hr : (Reference.json ⟨toJson, readerWithin (n + 1)⟩).Returns ⟨a, as⟩ := by
      refine Reference.returns_json fun b hb => ?_
      have := hd b hb
      rcases List.mem_cons.1 hb with rfl | hb
      · exact ih (by omega)
      · exact ihs b hb (by omega)
    rw [toJson, toJsons_eq_map]
    exact .tagged rfl (hr.map fun r => action r.name r.arguments)
  | free id =>
    have hc : (cellJson ⟨toJson, readerWithin n⟩).Returns ⟨id, none⟩ :=
      CellImage.returns_json (fun _ h => absurd h (Option.not_mem_none _)) toJson_ne_null
    exact .tagged rfl (hc.map CellImage.toImage)
  | bound id a ih =>
    have hd := depth_lt_bound id a
    obtain ⟨n, rfl⟩ : ∃ m, n = m + 1 := ⟨n - 1, by omega⟩
    have hc : (cellJson ⟨toJson, readerWithin (n + 1)⟩).Returns ⟨id, some a⟩ := by
      refine CellImage.returns_json (fun b hb => ?_) toJson_ne_null
      cases hb
      exact ih (by omega)
    exact .tagged rfl (hc.map CellImage.toImage)

/-- **An image** is read back from its document. -/
theorem returns_json (a : Image) : json.Returns a := fun _ _ _ _ hd hm hb hw hr =>
  reads_readerWithin (hd.trans hm) hd hm hb hw hr

end Image

/-! ## Entries and checkpoints -/

theorem Entry.returns_json {α : Type} [Inhabited α] {c : Codec α} {e : Entry α}
    (h : ∀ a ∈ e.components, c.Returns a) : (Entry.json c).Returns e := by
  have call {r : Reference α} (hr : r ∈ e.calls) : (Reference.json c).Returns r :=
    Reference.returns_json fun a ha => h a (mem_components_of_mem_calls hr ha)
  refine .record ?_ (show ["pre", "from", "middle", "to", "post"].Nodup by decide)
  refine .cons (Json.Field.moves_nullable (fun r hr => call (mem_calls_of_prior hr))
    Codec.toJson_record_ne_null).withDefault ?_
  refine .cons (Json.Field.moves_required (h e.source (by simp [mem_components]))) ?_
  refine .cons (Json.Field.moves_required (h e.label (by simp [mem_components]))) ?_
  refine .cons (Json.Field.moves_required (h e.target (by simp [mem_components]))) ?_
  refine .cons (Json.Field.moves_nullable (fun r hr => call (mem_calls_of_posterior hr))
    Codec.toJson_record_ne_null).withDefault ?_
  exact .nil

namespace Checkpoint

theorem returns_json {c : Checkpoint Image} (ht : Instant.ofText? c.time.text = some c.time) :
    (json Image.json).Returns c := by
  refine .record ?_ (show ["version", "id", "timestamp", "entries", "generator_next",
    "main"].Nodup by decide)
  refine .cons (Json.Field.moves_required (Codec.returns_word32 _)) ?_
  refine .cons (Json.Field.moves_required (Codec.returns_text _)) ?_
  refine .cons (Json.Field.moves_required ((Codec.returns_text _).via ht)) ?_
  refine .cons (Json.Field.moves_required (.list fun e _ => ?_)) ?_
  · exact Entry.returns_json fun a _ => a.returns_json
  refine .cons (Json.Field.moves_required (Codec.returns_word64 _)) ?_
  refine .cons Json.Field.moves_nullable_text ?_
  exact .nil

/-- **The text of a checkpoint**, if its brackets nest to 127 levels at most, is read
    back to it, and what is made of it is the same node by node.  Where the cells of
    the checkpoint are in the store, it is a copy in that store. -/
theorem ofJson_toJson_copies {s : Store} {c : Checkpoint Value} (hc : c.Regular s)
    (hs : ∀ x, c.Holds s x → x.place < s.size)
    (hd : ((json Image.json).toJson (c.image s)).depth ≤ 127) :
    ofJson (c.image s).toJson = .ok (c.image s) ∧
      Related (s.Alike ((c.image s).load s).2) c ((c.image s).load s).1 ∧
      Copies ((c.image s).load s).2 c ((c.image s).load s).1 := by
  refine ⟨?_, hc.alike_load_image s, hc.copies_load_image hs⟩
  have ht : Instant.ofText? (c.image s).time.text = some (c.image s).time := hc.time
  have hread := Codec.read_pretty (returns_json ht) hd
  rw [ofJson, toJson, hread]
  exact accept_eq_ok_iff.2 ⟨rfl, hc.version⟩

theorem ofJson_sample :
    ofJson sample.toJson = .ok sample ∧
      Copies (sample.load sampleMade.2).2 sampleMade.1 (sample.load sampleMade.2).1 := by
  have hd : ((json Image.json).toJson sample).depth ≤ 127 := by decide +kernel
  have h := ofJson_toJson_copies regular_sampleMade (fun x hx => (place_of_holds_load hx).2)
    (by rwa [image_sampleMade])
  rw [image_sampleMade] at h
  exact ⟨h.1, h.2.2⟩

end Checkpoint

end AdaptiveAutomata
