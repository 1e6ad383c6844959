/-
  The binary form of checkpoints.

  The bytes of a checkpoint are read back to it, whatever follows them, and
  bytes that are read begin with those that would be written.  Only the text of
  an instant has more than one form.

  * `Image.exact_binary` and `Image.faithful_binary` are the laws of images,
    `Checkpoint.faithful_binary` that of checkpoints;
  * `Checkpoint.ofBinary_toBinary_append` says both of checkpoints.
-/
import AdaptiveAutomata.Proofs.Decoding
import AdaptiveAutomata.Proofs.Loading

namespace AdaptiveAutomata

open Binary (Codec Decoder)
open Binary.Decoder (Reads bind_eq_some_iff pure_eq_some_iff map_eq_some_iff refine_eq_some_iff)

/-! ## Calls and identifiers -/

namespace Uuid

theorem faithful_binary (u : Uuid) : binary.Faithful u :=
  (Codec.faithful_blob u.bytes).via (ofBytes?_bytes u)

theorem exact_binary : binary.Exact :=
  Codec.exact_blob.via fun bs u h => by
    rw [ofBytes?] at h
    split at h
    · rw [← Option.some.inj h]
    · cases h

end Uuid

namespace Reference

variable {α : Type} {c : Codec α}

theorem faithful_binary {r : Reference α} (h : ∀ a ∈ r.components, c.Faithful a)
    (hne : ∀ a, c.encode a ≠ []) : (Reference.binary c).Faithful r := by
  refine Codec.Faithful.map ?_ rfl
  refine (h _ List.mem_cons_self).pair (.list (fun a ha => ?_) fun a _ => hne a)
  exact h a (List.mem_cons_of_mem _ ha)

/-- The encodings of the components are no longer than that of the call. -/
theorem length_encode_le {r : Reference α} (hne : ∀ a, c.encode a ≠ []) :
    ∀ a ∈ r.components, (c.encode a).length ≤ ((Reference.binary c).encode r).length := by
  have h : (Reference.binary c).encode r = c.encode r.name ++
      (Binary.littleEndian 8 r.arguments.length ++ r.arguments.flatMap c.encode) := rfl
  obtain ⟨-, hs⟩ := Codec.length_le_length_flatMap fun a (_ : a ∈ r.arguments) => hne a
  rw [h, components, List.forall_mem_cons]
  simp only [List.length_append]
  exact ⟨Nat.le_add_right _ _, fun a ha => by have := hs a ha; omega⟩

theorem exact_binary (h : c.Exact) : (Reference.binary c).Exact := (h.pair h.list).map fun _ => rfl

end Reference

/-! ## Images -/

namespace Image

theorem encode_ne_nil (a : Image) : a.encode ≠ [] := by
  cases a <;> simp [encode, tag, Codec.word32, Binary.littleEndian]

theorem encode_action (a : Image) (as : List Image) (d : Decoder Image) :
    (action a as).encode = tag 5 ++ (Reference.binary ⟨encode, d⟩).encode ⟨a, as⟩ := by
  rw [encode, encodeAll_eq_flatMap]
  rfl

theorem exact_content {d : Decoder Image} {t : UInt32} {mid rest : List UInt8} {a : Image}
    (hd : (⟨encode, d⟩ : Codec Image).Exact) (h : content d t mid = some (a, rest)) :
    tag t ++ mid = a.encode ++ rest := by
  unfold content at h
  split at h
  · obtain ⟨rfl, rfl⟩ := pure_eq_some_iff.1 h
    rw [encode]
  · obtain ⟨name, hname, rfl⟩ := map_eq_some_iff.1 h
    rw [Codec.exact_text _ _ _ hname, encode, List.append_assoc]
  · obtain ⟨name, hname, rfl⟩ := map_eq_some_iff.1 h
    rw [Codec.exact_text _ _ _ hname, encode, List.append_assoc]
  · obtain ⟨name, hname, rfl⟩ := map_eq_some_iff.1 h
    rw [Codec.exact_text _ _ _ hname, encode, List.append_assoc]
  · obtain ⟨b, hb, rfl⟩ := map_eq_some_iff.1 h
    rw [hd _ _ _ hb, encode, List.append_assoc]
  · obtain ⟨r, mid', hr, h⟩ := bind_eq_some_iff.1 h
    obtain ⟨rfl, rfl⟩ := pure_eq_some_iff.1 h
    rw [Reference.exact_binary hd _ _ _ hr, encode_action _ _ d, List.append_assoc]
  · obtain ⟨id, mid', hid, h⟩ := bind_eq_some_iff.1 h
    obtain ⟨o, mid'', ho, h⟩ := bind_eq_some_iff.1 h
    rw [Uuid.exact_binary _ _ _ hid, hd.option _ _ _ ho]
    cases o with
    | none =>
      obtain ⟨rfl, rfl⟩ := pure_eq_some_iff.1 h
      rw [encode, List.append_assoc, List.append_assoc]
      rfl
    | some b =>
      obtain ⟨rfl, rfl⟩ := pure_eq_some_iff.1 h
      rw [encode, List.append_assoc, List.append_assoc]
      rfl
  · exact absurd h nofun

/-- Decoders of images are exact, however deep they go. -/
theorem exact_decoderWithin (n : Nat) : (⟨encode, decoderWithin n⟩ : Codec Image).Exact := by
  induction n with
  | zero => exact fun _ _ _ h => absurd h nofun
  | succ n ih =>
    intro bs a rest h
    obtain ⟨t, mid, ht, h⟩ := bind_eq_some_iff.1 h
    rw [Codec.exact_word32 bs t mid ht]
    exact exact_content ih h

theorem exact_binary : binary.Exact := fun bs a rest h => exact_decoderWithin bs.length bs a rest h

/-- An image is read after the word for its kind, to a depth that is at most its
    length, if its content is. -/
theorem faithful_of_content {t : UInt32} {bs : List UInt8} {a : Image} {n : Nat}
    (ha : a.encode = tag t ++ bs) (hn : a.encode.length ≤ n)
    (h : ∀ m, bs.length ≤ m → bs.length < UInt64.size → Reads (content (decoderWithin m) t) bs a) :
    (⟨encode, decoderWithin n⟩ : Codec Image).Faithful a := by
  intro hl
  have ht : (tag t).length = 4 := Binary.length_littleEndian 4 _
  simp only [ha, List.length_append, ht] at hn hl ⊢
  obtain ⟨m, rfl⟩ : ∃ m, n = m + 1 := ⟨n - 1, by omega⟩
  have hword : (Codec.word32.encode t).length < UInt64.size := by
    rw [show (Codec.word32.encode t).length = 4 from ht]
    decide
  exact (Codec.faithful_word32 t hword).bind (h m (by omega) (by omega))

theorem reads_cell {d : Decoder Image} (id : Uuid) {o : Option Image} {bs : List UInt8}
    (ho : (Codec.option ⟨encode, d⟩).Faithful o) (hbs : (Codec.option ⟨encode, d⟩).encode o = bs)
    (hl : (Uuid.binary.encode id ++ bs).length < UInt64.size) :
    Reads (content d 6) (Uuid.binary.encode id ++ bs) (CellImage.toImage ⟨id, o⟩) := by
  subst hbs
  rw [List.length_append] at hl
  have hid := Uuid.faithful_binary id (Nat.lt_of_le_of_lt (Nat.le_add_right _ _) hl)
  refine hid.bind ((ho (Nat.lt_of_le_of_lt (Nat.le_add_left _ _) hl)).bind_pure ?_)
  cases o <;> rfl

/-- What is written of an image is read, to a depth that is at most its length. -/
theorem faithful_decoderWithin {n : Nat} {a : Image} (hn : a.encode.length ≤ n) :
    (⟨encode, decoderWithin n⟩ : Codec Image).Faithful a := by
  induction a using Image.induct generalizing n with
  | epsilon => exact faithful_of_content rfl hn fun _ _ _ => .pure epsilon
  | state name =>
    exact faithful_of_content rfl hn fun _ _ hl => (Codec.faithful_text name hl).map state
  | symbol name =>
    exact faithful_of_content rfl hn fun _ _ hl => (Codec.faithful_text name hl).map symbol
  | literal name =>
    exact faithful_of_content rfl hn fun _ _ hl => (Codec.faithful_text name hl).map literal
  | call a ih => exact faithful_of_content rfl hn fun _ hm hl => (ih hm hl).map call
  | action a as ih ihs =>
    refine faithful_of_content (encode_action a as failure) hn fun m hm hl => ?_
    have hsize (b : Image) (hb : b ∈ Reference.components ⟨a, as⟩) : b.encode.length ≤ m :=
      (Reference.length_encode_le encode_ne_nil b hb).trans hm
    have hr : (Reference.binary ⟨encode, decoderWithin m⟩).Faithful ⟨a, as⟩ := by
      refine Reference.faithful_binary (fun b hb => ?_) encode_ne_nil
      rcases List.mem_cons.1 hb with rfl | h
      · exact ih (hsize _ hb)
      · exact ihs b h (hsize b hb)
    exact (hr hl).bind_pure rfl
  | free id =>
    refine faithful_of_content (by rw [encode]) hn fun m _ hl => ?_
    exact reads_cell id (o := none) (.option fun _ h => absurd h (Option.not_mem_none _)) rfl hl
  | bound id a ih =>
    refine faithful_of_content (by rw [encode]) hn fun m hm hl => ?_
    refine reads_cell id (o := some a) (.option fun b hb => ?_) rfl hl
    cases hb
    refine ih (Nat.le_trans ?_ hm)
    rw [List.length_append, List.length_cons]
    omega

theorem faithful_binary (a : Image) : binary.Faithful a := fun hl rest =>
  faithful_decoderWithin (n := (a.encode ++ rest).length)
    ((List.length_append ▸ Nat.le_add_right _ _)) hl rest

end Image

/-! ## Entries and checkpoints -/

namespace Entry

variable {α : Type} {c : Codec α}

theorem faithful_binary {e : Entry α} (h : ∀ a ∈ e.components, c.Faithful a)
    (hne : ∀ a, c.encode a ≠ []) : (Entry.binary c).Faithful e := by
  have call (o : Option (Reference α)) (ho : ∀ r ∈ o, r ∈ e.calls) :
      (Codec.option (Reference.binary c)).Faithful o :=
    .option fun r hr => Reference.faithful_binary
      (fun a ha => h a (mem_components_of_mem_calls (ho r hr) ha)) hne
  refine Codec.Faithful.map ?_ rfl
  refine (call e.prior fun _ hr => mem_calls_of_prior hr).pair ?_
  refine (h e.source (by simp [mem_components])).pair ?_
  refine (h e.label (by simp [mem_components])).pair ?_
  refine (h e.target (by simp [mem_components])).pair ?_
  exact call e.posterior fun _ hr => mem_calls_of_posterior hr

theorem exact_binary (h : c.Exact) : (Entry.binary c).Exact := by
  have call := (Reference.exact_binary h).option
  exact (call.pair (h.pair (h.pair (h.pair call)))).map fun _ => rfl

theorem encode_ne_nil (e : Entry α) : (Entry.binary c).encode e ≠ [] := by
  rcases e with ⟨_ | _, _, _, _, _⟩ <;> exact List.cons_ne_nil _ _

end Entry

namespace Checkpoint

/-- The text that stands in the bytes in the place of the time. -/
def timeText? (bytes : List UInt8) : Option String :=
  ((Codec.word32.pair (Codec.text.pair .text)).read? bytes).map (·.2.2)

theorem faithful_binary {c : Checkpoint Image} (ht : Instant.ofText? c.time.text = some c.time) :
    (binary Image.binary).Faithful c := by
  refine Codec.Faithful.map ?_ rfl
  refine (Codec.faithful_word32 c.version).pair ((Codec.faithful_text c.id).pair ?_)
  refine ((Codec.faithful_text _).via ht).pair (.pair (.list (fun e _ => ?_) ?_) ?_)
  · exact Entry.faithful_binary (fun a _ => Image.faithful_binary a) Image.encode_ne_nil
  · exact fun e _ => Entry.encode_ne_nil e
  · exact (Codec.faithful_word64 c.next).pair (.option fun s _ => Codec.faithful_text s)

theorem toBinary_eq (c : Checkpoint Image) : c.toBinary =
    Codec.word32.encode c.version ++ (Codec.text.encode c.id ++ (Codec.text.encode c.time.text ++
      ((Entry.binary Image.binary).list.pair (Codec.word64.pair Codec.text.option)).encode
        (c.entries, c.next, c.main))) := by
  simp only [toBinary, binary, Codec.map, Codec.pair, Instant.binary, Codec.via]

/-- Bytes that are read as a checkpoint begin with those that are written of it, if
    the text of its time does. -/
theorem eq_encode_append {bs rest : List UInt8} {c : Checkpoint Image}
    (h : (binary Image.binary).decoder bs = some (c, rest)) (ht : timeText? bs = some c.time.text) :
    bs = c.toBinary ++ rest := by
  obtain ⟨x, hx, rfl⟩ := map_eq_some_iff.1 h
  obtain ⟨bs₁, hv, h⟩ := Codec.pair_eq_some_iff.1 hx
  obtain ⟨bs₂, hid, h⟩ := Codec.pair_eq_some_iff.1 h
  obtain ⟨bs₃, htime, h⟩ := Codec.pair_eq_some_iff.1 h
  obtain ⟨y, hy, -⟩ := refine_eq_some_iff.1 htime
  have hread : timeText? bs = some y := by
    have hpair : (Codec.word32.pair (Codec.text.pair .text)).decoder bs =
        some ((x.1, x.2.1, y), bs₃) :=
      Codec.pair_eq_some_iff.2 ⟨bs₁, hv, Codec.pair_eq_some_iff.2 ⟨bs₂, hid, hy⟩⟩
    rw [timeText?, Codec.read?, hpair]
    rfl
  rw [hread, Option.some.injEq] at ht
  subst ht
  have hrest := (Entry.exact_binary Image.exact_binary).list.pair
    (Codec.exact_word64.pair Codec.exact_text.option)
  rw [Codec.exact_word32 _ _ _ hv, Codec.exact_text _ _ _ hid, Codec.exact_text _ _ _ hy,
    hrest _ _ _ h, toBinary_eq]
  simp only [List.append_assoc]

theorem ofBinary_eq_ok_iff {bs : List UInt8} {c : Checkpoint Image} :
    ofBinary bs = .ok c ↔
      (∃ rest, (binary Image.binary).decoder bs = some (c, rest)) ∧ c.version = currentVersion := by
  rw [ofBinary, Codec.read?]
  cases (binary Image.binary).decoder bs with
  | none => simp
  | some x =>
    rw [Option.map_some, accept_eq_ok_iff]
    simp only [Option.some.injEq, Prod.ext_iff, exists_and_left, exists_eq', and_true]

/-- **The bytes of a checkpoint** are read back to it, whatever follows them, and what
    is made of it is the same node by node; and bytes that are read, with the text
    of the time in written form, begin with those that are written.  Lengths are
    written as words, so the bytes are as many as a word can count. -/
theorem ofBinary_toBinary_append :
    (∀ (s : Store) (c : Checkpoint Value), c.Regular s →
      (c.image s).toBinary.length < UInt64.size → ∀ rest,
        ofBinary ((c.image s).toBinary ++ rest) = .ok (c.image s) ∧
          ∀ t, Related (s.Alike ((c.image s).load t).2) c ((c.image s).load t).1) ∧
    ∀ bs d, ofBinary bs = .ok d → timeText? bs = some d.time.text →
      ∀ t, ((d.load t).1.image (d.load t).2).toBinary <+: bs := by
  refine ⟨fun s c hc hl rest => ⟨?_, hc.alike_load_image⟩, fun bs d h ht t => ?_⟩
  · have ht : Instant.ofText? (c.image s).time.text = some (c.image s).time := hc.time
    exact ofBinary_eq_ok_iff.2 ⟨⟨rest, faithful_binary ht hl rest⟩, hc.version⟩
  · obtain ⟨⟨rest, h⟩, -⟩ := ofBinary_eq_ok_iff.1 h
    rw [image_load]
    exact ⟨rest, (eq_encode_append h ht).symm⟩

theorem ofBinary_sample :
    timeText? (sample.toBinary ++ [7]) = some sample.time.text ∧
      ofBinary (sample.toBinary ++ [7]) = .ok sample ∧
      sample.toBinary <+: sample.toBinary ++ [7] := by
  have hl : sample.toBinary.length < UInt64.size := by decide +kernel
  have ht : timeText? (sample.toBinary ++ [7]) = some sample.time.text := by decide +kernel
  obtain ⟨h, -⟩ := ofBinary_toBinary_append.1 _ _ regular_sampleMade
    (by rwa [image_sampleMade]) [7]
  rw [image_sampleMade] at h
  have hp := ofBinary_toBinary_append.2 _ sample h ht (.empty fun _ => ⟨List.replicate 16 0, rfl⟩)
  rw [image_load] at hp
  exact ⟨ht, h, hp⟩

end Checkpoint

end AdaptiveAutomata
