/-
  Laws of the binary codecs.

  A codec is faithful to a value if what it writes is read again, whatever
  follows; then a reader stops where the writer did.  It is exact if it reads
  nothing else: what was read is what would be written.  Lengths are words, so
  what is longer than a word can tell is not written faithfully.

  * `Decoder.Reads` and `bind_eq_some_iff` put decoders together and take them
    apart;
  * `Codec.Faithful` and `Codec.Exact` are the two laws, each with a rule for every
    way to make a codec.
-/
import AdaptiveAutomata.Binary
import Mathlib.Data.List.Basic

namespace AdaptiveAutomata

namespace Binary

variable {α β : Type}

namespace Decoder

variable {d : Decoder α} {bs cs rest : List UInt8} {a : α} {b : β}

/-- A decoder reads a value off these bytes, whatever follows them. -/
def Reads (d : Decoder α) (bs : List UInt8) (a : α) : Prop :=
  ∀ rest, d (bs ++ rest) = some (a, rest)

theorem bind_eq_some_iff {f : α → Decoder β} :
    (d >>= f) bs = some (b, rest) ↔
      ∃ a mid, d bs = some (a, mid) ∧ f a mid = some (b, rest) := by
  rw [show (d >>= f) bs = (d bs).bind fun p => f p.1 p.2 from rfl, Option.bind_eq_some_iff]
  exact ⟨fun ⟨(a, mid), h⟩ => ⟨a, mid, h⟩, fun ⟨a, mid, h⟩ => ⟨(a, mid), h⟩⟩

theorem pure_eq_some_iff {a' : α} :
    (pure a : Decoder α) bs = some (a', rest) ↔ a = a' ∧ bs = rest := by
  rw [show (pure a : Decoder α) bs = some (a, bs) from rfl, Option.some.injEq, Prod.mk.injEq]

theorem map_eq_some_iff {f : α → β} :
    (f <$> d) bs = some (b, rest) ↔ ∃ a, d bs = some (a, rest) ∧ f a = b := by
  rw [map_eq_pure_bind, bind_eq_some_iff]
  simp only [pure_eq_some_iff]
  exact ⟨fun ⟨a, _, h, hb, hr⟩ => ⟨a, hr ▸ h, hb⟩, fun ⟨a, h, hb⟩ => ⟨a, rest, h, hb, rfl⟩⟩

theorem refine_eq_some_iff {f : α → Option β} :
    d.refine f bs = some (b, rest) ↔ ∃ a, d bs = some (a, rest) ∧ f a = some b := by
  rw [refine, bind_eq_some_iff]
  constructor
  · rintro ⟨a, mid, h, hf⟩
    cases ha : f a with
    | none =>
      rw [ha] at hf
      exact absurd hf nofun
    | some b' =>
      rw [ha] at hf
      obtain ⟨rfl, rfl⟩ := pure_eq_some_iff.1 hf
      exact ⟨a, h, ha⟩
  · rintro ⟨a, h, hf⟩
    exact ⟨a, rest, h, by rw [hf]; rfl⟩

namespace Reads

theorem pure (a : α) : Reads (pure a) [] a := fun _ => rfl

theorem bind {f : α → Decoder β} (h : Reads d bs a) (hf : Reads (f a) cs b) :
    Reads (d >>= f) (bs ++ cs) b := fun rest =>
  bind_eq_some_iff.2 ⟨a, cs ++ rest, by rw [List.append_assoc, h], hf rest⟩

theorem bind_pure {f : α → Decoder β} (h : Reads d bs a) (hf : f a = Pure.pure b) :
    Reads (d >>= f) bs b := by
  rw [← List.append_nil bs]
  exact h.bind (hf ▸ .pure b)

theorem map (f : α → β) (h : Reads d bs a) : Reads (f <$> d) bs (f a) := fun rest =>
  map_eq_some_iff.2 ⟨a, h rest, rfl⟩

theorem refine {f : α → Option β} (h : Reads d bs a) (hf : f a = some b) :
    Reads (d.refine f) bs b := fun rest => refine_eq_some_iff.2 ⟨a, h rest, hf⟩

theorem times {encode : α → List UInt8} {as : List α} (h : ∀ a ∈ as, Reads d (encode a) a) :
    Reads (d.times as.length) (as.flatMap encode) as := by
  induction as with
  | nil => exact .pure []
  | cons a as ih =>
    rw [List.flatMap_cons, List.length_cons, Decoder.times]
    refine .bind (h a List.mem_cons_self) (.bind_pure (ih fun b hb => ?_) rfl)
    exact h b (List.mem_cons_of_mem a hb)

end Reads

theorem bytes_eq_some_iff {n : Nat} :
    bytes n bs = some (cs, rest) ↔ bs = cs ++ rest ∧ cs.length = n := by
  constructor
  · intro h
    rw [bytes] at h
    split at h
    · obtain ⟨rfl, rfl⟩ := Prod.mk.inj (Option.some.inj h)
      exact ⟨(List.take_append_drop n bs).symm, List.length_take_of_le ‹_›⟩
    · cases h
  · rintro ⟨rfl, rfl⟩
    exact bytes_append cs rest

theorem times_eq_some {encode : α → List UInt8} {as : List α} {n : Nat}
    (hd : ∀ bs a rest, d bs = some (a, rest) → bs = encode a ++ rest)
    (h : d.times n bs = some (as, rest)) : as.length = n ∧ bs = as.flatMap encode ++ rest := by
  induction n generalizing bs as with
  | zero =>
    obtain ⟨rfl, rfl⟩ := pure_eq_some_iff.1 h
    exact ⟨rfl, rfl⟩
  | succ n ih =>
    obtain ⟨a, mid, ha, h⟩ := bind_eq_some_iff.1 h
    obtain ⟨as', mid', has, h⟩ := bind_eq_some_iff.1 h
    obtain ⟨rfl, rfl⟩ := pure_eq_some_iff.1 h
    obtain ⟨hl, rfl⟩ := ih has
    refine ⟨congrArg _ hl, ?_⟩
    rw [hd bs a _ ha, List.flatMap_cons, List.append_assoc]

end Decoder

open Decoder (Reads bind_eq_some_iff pure_eq_some_iff map_eq_some_iff refine_eq_some_iff)

/-! ## Numbers -/

theorem ofLittleEndian_lt (bs : List UInt8) : ofLittleEndian bs < Nat.pow 256 bs.length := by
  induction bs with
  | nil => exact Nat.one_pos
  | cons b bs ih =>
    have := b.toNat_lt
    have hp : Nat.pow 256 (bs.length + 1) = Nat.pow 256 bs.length * 256 := rfl
    rw [ofLittleEndian, List.length_cons, hp]
    omega

theorem reads_number {width n : Nat} (h : n < Nat.pow 256 width) :
    Reads (number width) (littleEndian width n) n := fun rest => by
  have hb := Decoder.bytes_append (littleEndian width n) rest
  rw [length_littleEndian] at hb
  refine bind_eq_some_iff.2 ⟨_, _, hb, ?_⟩
  rw [ofLittleEndian_littleEndian h]
  rfl

theorem number_eq_some {width n : Nat} {bs rest : List UInt8}
    (h : number width bs = some (n, rest)) :
    n < Nat.pow 256 width ∧ bs = littleEndian width n ++ rest := by
  obtain ⟨cs, mid, hcs, h⟩ := bind_eq_some_iff.1 h
  obtain ⟨rfl, rfl⟩ := pure_eq_some_iff.1 h
  obtain ⟨rfl, rfl⟩ := Decoder.bytes_eq_some_iff.1 hcs
  exact ⟨ofLittleEndian_lt cs, by rw [littleEndian_ofLittleEndian]⟩

namespace Codec

variable {c : Codec α} {d : Codec β} {a : α} {b : β}

/-- What is written is read, whatever follows, if it is no longer than a word can
    tell. -/
def Faithful (c : Codec α) (a : α) : Prop :=
  (c.encode a).length < UInt64.size → Reads c.decoder (c.encode a) a

/-- What is read is what would be written. -/
def Exact (c : Codec α) : Prop :=
  ∀ bs a rest, c.decoder bs = some (a, rest) → bs = c.encode a ++ rest

/-! ## Faithful codecs -/

theorem faithful_word32 (n : UInt32) : word32.Faithful n := fun _ => by
  have := (reads_number (show n.toNat < Nat.pow 256 4 from n.toNat_lt)).map UInt32.ofNat
  rwa [UInt32.ofNat_toNat] at this

theorem faithful_word64 (n : UInt64) : word64.Faithful n := fun _ => by
  have := (reads_number (show n.toNat < Nat.pow 256 8 from n.toNat_lt)).map UInt64.ofNat
  rwa [UInt64.ofNat_toNat] at this

theorem faithful_blob (bs : List UInt8) : blob.Faithful bs := fun h => by
  have hl : bs.length < Nat.pow 256 8 := by
    rw [blob, List.length_append] at h
    exact Nat.lt_of_le_of_lt (Nat.le_add_left _ _) h
  exact (reads_number hl).bind (Decoder.bytes_append bs)

theorem Faithful.via {toOther : α → β} {ofOther? : β → Option α} (h : d.Faithful (toOther a))
    (ha : ofOther? (toOther a) = some a) : (d.via toOther ofOther?).Faithful a :=
  fun hl => (h hl).refine ha

theorem fromUTF8?_toUTF8 (s : String) :
    String.fromUTF8? ⟨s.toUTF8.data.toList.toArray⟩ = some s := by
  have hs : (⟨s.toUTF8.data.toList.toArray⟩ : ByteArray) = s.toByteArray := rfl
  rw [hs, String.fromUTF8?, dif_pos s.isValidUTF8]
  rfl

theorem toUTF8_of_fromUTF8? {bs : List UInt8} {s : String}
    (h : String.fromUTF8? ⟨bs.toArray⟩ = some s) : s.toUTF8.data.toList = bs := by
  rw [String.fromUTF8?] at h
  split at h
  · rw [← Option.some.inj h]
    rfl
  · cases h

theorem faithful_text (s : String) : text.Faithful s := (faithful_blob _).via (fromUTF8?_toUTF8 s)

/-- The encodings of items that are not empty are at least as many bytes as there
    are items, and as the encoding of each. -/
theorem length_le_length_flatMap {f : α → List UInt8} {as : List α} (h : ∀ a ∈ as, f a ≠ []) :
    as.length ≤ (as.flatMap f).length ∧ ∀ a ∈ as, (f a).length ≤ (as.flatMap f).length := by
  induction as with
  | nil => simp
  | cons a as ih =>
    obtain ⟨hl, hs⟩ := ih fun b hb => h b (List.mem_cons_of_mem a hb)
    have := List.length_pos_iff.2 (h a List.mem_cons_self)
    rw [List.flatMap_cons, List.length_append, List.length_cons, List.forall_mem_cons]
    exact ⟨by omega, Nat.le_add_right _ _, fun b hb => Nat.le_trans (hs b hb) (Nat.le_add_left _ _)⟩

theorem Faithful.list {as : List α} (h : ∀ a ∈ as, c.Faithful a) (hne : ∀ a ∈ as, c.encode a ≠ []) :
    c.list.Faithful as := fun hl => by
  rw [Codec.list, List.length_append, length_littleEndian] at hl
  obtain ⟨hcount, hsize⟩ := length_le_length_flatMap hne
  have hn : as.length < Nat.pow 256 8 :=
    Nat.lt_of_le_of_lt (Nat.le_trans hcount (Nat.le_add_left _ _)) hl
  refine (reads_number hn).bind (.times fun a ha => h a ha ?_)
  exact Nat.lt_of_le_of_lt (hsize a ha) (Nat.lt_of_le_of_lt (Nat.le_add_left _ _) hl)

theorem Faithful.option {o : Option α} (h : ∀ a ∈ o, c.Faithful a) : c.option.Faithful o := by
  intro hl
  cases o with
  | none => exact (reads_number (show 0 < Nat.pow 256 1 by decide)).bind (.pure none)
  | some a =>
    refine (reads_number (show 1 < Nat.pow 256 1 by decide)).bind ?_
    exact (h a rfl (Nat.lt_of_succ_lt hl)).map some

theorem Faithful.pair (ha : c.Faithful a) (hb : d.Faithful b) : (c.pair d).Faithful (a, b) := by
  intro hl
  rw [Codec.pair, List.length_append] at hl
  refine (ha (Nat.lt_of_le_of_lt (Nat.le_add_right _ _) hl)).bind ?_
  exact (hb (Nat.lt_of_le_of_lt (Nat.le_add_left _ _) hl)).bind_pure rfl

theorem Faithful.map {toOther : α → β} {ofOther : β → α} (h : d.Faithful (toOther a))
    (ha : ofOther (toOther a) = a) : (d.map toOther ofOther).Faithful a := fun hl => by
  have := (h hl).map ofOther
  rwa [ha] at this

/-! ## Exact codecs -/

theorem exact_word32 : word32.Exact := fun bs _ rest h => by
  obtain ⟨n, hread, rfl⟩ := map_eq_some_iff.1 h
  obtain ⟨hn, hbs⟩ := number_eq_some hread
  rwa [← UInt32.toNat_ofNat_of_lt' hn] at hbs

theorem exact_word64 : word64.Exact := fun bs _ rest h => by
  obtain ⟨n, hread, rfl⟩ := map_eq_some_iff.1 h
  obtain ⟨hn, hbs⟩ := number_eq_some hread
  rwa [← UInt64.toNat_ofNat_of_lt' hn] at hbs

theorem exact_blob : blob.Exact := fun bs cs rest h => by
  obtain ⟨n, mid, hn, h⟩ := bind_eq_some_iff.1 h
  obtain ⟨rfl, rfl⟩ := Decoder.bytes_eq_some_iff.1 h
  obtain ⟨-, rfl⟩ := number_eq_some hn
  exact (List.append_assoc _ _ _).symm

theorem Exact.via {toOther : α → β} {ofOther? : β → Option α} (h : d.Exact)
    (hb : ∀ b a, ofOther? b = some a → toOther a = b) : (d.via toOther ofOther?).Exact :=
  fun bs a rest h' => by
    obtain ⟨b, hd, ha⟩ := refine_eq_some_iff.1 h'
    rw [← hb b a ha] at hd
    exact h bs _ rest hd

theorem exact_text : text.Exact := exact_blob.via fun _ _ => toUTF8_of_fromUTF8?

theorem Exact.list (h : c.Exact) : c.list.Exact := fun bs as rest h' => by
  obtain ⟨n, mid, hn, h'⟩ := bind_eq_some_iff.1 h'
  obtain ⟨rfl, rfl⟩ := Decoder.times_eq_some h h'
  obtain ⟨-, rfl⟩ := number_eq_some hn
  exact (List.append_assoc _ _ _).symm

theorem Exact.option (h : c.Exact) : c.option.Exact := fun bs o rest h' => by
  obtain ⟨n, mid, hn, ho⟩ := bind_eq_some_iff.1 h'
  obtain ⟨-, rfl⟩ := number_eq_some hn
  rcases n with _ | _ | n
  · obtain ⟨rfl, rfl⟩ := pure_eq_some_iff.1 ho
    rfl
  · obtain ⟨a, ha, rfl⟩ := map_eq_some_iff.1 ho
    rw [h mid a rest ha]
    rfl
  · exact absurd ho nofun

theorem pair_eq_some_iff {x : α × β} {bs rest : List UInt8} :
    (c.pair d).decoder bs = some (x, rest) ↔
      ∃ mid, c.decoder bs = some (x.1, mid) ∧ d.decoder mid = some (x.2, rest) := by
  constructor
  · intro h
    obtain ⟨a, mid, ha, h⟩ := bind_eq_some_iff.1 h
    obtain ⟨b, mid', hb, h⟩ := bind_eq_some_iff.1 h
    obtain ⟨rfl, rfl⟩ := pure_eq_some_iff.1 h
    exact ⟨mid, ha, hb⟩
  · rintro ⟨mid, ha, hb⟩
    exact bind_eq_some_iff.2 ⟨x.1, mid, ha, bind_eq_some_iff.2 ⟨x.2, rest, hb, rfl⟩⟩

theorem Exact.pair (hc : c.Exact) (hd : d.Exact) : (c.pair d).Exact := fun bs x rest h => by
  obtain ⟨mid, ha, hb⟩ := pair_eq_some_iff.1 h
  rw [hc bs _ mid ha, hd mid _ rest hb]
  exact (List.append_assoc _ _ _).symm

theorem Exact.map {toOther : α → β} {ofOther : β → α} (h : d.Exact)
    (hb : ∀ b, toOther (ofOther b) = b) : (d.map toOther ofOther).Exact := fun bs a rest h' => by
  obtain ⟨b, hd, rfl⟩ := map_eq_some_iff.1 h'
  rw [← hb b] at hd
  exact h bs _ rest hd

end Codec

end Binary

end AdaptiveAutomata
