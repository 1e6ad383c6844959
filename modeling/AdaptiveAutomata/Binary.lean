/-
  The binary form of values: bytes written one after the other, read from the
  front.

  Words are little endian.  What has no fixed length is preceded by its length,
  a word of 64 bits; an optional value is preceded by a byte that is 0 or 1.

  * `Binary.Decoder` reads the front of a list of bytes and returns the rest;
  * `Binary.Codec` pairs a writer with a reader, and `word32`, `word64`,
    `blob`, `text`, `option`, `list` and `pair` are the codecs of which all
    others are made.
-/

namespace AdaptiveAutomata

namespace Binary

/-- Reads a value off the front of the bytes. -/
abbrev Decoder := StateT (List UInt8) Option

/-- A writer and a reader of the same binary form. -/
structure Codec (α : Type) where
  encode : α → List UInt8
  decoder : Decoder α

variable {α β : Type}

namespace Decoder

/-- The next so many bytes. -/
def bytes (n : Nat) : Decoder (List UInt8) := fun bs =>
  if n ≤ bs.length then some (bs.take n, bs.drop n) else none

theorem bytes_append (bs rest : List UInt8) :
    bytes bs.length (bs ++ rest) = some (bs, rest) := by
  simp [bytes]

/-- The same value so many times. -/
def times (d : Decoder α) : Nat → Decoder (List α)
  | 0 => pure []
  | n + 1 => do
    let a ← d
    return a :: (← times d n)

/-- A value that is only accepted where `f` is defined. -/
def refine (d : Decoder α) (f : α → Option β) : Decoder β := do
  match f (← d) with
  | some b => return b
  | none => failure

end Decoder

/-! ## Words -/

/-- The low bytes of a number, the lowest first. -/
def littleEndian : Nat → Nat → List UInt8
  | 0, _ => []
  | width + 1, n => UInt8.ofNat n :: littleEndian width (n / 256)

/-- The number that has these bytes, the lowest first. -/
def ofLittleEndian : List UInt8 → Nat
  | [] => 0
  | b :: bs => b.toNat + 256 * ofLittleEndian bs

@[simp]
theorem length_littleEndian (width n : Nat) : (littleEndian width n).length = width := by
  induction width generalizing n with
  | zero => rfl
  | succ width ih => simp [littleEndian, ih]

/-- A number that fits the width reads back. -/
theorem ofLittleEndian_littleEndian {width n : Nat} (h : n < Nat.pow 256 width) :
    ofLittleEndian (littleEndian width n) = n := by
  induction width generalizing n with
  | zero => exact (Nat.lt_one_iff.1 h).symm
  | succ width ih =>
    have hn : n / 256 < Nat.pow 256 width := by
      rw [Nat.div_lt_iff_lt_mul (by decide)]
      exact h
    rw [littleEndian, ofLittleEndian, ih hn, UInt8.toNat_ofNat']
    omega

/-- Bytes are the number they make, written in their own width. -/
theorem littleEndian_ofLittleEndian (bs : List UInt8) :
    littleEndian bs.length (ofLittleEndian bs) = bs := by
  induction bs with
  | nil => rfl
  | cons b bs ih =>
    have hb : b.toNat < 256 := b.toNat_lt
    rw [List.length_cons, littleEndian, ofLittleEndian]
    congr 1
    · apply UInt8.toNat.inj
      rw [UInt8.toNat_ofNat']
      omega
    · rw [show (b.toNat + 256 * ofLittleEndian bs) / 256 = ofLittleEndian bs by omega, ih]

/-- A number of the given width in bytes. -/
def number (width : Nat) : Decoder Nat := do
  return ofLittleEndian (← Decoder.bytes width)

namespace Codec

def word32 : Codec UInt32 :=
  ⟨fun n => littleEndian 4 n.toNat, UInt32.ofNat <$> number 4⟩

def word64 : Codec UInt64 :=
  ⟨fun n => littleEndian 8 n.toNat, UInt64.ofNat <$> number 8⟩

/-! ## Values with a length -/

/-- Bytes after their number. -/
def blob : Codec (List UInt8) :=
  ⟨fun bs => littleEndian 8 bs.length ++ bs, do Decoder.bytes (← number 8)⟩

/-- Values written through another type, read where `ofOther?` is defined. -/
def via (c : Codec β) (toOther : α → β) (ofOther? : β → Option α) : Codec α :=
  ⟨fun a => c.encode (toOther a), c.decoder.refine ofOther?⟩

def text : Codec String :=
  blob.via (fun s => s.toUTF8.data.toList) fun bs => String.fromUTF8? ⟨bs.toArray⟩

def list (c : Codec α) : Codec (List α) :=
  ⟨fun as => littleEndian 8 as.length ++ as.flatMap c.encode,
    do c.decoder.times (← number 8)⟩

/-! ## Optional values and pairs -/

/-- Optional values, after a byte that says whether there is one. -/
def option (c : Codec α) : Codec (Option α) where
  encode
    | none => [0]
    | some a => 1 :: c.encode a
  decoder := do
    match ← number 1 with
    | 0 => return none
    | 1 => return some (← c.decoder)
    | _ => failure

def pair (c : Codec α) (d : Codec β) : Codec (α × β) :=
  ⟨fun x => c.encode x.1 ++ d.encode x.2, do return (← c.decoder, ← d.decoder)⟩

def map (c : Codec β) (toOther : α → β) (ofOther : β → α) : Codec α :=
  ⟨fun a => c.encode (toOther a), ofOther <$> c.decoder⟩

/-- The value at the front of the bytes; whatever follows it is ignored. -/
def read? (c : Codec α) (bs : List UInt8) : Option α := (c.decoder bs).map (·.1)

end Codec

end Binary

end AdaptiveAutomata
