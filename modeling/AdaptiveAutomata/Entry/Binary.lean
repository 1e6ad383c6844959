/-
  The binary form of images, of calls of adaptive actions, and of entries.

  An image starts with a word of 32 bits that tells its kind; what it holds
  follows in order.

  * `Image.binary`, `Reference.binary` and `Entry.binary` are the codecs.
-/
import AdaptiveAutomata.Binary
import AdaptiveAutomata.Entry

namespace AdaptiveAutomata

open Binary (Codec Decoder)

/-- Calls of adaptive actions, given the codec of their values. -/
def Reference.binary {α : Type} (c : Codec α) : Codec (Reference α) :=
  (c.pair (.list c)).map (fun r => (r.name, r.arguments)) fun x => ⟨x.1, x.2⟩

namespace Image

/-! ## Writing -/

/-- The word for a kind of image. -/
def tag (n : UInt32) : List UInt8 := Codec.word32.encode n

mutual

/-- The bytes of an image. -/
def encode : Image → List UInt8
  | epsilon => tag 0
  | state name => tag 1 ++ Codec.text.encode name
  | symbol name => tag 2 ++ Codec.text.encode name
  | literal name => tag 3 ++ Codec.text.encode name
  | call name => tag 4 ++ encode name
  | action name arguments =>
    tag 5 ++ (encode name ++ (Binary.littleEndian 8 arguments.length ++ encodeAll arguments))
  | free id => tag 6 ++ (Uuid.binary.encode id ++ [0])
  | bound id value => tag 6 ++ (Uuid.binary.encode id ++ 1 :: encode value)
termination_by structural a => a

/-- The bytes of several images, one after the other. -/
def encodeAll : List Image → List UInt8
  | [] => []
  | a :: as => encode a ++ encodeAll as
termination_by structural as => as

end

@[simp]
theorem encodeAll_eq_flatMap (as : List Image) : encodeAll as = as.flatMap encode := by
  induction as with
  | nil => rfl
  | cons a as ih => simp [encodeAll, ih]

/-! ## Reading -/

/-- What follows the word for a kind, given the decoder of the images inside. -/
def content (d : Decoder Image) (tag : UInt32) : Decoder Image := do
  match tag with
  | 0 => return epsilon
  | 1 => state <$> Codec.text.decoder
  | 2 => symbol <$> Codec.text.decoder
  | 3 => literal <$> Codec.text.decoder
  | 4 => call <$> d
  | 5 =>
    let r ← (Reference.binary ⟨encode, d⟩).decoder
    return action r.name r.arguments
  | 6 =>
    let id ← Uuid.binary.decoder
    match ← (Codec.option ⟨encode, d⟩).decoder with
    | none => return free id
    | some value => return bound id value
  | _ => failure

/-- Reads images that nest to the given depth. -/
def decoderWithin : Nat → Decoder Image
  | 0 => failure
  | n + 1 => do content (decoderWithin n) (← Codec.word32.decoder)

/-- Images.  Each nested image takes bytes of its own, so none nests deeper than
    there are bytes. -/
def binary : Codec Image := ⟨encode, do decoderWithin (← get).length⟩

end Image

/-- Entries, given the codec of their components. -/
def Entry.binary {α : Type} (c : Codec α) : Codec (Entry α) :=
  let call : Codec (Option (Reference α)) := .option (Reference.binary c)
  (call.pair (c.pair (c.pair (c.pair call)))).map
    (fun e => (e.prior, e.source, e.label, e.target, e.posterior))
    fun x => ⟨x.1, x.2.1, x.2.2.1, x.2.2.2.1, x.2.2.2.2⟩

end AdaptiveAutomata
