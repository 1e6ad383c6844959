/-
  The JSON form of images, of calls of adaptive actions, and of entries.

  An image is a variant by name: one without content stands alone as a string,
  any other is an object of one member.  A cell is written with what it is bound
  to in place, `null` when unbound.

  * `Image.json`, `Reference.json` and `Entry.json` are the codecs;
  * `Image.cellJson` is that of a cell by itself.
-/
import AdaptiveAutomata.Entry
import AdaptiveAutomata.Json.Codec

namespace AdaptiveAutomata

open Json (Codec Field Reader)

/-- Calls of adaptive actions, given the codec of their values. -/
def Reference.json {α : Type} [Inhabited α] (c : Codec α) : Codec (Reference α) :=
  .record default [
    .required "name" c (·.name) fun a x => { x with name := a },
    .required "arguments" (.list c) (·.arguments) fun a x => { x with arguments := a }]

namespace Image

/-- A cell: its identifier, and what it is bound to. -/
structure CellImage where
  id : Uuid
  binding : Option Image

/-- The image of a cell by itself. -/
def CellImage.toImage : CellImage → Image
  | ⟨id, none⟩ => free id
  | ⟨id, some value⟩ => bound id value

/-- Cells, given the codec of what they are bound to. -/
def cellJson (c : Codec Image) : Codec CellImage :=
  .record ⟨⟨List.replicate 16 0, by decide⟩, none⟩ [
    .required "id" Uuid.json (·.id) fun a x => { x with id := a },
    .nullable "binding" c (·.binding) fun a x => { x with binding := a }]

/-! ## Writing -/

mutual

/-- The document of an image. -/
def toJson : Image → Json
  | epsilon => .string "Epsilon"
  | state name => .object [("State", .string name)]
  | symbol name => .object [("Symbol", .string name)]
  | literal name => .object [("Literal", .string name)]
  | call name => .object [("Call", toJson name)]
  | action name arguments => .object [("Action", .object
      [("name", toJson name), ("arguments", .array (toJsons arguments))])]
  | free id => .object [("Variable", .object
      [("id", .string id.text), ("binding", .null)])]
  | bound id value => .object [("Variable", .object
      [("id", .string id.text), ("binding", toJson value)])]
termination_by structural a => a

/-- The documents of several images. -/
def toJsons : List Image → List Json
  | [] => []
  | a :: as => toJson a :: toJsons as
termination_by structural as => as

end

@[simp]
theorem toJsons_eq_map (as : List Image) : toJsons as = as.map toJson := by
  induction as with
  | nil => rfl
  | cons a as ih => simp [toJsons, ih]

/-! ## Reading -/

/-- The variants of an image by name, given the reader of the images inside. -/
def variant? (r : Reader Image) (name : String) : Option (Reader.Variant Image) :=
  match name with
  | "Epsilon" => some (.unit epsilon)
  | "State" => some (.content fun depth => state <$> Reader.text depth)
  | "Symbol" => some (.content fun depth => symbol <$> Reader.text depth)
  | "Literal" => some (.content fun depth => literal <$> Reader.text depth)
  | "Call" => some (.content fun depth => call <$> r depth)
  | "Action" => some (.content fun depth =>
      (fun x => action x.name x.arguments) <$> (Reference.json ⟨toJson, r⟩).reader depth)
  | "Variable" => some (.content fun depth =>
      CellImage.toImage <$> (cellJson ⟨toJson, r⟩).reader depth)
  | _ => none

/-- Reads images that nest to the given depth. -/
def readerWithin : Nat → Reader Image
  | 0 => fun _ => Json.Scan.fail .malformed
  | n + 1 => Reader.tagged (variant? (readerWithin n))

/-- Images.  Each nested image opens a bracket, so the reader needs to nest no
    deeper than brackets may. -/
def json : Codec Image := ⟨toJson, readerWithin (Reader.maxDepth + 1)⟩

end Image

/-- Entries, given the codec of their components.  Both calls may be absent, and
    are written as `null` when missing. -/
def Entry.json {α : Type} [Inhabited α] (c : Codec α) : Codec (Entry α) :=
  .record default [
    (Field.nullable "pre" (Reference.json c) (·.prior)
      fun a x => { x with prior := a }).withDefault,
    .required "from" c (·.source) fun a x => { x with source := a },
    .required "middle" c (·.label) fun a x => { x with label := a },
    .required "to" c (·.target) fun a x => { x with target := a },
    (Field.nullable "post" (Reference.json c) (·.posterior)
      fun a x => { x with posterior := a }).withDefault]

end AdaptiveAutomata
