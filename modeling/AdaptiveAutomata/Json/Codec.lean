/-
  Values with a JSON form: how each is written, beside how it is read.

  * `Codec` pairs a writer with a reader;
  * `Field` describes a field of a record once, for both directions, and
    `Codec.record` makes a codec of a list of fields;
  * `Codec.words` is the codec of a type whose values are plain names.
-/
import AdaptiveAutomata.Json
import AdaptiveAutomata.Json.Reader

namespace AdaptiveAutomata

namespace Json

/-- A writer and a reader of the same JSON form. -/
structure Codec (α : Type) where
  toJson : α → Json
  reader : Reader α

variable {α β σ : Type}

namespace Codec

def compact (c : Codec α) (a : α) : String := (c.toJson a).compact

/-- The text of a value with a line for each item. -/
def pretty (c : Codec α) (a : α) : String := (c.toJson a).pretty

/-- The value that a text stands for. -/
def read (c : Codec α) (text : String) : Except Fault α := c.reader.read text

/-! ## Plain values -/

def text : Codec String := ⟨.string, Reader.text⟩

def flag : Codec Bool := ⟨.bool, Reader.flag⟩

/-- Counts, as numbers below `2 ^ 64`. -/
def count : Codec Nat := ⟨.number, Reader.natural UInt64.size⟩

def word32 : Codec UInt32 :=
  ⟨fun n => .number n.toNat, fun depth => UInt32.ofNat <$> Reader.natural UInt32.size depth⟩

def word64 : Codec UInt64 :=
  ⟨fun n => .number n.toNat, fun depth => UInt64.ofNat <$> Reader.natural UInt64.size depth⟩

def nullable (c : Codec α) : Codec (Option α) :=
  ⟨fun a => .ofOption (a.map c.toJson), c.reader.nullable⟩

def list (c : Codec α) : Codec (List α) :=
  ⟨fun as => .array (as.map c.toJson), c.reader.list⟩

/-- Values written through another type, read where `ofOther?` is defined. -/
def via (c : Codec β) (toOther : α → β) (ofOther? : β → Option α) : Codec α :=
  ⟨fun a => c.toJson (toOther a), c.reader.refine ofOther?⟩

def words (name : α → String) (ofName? : String → Option α) : Codec α :=
  ⟨fun a => .string (name a), Reader.tagged fun s => (ofName? s).map .unit⟩

end Codec

/-! ## Records -/

/-- A field of a record of type `σ`: what a reader has to know of it, the name
    it is written under, and its value, `none` where it is left out. -/
structure Field (σ : Type) where
  name : String
  write : σ → Option Json
  slot : Reader.Slot σ

namespace Field

/-- A field that is always written and has to be present. -/
def required (name : String) (c : Codec α) (get : σ → α) (set : α → σ → σ) : Field σ where
  name := name
  write x := some (c.toJson (get x))
  slot := ⟨[name], .required, fun depth => set <$> c.reader depth⟩

/-- An optional field that is written as `null` when missing. -/
def nullable (name : String) (c : Codec α) (get : σ → Option α) (set : Option α → σ → σ) :
    Field σ where
  name := name
  write x := some (c.nullable.toJson (get x))
  slot := ⟨[name], .optional, fun depth => set <$> c.nullable.reader depth⟩

/-- An optional field that is left out when missing. -/
def omitted (name : String) (c : Codec α) (get : σ → Option α) (set : Option α → σ → σ) :
    Field σ where
  name := name
  write x := (get x).map c.toJson
  slot := ⟨[name], .defaulted, fun depth => set <$> c.nullable.reader depth⟩

/-- A field that is always written but need not be present. -/
def defaulted (name : String) (c : Codec α) (get : σ → α) (set : α → σ → σ) : Field σ where
  name := name
  write x := some (c.toJson (get x))
  slot := ⟨[name], .defaulted, fun depth => set <$> c.reader depth⟩

/-- The same field, which need not be present among listed items either. -/
def withDefault (f : Field σ) : Field σ :=
  { f with slot := { f.slot with presence := .defaulted } }

/-- The same field, read under one more name. -/
def alsoCalled (f : Field σ) (other : String) : Field σ :=
  { f with slot := { f.slot with names := f.slot.names ++ [other] } }

end Field

/-- Records, as objects whose members are the fields in the order given.  Every
    field that is absent keeps its value in `blank`. -/
def Codec.record (blank : σ) (fields : List (Field σ)) : Codec σ where
  toJson x := .object (fields.filterMap fun f => (f.write x).map (f.name, ·))
  reader := Reader.record blank (fields.map (·.slot))

end Json

end AdaptiveAutomata
