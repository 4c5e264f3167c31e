import TypeCodex.View
import TypeCodex.Wire.Varint

/-!
# Views on the wire

The form in which tags, identifiers and views are exchanged. The fields of a view
follow one another without separators:

* the tag as its value less one, a 32-bit number;
* the constness as one byte, zero or one;
* the two optional operands, each a byte zero, or a byte one and the identifier;
* the size, a 32-bit number;
* the length of the list, a 64-bit number, and its identifiers.

Fields are read in this order and the first error is the answer.

## Main definitions

* `Wire.encodeTag`, `Wire.encodeId`, `Wire.encodeView` — the writers.
* `Wire.decodeTag`, `Wire.decodeId`, `Wire.decodeView` — the readers.
-/

namespace TypeCodex.Wire

/-! ## Writing -/

/-- The bytes of a 32-bit number. -/
def encodeWord (v : UInt32) : List UInt8 := Varint.encode Varint.word32 v.toNat

/-- The bytes of a tag. -/
def encodeTag (t : Tag) : List UInt8 := Varint.encode Varint.word32 (t.value.toNat - 1)

/-- The bytes of an identifier. -/
def encodeId (id : TypeId) : List UInt8 := encodeWord id.raw

/-- The byte of a truth value. -/
def encodeBool (b : Bool) : List UInt8 := [if b then 1 else 0]

/-- The bytes of an operand that may be missing. -/
def encodeOption : Option TypeId → List UInt8
  | none => [0]
  | some id => 1 :: encodeId id

/-- The bytes of a list: its length and its identifiers. -/
def encodeList (ids : List TypeId) : List UInt8 :=
  Varint.encode Varint.word64 ids.length ++ ids.flatMap encodeId

/-- The bytes of a view. -/
def encodeView (v : View) : List UInt8 :=
  encodeTag v.tag ++ encodeBool v.isConst ++ encodeOption v.type1 ++ encodeOption v.type2
    ++ encodeWord v.size ++ encodeList v.list

/-! ## Reading -/

/-- Reads a 32-bit number. -/
def decodeWord : Decoder UInt32 := UInt32.ofNat <$> Varint.decode Varint.word32

/-- Reads a tag. -/
def decodeTag : Decoder Tag := do
  let i ← Varint.decode Varint.word32
  match Tag.all[i]? with
  | some t => pure t
  | none => throw .unknownTag

/-- Reads an identifier. -/
def decodeId : Decoder TypeId := TypeId.mk <$> decodeWord

/-- Reads a truth value. -/
def decodeBool : Decoder Bool := do
  let b ← byte
  if b = 0 then pure false else if b = 1 then pure true else throw .badBool

/-- Reads an operand that may be missing. -/
def decodeOption : Decoder (Option TypeId) := do
  let b ← byte
  if b = 0 then pure none else if b = 1 then some <$> decodeId else throw .badOption

/-- Reads a list. -/
def decodeList : Decoder (List TypeId) := do
  let count ← Varint.decode Varint.word64
  Reader.list decodeId count

/-- Reads a view. -/
def decodeView : Decoder View := do
  let tag ← decodeTag
  let isConst ← decodeBool
  let type1 ← decodeOption
  let type2 ← decodeOption
  let size ← decodeWord
  let list ← decodeList
  pure ⟨tag, isConst, type1, type2, size, list⟩

end TypeCodex.Wire
