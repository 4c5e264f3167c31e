import TypeCodex.Nibble.Cursor
import TypeCodex.Packed
import TypeCodex.Shape

/-!
# Type descriptors

A descriptor is a shape over registered types with a constness. Its operand words
stand in a fixed order, a list behind its length:

* array: size, element; vector: element; map: key, value;
* variant, tuple, package: count, then the members or fields;
* function: result, count, then the parameters.

## Main definitions

* `Descriptor` — a constness and a shape.
* `Shape.words`, `Shape.read` — the operand words, written and read.
* `Descriptor.expand`, `Descriptor.pack` — the canonical encoding.
* `Descriptor.ofExpanded` — reads any encoding, canonical or not.
-/

namespace TypeCodex

/-- A constness and a shape whose operands are identifiers. -/
structure Descriptor where
  isConst : Bool
  shape : Shape TypeId
  deriving DecidableEq

namespace Shape

/-- The length of a list and then its identifiers. -/
def counted (ids : List TypeId) : List UInt32 :=
  UInt32.ofNat ids.length :: ids.map TypeId.raw

/-- The operand words of a shape. -/
def words : Shape TypeId → List UInt32
  | basic _ => []
  | variant members => counted members
  | array size elem => [size, elem.raw]
  | vector elem => [elem.raw]
  | map key value => [key.raw, value.raw]
  | tuple fields => counted fields
  | package fields => counted fields
  | function ret params => ret.raw :: counted params

variable {σ ε : Type}

/-- Reads an identifier. -/
def readId (int : Reader σ ε UInt32) : Reader σ ε TypeId := TypeId.mk <$> int

/-- Reads a length and then as many identifiers. -/
def readIds (int : Reader σ ε UInt32) : Reader σ ε (List TypeId) := do
  let count ← int
  Reader.list (readId int) count.toNat

/-- Reads the operands that belong to a tag, given how to read one word. -/
def read (int : Reader σ ε UInt32) : Tag → Reader σ ε (Shape TypeId)
  | .basic b => pure (basic b)
  | .variant => variant <$> readIds int
  | .array => do
    let size ← int
    let elem ← readId int
    pure (array size elem)
  | .vector => vector <$> readId int
  | .map => do
    let key ← readId int
    let value ← readId int
    pure (map key value)
  | .tuple => tuple <$> readIds int
  | .package => package <$> readIds int
  | .function => do
    let ret ← readId int
    let params ← readIds int
    pure (function ret params)

end Shape

namespace Descriptor

/-- The category of a descriptor. -/
def tag (d : Descriptor) : Tag := d.shape.tag

/-- The identifiers that a descriptor refers to. -/
def operands (d : Descriptor) : List TypeId := d.shape.operands

/-- The descriptor of the basic type without values; it is never constant. -/
def nil : Descriptor := ⟨false, .basic .nil⟩

/-- The canonical encoding: minimal operand words, the members of a variant in order. -/
def expand (d : Descriptor) : Expanded :=
  Expanded.ofWords d.tag d.isConst d.shape.canonical.words

/-- The packed form of the canonical encoding. -/
def pack (d : Descriptor) : Packed := d.expand.pack

/-- Reads the operands behind a tag byte. An unknown tag is refused first; the operands
must use up all nibbles. -/
def ofExpanded (e : Expanded) : Except Fault Descriptor :=
  match e.tagByte.tag? with
  | none => .error (.unknownTag e.tagByte.value)
  | some t =>
    match Shape.read Cursor.int t (Cursor.start e.nibbles) with
    | .error fault => .error fault
    | .ok (shape, c) =>
      if c.rest = [] then .ok ⟨e.tagByte.isConst, shape⟩
      else .error (.trailingNibbles c.rest.length)

end Descriptor

end TypeCodex
