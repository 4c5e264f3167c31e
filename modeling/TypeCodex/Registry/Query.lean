import TypeCodex.Nibble.Source
import TypeCodex.Registry.Basic
import TypeCodex.View

/-!
# Questions about registered types

An encoding is read where it stands, through a window that begins with its tag byte
and does not end with its last byte: behind a short encoding come the zeros of its
cell, behind a long one the rest of the stash.

## Main definitions

* `Window`, `Registry.entry` — the bytes of a registered type and what follows them.
* `Registry.tag?`, `Registry.isConst` — what the tag byte says.
* `Registry.arraySize` and its siblings — one operand of a type of one category.
* `Registry.describe`, `Registry.view`, `Registry.packed` — the whole descriptor, its
  view and its encoding.
-/

namespace TypeCodex

/-- Bytes from an offset on. -/
structure Window where
  bytes : Array UInt8
  offset : Nat

namespace Window

/-- The byte at an index of a window. -/
def byte? (w : Window) (i : Nat) : Option UInt8 := w.bytes[w.offset + i]?

/-- The tag byte at the start of a window. -/
def tagByte? (w : Window) : Option TagByte := (w.byte? 0).map TagByte.mk

/-- The bytes of a window. -/
def toList (w : Window) : List UInt8 := w.bytes.toList.drop w.offset

/-- The operand nibbles behind the first byte. -/
def source (w : Window) : Source := Source.ofBytes w.byte?

theorem byte?_eq (w : Window) (i : Nat) : w.byte? i = w.toList[i]? := by
  simp [byte?, toList]

end Window

/-- A tag byte with its tag and access to the operands behind it. -/
structure Entry where
  tagByte : TagByte
  tag : Tag
  operands : Source

namespace Registry

/-- The window on the encoding of a type. -/
def window (r : Registry) (id : TypeId) : Except RegistryError Window :=
  match r.cell? id with
  | none => .error (.unknownIdentifier id r.size)
  | some c =>
    match c.location with
    | .inline bytes => .ok ⟨bytes.toArray, 0⟩
    | .stashed offset =>
      if offset ≤ r.stash.size then .ok ⟨r.stash, offset⟩ else .error (.stashOverflow offset)

/-- The encoding of a type, with its tag. -/
def entry (r : Registry) (id : TypeId) : Except RegistryError Entry := do
  let w ← r.window id
  match w.tagByte? with
  | none => throw (.invalidEncoding .empty)
  | some b =>
    match b.tag? with
    | none => throw (.invalidEncoding (.unknownTag b.value))
    | some t => pure ⟨b, t, w.source⟩

/-- The tag byte of a type, if it is registered. -/
def tagByte? (r : Registry) (id : TypeId) : Option TagByte :=
  (r.window id).toOption.bind Window.tagByte?

/-- The category of a type, if it is registered. -/
def tag? (r : Registry) (id : TypeId) : Option Tag := (r.tagByte? id).bind TagByte.tag?

/-- Whether a type is constant; one that is not registered is not. -/
def isConst (r : Registry) (id : TypeId) : Bool := (r.tagByte? id).any TagByte.isConst

/-! ## Single operands -/

/-- Reads the operands of a type that has to be of one category. -/
def readAs {α : Type} (r : Registry) (id : TypeId) (expected : Tag)
    (read : Reader Nat Fault UInt32 → Reader Nat Fault α) : Except RegistryError α := do
  let e ← r.entry id
  if e.tag = expected then
    match read e.operands.int 0 with
    | .ok (a, _) => pure a
    | .error fault => throw (.invalidEncoding fault)
  else throw (.shapeMismatch id (.tag expected) e.tag)

/-- The number of elements of an array. -/
def arraySize (r : Registry) (id : TypeId) : Except RegistryError UInt32 :=
  r.readAs id .array fun int => int

/-- The element type of an array. -/
def arrayElem (r : Registry) (id : TypeId) : Except RegistryError TypeId :=
  r.readAs id .array fun int => int *> Shape.readId int

/-- The element type of a vector. -/
def vectorElem (r : Registry) (id : TypeId) : Except RegistryError TypeId :=
  r.readAs id .vector Shape.readId

/-- The key type of a map. -/
def mapKey (r : Registry) (id : TypeId) : Except RegistryError TypeId :=
  r.readAs id .map Shape.readId

/-- The value type of a map. -/
def mapValue (r : Registry) (id : TypeId) : Except RegistryError TypeId :=
  r.readAs id .map fun int => int *> Shape.readId int

/-- The fields of a tuple. -/
def tupleFields (r : Registry) (id : TypeId) : Except RegistryError (List TypeId) :=
  r.readAs id .tuple Shape.readIds

/-- The fields of a package. -/
def packageFields (r : Registry) (id : TypeId) : Except RegistryError (List TypeId) :=
  r.readAs id .package Shape.readIds

/-- The members of a variant. -/
def variantMembers (r : Registry) (id : TypeId) : Except RegistryError (List TypeId) :=
  r.readAs id .variant Shape.readIds

/-- The result type of a function. -/
def functionResult (r : Registry) (id : TypeId) : Except RegistryError TypeId :=
  r.readAs id .function Shape.readId

/-- The parameter types of a function. -/
def functionParams (r : Registry) (id : TypeId) : Except RegistryError (List TypeId) :=
  r.readAs id .function fun int => int *> Shape.readIds int

/-! ## Whole types -/

/-- The descriptor of a type. -/
def describe (r : Registry) (id : TypeId) : Except RegistryError Descriptor := do
  let e ← r.entry id
  match Shape.read e.operands.int e.tag 0 with
  | .ok (shape, _) => pure ⟨e.tagByte.isConst, shape⟩
  | .error fault => throw (.invalidEncoding fault)

/-- The view of a type, each field from the question for that operand. -/
def view (r : Registry) (id : TypeId) : Except RegistryError View := do
  let e ← r.entry id
  let empty : View := { tag := e.tag, isConst := e.tagByte.isConst }
  match e.tag with
  | .basic _ => pure empty
  | .variant => pure { empty with list := ← r.variantMembers id }
  | .array => pure { empty with size := ← r.arraySize id, type1 := some (← r.arrayElem id) }
  | .vector => pure { empty with type1 := some (← r.vectorElem id) }
  | .map => pure { empty with type1 := some (← r.mapKey id), type2 := some (← r.mapValue id) }
  | .tuple => pure { empty with list := ← r.tupleFields id }
  | .package => pure { empty with list := ← r.packageFields id }
  | .function =>
    pure { empty with type1 := some (← r.functionResult id), list := ← r.functionParams id }

/-- The encoding under which a type is registered. -/
def packed (r : Registry) (id : TypeId) : Except RegistryError Packed :=
  (r.describe id).map Descriptor.pack

end Registry

end TypeCodex
