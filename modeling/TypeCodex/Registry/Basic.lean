import Std.Data.ExtTreeMap
import TypeCodex.Descriptor
import TypeCodex.Registry.Cell
import TypeCodex.Registry.Error

/-!
# Type registries

A registry numbers the packed encodings that it is given, from one upwards, and gives
an encoding that it knows the number it has. Encodings of up to four bytes stand in
the cell of their number, longer ones one after another in the stash. Neither place
records a length: the operands of an encoding show where it ends.

The constant and the non-constant form of each basic type are registered from the
start, with the numbers 1 to 16.

## Main definitions

* `Registry` — the cells, the stash, and the index from encodings to numbers.
* `Registry.make` — a registry of the basic types.
* `Registry.intern` — numbers an encoding, or refuses it.
* `Registry.find` — the number of an encoding.
-/

namespace TypeCodex

/-- How a registry is set up. The capacities are hints; they limit nothing. -/
structure Options where
  cellCapacity : Nat := 64
  stashCapacity : Nat := 256
  /-- Whether the operands of a new type have to be registered. -/
  checkOperands : Bool := false
  deriving DecidableEq

/-- The numbers of encodings, by their bytes. -/
abbrev Index := Std.ExtTreeMap (List UInt8) TypeId

/-- Numbered encodings. -/
structure Registry where
  options : Options
  /-- The cell of each identifier; the one of the invalid identifier is unused. -/
  cells : Array Cell
  /-- The encodings that are too long for a cell. -/
  stash : Array UInt8
  /-- The identifiers of the encodings. -/
  index : Index

namespace Registry

/-- The number of identifiers that 32 bits can tell apart. -/
def cellLimit : Nat := 0x100000000

/-- The number of registered types. -/
def size (r : Registry) : Nat := r.cells.size - 1

/-- The cell of a registered type. -/
def cell? (r : Registry) (id : TypeId) : Option Cell :=
  if id = TypeId.invalid then none else r.cells[id.index]?

/-- Whether a type is registered under an identifier. -/
def contains (r : Registry) (id : TypeId) : Bool := (r.cell? id).isSome

/-- The identifier of an encoding, invalid if it is not registered. -/
def find (r : Registry) (p : Packed) : TypeId := r.index.getD p.bytes TypeId.invalid

/-- The basic types in the order of their identifiers. -/
def basics : List Descriptor :=
  Basic.all.flatMap fun b => [⟨false, .basic b⟩, ⟨true, .basic b⟩]

/-- The identifier of a basic type, invalid for any other tag. -/
def basicId (t : Tag) (isConst : Bool) : TypeId :=
  match t.basicIndex? with
  | some i => ⟨UInt32.ofNat (1 + 2 * i + isConst.toNat)⟩
  | none => TypeId.invalid

/-- Puts an encoding under the next identifier, in a given cell. -/
def push (r : Registry) (p : Packed) (c : Cell) : Registry :=
  { r with
    cells := r.cells.push c
    index := r.index.insert p.bytes ⟨UInt32.ofNat r.cells.size⟩ }

/-- A registry that knows no type. -/
def bare (options : Options) : Registry := ⟨options, #[Cell.reserved], #[], ∅⟩

/-- A registry of the basic types. -/
def make (options : Options) : Registry :=
  basics.foldl (fun r d => r.push d.pack ((Cell.inline? d.pack.bytes).getD Cell.reserved))
    (bare options)

/-- Checks that bytes are the canonical encoding of a type, and that its operands are
registered if the options ask for that. -/
def validate (r : Registry) (p : Packed) : Except RegistryError Unit := do
  let e ← (Packed.unpack p.bytes).mapError RegistryError.invalidEncoding
  let d ← (Descriptor.ofExpanded e).mapError RegistryError.invalidEncoding
  match d.operands.find? fun id => r.options.checkOperands && !r.contains id with
  | some id => throw (.unknownIdentifier id r.size)
  | none => if d.expand = e then pure () else throw (.invalidEncoding .nonCanonical)

/-- Puts an encoding under the next identifier. Nothing changes if there is none left or
the stash is too long. -/
def store (r : Registry) (p : Packed) : Except RegistryError TypeId × Registry :=
  if r.cells.size < cellLimit then
    let id : TypeId := ⟨UInt32.ofNat r.cells.size⟩
    match Cell.inline? p.bytes with
    | some c => (.ok id, r.push p c)
    | none =>
      match Cell.stashed? r.stash.size with
      | some c => (.ok id, { r with stash := r.stash ++ p.bytes }.push p c)
      | none => (.error (.stashOverflow r.stash.size), r)
  else (.error .registryFull, r)

/-- The identifier of an encoding. One that is not registered yet is validated and gets
the next identifier. -/
def intern (r : Registry) (p : Packed) : Except RegistryError TypeId × Registry :=
  match r.index[p.bytes]? with
  | some id => (.ok id, r)
  | none =>
    match r.validate p with
    | .error e => (.error e, r)
    | .ok () => r.store p

/-- Interns an encoding and answers with the invalid identifier if it is refused. -/
def create (r : Registry) (p : Packed) : TypeId × Registry :=
  match r.intern p with
  | (.ok id, r) => (id, r)
  | (.error _, r) => (TypeId.invalid, r)

/-- Packs an expanded encoding and creates it. -/
def register (r : Registry) (e : Expanded) : TypeId × Registry := r.create e.pack

end Registry

/-- The descriptor of a basic type. Any other tag is refused. -/
def Descriptor.ofBasicTag (t : Tag) (isConst : Bool) : Except RegistryError Descriptor :=
  match t with
  | .basic b => .ok ⟨isConst, .basic b⟩
  | _ => .error (.shapeMismatch TypeId.invalid .anyBasic t)

end TypeCodex
