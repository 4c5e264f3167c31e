import TypeCodex.Descriptor

/-!
# Flat views

A view is a descriptor as a flat record, the form in which descriptors are exchanged.
Every view has all fields, whatever its tag uses:

* array: `type1` is the element, `size` the number of elements;
* vector: `type1` is the element;
* map: `type1` is the key, `type2` the value;
* variant, tuple, package: `list` holds the members or fields;
* function: `type1` is the result, `list` holds the parameters.

## Main definitions

* `View` — the record.
* `Descriptor.view`, `View.descriptor` — from and to descriptors.
* `View.normalForm` — the one view among those with the same meaning.
-/

namespace TypeCodex

/-- A descriptor as a flat record. -/
structure View where
  tag : Tag
  isConst : Bool := false
  type1 : Option TypeId := none
  type2 : Option TypeId := none
  size : UInt32 := 0
  list : List TypeId := []
  deriving DecidableEq

namespace View

/-- The identifiers in a view, in the order of its fields and whatever its tag. -/
def operands (v : View) : List TypeId := v.type1.toList ++ v.type2.toList ++ v.list

/-- The shape that a view stands for. Fields that the tag does not use are ignored, and
a missing operand is the invalid identifier. -/
def shape (v : View) : Shape TypeId :=
  let first := v.type1.getD TypeId.invalid
  let second := v.type2.getD TypeId.invalid
  match v.tag with
  | .basic b => .basic b
  | .variant => .variant v.list
  | .array => .array v.size first
  | .vector => .vector first
  | .map => .map first second
  | .tuple => .tuple v.list
  | .package => .package v.list
  | .function => .function first v.list

/-- The descriptor that a view stands for. -/
def descriptor (v : View) : Descriptor := ⟨v.isConst, v.shape⟩

/-- The canonical encoding of a view. -/
def expand (v : View) : Expanded := v.descriptor.expand

/-- The packed form of the canonical encoding. -/
def pack (v : View) : Packed := v.descriptor.pack

/-- The view with the unused fields empty, no operand missing, and the members of a
variant in strictly ascending order. -/
def normalForm (v : View) : View :=
  { tag := v.tag
    isConst := v.isConst
    type1 :=
      match v.tag with
      | .array | .vector | .map | .function => some (v.type1.getD TypeId.invalid)
      | _ => none
    type2 :=
      match v.tag with
      | .map => some (v.type2.getD TypeId.invalid)
      | _ => none
    size :=
      match v.tag with
      | .array => v.size
      | _ => 0
    list :=
      match v.tag with
      | .variant => TypeId.ascending v.list
      | .tuple | .package | .function => v.list
      | _ => [] }

end View

namespace Descriptor

/-- The view of a descriptor. -/
def view (d : Descriptor) : View :=
  match d.shape with
  | .basic b => { tag := .basic b, isConst := d.isConst }
  | .variant members => { tag := .variant, isConst := d.isConst, list := members }
  | .array size elem => { tag := .array, isConst := d.isConst, type1 := some elem, size := size }
  | .vector elem => { tag := .vector, isConst := d.isConst, type1 := some elem }
  | .map key value =>
    { tag := .map, isConst := d.isConst, type1 := some key, type2 := some value }
  | .tuple fields => { tag := .tuple, isConst := d.isConst, list := fields }
  | .package fields => { tag := .package, isConst := d.isConst, list := fields }
  | .function ret params =>
    { tag := .function, isConst := d.isConst, type1 := some ret, list := params }

@[simp] theorem tag_view (d : Descriptor) : d.view.tag = d.tag := by
  obtain ⟨c, s⟩ := d; cases s <;> rfl

@[simp] theorem isConst_view (d : Descriptor) : d.view.isConst = d.isConst := by
  obtain ⟨c, s⟩ := d; cases s <;> rfl

/-- The operands of a descriptor are those of its view, in the same order. -/
@[simp] theorem operands_view (d : Descriptor) : d.view.operands = d.operands := by
  obtain ⟨c, s⟩ := d; cases s <;> rfl

/-- A view keeps everything about its descriptor. -/
@[simp] theorem descriptor_view (d : Descriptor) : d.view.descriptor = d := by
  obtain ⟨c, s⟩ := d; cases s <;> rfl

theorem view_injective {d e : Descriptor} (h : d.view = e.view) : d = e := by
  rw [← descriptor_view d, h, descriptor_view]

end Descriptor

end TypeCodex
