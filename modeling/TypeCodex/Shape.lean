import TypeCodex.Tag
import TypeCodex.TypeId.Ascending

/-!
# Shapes

A shape is a type taken apart once: its category with the operands that belong to
it. The operands are identifiers in a stored type and whole outlines in a printed
one, so their type is a parameter.

## Main definitions

* `Shape` — the categories with their operands.
* `Shape.operands` — the operands of a shape in the order of its encoding.
* `Shape.canonical` — the shape with the members of a variant in order.
-/

namespace TypeCodex

/-- A category with its operands. -/
inductive Shape (α : Type) where
  /-- A type that stands alone. -/
  | basic (b : Basic)
  /-- A value of any one of the member types. -/
  | variant (members : List α)
  /-- A fixed number of elements. -/
  | array (size : UInt32) (elem : α)
  /-- Any number of elements. -/
  | vector (elem : α)
  /-- Values found by keys. -/
  | map (key value : α)
  /-- A product of fields. -/
  | tuple (fields : List α)
  /-- A product of fields that is kept apart from tuples. -/
  | package (fields : List α)
  /-- A function with its result and its parameters. -/
  | function (ret : α) (params : List α)
  deriving DecidableEq

namespace Shape

variable {α : Type}

/-- The category of a shape. -/
def tag : Shape α → Tag
  | basic b => .basic b
  | variant _ => .variant
  | array _ _ => .array
  | vector _ => .vector
  | map _ _ => .map
  | tuple _ => .tuple
  | package _ => .package
  | function _ _ => .function

/-- The operands of a shape, the result of a function before its parameters. -/
def operands : Shape α → List α
  | basic _ => []
  | variant members => members
  | array _ elem => [elem]
  | vector elem => [elem]
  | map key value => [key, value]
  | tuple fields => fields
  | package fields => fields
  | function ret params => ret :: params

/-! ## Canonical shapes -/

/-- The one shape that stands for all variants with the same members; any other
shape is its own. -/
def canonical : Shape TypeId → Shape TypeId
  | variant members => variant (TypeId.ascending members)
  | shape => shape

@[simp] theorem tag_canonical (s : Shape TypeId) : s.canonical.tag = s.tag := by
  cases s <;> rfl

/-- Ordering the members changes nothing the second time. -/
@[simp] theorem canonical_canonical (s : Shape TypeId) : s.canonical.canonical = s.canonical := by
  cases s with
  | variant members =>
    exact congrArg variant (TypeId.ascending_of_pairwise (TypeId.pairwise_ascending members))
  | _ => rfl

end Shape

end TypeCodex
