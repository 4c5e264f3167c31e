import TypeCodex.Outline
import TypeCodex.Registry.Query

/-!
# Writing out registered types

Types are written out from left to right. Two limits keep the outline small whatever
the registry holds: one on the depth of nesting, for types that contain themselves,
and one on the number of types, since a shared operand is written at every use. A
list ends with its first operand for which the number is used up.

The traversal runs in every monad with a budget. For the text of a type, this is a counter.

## Main definitions

* `Limits` — the two limits.
* `Outline.writeListM`, `Shape.writeOutM`, `Outline.writeM` — the traversal, with a given way to
  look up a type.
* `Outline.writeList`, `Shape.writeOut`, `Registry.writeOut` — its runs with a counter.
* `Registry.outline`, `Registry.text` — a type written out, as a tree and as text.
-/

namespace TypeCodex

/-- How much of a type is written out. -/
structure Limits where
  /-- The deepest level of nesting; the type itself is at level zero. -/
  depth : Nat := 64
  /-- The number of types. -/
  nodes : Nat := 256

/-! ## The traversal -/

/-- Monads that know how much may still be written. -/
class Budget (m : Type → Type) where
  /-- Whether the budget is used up. -/
  spent : m Bool

section

variable {m : Type → Type} [Monad m] [Budget m]

/-- Writes out the members of a list, with a given way to write out one of them. -/
def Outline.writeListM (write : TypeId → m Outline) : List TypeId → m (List Outline)
  | [] => pure []
  | id :: ids => do
    if ← Budget.spent then
      pure [.elided]
    else
      let o ← write id
      let os ← Outline.writeListM write ids
      pure (o :: os)

/-- Writes out the operands of a shape in the order of its text. -/
def Shape.writeOutM (write : TypeId → m Outline) : Shape TypeId → m (Shape Outline)
  | .basic b => pure (.basic b)
  | .variant members => do
    let members ← Outline.writeListM write members
    pure (.variant members)
  | .array size elem => do
    let elem ← write elem
    pure (.array size elem)
  | .vector elem => do
    let elem ← write elem
    pure (.vector elem)
  | .map key value => do
    let key ← write key
    let value ← write value
    pure (.map key value)
  | .tuple fields => do
    let fields ← Outline.writeListM write fields
    pure (.tuple fields)
  | .package fields => do
    let fields ← Outline.writeListM write fields
    pure (.package fields)
  | .function ret params => do
    let params ← Outline.writeListM write params
    let ret ← write ret
    pure (.function ret params)

/-- Writes out what is found under an identifier. -/
def Outline.writeFound (write : TypeId → m Outline) (id : TypeId) : Option Descriptor → m Outline
  | none => pure (.unknown id)
  | some d => do
    let shape ← d.shape.writeOutM write
    pure (.node id d.isConst shape)

/-- Writes out a type on at most the given number of levels. A type is looked up with the
number of levels below it; one that is left out is not looked up. -/
def Outline.writeM (lookUp : Nat → TypeId → m (Option Descriptor)) : Nat → TypeId → m Outline
  | 0, _ => pure .elided
  | levels + 1, id => do
    if ← Budget.spent then
      pure .elided
    else
      let found ← lookUp levels id
      Outline.writeFound (Outline.writeM lookUp levels) id found

end

/-! ## A counter as a budget -/

instance {m : Type → Type} [Monad m] : Budget (StateT Nat m) where
  spent := do
    let budget ← get
    pure (budget == 0)

/-- Writes out the members of a list within a budget, with a given way to write out
one of them. -/
def Outline.writeList (write : TypeId → Nat → Outline × Nat) :
    List TypeId → Nat → List Outline × Nat :=
  writeListM (m := StateM Nat) write

/-- Writes out the operands of a shape within a budget. -/
def Shape.writeOut (write : TypeId → Nat → Outline × Nat) :
    Shape TypeId → Nat → Shape Outline × Nat :=
  writeOutM (m := StateM Nat) write

namespace Outline

variable (write : TypeId → Nat → Outline × Nat) (id : TypeId) (ids : List TypeId) (budget : Nat)

@[simp] theorem writeList_nil : writeList write [] budget = ([], budget) := rfl

@[simp] theorem writeList_zero : writeList write (id :: ids) 0 = ([.elided], 0) := rfl

theorem writeList_cons :
    writeList write (id :: ids) (budget + 1)
      = ((write id (budget + 1)).1 :: (writeList write ids (write id (budget + 1)).2).1,
        (writeList write ids (write id (budget + 1)).2).2) := rfl

end Outline

namespace Shape

variable (write : TypeId → Nat → Outline × Nat) (budget : Nat)

@[simp] theorem writeOut_basic (b : Basic) :
    (basic b).writeOut write budget = (basic b, budget) := rfl

@[simp] theorem writeOut_variant (members : List TypeId) :
    (variant members).writeOut write budget
      = (variant (Outline.writeList write members budget).1,
        (Outline.writeList write members budget).2) := rfl

@[simp] theorem writeOut_array (size : UInt32) (elem : TypeId) :
    (array size elem).writeOut write budget
      = (array size (write elem budget).1, (write elem budget).2) := rfl

@[simp] theorem writeOut_vector (elem : TypeId) :
    (vector elem).writeOut write budget = (vector (write elem budget).1, (write elem budget).2) :=
  rfl

@[simp] theorem writeOut_map (key value : TypeId) :
    (map key value).writeOut write budget
      = (map (write key budget).1 (write value (write key budget).2).1,
        (write value (write key budget).2).2) := rfl

@[simp] theorem writeOut_tuple (fields : List TypeId) :
    (tuple fields).writeOut write budget
      = (tuple (Outline.writeList write fields budget).1,
        (Outline.writeList write fields budget).2) := rfl

@[simp] theorem writeOut_package (fields : List TypeId) :
    (package fields).writeOut write budget
      = (package (Outline.writeList write fields budget).1,
        (Outline.writeList write fields budget).2) := rfl

@[simp] theorem writeOut_function (ret : TypeId) (params : List TypeId) :
    (function ret params).writeOut write budget
      = (function (write ret (Outline.writeList write params budget).2).1
          (Outline.writeList write params budget).1,
        (write ret (Outline.writeList write params budget).2).2) := rfl

end Shape

namespace Registry

/-- Looks up a type at the cost of one from the budget. -/
def lookUp (r : Registry) (id : TypeId) : StateM Nat (Option Descriptor) := do
  modify (· - 1)
  pure (r.describe id).toOption

/-- Writes out a type on at most the given number of levels and with at most `budget`
types. Also gives the budget that is left; a type that is left out costs nothing. -/
def writeOut (r : Registry) (levels : Nat) (id : TypeId) (budget : Nat) : Outline × Nat :=
  Outline.writeM (m := StateM Nat) (fun _ => r.lookUp) levels id budget

@[simp] theorem writeOut_zero (r : Registry) (id : TypeId) (budget : Nat) :
    r.writeOut 0 id budget = (.elided, budget) := rfl

@[simp] theorem writeOut_spent (r : Registry) (levels : Nat) (id : TypeId) :
    r.writeOut (levels + 1) id 0 = (.elided, 0) := rfl

theorem writeOut_succ (r : Registry) (levels : Nat) (id : TypeId) (budget : Nat) :
    r.writeOut (levels + 1) id (budget + 1)
      = Outline.writeFound (m := StateM Nat) (r.writeOut levels) id (r.describe id).toOption
          budget := rfl

theorem writeOut_of_error {r : Registry} {id : TypeId} {e : RegistryError}
    (h : r.describe id = .error e) (levels budget : Nat) :
    r.writeOut (levels + 1) id (budget + 1) = (.unknown id, budget) := by
  rw [writeOut_succ, h]
  rfl

theorem writeOut_of_describe {r : Registry} {id : TypeId} {d : Descriptor}
    (h : r.describe id = .ok d) (levels budget : Nat) :
    r.writeOut (levels + 1) id (budget + 1)
      = (.node id d.isConst (d.shape.writeOut (r.writeOut levels) budget).1,
        (d.shape.writeOut (r.writeOut levels) budget).2) := by
  rw [writeOut_succ, h]
  rfl

/-- A type written out within limits. -/
def outline (r : Registry) (id : TypeId) (limits : Limits := {}) : Outline :=
  (r.writeOut (limits.depth + 1) id limits.nodes).1

/-- The text of a type. -/
def text (r : Registry) (id : TypeId) (limits : Limits := {}) : String :=
  (r.outline id limits).text

end Registry

end TypeCodex
