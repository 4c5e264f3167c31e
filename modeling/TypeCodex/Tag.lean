/-!
# Type tags

The closed set of type categories. Eight of them are basic: they refer to no
other type. Every tag has a value from 1 to 15, so that it fits the five low bits
of a tag byte and a zero byte never names a type, and a set of traits.

## Main definitions

* `Basic`, `Tag` — the categories, with their values and names.
* `Tag.ofValue?` — the tag of a value.
* `Trait`, `Tag.traits` — what instances of a category can be used as.
-/

namespace TypeCodex

/-- The categories that refer to no other type. -/
inductive Basic where
  | nil
  | bool
  | byte
  | char
  | int
  | real
  | string
  | any
  deriving DecidableEq

namespace Basic

/-- The basic categories in order of their indices. -/
def all : List Basic := [nil, bool, byte, char, int, real, string, any]

/-- The position of a basic category in `all`. -/
def index : Basic → Nat
  | nil => 0
  | bool => 1
  | byte => 2
  | char => 3
  | int => 4
  | real => 5
  | string => 6
  | any => 7

/-- The name of a basic category. -/
def name : Basic → String
  | nil => "nil"
  | bool => "bool"
  | byte => "byte"
  | char => "char"
  | int => "int"
  | real => "real"
  | string => "string"
  | any => "any"

end Basic

/-- The category of a type. -/
inductive Tag where
  | basic (b : Basic)
  | variant
  | array
  | vector
  | map
  | tuple
  | package
  | function
  deriving DecidableEq

/-- A way in which instances of a category can be used. -/
inductive Trait where
  /-- The type refers to no other type. -/
  | basic
  /-- An instance is a single value; strings and functions count. -/
  | scalar
  /-- An instance is a product of fields. -/
  | composite
  /-- An instance collects values of one type; strings count here too. -/
  | collection
  /-- An instance can be called. -/
  | callable
  deriving DecidableEq

namespace Trait

/-- The traits from the lowest bit up. -/
def all : List Trait := [basic, scalar, composite, collection, callable]

/-- The bit that stands for a trait in a flag byte. -/
def bit : Trait → UInt8
  | basic => 1
  | scalar => 2
  | composite => 4
  | collection => 8
  | callable => 16

/-- The name of a trait. -/
def name : Trait → String
  | basic => "BASIC"
  | scalar => "SCALAR"
  | composite => "COMPOSITE"
  | collection => "COLLECTION"
  | callable => "CALLABLE"

end Trait

namespace Tag

/-- All tags in order of their values. -/
def all : List Tag :=
  Basic.all.map basic ++ [variant, array, vector, map, tuple, package, function]

/-- The value of a tag in a tag byte. -/
def value : Tag → UInt8
  | basic b => UInt8.ofNat (b.index + 1)
  | variant => 9
  | array => 10
  | vector => 11
  | map => 12
  | tuple => 13
  | package => 14
  | function => 15

/-- The tag that has a given value. -/
def ofValue? (v : UInt8) : Option Tag :=
  all.find? fun t => t.value == v

/-- The name of a tag. -/
def name : Tag → String
  | basic b => b.name
  | variant => "variant"
  | array => "array"
  | vector => "vector"
  | map => "map"
  | tuple => "tuple"
  | package => "package"
  | function => "function"

/-- The traits of a tag, lowest bit first. -/
def traits : Tag → List Trait
  | basic .any => [.basic]
  | basic .string => [.basic, .scalar, .collection]
  | basic _ => [.basic, .scalar]
  | variant => []
  | array | vector | map => [.collection]
  | tuple | package => [.composite]
  | function => [.scalar, .callable]

/-- Whether a tag has a trait. -/
def has (t : Tag) (r : Trait) : Bool := t.traits.contains r

/-- The traits of a tag as one byte. -/
def flags (t : Tag) : UInt8 := t.traits.foldl (fun bits r => bits ||| r.bit) 0

/-- The index of a basic tag among the basic tags. -/
def basicIndex? : Tag → Option Nat
  | basic b => some b.index
  | _ => none

theorem mem_all (t : Tag) : t ∈ all := by
  cases t with
  | basic b => cases b <;> decide
  | _ => decide

/-- A value names the tag it belongs to. -/
@[simp] theorem ofValue?_value (t : Tag) : ofValue? t.value = some t := by
  cases t with
  | basic b => cases b <;> decide
  | _ => decide

theorem value_of_ofValue? {v : UInt8} {t : Tag} (h : ofValue? v = some t) : t.value = v := by
  simpa using List.find?_some h

/-- Tag values run from 1 to 15. -/
theorem value_bounds (t : Tag) : 1 ≤ t.value.toNat ∧ t.value.toNat ≤ 15 := by
  cases t with
  | basic b => cases b <;> decide
  | _ => decide

/-- The basic tags are those with an index. -/
theorem has_basic_iff (t : Tag) : t.has .basic = t.basicIndex?.isSome := by
  cases t with
  | basic b => cases b <;> decide
  | _ => decide

end Tag

end TypeCodex
