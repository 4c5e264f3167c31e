import TypeCodex.Fault
import TypeCodex.Nibble
import TypeCodex.TagByte

/-!
# Expanded encodings

The working form of an encoding: the tag byte and then one operand nibble per
element.

## Main definitions

* `Expanded` — a tag byte with its nibbles.
* `Expanded.WellFormed` — the elements are nibbles and the flag tells their parity.
* `Expanded.ofElements` — checks a list of elements.
* `Expanded.ofWords` — writes a tag, a constness and the operand words.
-/

namespace TypeCodex

/-- A tag byte and the operand nibbles behind it. -/
structure Expanded where
  tagByte : TagByte
  nibbles : List UInt8
  deriving DecidableEq

namespace Expanded

/-- All elements, the tag byte in front. -/
def elements (e : Expanded) : List UInt8 := e.tagByte.byte :: e.nibbles

/-- The number of elements. -/
def size (e : Expanded) : Nat := 1 + e.nibbles.length

/-- The elements behind the tag byte are nibbles, and the odd-length flag is set exactly
when their number is odd. -/
structure WellFormed (e : Expanded) : Prop where
  fits : ∀ n ∈ e.nibbles, Nibble.Fits n
  parity : e.tagByte.oddLength = (e.nibbles.length % 2 == 1)

/-- Takes a list of elements as an expanded encoding. The first element that is no nibble
is refused before a wrong flag. -/
def ofElements : List UInt8 → Except Fault Expanded
  | [] => .error .empty
  | tag :: nibbles =>
    match nibbles.zipIdx.find? fun x => ¬ Nibble.Fits x.1 with
    | some (n, i) => .error (.invalidNibble i n)
    | none =>
      if TagByte.oddLength ⟨tag⟩ = (nibbles.length % 2 == 1) then .ok ⟨⟨tag⟩, nibbles⟩
      else .error (.lengthFlagMismatch (nibbles.length + 1))

/-- The encoding of a tag, a constness and the operand words. -/
def ofWords (t : Tag) (isConst : Bool) (words : List UInt32) : Expanded :=
  let nibbles := Nibble.encodeAll words
  ⟨TagByte.make t isConst (nibbles.length % 2 == 1), nibbles⟩

@[simp] theorem length_elements (e : Expanded) : e.elements.length = e.size := by
  simp [elements, size, Nat.add_comm]

@[simp] theorem nibbles_ofWords (t : Tag) (c : Bool) (ws : List UInt32) :
    (ofWords t c ws).nibbles = Nibble.encodeAll ws := rfl

@[simp] theorem tag?_ofWords (t : Tag) (c : Bool) (ws : List UInt32) :
    (ofWords t c ws).tagByte.tag? = some t := TagByte.tag?_make ..

@[simp] theorem isConst_ofWords (t : Tag) (c : Bool) (ws : List UInt32) :
    (ofWords t c ws).tagByte.isConst = c := TagByte.isConst_make ..

end Expanded

end TypeCodex
