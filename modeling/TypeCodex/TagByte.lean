import TypeCodex.Tag

/-!
# Tag bytes

The first byte of every encoding. Bits 0 to 4 hold the value of the tag, bit 5 is
set when the number of operand nibbles is odd, bit 6 marks a constant type, and
bit 7 is never set by a writer.

## Main definitions

* `TagByte.make` — the byte of a tag and its two flags.
* `TagByte.tag?`, `TagByte.oddLength`, `TagByte.isConst` — its three parts.
-/

namespace TypeCodex

/-- The byte in front of the operands. -/
structure TagByte where
  byte : UInt8
  deriving DecidableEq

namespace TagByte

/-- The largest value that the tag bits hold. -/
def maxValue : UInt8 := 31

/-- The five bits that hold a tag value. -/
def value (b : TagByte) : UInt8 := b.byte % 32

/-- The tag, if the value bits name one. -/
def tag? (b : TagByte) : Option Tag := Tag.ofValue? b.value

/-- Whether the number of operand nibbles is announced as odd. -/
def oddLength (b : TagByte) : Bool := b.byte / 32 % 2 == 1

/-- Whether the type is constant. -/
def isConst (b : TagByte) : Bool := b.byte / 64 % 2 == 1

/-- The seven bits that have a meaning. -/
def known (b : TagByte) : UInt8 := b.byte % 128

/-- The tag byte of a tag, a constness and the parity of the operand nibbles. -/
def make (t : Tag) (isConst oddLength : Bool) : TagByte :=
  ⟨t.value + (if oddLength then 32 else 0) + (if isConst then 64 else 0)⟩

theorem value_make (t : Tag) (c o : Bool) : (make t c o).value = t.value := by
  cases c <;> cases o <;> cases t with
  | basic b => cases b <;> decide
  | _ => decide

@[simp] theorem tag?_make (t : Tag) (c o : Bool) : (make t c o).tag? = some t := by
  rw [tag?, value_make, Tag.ofValue?_value]

@[simp] theorem isConst_make (t : Tag) (c o : Bool) : (make t c o).isConst = c := by
  cases c <;> cases o <;> cases t with
  | basic b => cases b <;> decide
  | _ => decide

@[simp] theorem oddLength_make (t : Tag) (c o : Bool) : (make t c o).oddLength = o := by
  cases c <;> cases o <;> cases t with
  | basic b => cases b <;> decide
  | _ => decide

/-- A written tag byte leaves bit 7 clear. -/
theorem make_lt (t : Tag) (c o : Bool) : (make t c o).byte < 128 := by
  cases c <;> cases o <;> cases t with
  | basic b => cases b <;> decide
  | _ => decide

end TagByte

end TypeCodex
