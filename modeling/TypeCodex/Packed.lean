import TypeCodex.Expanded

/-!
# Packed encodings

The stored form of an encoding: the tag byte and then two operand nibbles per byte,
the high one first. When the number of nibbles is odd, the low half of the last byte
is a zero that pads it, and the odd-length flag of the tag byte tells so.

## Main definitions

* `Packed` — a tag byte with its operand bytes.
* `Expanded.pack` — puts nibbles together.
* `Packed.expandedSize`, `Packed.unpack` — take bytes apart again.
-/

namespace TypeCodex

/-- A tag byte and the operand bytes behind it. -/
structure Packed where
  tagByte : TagByte
  body : List UInt8
  deriving DecidableEq

namespace Packed

/-- All bytes, the tag byte in front. -/
def bytes (p : Packed) : List UInt8 := p.tagByte.byte :: p.body

/-- The number of bytes. -/
def size (p : Packed) : Nat := 1 + p.body.length

/-- Takes any bytes but none at all. -/
def ofBytes : List UInt8 → Except Fault Packed
  | [] => .error .empty
  | tag :: body => .ok ⟨⟨tag⟩, body⟩

@[simp] theorem length_bytes (p : Packed) : p.bytes.length = p.size := by
  simp [bytes, size, Nat.add_comm]

@[simp] theorem ofBytes_bytes (p : Packed) : ofBytes p.bytes = .ok p := rfl

theorem bytes_injective {p q : Packed} (h : p.bytes = q.bytes) : p = q :=
  Except.ok.inj ((ofBytes_bytes p).symm.trans ((congrArg ofBytes h).trans (ofBytes_bytes q)))

end Packed

namespace Nibble

/-- Two nibbles per byte; a last one that stands alone is padded with zero. -/
def pairs : List UInt8 → List UInt8
  | [] => []
  | [hi] => [hi % 16 * 16]
  | hi :: lo :: rest => (hi % 16 * 16 + lo % 16) :: pairs rest

/-- The two nibbles of each byte. -/
def halves (bytes : List UInt8) : List UInt8 := bytes.flatMap fun b => [b / 16, b % 16]

@[simp] theorem halves_nil : halves [] = [] := rfl

@[simp] theorem halves_cons (b : UInt8) (bs : List UInt8) :
    halves (b :: bs) = b / 16 :: b % 16 :: halves bs := rfl

@[simp] theorem length_halves (bs : List UInt8) : (halves bs).length = 2 * bs.length := by
  induction bs with
  | nil => rfl
  | cons b bs ih => simp [ih]; omega

@[simp] theorem length_pairs (ns : List UInt8) : (pairs ns).length = (ns.length + 1) / 2 := by
  fun_induction pairs ns with
  | case1 => rfl
  | case2 => simp
  | case3 hi lo rest ih => simp [ih]; omega

end Nibble

namespace Expanded

/-- The packed form of an expanded encoding. -/
def pack (e : Expanded) : Packed := ⟨e.tagByte, Nibble.pairs e.nibbles⟩

/-- The number of bytes of the packed form. -/
def packedSize (e : Expanded) : Nat := 1 + e.size / 2

/-- The size formula counts the bytes that packing gives. -/
theorem size_pack (e : Expanded) : e.pack.size = e.packedSize := by
  simp [pack, packedSize, Packed.size, size, Nat.add_comm]

end Expanded

namespace Packed

/-- The number of elements of the expanded form. A lone tag byte has no nibble that its
flag could declare padding. -/
def expandedSize : List UInt8 → Except Fault Nat
  | [] => .error .empty
  | tag :: body =>
    if TagByte.oddLength ⟨tag⟩ then
      if body = [] then .error (.lengthFlagMismatch 1) else .ok (2 * body.length)
    else .ok (1 + 2 * body.length)

/-- The expanded form of packed bytes. Only zero may stand as padding, so that no bytes
but these have this expanded form. -/
def unpack : List UInt8 → Except Fault Expanded
  | [] => .error .empty
  | tag :: body =>
    if TagByte.oddLength ⟨tag⟩ then
      match (Nibble.halves body).getLast? with
      | none => .error (.lengthFlagMismatch 1)
      | some padding =>
        if padding = 0 then .ok ⟨⟨tag⟩, (Nibble.halves body).dropLast⟩
        else .error (.nonZeroPadding padding)
    else .ok ⟨⟨tag⟩, Nibble.halves body⟩

end Packed

end TypeCodex
