import TypeCodex.Reader

/-!
# Variable-length numbers

Numbers are written in groups of seven bits, the lowest group first. Every byte but
the last has its high bit set. A format admits a greatest number of groups, and a
greatest last byte when all of them are used, so that a number never exceeds its
word. Trailing groups of zero are read but never written.

## Main definitions

* `Wire.Error` — what can be wrong with the bytes.
* `Varint.Format` — the limits of a word, with `Varint.word32` and `Varint.word64`.
* `Varint.encode`, `Varint.decode` — numbers to bytes and back.
-/

namespace TypeCodex.Wire

/-- Why bytes do not hold a value. -/
inductive Error where
  /-- The bytes end inside a value. -/
  | unexpectedEnd
  /-- A number has too many groups or is too large for its word. -/
  | badVarint
  /-- A truth value is neither zero nor one. -/
  | badBool
  /-- The mark of an optional value is neither zero nor one. -/
  | badOption
  /-- No tag has the index. -/
  | unknownTag
  deriving DecidableEq

/-- Functions that read a value from the unread bytes. -/
abbrev Decoder (α : Type) := Reader (List UInt8) Error α

/-- Reads one byte. -/
def byte : Decoder UInt8
  | [] => .error .unexpectedEnd
  | b :: rest => .ok (b, rest)

namespace Varint

/-- The limits on the bytes of a number. -/
structure Format where
  /-- The greatest number of groups. -/
  groups : Nat
  /-- The greatest value of the last byte when all groups are used. -/
  lastMax : UInt8

/-- Words of 32 bits take at most five groups, the fifth of four bits. -/
def word32 : Format := ⟨5, 15⟩

/-- Words of 64 bits take at most ten groups, the tenth of one bit. -/
def word64 : Format := ⟨10, 1⟩

/-- The groups of a number, at most as many as given. -/
def encodeGroups : Nat → Nat → List UInt8
  | 0, _ => []
  | groups + 1, n =>
    if n < 128 then [UInt8.ofNat n]
    else UInt8.ofNat (n % 128 + 128) :: encodeGroups groups (n / 128)

/-- Reads at most the given number of groups. -/
def decodeGroups (lastMax : UInt8) : Nat → Decoder Nat
  | 0 => throw .badVarint
  | groups + 1 => do
    let b ← byte
    if b < 128 then
      if groups = 0 ∧ lastMax < b then throw .badVarint else pure b.toNat
    else do
      let high ← decodeGroups lastMax groups
      pure (b.toNat % 128 + 128 * high)

/-- The bytes of a number that fits the format. -/
def encode (f : Format) (n : Nat) : List UInt8 := encodeGroups f.groups n

/-- Reads a number within the limits of the format. -/
def decode (f : Format) : Decoder Nat := decodeGroups f.lastMax f.groups

end Varint

end TypeCodex.Wire
