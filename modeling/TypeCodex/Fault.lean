/-!
# Encoding faults

What can be wrong with a sequence of bytes or nibbles that should encode a type.
Offsets count nibbles after the tag byte.

## Main definitions

* `Fault` — the causes.
* `Fault.message` — one sentence about a fault.
-/

namespace TypeCodex

/-- Why a sequence is not the encoding of a type. -/
inductive Fault where
  /-- There is no tag byte. -/
  | empty
  /-- The tag bits hold a value that no tag has. -/
  | unknownTag (value : UInt8)
  /-- An operand needs a nibble past the end. -/
  | truncated (offset : Nat)
  /-- An element that should be a nibble exceeds fifteen. -/
  | invalidNibble (offset : Nat) (value : UInt8)
  /-- Nibbles are left after the last operand. -/
  | trailingNibbles (remaining : Nat)
  /-- The nibble that pads the last byte is not zero. -/
  | nonZeroPadding (value : UInt8)
  /-- The odd-length flag contradicts the number of elements. -/
  | lengthFlagMismatch (length : Nat)
  /-- The operands can be read, but are not written in the one permitted way. -/
  | nonCanonical
  deriving DecidableEq

/-- A number in hexadecimal with its marker and no leading zeros. -/
def hexText (n : Nat) : String := "0x" ++ String.ofList (Nat.toDigits 16 n)

namespace Fault

/-- One sentence about a fault. -/
def message : Fault → String
  | empty => "empty encoding"
  | unknownTag value => "tag value " ++ toString value.toNat ++ " is not a known type tag"
  | truncated offset => "nibble stream truncated at nibble " ++ toString offset
  | invalidNibble offset value =>
    "value " ++ hexText value.toNat ++ " at nibble " ++ toString offset
      ++ " does not fit in four bits"
  | trailingNibbles remaining =>
    toString remaining ++ " unused nibble(s) after the last operand"
  | nonZeroPadding value => "padding nibble is " ++ hexText value.toNat ++ ", expected zero"
  | lengthFlagMismatch length =>
    "odd-length flag does not match an encoding of " ++ toString length ++ " element(s)"
  | nonCanonical => "encoding is well-formed but not in canonical form"

end Fault

end TypeCodex
