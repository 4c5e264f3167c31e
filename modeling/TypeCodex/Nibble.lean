/-!
# Nibble integers

Operands are 32-bit words written in four-bit elements. A word below eight is a
single nibble. A larger one is a length nibble, seven more than the number of its
hexadecimal digits, and then those digits, the most significant first.

## Main definitions

* `Nibble.digits` — the lowest digits of a number.
* `Nibble.encode`, `Nibble.width` — the nibbles of a word and their number.
* `Nibble.encodeAll` — the nibbles of several words.
-/

namespace TypeCodex.Nibble

/-- Whether an element fits in four bits. -/
def Fits (n : UInt8) : Prop := n < 16

instance (n : UInt8) : Decidable (Fits n) := inferInstanceAs (Decidable (n < 16))

/-- The `k` lowest hexadecimal digits of `v`, the most significant first. -/
def digits : Nat → Nat → List UInt8
  | 0, _ => []
  | k + 1, v => UInt8.ofNat (v >>> (4 * k) % 16) :: digits k v

/-- The number of hexadecimal digits of `v`, none for zero. -/
def digitCount (v : Nat) : Nat := if v = 0 then 0 else v.log2 / 4 + 1

/-- The nibbles of a word. -/
def encode (v : UInt32) : List UInt8 :=
  if v < 8 then [v.toUInt8]
  else UInt8.ofNat (7 + digitCount v.toNat) :: digits (digitCount v.toNat) v.toNat

/-- The number of nibbles of a word. -/
def width (v : UInt32) : Nat := if v < 8 then 1 else 1 + digitCount v.toNat

/-- The nibbles of several words, one after the other. -/
def encodeAll (vs : List UInt32) : List UInt8 := vs.flatMap encode

@[simp] theorem length_digits (k v : Nat) : (digits k v).length = k := by
  induction k with
  | zero => rfl
  | succ k ih => simp [digits, ih]

@[simp] theorem length_encode (v : UInt32) : (encode v).length = width v := by
  unfold encode width
  split
  · rfl
  · simp [Nat.add_comm]

@[simp] theorem encodeAll_nil : encodeAll [] = [] := rfl

@[simp] theorem encodeAll_cons (v : UInt32) (vs : List UInt32) :
    encodeAll (v :: vs) = encode v ++ encodeAll vs := rfl

end TypeCodex.Nibble
