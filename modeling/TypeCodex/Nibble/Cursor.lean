import TypeCodex.Fault
import TypeCodex.Nibble
import TypeCodex.Reader

/-!
# Reading nibbles in order

A cursor walks over a list that holds one nibble per element. It refuses an
element that does not fit in four bits, wherever it stands.

## Main definitions

* `Cursor` — the unread elements and their offset.
* `Cursor.int` — reads one word.
* `Nibble.decodeAt`, `Nibble.decodeList` — reading by position.
-/

namespace TypeCodex

/-- A place in a list of nibbles. -/
structure Cursor where
  /-- The number of elements in front of the cursor. -/
  offset : Nat
  /-- The elements behind it. -/
  rest : List UInt8

namespace Cursor

/-- The cursor in front of a whole list. -/
def start (elements : List UInt8) : Cursor := ⟨0, elements⟩

/-- The cursor at a position of a list, which may lie past its end. -/
def place (elements : List UInt8) (pos : Nat) : Cursor := ⟨pos, elements.drop pos⟩

/-- Reads one nibble. -/
def next : Reader Cursor Fault UInt8 := fun c =>
  match c.rest with
  | [] => .error (.truncated c.offset)
  | n :: rest =>
    if Nibble.Fits n then .ok (n, ⟨c.offset + 1, rest⟩)
    else .error (.invalidNibble c.offset n)

theorem next_cons {n : UInt8} (h : Nibble.Fits n) (offset : Nat) (rest : List UInt8) :
    next ⟨offset, n :: rest⟩ = .ok (n, ⟨offset + 1, rest⟩) := if_pos h

/-- Reads `k` digits behind those that make up `acc`. -/
def digits : Nat → Nat → Reader Cursor Fault Nat
  | 0, acc => pure acc
  | k + 1, acc => do
    let n ← next
    digits k (acc * 16 + n.toNat)

/-- Reads one word: a single nibble below eight, or as many digits as the length
nibble announces. -/
def int : Reader Cursor Fault UInt32 := do
  let head ← next
  if head < 8 then pure head.toUInt32
  else UInt32.ofNat <$> digits (head.toNat - 7) 0

end Cursor

namespace Nibble

/-- Reads one word at a position and gives the position after it. -/
def decodeAt (elements : List UInt8) : Reader Nat Fault UInt32 := fun pos =>
  (Cursor.int (Cursor.place elements pos)).map fun (v, c) => (v, c.offset)

end Nibble

end TypeCodex
