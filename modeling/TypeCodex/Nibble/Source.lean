import TypeCodex.Fault
import TypeCodex.Nibble
import TypeCodex.Reader

/-!
# Reading nibbles by index

A source answers for each index with an element, or with nothing past its end.
Reading through a source leaves the elements where they are, so that packed bytes
are read without being unpacked. Digits count by their low four bits.

## Main definitions

* `Source` — access to the elements by index.
* `Source.int` — reads one word at a position.
* `Source.ofBytes` — the nibbles behind a tag byte.
-/

namespace TypeCodex

/-- Access by index to a stream of nibbles. -/
structure Source where
  element? : Nat → Option UInt8

namespace Source

/-- The source of a list with one nibble per element. -/
def ofList (elements : List UInt8) : Source := ⟨fun i => elements[i]?⟩

/-- The nibbles of packed bytes: two to a byte, the high one first, behind the tag
byte at index zero. -/
def ofBytes (byte? : Nat → Option UInt8) : Source :=
  ⟨fun i => (byte? (1 + i / 2)).map fun b => if i % 2 = 0 then b / 16 else b % 16⟩

/-- The element at an index. -/
def fetch (s : Source) (i : Nat) : Except Fault UInt8 :=
  match s.element? i with
  | some n => .ok n
  | none => .error (.truncated i)

/-- Reads `k` digits from an index on, behind those that make up `acc`. -/
def digits (s : Source) : Nat → Nat → Nat → Except Fault Nat
  | 0, _, acc => .ok acc
  | k + 1, i, acc => do
    let n ← s.fetch i
    s.digits k (i + 1) (acc * 16 + n.toNat % 16)

/-- Reads one word at a position and gives the position after it. -/
def int (s : Source) : Reader Nat Fault UInt32 := fun pos => do
  let head ← s.fetch pos
  if head < 8 then .ok (head.toUInt32, pos + 1)
  else do
    let count := head.toNat - 7
    let v ← s.digits count (pos + 1) 0
    .ok (UInt32.ofNat v, pos + 1 + count)

end Source

end TypeCodex
