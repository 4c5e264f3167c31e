/-!
# Registry cells

Each registered type owns one 32-bit cell. A short encoding stands in the cell
itself, as four big-endian bytes padded with zeros; this is possible because no
encoding sets the high bit of its first byte. A cell with the high bit set holds
the offset of a longer encoding in the stash.

## Main definitions

* `Cell.inline?`, `Cell.stashed?` — the cells of a short encoding and of an offset.
* `Cell.location` — what a cell says.
-/

namespace TypeCodex

/-- One registry word. -/
structure Cell where
  word : UInt32
  deriving DecidableEq

namespace Cell

/-- Where an encoding is found. -/
inductive Location where
  /-- Four bytes, the encoding and zeros behind it. -/
  | inline (bytes : List UInt8)
  /-- The encoding starts at this offset of the stash. -/
  | stashed (offset : Nat)
  deriving DecidableEq

/-- The number of bytes that a cell holds. -/
def capacity : Nat := 4

/-- The number of offsets that a cell can hold. -/
def offsetLimit : Nat := 0x80000000

/-- The cell of the invalid identifier. -/
def reserved : Cell := ⟨0⟩

/-- Bytes as one number, the first byte most significant. -/
def bigEndian (bytes : List UInt8) : Nat := bytes.foldl (fun n b => n * 256 + b.toNat) 0

/-- Bytes followed by zeros up to the capacity of a cell. -/
def padded (bytes : List UInt8) : List UInt8 :=
  bytes ++ List.replicate (capacity - bytes.length) 0

/-- The cell that holds an encoding of one to four bytes, if the mark of stashed cells
leaves room for it. -/
def inline? (bytes : List UInt8) : Option Cell :=
  match bytes with
  | [] => none
  | first :: _ =>
    if bytes.length ≤ capacity ∧ first < 128 then
      some ⟨UInt32.ofNat (bigEndian (padded bytes))⟩
    else none

/-- The cell that holds a stash offset of at most 31 bits. -/
def stashed? (offset : Nat) : Option Cell :=
  if offset < offsetLimit then some ⟨UInt32.ofNat (offsetLimit + offset)⟩ else none

/-- What a cell says: its four bytes, or the offset if the high bit is set. -/
def location (c : Cell) : Location :=
  let n := c.word.toNat
  if n < offsetLimit then
    .inline [UInt8.ofNat (n / 0x1000000), UInt8.ofNat (n / 0x10000 % 256),
      UInt8.ofNat (n / 0x100 % 256), UInt8.ofNat (n % 256)]
  else .stashed (n - offsetLimit)

/-- An offset is found again. -/
theorem location_of_stashed? {offset : Nat} {c : Cell} (h : stashed? offset = some c) :
    c.location = .stashed offset := by
  unfold stashed? at h
  split at h
  · next hlt =>
    cases h
    have hn : (UInt32.ofNat (offsetLimit + offset)).toNat = offsetLimit + offset :=
      UInt32.toNat_ofNat_of_lt (by simp [offsetLimit, UInt32.size] at *; omega)
    rw [location, hn, if_neg (by omega), Nat.add_sub_cancel_left]
  · cases h

end Cell

end TypeCodex
