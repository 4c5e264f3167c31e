import TypeCodex.Nibble.Source
import TypeCodex.Proofs.Checked
import TypeCodex.Proofs.Descriptor.RoundTrip
import TypeCodex.Proofs.Packing.Bijection
import TypeCodex.Registry.Basic

/-!
# Checked encodings

An encoding is a buffer of bytes whose first one is its tag byte. Whoever makes a buffer asserts
what its later users rely on: that there is a tag byte, that the odd-length flag agrees with the
length, and that packing and unpacking give as many bytes as was announced. The writers compute
the flag so that it agrees, the readers refuse bytes for which the sizes would be wrong, and the
halves of a byte announce eight digits at most. So all checks pass, whatever is written or read.

## Main definitions

* `splitTag`, `Expanded.wrap`, `Packed.wrap` — buffers and the assertions about them.
* `Expanded.build`, `Expanded.checkedBasic`, `Descriptor.build` — checked writing.
* `Expanded.checkedPack`, `Packed.checkedUnpack` — checked packing and unpacking.
* `Expanded.checkedOfElements`, `Packed.checkedOfBytes` — buffers that come from outside.
* `Source.checkedInt` — checked reading of a word by index.

## Main statements

* `Expanded.passes_wrap` — well-formed encodings may be wrapped.
* `Descriptor.passes_build`, `Expanded.passes_checkedPack`, `Packed.passes_checkedUnpack` — all
  checks of writing, packing and unpacking pass.
* `Source.passes_checkedInt` — the halves of bytes never announce more than eight digits.
-/

namespace TypeCodex

variable {ε : Type}

/-- The tag byte of a buffer and the bytes behind it. -/
def splitTag (buffer : List UInt8) : Except (Stop ε) (TagByte × List UInt8) := do
  let tag ← access (.byte 0) buffer[0]?
  let rest ← slice buffer 1
  pure (⟨tag⟩, rest)

theorem passes_splitTag (tag : UInt8) (rest : List UInt8) :
    Passes (splitTag (tag :: rest) : Except (Stop ε) _) (.ok (⟨tag⟩, rest)) := rfl

/-! ## Writing -/

/-- The byte of a tag with the odd-length flag set. -/
theorem TagByte.byte_make_or (t : Tag) (c : Bool) :
    (make t c false).byte ||| 32 = (make t c true).byte := by
  cases c <;> cases t with
  | basic b => cases b <;> decide
  | _ => decide

namespace Expanded

/-- Takes a buffer as an expanded encoding, and asserts that its flag agrees with its length. -/
def wrap (buffer : List UInt8) : Except (Stop ε) Expanded := do
  require .nonEmpty (buffer ≠ [])
  let (tag, nibbles) ← splitTag buffer
  require .parity (tag.oddLength = (buffer.length % 2 == 0))
  pure ⟨tag, nibbles⟩

/-- Well-formed encodings may be wrapped. -/
theorem passes_wrap {e : Expanded} (H : e.WellFormed) :
    Passes (wrap e.elements : Except (Stop ε) Expanded) (.ok e) := by
  have hparity : e.tagByte.oddLength = (e.elements.length % 2 == 0) := by
    rw [H.parity, length_elements, size, Bool.eq_iff_iff, beq_iff_eq, beq_iff_eq]
    omega
  refine (passes_require (List.cons_ne_nil _ _)).ok_bind ?_
  refine (passes_splitTag e.tagByte.byte e.nibbles).ok_bind ?_
  exact (passes_require hparity).ok_bind (passes_ok e)

/-- A flag that does not agree is noticed. -/
example : (wrap [0x0b, 5] : Except (Stop Fault) Expanded) = .error (.failed .parity) := rfl

/-- Sets the odd-length flag if a buffer has an even number of elements, and wraps it. -/
def finish (buffer : List UInt8) : Except (Stop ε) Expanded := do
  if buffer.length % 2 = 0 then
    let tag ← access (.byte 0) buffer[0]?
    wrap (buffer.set 0 (tag ||| 32))
  else wrap buffer

/-- The flag that is computed for operand words agrees with their nibbles. -/
theorem passes_finish (t : Tag) (c : Bool) (ws : List UInt32) :
    Passes (finish ((TagByte.make t c false).byte :: Nibble.encodeAll ws) :
      Except (Stop ε) Expanded) (.ok (ofWords t c ws)) := by
  have hwrap : Passes (wrap (ofWords t c ws).elements : Except (Stop ε) Expanded) _ :=
    passes_wrap (wellFormed_ofWords t c ws)
  rw [finish, List.length_cons]
  by_cases hodd : (Nibble.encodeAll ws).length % 2 = 1
  · have heven : ((Nibble.encodeAll ws).length + 1) % 2 = 0 := by omega
    have hwords : ofWords t c ws = ⟨TagByte.make t c true, Nibble.encodeAll ws⟩ := by
      rw [ofWords, beq_iff_eq.2 hodd]
    rw [hwords] at hwrap ⊢
    rw [if_pos heven]
    refine (passes_access rfl).ok_bind ?_
    rw [TagByte.byte_make_or]
    exact hwrap
  · have hne : ¬ ((Nibble.encodeAll ws).length + 1) % 2 = 0 := by omega
    have hwords : ofWords t c ws = ⟨TagByte.make t c false, Nibble.encodeAll ws⟩ := by
      rw [ofWords, beq_eq_false_iff_ne.2 hodd]
    rw [hwords] at hwrap ⊢
    rw [if_neg hne]
    exact hwrap

/-- Writes a tag without operands, and asserts that it is that of a basic type. -/
def build (t : Tag) (c : Bool) : Except (Stop ε) Expanded := do
  require .basicTag (t.has .basic = true)
  finish [(TagByte.make t c false).byte]

theorem passes_build (b : Basic) (c : Bool) :
    Passes (build (.basic b) c : Except (Stop ε) Expanded)
      (.ok (Descriptor.mk c (.basic b)).expand) := by
  have hbasic : (Tag.basic b).has .basic = true := by
    cases b <;> decide
  exact (passes_require hbasic).ok_bind (passes_finish (.basic b) c [])

/-- Writes a tag without operands if it is that of a basic type. -/
def checkedBasic (t : Tag) (c : Bool) : Except (Stop RegistryError) Expanded :=
  if t.has .basic = true then build t c
  else .error (.error (.shapeMismatch TypeId.invalid .anyBasic t))

theorem passes_checkedBasic (t : Tag) (c : Bool) :
    Passes (checkedBasic t c) ((Descriptor.ofBasicTag t c).map Descriptor.expand) := by
  rw [checkedBasic, Tag.has_basic_iff]
  cases t with
  | basic b => exact passes_build b c
  | _ => exact passes_error _

end Expanded

namespace Descriptor

/-- Writes a descriptor: the tag byte without its flag, the operands, then the flag. -/
def build (d : Descriptor) : Except (Stop ε) Expanded :=
  match d.shape with
  | .basic b => Expanded.build (.basic b) d.isConst
  | shape => Expanded.finish
      ((TagByte.make shape.tag d.isConst false).byte :: Nibble.encodeAll shape.canonical.words)

/-- Every descriptor is written, however long its list is. -/
theorem passes_build (d : Descriptor) :
    Passes (d.build : Except (Stop ε) Expanded) (.ok d.expand) := by
  obtain ⟨c, s⟩ := d
  cases s with
  | basic b => exact Expanded.passes_build b c
  | _ => exact Expanded.passes_finish ..

end Descriptor

/-! ## Packing -/

namespace Nibble

/-- Elements by twos; the last one may stand alone. -/
def chunks : List UInt8 → List (List UInt8)
  | [] => []
  | [hi] => [[hi]]
  | hi :: lo :: rest => [hi, lo] :: chunks rest

/-- One byte of the nibbles of a chunk. -/
def checkedByte (chunk : List UInt8) : Except (Stop ε) UInt8 := do
  let hi ← access (.byte 0) chunk[0]?
  pure (hi % 16 * 16 + chunk[1]?.getD 0 % 16)

/-- No chunk is empty. -/
theorem passes_mapM_checkedByte (ns : List UInt8) :
    Passes ((chunks ns).mapM checkedByte : Except (Stop ε) (List UInt8)) (.ok (pairs ns)) := by
  fun_induction chunks ns with
  | case1 => rfl
  | case2 hi =>
    have hbyte : Passes (checkedByte [hi] : Except (Stop ε) UInt8) (.ok (hi % 16 * 16)) := by
      refine (passes_access rfl).ok_bind ?_
      exact congrArg Except.ok (UInt8.add_zero (hi % 16 * 16))
    rw [List.mapM_cons, pairs]
    exact hbyte.ok_bind rfl
  | case3 hi lo rest ih =>
    have hbyte : Passes (checkedByte [hi, lo] : Except (Stop ε) UInt8)
        (.ok (hi % 16 * 16 + lo % 16)) := rfl
    rw [List.mapM_cons, pairs]
    exact hbyte.ok_bind (ih.ok_bind rfl)

end Nibble

namespace Packed

/-- Takes a buffer as a packed encoding, and asserts that it is not empty. -/
def wrap (buffer : List UInt8) : Except (Stop ε) Packed := do
  require .nonEmpty (buffer ≠ [])
  let (tag, body) ← splitTag buffer
  pure ⟨tag, body⟩

theorem passes_wrap (p : Packed) : Passes (wrap p.bytes : Except (Stop ε) Packed) (.ok p) :=
  (passes_require (List.cons_ne_nil _ _)).ok_bind ((passes_splitTag _ _).ok_bind (passes_ok p))

end Packed

/-- Packs an expanded encoding, and asserts that the bytes are as many as was announced. -/
def Expanded.checkedPack (e : Expanded) : Except (Stop ε) Packed := do
  let (tag, nibbles) ← splitTag e.elements
  let body ← (Nibble.chunks nibbles).mapM Nibble.checkedByte
  require .packedSize ((tag.byte :: body).length = e.packedSize)
  Packed.wrap (tag.byte :: body)

/-- Every expanded encoding is packed, whether or not it is well-formed. -/
theorem Expanded.passes_checkedPack (e : Expanded) :
    Passes (e.checkedPack : Except (Stop ε) Packed) (.ok e.pack) := by
  refine (passes_splitTag e.tagByte.byte e.nibbles).ok_bind ?_
  refine (Nibble.passes_mapM_checkedByte e.nibbles).ok_bind ?_
  have hsize : (e.tagByte.byte :: Nibble.pairs e.nibbles).length = e.packedSize := by
    rw [← e.size_pack, ← Packed.length_bytes]
    rfl
  exact (passes_require hsize).ok_bind (Packed.passes_wrap e.pack)

namespace Packed

/-- Takes the padding off elements of which there is one more than announced. Only zero may stand
as padding. -/
def dropPadding (size : Nat) (elements : List UInt8) : Except Fault (List UInt8) :=
  if size < elements.length then
    let padding := elements.getLast?.getD 0
    if padding = 0 then .ok elements.dropLast else .error (.nonZeroPadding padding)
  else .ok elements

/-- Unpacks bytes, and asserts that the elements are as many as was announced. -/
def checkedUnpack (bytes : List UInt8) : Except (Stop Fault) Expanded := do
  let size ← (expandedSize bytes).mapError .error
  let (tag, body) ← splitTag bytes
  let elements ← (dropPadding size (tag.byte :: Nibble.halves body)).mapError .error
  require .expandedSize (elements.length = size)
  Expanded.wrap elements

/-- Without the padding, the halves of bytes that unpack are their elements. -/
theorem dropPadding_of_unpack {tag : UInt8} {body : List UInt8} {e : Expanded}
    (h : unpack (tag :: body) = .ok e) :
    dropPadding e.size (tag :: Nibble.halves body) = .ok e.elements := by
  have hlength : (tag :: Nibble.halves body).length = 1 + 2 * body.length := by
    simp [Nat.add_comm]
  rw [unpack] at h
  split at h
  · split at h
    · cases h
    · next padding hlast =>
      split at h
      · next hzero =>
        cases h
        have hne : Nibble.halves body ≠ [] := by
          intro hnil
          rw [hnil] at hlast
          cases hlast
        have hpos := List.length_pos_of_ne_nil hne
        rw [Nibble.length_halves] at hpos
        have hless : 1 + ((Nibble.halves body).dropLast).length
            < (tag :: Nibble.halves body).length := by
          rw [List.length_dropLast, hlength, Nibble.length_halves]
          omega
        have hpadding : (tag :: Nibble.halves body).getLast?.getD 0 = 0 := by
          rw [List.getLast?_cons, hlast, hzero]
          rfl
        rw [dropPadding, Expanded.size, if_pos hless]
        simp only [hpadding, if_pos, List.dropLast_cons_of_ne_nil hne]
        rfl
      · cases h
  · cases h
    rw [dropPadding, hlength, Expanded.size, Nibble.length_halves, if_neg (Nat.lt_irrefl _)]
    rfl

/-- What is unpacked has the announced size and may be wrapped; other bytes are refused for the
same reason. -/
theorem passes_checkedUnpack (bytes : List UInt8) :
    Passes (checkedUnpack bytes) (unpack bytes) := by
  cases h : unpack bytes with
  | ok e =>
    cases bytes with
    | nil => cases h
    | cons tag body =>
      rw [checkedUnpack, expandedSize_of_unpack h]
      refine (passes_of_eq rfl).ok_bind ((passes_splitTag tag body).ok_bind ?_)
      refine (passes_of_eq (dropPadding_of_unpack h)).ok_bind ?_
      refine (passes_require e.length_elements).ok_bind ?_
      exact Expanded.passes_wrap (of_unpack h).1
  | error fault =>
    cases unpack_eq_error_iff.1 h with
    | empty => rfl
    | @lone tag hodd =>
      have hsize : expandedSize [tag] = .error (.lengthFlagMismatch 1) := by
        simp [expandedSize, hodd]
      rw [checkedUnpack, hsize]
      rfl
    | @padding tag last front hodd hlast =>
      have hsize : expandedSize (tag :: (front ++ [last])) = .ok (2 * (front.length + 1)) := by
        simp [expandedSize, hodd]
      have hdrop : dropPadding (2 * (front.length + 1)) (tag :: Nibble.halves (front ++ [last]))
          = .error (.nonZeroPadding (last % 16)) := by
        simp [dropPadding, List.getLast?_cons, getLast?_halves, hlast]
      rw [checkedUnpack, hsize]
      refine (passes_of_eq rfl).ok_bind ((passes_splitTag tag (front ++ [last])).ok_bind ?_)
      exact (passes_of_eq hdrop).error_bind

/-- Takes any bytes but none at all, and then their tag byte. -/
def checkedOfBytes (bytes : List UInt8) : Except (Stop Fault) Packed :=
  if bytes = [] then .error (.error .empty) else wrap bytes

theorem passes_checkedOfBytes (bytes : List UInt8) :
    Passes (checkedOfBytes bytes) (ofBytes bytes) := by
  cases bytes with
  | nil => rfl
  | cons tag body => exact passes_wrap ⟨⟨tag⟩, body⟩

end Packed

/-! ## Elements from outside -/

namespace Expanded

/-- Checks a list of elements by index, and takes it as a buffer. -/
def checkedOfElements (elements : List UInt8) : Except (Stop Fault) Expanded :=
  match elements.head? with
  | none => .error (.error .empty)
  | some tag => do
    let nibbles ← slice elements 1
    match nibbles.findIdx? fun n => ¬ Nibble.Fits n with
    | some offset =>
      let value ← access (.byte (1 + offset)) elements[1 + offset]?
      .error (.error (.invalidNibble offset value))
    | none =>
      if TagByte.oddLength ⟨tag⟩ = (elements.length % 2 == 0) then do
        let (tag, nibbles) ← splitTag elements
        pure ⟨tag, nibbles⟩
      else .error (.error (.lengthFlagMismatch elements.length))

/-- The first element with a property, with its place behind `k` others. -/
theorem find?_zipIdx {α : Type} (p : α → Bool) (as : List α) (k : Nat) :
    ((as.zipIdx k).find? fun x => p x.1)
      = (as.findIdx? p).bind fun i => as[i]?.map fun a => (a, k + i) := by
  induction as generalizing k with
  | nil => rfl
  | cons a as ih =>
    rw [List.zipIdx_cons, List.find?_cons, List.findIdx?_cons]
    cases p a with
    | true => rfl
    | false =>
      rw [ih]
      cases as.findIdx? p <;> simp [Nat.add_assoc, Nat.add_comm 1]

theorem passes_checkedOfElements (elements : List UInt8) :
    Passes (checkedOfElements elements) (ofElements elements) := by
  cases elements with
  | nil => rfl
  | cons tag nibbles =>
    have hparity : ((tag :: nibbles).length % 2 == 0) = (nibbles.length % 2 == 1) := by
      rw [List.length_cons, Bool.eq_iff_iff, beq_iff_eq, beq_iff_eq]
      omega
    rw [checkedOfElements, ofElements, find?_zipIdx fun n => decide ¬ Nibble.Fits n]
    refine (passes_slice (Nat.le_add_left 1 _)).ok_bind ?_
    rw [List.drop_succ_cons, List.drop_zero]
    cases hfind : nibbles.findIdx? fun n => decide ¬ Nibble.Fits n with
    | some i =>
      obtain ⟨hlt, -, -⟩ := List.findIdx?_eq_some_iff_getElem.1 hfind
      have hget : (tag :: nibbles)[1 + i]? = some nibbles[i] := by
        rw [Nat.add_comm, List.getElem?_cons_succ, List.getElem?_eq_getElem hlt]
      simp only [Option.bind_some, List.getElem?_eq_getElem hlt, Option.map_some, Nat.zero_add]
      exact (passes_access hget).ok_bind (passes_error _)
    | none =>
      simp only [Option.bind_none, hparity]
      by_cases hflag : TagByte.oddLength ⟨tag⟩ = (nibbles.length % 2 == 1)
      · rw [if_pos hflag, if_pos hflag]
        exact (passes_splitTag tag nibbles).ok_bind (passes_ok _)
      · rw [if_neg hflag, if_neg hflag]
        exact passes_error _

end Expanded

/-! ## Words in packed bytes -/

namespace Source

/-- Reads one word at a position, and asserts that it has at most eight digits. -/
def checkedInt (s : Source) : Reader Nat (Stop Fault) UInt32 := fun pos => do
  let head ← (s.fetch pos).mapError .error
  if head < 8 then pure (head.toUInt32, pos + 1)
  else
    let count := head.toNat - 7
    require .digitCount (count ≤ 8)
    let v ← (s.digits count (pos + 1) 0).mapError .error
    pure (UInt32.ofNat v, pos + 1 + count)

variable {byte? : Nat → Option UInt8}

theorem fits_of_fetch {i : Nat} {n : UInt8} (h : (ofBytes byte?).fetch i = .ok n) :
    Nibble.Fits n := by
  rw [fetch, ofBytes] at h
  cases hb : byte? (1 + i / 2) with
  | none => simp [hb] at h
  | some b =>
    simp only [hb, Option.map_some, Except.ok.injEq] at h
    rw [← h]
    split
    · exact Nibble.fits_div b
    · exact Nibble.fits_mod b

/-- The halves of bytes never announce more than eight digits, wherever reading starts. -/
theorem passes_checkedInt (byte? : Nat → Option UInt8) :
    Reader.Passes (ofBytes byte?).checkedInt (ofBytes byte?).int := by
  intro pos
  refine (passes_of_eq rfl).bind fun head hhead => ?_
  by_cases h8 : head < 8
  · rw [if_pos h8, if_pos h8]
    exact passes_ok _
  · have hlt : head.toNat < 16 := UInt8.lt_iff_toNat_lt.1 (fits_of_fetch hhead)
    have hcount : head.toNat - 7 ≤ 8 := by omega
    rw [if_neg h8, if_neg h8]
    exact (passes_require hcount).ok_bind ((passes_of_eq rfl).bind fun v _ => passes_ok _)

/-- Elements that are no halves of bytes may announce more. -/
example : (ofList [16, 1]).checkedInt 0 = .error (.failed .digitCount) := rfl

end Source

end TypeCodex
