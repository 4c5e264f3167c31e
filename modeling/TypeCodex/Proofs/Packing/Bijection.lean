import Mathlib.Data.List.Basic
import TypeCodex.Proofs.Packing

/-!
# The bijection between the two forms

Expanded encodings that pass the check of their elements and packed bytes that unpack
correspond one to one, with the sizes that the size formulas announce. Nothing is assumed of
the tag byte: its tag may be unknown and its high bit set.

## Main definitions

* `Packed.NotUnpacked` — why bytes have no expanded form.

## Main statements

* `Expanded.ofElements_eq_ok_iff` — the checked elements are those of well-formed encodings.
* `Packed.unpack_eq_error_iff` — which bytes have no expanded form.
* `Packed.pack_bijective` — packing and unpacking are inverse, and the sizes fit.
-/

namespace TypeCodex

namespace Expanded

theorem find?_not_fits_eq_none_iff (ns : List UInt8) :
    (ns.zipIdx.find? fun x => ¬ Nibble.Fits x.1) = none ↔ ∀ n ∈ ns, Nibble.Fits n := by
  simp only [List.find?_eq_none, decide_not, Bool.not_eq_true', decide_eq_false_iff_not,
    Decidable.not_not]
  constructor
  · intro h n hn
    have ⟨i, hi⟩ := List.mem_iff_getElem?.1 hn
    exact h (n, i) (List.mem_zipIdx_iff_getElem?.2 hi)
  · intro h x hx
    exact h x.1 (List.fst_mem_of_mem_zipIdx hx)

/-- The lists of elements that pass the check are those of the well-formed encodings. -/
theorem ofElements_eq_ok_iff {xs : List UInt8} {e : Expanded} :
    ofElements xs = .ok e ↔ e.WellFormed ∧ e.elements = xs := by
  cases xs with
  | nil => simp [ofElements, elements]
  | cons tag ns =>
    have hfits := find?_not_fits_eq_none_iff ns
    constructor
    · intro h
      rw [ofElements] at h
      split at h
      · cases h
      · next hnone =>
        split at h
        · next hparity =>
          cases h
          exact ⟨⟨hfits.1 hnone, hparity⟩, rfl⟩
        · cases h
    · intro h
      cases h.2
      rw [ofElements, hfits.2 h.1.fits]
      exact if_pos h.1.parity

end Expanded

namespace Packed

/-- Why bytes have no expanded form, with the fault that tells so. -/
inductive NotUnpacked : List UInt8 → Fault → Prop where
  /-- There is no tag byte. -/
  | empty : NotUnpacked [] .empty
  /-- A lone tag byte declares a padding nibble. -/
  | lone {tag : UInt8} (hodd : TagByte.oddLength ⟨tag⟩ = true) :
      NotUnpacked [tag] (.lengthFlagMismatch 1)
  /-- The nibble that is declared as padding is not zero. -/
  | padding {tag last : UInt8} {front : List UInt8} (hodd : TagByte.oddLength ⟨tag⟩ = true)
      (hlast : last % 16 ≠ 0) :
      NotUnpacked (tag :: (front ++ [last])) (.nonZeroPadding (last % 16))

/-- The last nibble is the low half of the last byte. -/
theorem getLast?_halves (bs : List UInt8) :
    (Nibble.halves bs).getLast? = bs.getLast?.map (· % 16) := by
  rcases List.eq_nil_or_concat' bs with rfl | ⟨front, b, rfl⟩
  · rfl
  · simp [Nibble.halves]

/-- Which bytes have no expanded form, and what is said about them. -/
theorem unpack_eq_error_iff {bs : List UInt8} {fault : Fault} :
    unpack bs = .error fault ↔ NotUnpacked bs fault := by
  constructor
  · intro h
    cases bs with
    | nil =>
      cases h
      exact .empty
    | cons tag body =>
      rw [unpack, getLast?_halves] at h
      by_cases hodd : TagByte.oddLength ⟨tag⟩ = true
      · rw [if_pos hodd] at h
        rcases List.eq_nil_or_concat' body with rfl | ⟨front, last, rfl⟩
        · cases h
          exact .lone hodd
        · by_cases hlast : last % 16 = 0
          · simp [hlast] at h
          · simp only [List.getLast?_append, List.getLast?_singleton, Option.some_or,
              Option.map_some, if_neg hlast] at h
            cases h
            exact .padding hodd hlast
      · rw [if_neg hodd] at h
        cases h
  · intro h
    cases h with
    | empty => rfl
    | lone hodd => simp [unpack, hodd]
    | padding hodd hlast => simp [unpack, hodd, getLast?_halves, hlast]

/-- The size that is announced is that of the expanded form. -/
theorem expandedSize_of_unpack {bs : List UInt8} {e : Expanded} (h : unpack bs = .ok e) :
    expandedSize bs = .ok e.size := by
  cases bs with
  | nil => cases h
  | cons tag body =>
    have hpack := (of_unpack h).2.1
    have hlen : (Nibble.pairs e.nibbles).length = body.length :=
      congrArg (fun p => p.body.length) hpack
    have hparity := (of_unpack h).1.parity
    have htag : e.tagByte = ⟨tag⟩ := congrArg Packed.tagByte hpack
    rw [Nibble.length_pairs] at hlen
    rw [htag] at hparity
    rw [expandedSize, hparity, Expanded.size]
    by_cases hodd : e.nibbles.length % 2 = 1
    · have hne : body ≠ [] := by
        intro hnil
        rw [hnil, List.length_nil] at hlen
        omega
      have hsize : 1 + e.nibbles.length = 2 * body.length := by omega
      simp [hodd, hne, hsize]
    · have hsize : 1 + e.nibbles.length = 1 + 2 * body.length := by omega
      simp [hodd, hsize]

/-- Packing and unpacking are inverse to each other between the lists of elements that pass
their check and the bytes that unpack, and the sizes fit. Bytes fail to unpack for the three
reasons only. -/
theorem pack_bijective (xs bs : List UInt8) (e : Expanded) :
    (Expanded.ofElements xs = .ok e →
      unpack e.pack.bytes = .ok e ∧ e.pack.bytes.length = e.packedSize ∧
        e.elements = xs ∧ expandedSize e.pack.bytes = .ok xs.length) ∧
    (unpack bs = .ok e →
      e.pack.bytes = bs ∧ Expanded.ofElements e.elements = .ok e) ∧
    ∀ fault, unpack bs = .error fault ↔ NotUnpacked bs fault := by
  refine ⟨?_, ?_, fun fault => unpack_eq_error_iff⟩
  · intro h
    have H := Expanded.ofElements_eq_ok_iff.1 h
    have hunpack := unpack_pack H.1
    refine ⟨hunpack, ?_, H.2, ?_⟩
    · rw [length_bytes, Expanded.size_pack]
    · rw [expandedSize_of_unpack hunpack, ← H.2, Expanded.length_elements]
  · intro h
    cases bs with
    | nil => cases h
    | cons tag body =>
      have H := of_unpack h
      refine ⟨?_, Expanded.ofElements_eq_ok_iff.2 ⟨H.1, rfl⟩⟩
      rw [H.2.1]
      rfl

/-- Three nibbles behind a tag byte whose high bit is set. -/
theorem pack_bijective_odd :
    let e : Expanded := ⟨⟨0xab⟩, [5, 15, 3]⟩
    (Expanded.ofElements [0xab, 5, 15, 3] = .ok e ∧ unpack [0xab, 0x5f, 0x30] = .ok e) ∧
    (unpack e.pack.bytes = .ok e ∧ e.pack.bytes.length = e.packedSize ∧
      e.elements = [0xab, 5, 15, 3] ∧ expandedSize e.pack.bytes = .ok 4) ∧
    (e.pack.bytes = [0xab, 0x5f, 0x30] ∧ Expanded.ofElements e.elements = .ok e) := by
  intro e
  have hxs : Expanded.ofElements [0xab, 5, 15, 3] = .ok e := rfl
  have hbs : unpack [0xab, 0x5f, 0x30] = .ok e := rfl
  have H := pack_bijective [0xab, 5, 15, 3] [0xab, 0x5f, 0x30] e
  exact ⟨⟨hxs, hbs⟩, H.1 hxs, H.2.1 hbs⟩

end Packed

end TypeCodex
