import TypeCodex.Proofs.Nibble.Shortest
import TypeCodex.Proofs.Registry.Outcome

/-!
# What makes an encoding canonical

An encoding that can be read is written again as it is when its tag byte leaves the high bit
clear, each of its operand words is written in the shortest way, and the members of a variant
ascend. Each of the three is needed: nothing that one of them adds to an encoding is taken
away again by another one, because the operands are read off the nibbles in one way only. A
registry that checks no operands refuses as not canonical exactly what fails one of them.

## Main definitions

* `Expanded.Canonical` — the three conditions, on an encoding and the view that it reads as.

## Main statements

* `Shape.canonical_eq_self_iff` — which shapes are canonical.
* `Descriptor.expand_eq_self_iff` — which encodings are written again as they are.
* `Registry.intern_unchecked_iff` — which encodings are refused as not canonical.
* `View.expand_eq_iff_canonical` — the two of all encodings that can be read.
-/

namespace TypeCodex

/-- A tag byte that leaves the high bit clear is made of its three parts. -/
theorem TagByte.make_of_tag? {b : TagByte} {t : Tag} (ht : b.tag? = some t) (h : b.byte < 128) :
    make t b.isConst b.oddLength = b := by
  have hvalue : t.value.toNat = b.byte.toNat % 32 := by
    rw [Tag.value_of_ofValue? ht, value, UInt8.toNat_mod]
    rfl
  have hlt : b.byte.toNat < 128 := UInt8.lt_iff_toNat_lt.1 h
  have hodd : b.oddLength = true ↔ b.byte.toNat / 32 % 2 = 1 := by
    rw [oddLength, beq_iff_eq, ← UInt8.toNat_inj]
    simp
  have hconst : b.isConst = true ↔ b.byte.toNat / 64 % 2 = 1 := by
    rw [isConst, beq_iff_eq, ← UInt8.toNat_inj]
    simp
  have hbyte : (make t b.isConst b.oddLength).byte = b.byte := by
    rw [make, ← UInt8.toNat_inj]
    simp only [hodd, hconst, UInt8.toNat_add, hvalue]
    split <;> split <;> simp <;> omega
  cases b
  exact congrArg TagByte.mk hbyte

/-- The canonical shapes are those whose members ascend if they are variants. -/
theorem Shape.canonical_eq_self_iff {s : Shape TypeId} :
    s.canonical = s ↔ (s.tag = .variant → s.listed.Pairwise (· < ·)) := by
  cases s with
  | variant members =>
    constructor
    · intro h _
      have hmembers : TypeId.ascending members = members := Shape.variant.inj h
      rw [listed, ← hmembers]
      exact TypeId.pairwise_ascending members
    · intro h
      exact congrArg variant (TypeId.ascending_of_pairwise (h rfl))
  | _ =>
    refine iff_of_true rfl ?_
    intro htag
    cases htag

/-- An encoding of a view in the one permitted way. -/
structure Expanded.Canonical (e : Expanded) (v : View) : Prop where
  /-- The high bit of the tag byte is clear. -/
  tagByte : e.tagByte.byte < 128
  /-- Every operand word is written in the shortest way. -/
  words : Nibble.ShortestAll e.nibbles v.shape.words
  /-- The members of a variant are in strictly ascending order. -/
  members : v.tag = .variant → v.list.Pairwise (· < ·)

namespace Descriptor

variable {e : Expanded} {d : Descriptor}

theorem shape_view (d : Descriptor) : d.view.shape = d.shape :=
  congrArg Descriptor.shape d.descriptor_view

/-- The encodings that are written again as they are. -/
theorem expand_eq_self_iff (hwell : e.WellFormed) (h : ofExpanded e = .ok d) :
    d.expand = e ↔ e.Canonical d.view := by
  constructor
  · rintro rfl
    have hshape : d.shape.canonical = d.shape := congrArg Descriptor.shape (canonical_eq_self h)
    refine ⟨TagByte.make_lt .., ?_, ?_⟩
    · rw [Nibble.shortestAll_iff, shape_view, ← hshape]
      rfl
    · rw [tag_view, list_view]
      exact Shape.canonical_eq_self_iff.1 hshape
  · intro H
    obtain ⟨htag, hconst, -⟩ := ofExpanded_eq_ok h
    have hshape : d.shape.canonical = d.shape := by
      rw [Shape.canonical_eq_self_iff, ← list_view]
      exact fun hvariant => H.members (d.tag_view.trans hvariant)
    have hwords : e.nibbles = Nibble.encodeAll d.shape.words := by
      rw [← Nibble.shortestAll_iff, ← shape_view]
      exact H.words
    have hbyte := TagByte.make_of_tag? htag H.tagByte
    rw [hconst, hwell.parity, hwords] at hbyte
    rw [expand, hshape, Expanded.ofWords, hbyte, ← hwords]

end Descriptor

namespace Registry

variable {r : Registry} {p : Packed} {e : Expanded} {d : Descriptor}

/-- A new encoding that can be read is refused as not canonical exactly when it is written
again in another way, if operands are not checked. -/
theorem intern_unchecked_iff (hoff : r.options.checkOperands = false)
    (hnew : r.index[p.bytes]? = none) (hunpack : Packed.unpack p.bytes = .ok e)
    (hread : Descriptor.ofExpanded e = .ok d) :
    (r.intern p).1 = .error (.invalidEncoding .nonCanonical) ↔ d.expand ≠ e := by
  have hnone : (d.operands.find? fun id => r.options.checkOperands && !r.contains id) = none := by
    rw [find?_operands_eq_none_iff, Admits, hoff]
    intro hcheck
    cases hcheck
  have hval : r.validate p
      = if d.expand = e then pure () else throw (.invalidEncoding .nonCanonical) := by
    simp only [validate, hunpack, hread, Except.mapError, bind, Except.bind, hnone]
  by_cases heq : d.expand = e
  · rw [if_pos heq] at hval
    rw [intern_valid hnew hval]
    refine iff_of_false ?_ (fun hne => hne heq)
    rcases r.store_cases p with ⟨-, h⟩ | ⟨-, c, -, h⟩ | ⟨-, -, c, -, h⟩ | ⟨-, -, -, h⟩
    all_goals
      rw [h]
      intro hrefused
      cases hrefused
  · rw [if_neg heq] at hval
    rw [intern_refused hnew hval]
    exact iff_of_true rfl heq

end Registry

namespace View

/-- An encoding that reads as a view is the encoding of the view exactly when its tag byte
leaves the high bit clear, each operand word is written in the shortest way, and the members
of a variant are strictly ascending. A registry that checks no operands and does not know the
encoding refuses it as not canonical exactly when one of the three fails. -/
theorem expand_eq_iff_canonical {elements : List UInt8} {e : Expanded} {v : View}
    (h : Expanded.ofElements elements = .ok e)
    (hv : (Descriptor.ofExpanded e).map Descriptor.view = .ok v) :
    (v.expand = e ↔ e.Canonical v) ∧
    ∀ (r : Registry) (p : Packed), r.options.checkOperands = false →
      r.index[p.bytes]? = none → Packed.unpack p.bytes = .ok e →
      ((r.intern p).1 = .error (.invalidEncoding .nonCanonical) ↔ ¬ e.Canonical v) := by
  obtain ⟨hwell, -⟩ := Expanded.ofElements_eq_ok_iff.1 h
  cases hread : Descriptor.ofExpanded e with
  | error fault =>
    rw [hread] at hv
    cases hv
  | ok d =>
    rw [hread] at hv
    obtain rfl : d.view = v := Except.ok.inj hv
    have hcanonical := Descriptor.expand_eq_self_iff hwell hread
    refine ⟨?_, ?_⟩
    · rw [expand, Descriptor.descriptor_view]
      exact hcanonical
    · intro r p hoff hnew hunpack
      rw [Registry.intern_unchecked_iff hoff hnew hunpack hread, Ne, hcanonical]

/-- A variant with a repeated member and an overlong count, behind a tag byte whose high bit
is set. -/
theorem expand_eq_iff_canonical_variant :
    let e : Expanded := ⟨⟨0xa9⟩, [9, 0, 2, 5, 5]⟩
    let v : View := { tag := .variant, list := [⟨5⟩, ⟨5⟩] }
    let p : Packed := ⟨⟨0xa9⟩, [0x90, 0x25, 0x50]⟩
    let r := Registry.make {}
    (Expanded.ofElements [0xa9, 9, 0, 2, 5, 5] = .ok e ∧
      (Descriptor.ofExpanded e).map Descriptor.view = .ok v ∧
      r.options.checkOperands = false ∧ r.index[p.bytes]? = none ∧
      Packed.unpack p.bytes = .ok e) ∧
    (v.expand = e ↔ e.Canonical v) ∧ ¬ e.Canonical v ∧
    (r.intern p).1 = .error (.invalidEncoding .nonCanonical) := by
  intro e v p r
  have h : Expanded.ofElements [0xa9, 9, 0, 2, 5, 5] = .ok e := by decide
  have hv : (Descriptor.ofExpanded e).map Descriptor.view = .ok v := by decide
  have hoff : r.options.checkOperands = false := rfl
  have hnew : r.index[p.bytes]? = none := by decide +kernel
  have hunpack : Packed.unpack p.bytes = .ok e := by decide
  have H := expand_eq_iff_canonical h hv
  have hnot : ¬ e.Canonical v := fun hcanonical => absurd hcanonical.tagByte (by decide)
  exact ⟨⟨h, hv, hoff, hnew, hunpack⟩, H.1, hnot, (H.2 r p hoff hnew hunpack).2 hnot⟩

end View

end TypeCodex
