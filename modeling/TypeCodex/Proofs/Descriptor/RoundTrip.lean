import TypeCodex.Proofs.Descriptor.Grammar
import TypeCodex.Proofs.Reader.Follows
import TypeCodex.View

/-!
# Descriptors read back from their encodings

The canonical encoding of a descriptor reads back as the descriptor in canonical form.
The only condition is that the length of a list fits in a word, and no encoding
announces a longer one. A descriptor that is read and written again gives the same
bytes exactly when the encoding was the canonical one.

## Main definitions

* `Descriptor.canonical` — the descriptor with its members in order.
* `Packed.decode` — reads packed bytes by way of their expanded form.
* `Packed.Encodes` — bytes are the canonical encoding of a descriptor.

## Main statements

* `Shape.reads_words` — the operands of a shape are read off their words.
* `Packed.decode_pack` — reading undoes writing.
* `View.pack_eq_pack_iff` — which views have one encoding.
* `View.normalForm_of_expand` — an encoded view reads back as its normal form.
-/

namespace TypeCodex

namespace Shape

theorem Countable.canonical {s : Shape TypeId} (h : s.Countable) : s.canonical.Countable := by
  cases s with
  | variant members => exact Nat.lt_of_le_of_lt (TypeId.length_ascending_le members) h
  | _ => exact h

/-! ## Reading what was written -/

/-- The operands of a tag are read off the words of a shape. -/
theorem reads_words {s : Shape TypeId} (h : s.Countable) :
    Cursor.Reads (read Cursor.int s.tag) (Nibble.encodeAll s.words) s :=
  (parses_read s.tag).reads _ s ⟨rfl, h, Nibble.spellsAll_encodeAll s.words⟩

/-! ## Writing what was read -/

variable {σ ε : Type} {int : Reader σ ε UInt32} {s s' : σ}

theorem length_readIds {ids : List TypeId} (h : readIds int s = .ok (ids, s')) :
    ids.length < 2 ^ 32 := by
  obtain ⟨count, s₁, -, h2⟩ := Reader.bind_eq_ok.1 h
  rw [Reader.length_list h2]
  exact count.toNat_lt

/-- Whatever is read has the tag that was asked for. -/
theorem tag_of_read {t : Tag} {shape : Shape TypeId} (h : read int t s = .ok (shape, s')) :
    shape.tag = t := by
  cases t with
  | basic b => cases h; rfl
  | variant | vector | tuple | package =>
    obtain ⟨a, -, rfl⟩ := Reader.map_eq_ok.1 h
    rfl
  | array | map | function =>
    obtain ⟨a, s₁, -, h⟩ := Reader.bind_eq_ok.1 h
    obtain ⟨b, s₂, -, h⟩ := Reader.bind_eq_ok.1 h
    cases h
    rfl

/-- No encoding announces more operands than a word can count. -/
theorem countable_of_read {t : Tag} {shape : Shape TypeId} (h : read int t s = .ok (shape, s')) :
    shape.Countable := by
  cases t with
  | basic b => cases h; exact Nat.two_pow_pos 32
  | variant | tuple | package =>
    obtain ⟨ids, h1, rfl⟩ := Reader.map_eq_ok.1 h
    exact length_readIds h1
  | vector =>
    obtain ⟨a, -, rfl⟩ := Reader.map_eq_ok.1 h
    exact Nat.two_pow_pos 32
  | array | map =>
    obtain ⟨a, s₁, -, h⟩ := Reader.bind_eq_ok.1 h
    obtain ⟨b, s₂, -, h⟩ := Reader.bind_eq_ok.1 h
    cases h
    exact Nat.two_pow_pos 32
  | function =>
    obtain ⟨ret, s₁, -, h⟩ := Reader.bind_eq_ok.1 h
    obtain ⟨params, s₂, h2, h⟩ := Reader.bind_eq_ok.1 h
    cases h
    exact length_readIds h2

end Shape

namespace Descriptor

/-- The descriptor with the members of a variant in order. -/
def canonical (d : Descriptor) : Descriptor := ⟨d.isConst, d.shape.canonical⟩

@[simp] theorem expand_canonical (d : Descriptor) : d.canonical.expand = d.expand := by
  simp [canonical, expand, tag]

@[simp] theorem pack_canonical (d : Descriptor) : d.canonical.pack = d.pack := by
  simp [pack]

theorem wellFormed_expand (d : Descriptor) : d.expand.WellFormed :=
  Expanded.wellFormed_ofWords ..

theorem ofExpanded_expand {d : Descriptor} (h : d.shape.Countable) :
    ofExpanded d.expand = .ok d.canonical := by
  have htag : d.expand.tagByte.tag? = some d.shape.canonical.tag := by simp [expand, tag]
  have hconst : d.expand.tagByte.isConst = d.isConst := by simp [expand]
  have hread := Shape.reads_words h.canonical 0 []
  rw [List.append_nil] at hread
  have hstart : Cursor.start d.expand.nibbles
      = ⟨0, Nibble.encodeAll d.shape.canonical.words⟩ := rfl
  simp only [ofExpanded, htag, hstart, hread, hconst]
  rfl

/-- What a descriptor was read from. -/
theorem ofExpanded_eq_ok {e : Expanded} {d : Descriptor} (h : ofExpanded e = .ok d) :
    e.tagByte.tag? = some d.tag ∧ e.tagByte.isConst = d.isConst ∧
      ∃ c, Shape.read Cursor.int d.tag (Cursor.start e.nibbles) = .ok (d.shape, c) := by
  unfold ofExpanded at h
  split at h
  · cases h
  · next t htag =>
    split at h
    · cases h
    · next shape c hread =>
      split at h
      · cases h
        obtain rfl := Shape.tag_of_read hread
        exact ⟨htag, rfl, c, hread⟩
      · cases h

theorem countable_of_ofExpanded {e : Expanded} {d : Descriptor} (h : ofExpanded e = .ok d) :
    d.shape.Countable := by
  obtain ⟨-, -, c, hread⟩ := ofExpanded_eq_ok h
  exact Shape.countable_of_read hread

/-- A descriptor that is read from its own encoding is canonical. -/
theorem canonical_eq_self {d : Descriptor} (h : ofExpanded d.expand = .ok d) : d.canonical = d :=
  Except.ok.inj ((ofExpanded_expand (countable_of_ofExpanded h)).symm.trans h)

end Descriptor

namespace Packed

/-- The descriptor that packed bytes stand for, read by way of their expanded form. -/
def decode (p : Packed) : Except Fault Descriptor := do
  Descriptor.ofExpanded (← unpack p.bytes)

theorem decode_of_unpack {p : Packed} {e : Expanded} (h : unpack p.bytes = .ok e) :
    p.decode = Descriptor.ofExpanded e := by
  rw [decode, h]
  rfl

/-- Reading undoes writing. -/
theorem decode_pack {d : Descriptor} (h : d.shape.Countable) : d.pack.decode = .ok d.canonical :=
  (decode_of_unpack (unpack_pack d.wellFormed_expand)).trans (Descriptor.ofExpanded_expand h)

theorem countable_of_decode {p : Packed} {d : Descriptor} (h : p.decode = .ok d) :
    d.shape.Countable := by
  cases hu : unpack p.bytes with
  | error fault => rw [decode, hu] at h; cases h
  | ok e => exact Descriptor.countable_of_ofExpanded (decode_of_unpack hu ▸ h)

/-- Bytes are the encoding of a descriptor when they read as it and it is written so. -/
structure Encodes (p : Packed) (d : Descriptor) : Prop where
  decode : p.decode = .ok d
  pack : d.pack = p

theorem encodes_pack {d : Descriptor} (h : d.shape.Countable) : d.pack.Encodes d.canonical :=
  ⟨decode_pack h, d.pack_canonical⟩

namespace Encodes

variable {p : Packed} {d : Descriptor} (H : p.Encodes d)
include H

theorem unpack : unpack p.bytes = .ok d.expand := by
  rw [← H.pack]
  exact unpack_pack d.wellFormed_expand

theorem ofExpanded : Descriptor.ofExpanded d.expand = .ok d :=
  (decode_of_unpack H.unpack).symm.trans H.decode

theorem tag? : p.tagByte.tag? = some d.tag := by
  rw [← H.pack]
  exact TagByte.tag?_make ..

theorem isConst : p.tagByte.isConst = d.isConst := by
  rw [← H.pack]
  exact TagByte.isConst_make ..

end Encodes

end Packed

namespace View

/-- A view without surplus is the view of a canonical descriptor. -/
theorem normalForm_eq (v : View) : v.normalForm = v.descriptor.canonical.view := by
  obtain ⟨tag, isConst, type1, type2, size, list⟩ := v
  cases tag <;> rfl

theorem countable_shape {v : View} (h : v.list.length < 2 ^ 32) : v.shape.Countable := by
  obtain ⟨tag, isConst, type1, type2, size, list⟩ := v
  cases tag with
  | variant | tuple | package | function => exact h
  | basic | array | vector | map => exact Nat.two_pow_pos 32

/-- Two views with lists of countable length have the same encoding exactly when their
normal forms agree. -/
theorem pack_eq_pack_iff {v w : View} (hv : v.list.length < 2 ^ 32) (hw : w.list.length < 2 ^ 32) :
    v.pack = w.pack ↔ v.normalForm = w.normalForm := by
  rw [normalForm_eq, normalForm_eq]
  constructor
  · intro h
    have hdecode := congrArg Packed.decode h
    change v.descriptor.pack.decode = w.descriptor.pack.decode at hdecode
    rw [Packed.decode_pack (countable_shape hv), Packed.decode_pack (countable_shape hw)] at hdecode
    exact congrArg Descriptor.view (Except.ok.inj hdecode)
  · intro h
    have hcanonical := Descriptor.view_injective h
    calc
      v.pack = v.descriptor.canonical.pack := (Descriptor.pack_canonical _).symm
      _ = w.descriptor.canonical.pack := by rw [hcanonical]
      _ = w.pack := Descriptor.pack_canonical _

theorem list_normalForm_variant {v : View} (h : v.tag = .variant) :
    v.normalForm.list = TypeId.ascending v.list := by
  simp [normalForm, h]

/-- The encoding of a view with a list of countable length reads back as the normal form of
the view, and its packed bytes unpack to it. The normal form of a variant lists each member
once, in ascending order. -/
theorem normalForm_of_expand {v : View} (h : v.list.length < 2 ^ 32) :
    (Descriptor.ofExpanded v.expand).map Descriptor.view = .ok v.normalForm ∧
    Packed.unpack v.pack.bytes = .ok v.expand ∧
    (v.tag = .variant → v.normalForm.list.Pairwise (· < ·) ∧
      ∀ id, id ∈ v.normalForm.list ↔ id ∈ v.list) := by
  have hread : Descriptor.ofExpanded v.expand = .ok v.descriptor.canonical :=
    Descriptor.ofExpanded_expand (countable_shape h)
  refine ⟨?_, Packed.unpack_pack v.descriptor.wellFormed_expand, ?_⟩
  · rw [hread, normalForm_eq]
    rfl
  · intro htag
    rw [list_normalForm_variant htag]
    exact ⟨TypeId.pairwise_ascending _, fun id => TypeId.mem_ascending⟩

/-- A constant variant with a repeated member and with fields that variants do not use. -/
theorem normalForm_of_expand_variant :
    let v : View :=
      { tag := .variant, isConst := true, type1 := some ⟨3⟩, size := 7,
        list := [⟨300⟩, ⟨1⟩, ⟨300⟩, ⟨9⟩] }
    (v.list.length < 2 ^ 32 ∧ v.tag = .variant ∧
      v.normalForm = { tag := .variant, isConst := true, list := [⟨1⟩, ⟨9⟩, ⟨300⟩] }) ∧
    (Descriptor.ofExpanded v.expand).map Descriptor.view = .ok v.normalForm ∧
    Packed.unpack v.pack.bytes = .ok v.expand ∧
    v.normalForm.list.Pairwise (· < ·) ∧ ∀ id, id ∈ v.normalForm.list ↔ id ∈ v.list := by
  intro v
  have hlist : v.list.length < 2 ^ 32 := by decide
  have H := normalForm_of_expand hlist
  exact ⟨⟨hlist, rfl, by decide⟩, H.1, H.2.1, H.2.2 rfl⟩

end View

namespace Descriptor

theorem list_view (d : Descriptor) : d.view.list = d.shape.listed := by
  obtain ⟨c, s⟩ := d
  cases s <;> rfl

end Descriptor

end TypeCodex
