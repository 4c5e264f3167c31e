import TypeCodex.Proofs.Descriptor.RoundTrip
import TypeCodex.Proofs.Registry.Cell
import TypeCodex.Registry.Basic

/-!
# The outcome of interning

A request to intern an encoding ends in one of three ways: the encoding is known and
keeps its number, it is refused, or it is valid and gets the next number. Only the last
one changes the registry.

## Main statements

* `Registry.validate_of_decode_error`, `Registry.validate_eq_ok_iff` — which encodings are
  valid.
* `Registry.intern_known`, `Registry.intern_refused`, `Registry.intern_valid` — the
  three outcomes.
* `Registry.store_cases` — what storing does with a valid encoding.
-/

namespace TypeCodex

namespace Packed

/-- Bytes that unpack are the canonical encoding of a descriptor when the expanded forms
agree. -/
theorem expand_eq_iff {p : Packed} {e : Expanded} (h : unpack p.bytes = .ok e) (d : Descriptor) :
    d.expand = e ↔ d.pack = p := by
  obtain ⟨-, hpack, -⟩ := of_unpack h
  constructor
  · rintro rfl
    exact hpack
  · intro hd
    rw [← hd] at h
    exact Except.ok.inj ((unpack_pack d.wellFormed_expand).symm.trans h)

end Packed

namespace Registry

variable {r : Registry} {p : Packed}

/-- The operands of a descriptor are registered, as far as the options ask for it. -/
def Admits (r : Registry) (d : Descriptor) : Prop :=
  r.options.checkOperands = true → ∀ id ∈ d.operands, r.contains id = true

theorem find?_operands_eq_none_iff (d : Descriptor) :
    (d.operands.find? fun id => r.options.checkOperands && !r.contains id) = none ↔ r.Admits d := by
  rw [List.find?_eq_none]
  constructor
  · intro h hcheck id hid
    simpa [hcheck] using h id hid
  · intro h id hid
    cases hcheck : r.options.checkOperands with
    | false => simp
    | true => simp [h hcheck id hid]

/-- Bytes that cannot be read are refused for the same reason. -/
theorem validate_of_decode_error {fault : Fault} (h : p.decode = .error fault) :
    r.validate p = .error (.invalidEncoding fault) := by
  cases hu : Packed.unpack p.bytes with
  | error fault' =>
    rw [Packed.decode, hu] at h
    cases h
    rw [validate, hu]
    rfl
  | ok e =>
    rw [Packed.decode_of_unpack hu] at h
    simp only [validate, hu, Except.mapError, bind, Except.bind, h]

/-- Bytes that read as a descriptor are valid when it is admitted and is written so. -/
theorem validate_of_decode {d : Descriptor} (h : p.decode = .ok d) :
    r.validate p = .ok () ↔ r.Admits d ∧ d.pack = p := by
  cases hu : Packed.unpack p.bytes with
  | error fault =>
    rw [Packed.decode, hu] at h
    cases h
  | ok e =>
    rw [Packed.decode_of_unpack hu] at h
    rw [← Packed.expand_eq_iff hu, ← find?_operands_eq_none_iff]
    simp only [validate, hu, Except.mapError, bind, Except.bind, h]
    cases hfind : d.operands.find? fun id => r.options.checkOperands && !r.contains id with
    | some id =>
      refine iff_of_false (fun hval => ?_) (fun hboth => ?_)
      · cases hval
      · cases hboth.1
    | none =>
      by_cases heq : d.expand = e
      · simp only [if_pos heq]
        exact iff_of_true rfl ⟨trivial, heq⟩
      · simp only [if_neg heq]
        refine iff_of_false (fun hval => ?_) (fun hboth => heq hboth.2)
        cases hval

/-- An encoding is valid when it is the canonical one of a descriptor whose operands
are admitted. -/
theorem validate_eq_ok_iff : r.validate p = .ok () ↔ ∃ d, p.Encodes d ∧ r.Admits d := by
  cases hdec : p.decode with
  | error fault =>
    rw [validate_of_decode_error hdec]
    constructor
    · intro h
      cases h
    · rintro ⟨d, H, -⟩
      rw [H.decode] at hdec
      cases hdec
  | ok d =>
    rw [validate_of_decode hdec]
    constructor
    · rintro ⟨hadmits, hpack⟩
      exact ⟨d, ⟨hdec, hpack⟩, hadmits⟩
    · rintro ⟨d', H, hadmits⟩
      obtain rfl : d = d' := Except.ok.inj (hdec.symm.trans H.decode)
      exact ⟨hadmits, H.pack⟩

/-! ## The three outcomes -/

theorem intern_known {id : TypeId} (h : r.index[p.bytes]? = some id) :
    r.intern p = (.ok id, r) := by
  rw [intern, h]

theorem intern_refused {e : RegistryError} (hnew : r.index[p.bytes]? = none)
    (h : r.validate p = .error e) : r.intern p = (.error e, r) := by
  rw [intern, hnew, h]

theorem intern_valid (hnew : r.index[p.bytes]? = none) (h : r.validate p = .ok ()) :
    r.intern p = r.store p := by
  rw [intern, hnew, h]

/-- The encodings of at most four bytes are those that find room in a cell. -/
theorem size_le_capacity_iff {d : Descriptor} (H : p.Encodes d) :
    p.size ≤ Cell.capacity ↔ (Cell.inline? p.bytes).isSome := by
  obtain rfl := H.pack
  exact (Cell.isSome_inline?_iff (TagByte.make_lt ..)).symm

/-- An encoding is stored in its cell or behind the stash, or nothing changes because a
limit is reached. -/
theorem store_cases (r : Registry) (p : Packed) :
    (cellLimit ≤ r.cells.size ∧ r.store p = (.error .registryFull, r)) ∨
    (r.cells.size < cellLimit ∧ ∃ c, Cell.inline? p.bytes = some c ∧
      r.store p = (.ok ⟨UInt32.ofNat r.cells.size⟩, r.push p c)) ∨
    (r.cells.size < cellLimit ∧ Cell.inline? p.bytes = none ∧
      ∃ c, Cell.stashed? r.stash.size = some c ∧
        r.store p = (.ok ⟨UInt32.ofNat r.cells.size⟩,
          { r with stash := r.stash ++ p.bytes }.push p c)) ∨
    (r.cells.size < cellLimit ∧ Cell.inline? p.bytes = none ∧
      Cell.offsetLimit ≤ r.stash.size ∧ r.store p = (.error (.stashOverflow r.stash.size), r)) := by
  by_cases hroom : r.cells.size < cellLimit
  · cases hin : Cell.inline? p.bytes with
    | some c => exact .inr (.inl ⟨hroom, c, rfl, by rw [store, if_pos hroom, hin]⟩)
    | none =>
      by_cases hstash : r.stash.size < Cell.offsetLimit
      · have hc : Cell.stashed? r.stash.size = some _ := if_pos hstash
        exact .inr (.inr (.inl ⟨hroom, rfl, _, hc, by rw [store, if_pos hroom, hin, hc]⟩))
      · have hc : Cell.stashed? r.stash.size = none := if_neg hstash
        exact .inr (.inr (.inr ⟨hroom, rfl, by omega, by rw [store, if_pos hroom, hin, hc]⟩))
  · exact .inl ⟨by omega, by rw [store, if_neg hroom]⟩

end Registry

end TypeCodex
