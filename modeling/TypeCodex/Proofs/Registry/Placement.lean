import Mathlib.Data.Nat.Bitwise
import TypeCodex.Proofs.Registry.Interning

/-!
# Where encodings are placed

A cell of one kind is never mistaken for one of the other kind. The mark of a stashed cell
takes the bit that no written tag byte sets, so every offset of 31 bits is found again, and so
are up to four bytes that leave this bit clear. What is written in at most four bytes always
stands in its cell.

## Main statements

* `Cell.isSome_stashed?_iff`, `Cell.isSome_inline?_iff_length` — which offsets and bytes have
  a cell.
* `Cell.ne_of_stashed?_of_inline?`, `Cell.stashed?_eq_iff` — different contents have different
  cells.
* `Registry.Holds.location` — a registered encoding stands in its place.
* `Registry.cells_faithful` — cells give back what they were made for, and short encodings
  stand in theirs.
-/

namespace TypeCodex

namespace Cell

variable {offset offset' : Nat} {bytes : List UInt8} {c c' : Cell}

/-- The high bit of a byte is clear when its value is below 128. -/
theorem and_high_bit (b : UInt8) : b &&& 0x80 = 0 ↔ b < 128 := by
  have hb := b.toNat_lt
  have hand : (b &&& 0x80).toNat = (b.toNat.testBit 7).toNat * 2 ^ 7 := by
    rw [UInt8.toNat_and]
    exact Nat.and_two_pow b.toNat 7
  have hbit : b.toNat.testBit 7 = decide (b.toNat / 2 ^ 7 % 2 = 1) :=
    Nat.testBit_eq_decide_div_mod_eq
  rw [← UInt8.toNat_inj, UInt8.lt_iff_toNat_lt, hand, hbit]
  change _ = 0 ↔ b.toNat < 128
  by_cases h : b.toNat / 2 ^ 7 % 2 = 1
  · rw [decide_eq_true h]
    exact iff_of_false (by decide) (by omega)
  · rw [decide_eq_false h]
    exact iff_of_true rfl (by omega)

theorem isSome_stashed?_iff : (stashed? offset).isSome ↔ offset ≤ 2 ^ 31 - 1 := by
  rw [stashed?]
  by_cases h : offset < offsetLimit
  · rw [if_pos h]
    exact iff_of_true rfl (Nat.le_pred_of_lt h)
  · rw [if_neg h]
    refine iff_of_false Bool.false_ne_true ?_
    change ¬ offset < 0x80000000 at h
    omega

theorem isSome_inline?_iff_length : (inline? bytes).isSome ↔
    (1 ≤ bytes.length ∧ bytes.length ≤ 4) ∧ ∀ first ∈ bytes.head?, first &&& 0x80 = 0 := by
  cases bytes with
  | nil => simp [inline?]
  | cons first rest =>
    have hroom : (first :: rest).length ≤ capacity ∧ first < 128 ↔
        (1 ≤ (first :: rest).length ∧ (first :: rest).length ≤ 4) ∧
          ∀ b ∈ (first :: rest).head?, b &&& 0x80 = 0 := by
      simp [and_high_bit, capacity]
    rw [inline?, ← hroom]
    by_cases h : (first :: rest).length ≤ capacity ∧ first < 128
    · simp [h]
    · rw [if_neg h]
      exact iff_of_false Bool.false_ne_true h

/-- No cell is of both kinds. -/
theorem ne_of_stashed?_of_inline? (h : stashed? offset = some c) (h' : inline? bytes = some c') :
    c ≠ c' := by
  rintro rfl
  have hlocation := (location_of_stashed? h).symm.trans (location_of_inline? h')
  cases hlocation

/-- Offsets are told apart by their cells. -/
theorem stashed?_eq_iff (h : stashed? offset = some c) (h' : stashed? offset' = some c') :
    c = c' ↔ offset = offset' := by
  constructor
  · rintro rfl
    exact Location.stashed.inj ((location_of_stashed? h).symm.trans (location_of_stashed? h'))
  · rintro rfl
    exact Option.some.inj (h.symm.trans h')

/-- What is written in at most four bytes has a cell. -/
theorem exists_inline?_pack {d : Descriptor} (h : d.pack.size ≤ 4) :
    ∃ c, inline? d.pack.bytes = some c :=
  Option.isSome_iff_exists.1 ((isSome_inline?_iff (TagByte.make_lt ..)).2 h)

end Cell

namespace Registry

variable {r : Registry} {ps : List Packed} {p : Packed} {id : TypeId}

/-- What is written in at most four bytes is stored in its cell, however long the stash is. -/
theorem store_pack_of_short {d : Descriptor} (hroom : r.cells.size < cellLimit) {c : Cell}
    (hc : Cell.inline? d.pack.bytes = some c) :
    r.store d.pack = (.ok ⟨UInt32.ofNat r.cells.size⟩, r.push d.pack c) := by
  rw [store, if_pos hroom, hc]

/-- A registered encoding stands in its place. -/
theorem Holds.location (H : r.Holds ps) (h : Numbers ps id p) :
    (r.cell? id).map Cell.location = some (place (ps.take (id.index - 1)) p) := by
  have hne := h.ne_invalid
  obtain ⟨i, hid, hp⟩ := h
  obtain ⟨c, hc, hlocation⟩ := H.cells i p hp
  rw [cell?, if_neg hne, hid, hc, Nat.add_sub_cancel, ← hlocation]
  rfl

/-- A short encoding that gets an identifier stands in the cell of the identifier. -/
theorem Holds.location_of_intern (H : r.Holds ps) (hsize : p.size ≤ Cell.capacity)
    (h : (r.intern p).1 = .ok id) :
    ((r.intern p).2.cell? id).map Cell.location = some (.inline (Cell.padded p.bytes)) := by
  obtain ⟨new, H', hp⟩ := H.intern_ok h
  rw [H'.location hp, place, if_pos hsize]

/-- Cells give back what they were made for, and different contents have different cells. An
offset has a cell if it takes at most 31 bits. One to four bytes have a cell if the high bit of
the first one is clear; the cell pads them with zeros. This bit is clear in every encoding that
is written, so one of at most four bytes stands in its cell: storing it never looks at the
stash, and under the identifier that it is answered with there is a cell that holds it. -/
theorem cells_faithful (offset offset' : Nat) (bytes : List UInt8) (d : Descriptor) :
    ((Cell.stashed? offset).isSome ↔ offset ≤ 2 ^ 31 - 1) ∧
    (∀ c, Cell.stashed? offset = some c → c.location = .stashed offset) ∧
    ((Cell.inline? bytes).isSome ↔
      (1 ≤ bytes.length ∧ bytes.length ≤ 4) ∧ ∀ first ∈ bytes.head?, first &&& 0x80 = 0) ∧
    (∀ c, Cell.inline? bytes = some c →
      c.location = .inline (bytes ++ List.replicate (4 - bytes.length) 0)) ∧
    (∀ c c', Cell.stashed? offset = some c → Cell.inline? bytes = some c' → c ≠ c') ∧
    (∀ c c', Cell.stashed? offset = some c → Cell.stashed? offset' = some c' →
      (c = c' ↔ offset = offset')) ∧
    (d.pack.size ≤ 4 →
      (∀ r : Registry, r.cells.size < cellLimit → ∃ c, Cell.inline? d.pack.bytes = some c ∧
        r.store d.pack = (.ok ⟨UInt32.ofNat r.cells.size⟩, r.push d.pack c)) ∧
      ∀ (options : Options) (qs : List Request) (id : TypeId),
        let after := ((make options).run qs).intern d.pack
        after.1 = .ok id → (after.2.cell? id).map Cell.location
          = some (.inline (d.pack.bytes ++ List.replicate (4 - d.pack.size) 0))) := by
  refine ⟨Cell.isSome_stashed?_iff, fun c => Cell.location_of_stashed?,
    Cell.isSome_inline?_iff_length, fun c => Cell.location_of_inline?,
    fun c c' => Cell.ne_of_stashed?_of_inline?, fun c c' => Cell.stashed?_eq_iff, ?_⟩
  intro hsize
  constructor
  · intro r hroom
    obtain ⟨c, hc⟩ := Cell.exists_inline?_pack hsize
    exact ⟨c, hc, store_pack_of_short hroom hc⟩
  · intro options qs id after hid
    obtain ⟨new, H⟩ := holds_run options qs
    rw [H.location_of_intern hsize hid, Cell.padded, Packed.length_bytes]
    rfl

/-- The greatest offset and the one before it, and a vector that is written in two bytes. -/
theorem cells_faithful_vector :
    let d : Descriptor := ⟨false, .vector ⟨9⟩⟩
    let bytes : List UInt8 := [0x0b, 0x89]
    let after := ((make {}).run []).intern d.pack
    (Cell.stashed? 0x7fffffff = some ⟨0xffffffff⟩ ∧ Cell.stashed? 0x7ffffffe = some ⟨0xfffffffe⟩ ∧
      Cell.inline? bytes = some ⟨0x0b890000⟩ ∧ d.pack.size ≤ 4 ∧
      ((make {}).run []).cells.size < cellLimit ∧ after.1 = .ok ⟨17⟩) ∧
    Cell.location ⟨0xffffffff⟩ = .stashed 0x7fffffff ∧
    Cell.location ⟨0x0b890000⟩ = .inline [0x0b, 0x89, 0, 0] ∧
    (⟨0xffffffff⟩ : Cell) ≠ ⟨0x0b890000⟩ ∧
    ((⟨0xffffffff⟩ : Cell) = ⟨0xfffffffe⟩ ↔ 0x7fffffff = 0x7ffffffe) ∧
    (∃ c, Cell.inline? d.pack.bytes = some c ∧ ((make {}).run []).store d.pack
      = (.ok ⟨UInt32.ofNat ((make {}).run []).cells.size⟩, ((make {}).run []).push d.pack c)) ∧
    (after.2.cell? ⟨17⟩).map Cell.location = some (.inline [0x0b, 0x89, 0, 0]) := by
  intro d bytes after
  have hoffset : Cell.stashed? 0x7fffffff = some ⟨0xffffffff⟩ := by decide
  have hoffset' : Cell.stashed? 0x7ffffffe = some ⟨0xfffffffe⟩ := by decide
  have hbytes : Cell.inline? bytes = some ⟨0x0b890000⟩ := by decide
  have hsize : d.pack.size ≤ 4 := by decide
  have hroom : ((make {}).run []).cells.size < cellLimit := by decide +kernel
  have hafter : after.1 = .ok ⟨17⟩ := by decide +kernel
  have hpadded : d.pack.bytes ++ List.replicate (4 - d.pack.size) 0 = [0x0b, 0x89, 0, 0] := by
    decide
  obtain ⟨-, hstashed, -, hinline, hkinds, hoffsets, hplaced⟩ :=
    cells_faithful 0x7fffffff 0x7ffffffe bytes d
  rw [hpadded] at hplaced
  exact ⟨⟨hoffset, hoffset', hbytes, hsize, hroom, hafter⟩, hstashed _ hoffset, hinline _ hbytes,
    hkinds _ _ hoffset hbytes, hoffsets _ _ hoffset hoffset', (hplaced hsize).1 _ hroom,
    (hplaced hsize).2 {} [] ⟨17⟩ hafter⟩

end Registry

end TypeCodex
