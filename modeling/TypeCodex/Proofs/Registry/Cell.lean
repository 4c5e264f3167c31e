import TypeCodex.Packed
import TypeCodex.Registry.Cell

/-!
# What a cell says about its encoding

A cell that was made for a short encoding gives back its bytes with zeros behind them.
An encoding finds room in a cell exactly when it has at most four bytes, provided that
its tag byte leaves the high bit clear, as every written one does.

## Main statements

* `Cell.location_of_inline?` — the bytes are found again.
* `Cell.isSome_inline?_iff` — which bytes find room.
-/

namespace TypeCodex.Cell

theorem location_bigEndian {a b c d : UInt8} (ha : a < 128) :
    location ⟨UInt32.ofNat (bigEndian [a, b, c, d])⟩ = .inline [a, b, c, d] := by
  have ha' : a.toNat < 128 := UInt8.lt_iff_toNat_lt.1 ha
  have hb := b.toNat_lt
  have hc := c.toNat_lt
  have hd := d.toNat_lt
  have hn : bigEndian [a, b, c, d]
      = a.toNat * 0x1000000 + b.toNat * 0x10000 + c.toNat * 0x100 + d.toNat := by
    simp [bigEndian]
    omega
  have hword : (UInt32.ofNat (bigEndian [a, b, c, d])).toNat = bigEndian [a, b, c, d] :=
    UInt32.toNat_ofNat_of_lt (by rw [hn]; change _ < 0x100000000; omega)
  have h0 : bigEndian [a, b, c, d] / 0x1000000 = a.toNat := by rw [hn]; omega
  have h1 : bigEndian [a, b, c, d] / 0x10000 % 256 = b.toNat := by rw [hn]; omega
  have h2 : bigEndian [a, b, c, d] / 0x100 % 256 = c.toNat := by rw [hn]; omega
  have h3 : bigEndian [a, b, c, d] % 256 = d.toNat := by rw [hn]; omega
  have hlt : bigEndian [a, b, c, d] < offsetLimit := by
    rw [hn]; change _ < 0x80000000; omega
  rw [location, hword, if_pos hlt, h0, h1, h2, h3]
  simp only [UInt8.ofNat_toNat]

/-- A cell always holds four bytes, the first one of the encoding in front. -/
theorem exists_padded {first : UInt8} {rest : List UInt8}
    (h : (first :: rest).length ≤ capacity) :
    ∃ b c d, padded (first :: rest) = [first, b, c, d] := by
  rcases rest with _ | ⟨b, _ | ⟨c, _ | ⟨d, _ | ⟨e, rest⟩⟩⟩⟩
  · exact ⟨0, 0, 0, rfl⟩
  · exact ⟨b, 0, 0, rfl⟩
  · exact ⟨b, c, 0, rfl⟩
  · exact ⟨b, c, d, rfl⟩
  · simp only [List.length_cons, capacity] at h
    omega

/-- The bytes are found again. -/
theorem location_of_inline? {bytes : List UInt8} {c : Cell} (h : inline? bytes = some c) :
    c.location = .inline (padded bytes) := by
  unfold inline? at h
  split at h
  · cases h
  · next first rest =>
    split at h
    · next hroom =>
      cases h
      obtain ⟨b, c, d, hpad⟩ := exists_padded hroom.1
      rw [hpad]
      exact location_bigEndian hroom.2
    · cases h

theorem isSome_inline?_iff {p : Packed} (h : p.tagByte.byte < 128) :
    (inline? p.bytes).isSome ↔ p.size ≤ capacity := by
  have hlen : (p.tagByte.byte :: p.body).length = p.size := Packed.length_bytes p
  rw [Packed.bytes, inline?, hlen]
  by_cases hsize : p.size ≤ capacity
  · simp [hsize, h]
  · simp [hsize]

end TypeCodex.Cell
