import TypeCodex.Packed
import TypeCodex.Proofs.Nibble.Digits

/-!
# Packing and unpacking

Packing puts two nibbles into a byte and unpacking takes them apart. The two are
inverse to each other on well-formed expanded encodings and on the bytes that
unpacking admits. Every encoding that is written from operand words is well-formed.

## Main statements

* `Packed.unpack_pack` — unpacking undoes packing.
* `Packed.of_unpack` — packing undoes unpacking, and unpacked nibbles stay in place.
* `Expanded.wellFormed_ofWords` — written encodings are well-formed.
-/

namespace TypeCodex

namespace Nibble

/-- The two halves of a byte that is put together from two nibbles. -/
theorem halves_join {hi lo : UInt8} (hhi : Fits hi) (hlo : Fits lo) :
    (hi % 16 * 16 + lo % 16) / 16 = hi ∧ (hi % 16 * 16 + lo % 16) % 16 = lo := by
  have h1 : hi.toNat < 16 := UInt8.lt_iff_toNat_lt.1 hhi
  have h2 : lo.toNat < 16 := UInt8.lt_iff_toNat_lt.1 hlo
  constructor
  · apply UInt8.toNat_inj.1
    simp
    omega
  · apply UInt8.toNat_inj.1
    simp
    omega

theorem join_halves (b : UInt8) : b / 16 % 16 * 16 + b % 16 % 16 = b := by
  apply UInt8.toNat_inj.1
  have := b.toNat_lt
  simp
  omega

theorem fits_div (b : UInt8) : Fits (b / 16) := by
  have := b.toNat_lt
  apply UInt8.lt_iff_toNat_lt.2
  simp
  omega

theorem fits_mod (b : UInt8) : Fits (b % 16) := by
  have := b.toNat_lt
  apply UInt8.lt_iff_toNat_lt.2
  simp
  omega

theorem getElem?_halves (bs : List UInt8) (i : Nat) :
    (halves bs)[i]? = bs[i / 2]?.map fun b => if i % 2 = 0 then b / 16 else b % 16 := by
  induction bs generalizing i with
  | nil => simp
  | cons b bs ih =>
    rw [halves_cons]
    rcases i with _ | _ | i
    · rfl
    · rfl
    · have hdiv : (i + 2) / 2 = i / 2 + 1 := by omega
      have hmod : (i + 2) % 2 = i % 2 := by omega
      rw [List.getElem?_cons_succ, List.getElem?_cons_succ, ih, hdiv, hmod,
        List.getElem?_cons_succ]

theorem fits_of_mem_halves {n : UInt8} {bs : List UInt8} (h : n ∈ halves bs) : Fits n := by
  obtain ⟨b, -, hb⟩ := List.mem_flatMap.1 h
  rcases List.mem_cons.1 hb with rfl | hb
  · exact fits_div b
  · rw [List.mem_singleton.1 hb]
    exact fits_mod b

/-- Packed nibbles come apart again, with the padding behind an odd number of them. -/
theorem halves_pairs {ns : List UInt8} (h : ∀ n ∈ ns, Fits n) :
    halves (pairs ns) = ns ++ if ns.length % 2 = 1 then [0] else [] := by
  fun_induction pairs ns with
  | case1 => rfl
  | case2 hi =>
    have hzero : Fits 0 := by decide
    obtain ⟨h1, h2⟩ := halves_join (h hi (by simp)) hzero
    simp only [UInt8.zero_mod, UInt8.add_zero] at h1 h2
    simp [h1, h2]
  | case3 hi lo rest ih =>
    obtain ⟨h1, h2⟩ := halves_join (h hi (by simp)) (h lo (by simp))
    have hrest := ih fun n hn => h n (by simp [hn])
    have hlen : (hi :: lo :: rest).length % 2 = rest.length % 2 := Nat.add_mod_right _ 2
    rw [halves_cons, h1, h2, hrest, hlen]
    rfl

@[simp] theorem pairs_halves (bs : List UInt8) : pairs (halves bs) = bs := by
  induction bs with
  | nil => rfl
  | cons b bs ih => rw [halves_cons, pairs, join_halves, ih]

/-- A last nibble of zero is restored as padding. -/
theorem pairs_dropLast_halves {bs : List UInt8} (h : (halves bs).getLast? = some 0) :
    pairs (halves bs).dropLast = bs := by
  induction bs with
  | nil => rfl
  | cons b bs ih =>
    cases bs with
    | nil =>
      have hlow : b % 16 = 0 := by simpa using h
      have hjoin := join_halves b
      simp only [hlow, UInt8.zero_mod, UInt8.add_zero] at hjoin
      simp [pairs, hjoin]
    | cons c cs =>
      have hlast : (halves (c :: cs)).getLast? = some 0 := by simpa using h
      have hdrop : (halves (b :: c :: cs)).dropLast
          = b / 16 :: b % 16 :: (halves (c :: cs)).dropLast := rfl
      rw [hdrop, pairs, join_halves, ih hlast]

/-! ## Written nibbles -/

theorem fits_ofNat {m : Nat} (h : m < 16) : Fits (UInt8.ofNat m) := by
  have hm : (UInt8.ofNat m).toNat = m := UInt8.toNat_ofNat_of_lt (Nat.lt_trans h (by decide))
  apply UInt8.lt_iff_toNat_lt.2
  rw [hm]
  exact h

theorem fits_of_mem_digits {n : UInt8} {k v : Nat} (h : n ∈ digits k v) : Fits n := by
  induction k with
  | zero => cases h
  | succ k ih =>
    rcases List.mem_cons.1 h with rfl | h
    · exact fits_ofNat (Nat.mod_lt _ (by decide))
    · exact ih h

theorem fits_of_mem_encode {n : UInt8} {v : UInt32} (h : n ∈ encode v) : Fits n := by
  unfold encode at h
  split at h
  · next hlt =>
    have hv : v.toNat < 8 := UInt32.lt_iff_toNat_lt.1 hlt
    rw [List.mem_singleton.1 h]
    exact fits_ofNat (by omega)
  · have hle := digitCount_le_eight v
    rcases List.mem_cons.1 h with rfl | h
    · exact fits_ofNat (by omega)
    · exact fits_of_mem_digits h

theorem fits_of_mem_encodeAll {n : UInt8} {vs : List UInt32} (h : n ∈ encodeAll vs) : Fits n := by
  obtain ⟨v, -, hn⟩ := List.mem_flatMap.1 h
  exact fits_of_mem_encode hn

end Nibble

namespace Expanded

theorem wellFormed_ofWords (t : Tag) (c : Bool) (ws : List UInt32) :
    (ofWords t c ws).WellFormed where
  fits := fun _ hn => Nibble.fits_of_mem_encodeAll hn
  parity := TagByte.oddLength_make ..

end Expanded

namespace Packed

/-- Unpacking undoes packing. -/
theorem unpack_pack {e : Expanded} (H : e.WellFormed) : unpack e.pack.bytes = .ok e := by
  obtain ⟨⟨tag⟩, ns⟩ := e
  have hparity : TagByte.oddLength ⟨tag⟩ = (ns.length % 2 == 1) := H.parity
  have hhalves := Nibble.halves_pairs H.fits
  change unpack (tag :: Nibble.pairs ns) = _
  rw [unpack, hhalves, hparity]
  by_cases hodd : ns.length % 2 = 1
  · simp [hodd]
  · simp [hodd]

/-- What unpacking gives is well-formed, packs to the bytes it came from, and keeps the
nibbles in their places. -/
theorem of_unpack {tag : UInt8} {body : List UInt8} {e : Expanded}
    (h : unpack (tag :: body) = .ok e) :
    e.WellFormed ∧ e.pack = ⟨⟨tag⟩, body⟩ ∧ e.nibbles <+: Nibble.halves body := by
  rw [unpack] at h
  split at h
  · next hodd =>
    split at h
    · cases h
    · next padding hlast =>
      split at h
      · next hzero =>
        cases h
        subst hzero
        have hne : Nibble.halves body ≠ [] := by
          intro hnil
          rw [hnil] at hlast
          cases hlast
        have hlen : body.length ≠ 0 := by
          intro hnil
          rw [List.length_eq_zero_iff.1 hnil] at hne
          exact hne rfl
        refine ⟨⟨?_, ?_⟩, ?_, List.dropLast_prefix _⟩
        · intro n hn
          exact Nibble.fits_of_mem_halves (List.dropLast_subset _ hn)
        · have hmod : (2 * body.length - 1) % 2 = 1 := by omega
          simp [hodd, hmod]
        · rw [Expanded.pack, Nibble.pairs_dropLast_halves hlast]
      · cases h
  · next heven =>
    cases h
    refine ⟨⟨fun n hn => Nibble.fits_of_mem_halves hn, ?_⟩, ?_, List.prefix_rfl⟩
    · simp [heven]
    · rw [Expanded.pack, Nibble.pairs_halves]

theorem bytes_of_unpack {bs : List UInt8} {e : Expanded} (h : unpack bs = .ok e) :
    e.WellFormed ∧ e.pack.bytes = bs := by
  cases bs with
  | nil => cases h
  | cons tag body =>
    obtain ⟨hwell, hpack, -⟩ := of_unpack h
    exact ⟨hwell, congrArg bytes hpack⟩

end Packed

end TypeCodex
