import Mathlib.Tactic.Ring
import TypeCodex.Nibble.Cursor
import TypeCodex.Proofs.Packing

/-!
# Words read off a list of nibbles

The nibbles of a word show where they end, so a cursor reads the word off them
whatever follows. Readers with this property compose: what one reads and what the
next reads stand side by side. A word is read off any nibbles that stand for it, with
leading zeros or without, and the encoding of a word is one way among several.

## Main definitions

* `Nibble.Spells` — nibbles stand for a word, not necessarily in the shortest way.
* `Cursor.Reads` — a reader takes a value off certain nibbles.

## Main statements

* `Cursor.reads_bind` — readers in sequence.
* `Cursor.reads_of_spells` — a word is read off any nibbles that stand for it.
* `Nibble.spells_encode` — the encoding of a word stands for it.
-/

namespace TypeCodex

namespace Nibble

/-- The number that digits stand for, the most significant first. -/
def number (ds : List UInt8) : Nat := ds.foldl (fun n d => n * 16 + d.toNat) 0

/-- Nibbles stand for a word: a single one below eight, or a length nibble with the digits
that it announces, seven fewer than its value. The digits may begin with zeros. -/
inductive Spells : List UInt8 → UInt32 → Prop where
  | single (n : UInt8) (h : n < 8) : Spells [n] n.toUInt32
  | digits (head : UInt8) (ds : List UInt8) (h : ¬ head < 8) (hhead : Fits head)
      (hlength : ds.length = head.toNat - 7) (hds : ∀ d ∈ ds, Fits d) :
      Spells (head :: ds) (UInt32.ofNat (number ds))

theorem foldl_digits (k v acc : Nat) :
    (digits k v).foldl (fun n d => n * 16 + d.toNat) acc = acc * 16 ^ k + v % 16 ^ k := by
  induction k generalizing acc with
  | zero => simp [digits, Nat.mod_one]
  | succ k ih =>
    have hlt : v / 16 ^ k % 16 < 16 := Nat.mod_lt _ (by decide)
    have hn : (UInt8.ofNat (v / 16 ^ k % 16)).toNat = v / 16 ^ k % 16 :=
      UInt8.toNat_ofNat_of_lt (Nat.lt_trans hlt (by decide))
    rw [digits_succ, List.foldl_cons, ih, hn, Nat.mod_pow_succ, Nat.pow_succ]
    ring

/-- The encoding of a word stands for it. -/
theorem spells_encode (v : UInt32) : Spells (encode v) v := by
  by_cases h : v < 8
  · have hv : v.toNat < 8 := UInt32.lt_iff_toNat_lt.1 h
    have hhead : v.toUInt8.toNat = v.toNat := by rw [UInt32.toNat_toUInt8]; omega
    have hback : v.toUInt8.toUInt32 = v := by
      rw [← UInt32.toNat_inj, UInt8.toNat_toUInt32, hhead]
    have hspells := Spells.single v.toUInt8 (UInt8.lt_iff_toNat_lt.2 (hhead ▸ hv))
    rw [hback] at hspells
    rw [encode, if_pos h]
    exact hspells
  · have hv : 8 ≤ v.toNat := Nat.le_of_not_lt fun hlt => h (UInt32.lt_iff_toNat_lt.2 hlt)
    have hle := digitCount_le_eight v
    have hpos : ¬ digitCount v.toNat ≤ 0 := by rw [digitCount_le_iff]; omega
    have hlt : v.toNat < 16 ^ digitCount v.toNat := (digitCount_le_iff _ _).1 (Nat.le_refl _)
    rw [encode, if_neg h]
    generalize digitCount v.toNat = k at *
    have hhead : (UInt8.ofNat (7 + k)).toNat = 7 + k :=
      UInt8.toNat_ofNat_of_lt (by change _ < 256; omega)
    have hnumber : UInt32.ofNat (number (digits k v.toNat)) = v := by
      rw [number, foldl_digits, Nat.zero_mul, Nat.zero_add, Nat.mod_eq_of_lt hlt,
        UInt32.ofNat_toNat]
    have hlarge : ¬ UInt8.ofNat (7 + k) < 8 := by
      rw [UInt8.lt_iff_toNat_lt, hhead]
      change ¬ 7 + k < 8
      omega
    have hspells := Spells.digits (UInt8.ofNat (7 + k)) (digits k v.toNat) hlarge
      (fits_ofNat (by omega)) (by rw [length_digits, hhead, Nat.add_sub_cancel_left])
      fun d hd => fits_of_mem_digits hd
    rw [hnumber] at hspells
    exact hspells

end Nibble

namespace Cursor

variable {α β : Type}

/-- A reader takes a value off certain nibbles, whatever stands behind them. -/
def Reads (x : Reader Cursor Fault α) (ns : List UInt8) (a : α) : Prop :=
  ∀ offset rest, x ⟨offset, ns ++ rest⟩ = .ok (a, ⟨offset + ns.length, rest⟩)

theorem reads_pure (a : α) : Reads (pure a) [] a := by
  intro offset rest
  rfl

theorem reads_bind {x : Reader Cursor Fault α} {f : α → Reader Cursor Fault β}
    {ns ms : List UInt8} {a : α} {b : β} (hx : Reads x ns a) (hf : Reads (f a) ms b) :
    Reads (x >>= f) (ns ++ ms) b := by
  intro offset rest
  rw [Reader.run_bind, List.append_assoc, hx]
  change f a _ = _
  rw [hf, List.length_append, Nat.add_assoc]

theorem reads_map {x : Reader Cursor Fault α} {ns : List UInt8} {a : α} (hx : Reads x ns a)
    (f : α → β) : Reads (f <$> x) ns (f a) := by
  intro offset rest
  rw [Reader.run_map, hx]
  rfl

theorem reads_next {n : UInt8} (h : Nibble.Fits n) : Reads next [n] n := by
  intro offset rest
  exact next_cons h offset rest

theorem reads_digits {ds : List UInt8} (h : ∀ d ∈ ds, Nibble.Fits d) (acc : Nat) :
    Reads (digits ds.length acc) ds (ds.foldl (fun n d => n * 16 + d.toNat) acc) := by
  induction ds generalizing acc with
  | nil => exact reads_pure acc
  | cons d ds ih =>
    exact reads_bind (reads_next (h d (by simp))) (ih (fun d hd => h d (by simp [hd])) _)

/-- A word is read off any nibbles that stand for it. -/
theorem reads_of_spells {ns : List UInt8} {v : UInt32} (h : Nibble.Spells ns v) :
    Reads int ns v := by
  cases h with
  | single n h =>
    rw [← List.append_nil [n]]
    refine reads_bind (reads_next (UInt8.lt_trans h (by decide))) ?_
    rw [if_pos h]
    exact reads_pure n.toUInt32
  | digits head ds h hhead hlength hds =>
    rw [← List.singleton_append]
    refine reads_bind (reads_next hhead) ?_
    rw [if_neg h, ← hlength]
    exact reads_map (reads_digits hds 0) UInt32.ofNat

end Cursor

end TypeCodex
