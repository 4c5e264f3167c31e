import Mathlib.Algebra.Group.Nat.Defs
import TypeCodex.Wire

/-!
# Views read back from the wire

What was written is read back, and reading stops behind the last byte that was written,
whatever follows. Each field shows where it ends, so the fields of a view need no
separators.

## Main definitions

* `Varint.Format.limit` — how many numbers a format can write.

## Main statements

* `Wire.Varint.decode_encode` — numbers below the limit are read back.
* `Wire.decodeView_encodeView` — views are read back if the length of their list fits.
-/

namespace TypeCodex

/-- Values that are each read off their own bytes are read off all these bytes. -/
theorem Reader.list_flatMap {α ε : Type} {read : Reader (List UInt8) ε α}
    {bytes : α → List UInt8} (hread : ∀ a rest, read (bytes a ++ rest) = .ok (a, rest))
    (as : List α) (rest : List UInt8) :
    Reader.list read as.length (as.flatMap bytes ++ rest) = .ok (as, rest) := by
  have key : Reader.many read as.length (as.flatMap bytes ++ rest) = (as, .ok rest) := by
    induction as with
    | nil => rfl
    | cons a as ih =>
      rw [List.flatMap_cons, List.append_assoc, List.length_cons,
        Reader.many_succ_ok (hread a _), ih]
  rw [Reader.list, key]

namespace Wire

namespace Varint

/-- The number of values that a format can write: the last group counts to the greatest
last byte, every group before it to 127. -/
def Format.limit (f : Format) : Nat := (f.lastMax.toNat + 1) * 128 ^ (f.groups - 1)

variable {last b : UInt8} {groups n : Nat}

/-- A byte without the high bit ends a number. -/
theorem decodeGroups_last (hb : b < 128) (hlast : groups = 0 → b ≤ last) (rest : List UInt8) :
    decodeGroups last (groups + 1) (b :: rest) = .ok (b.toNat, rest) := by
  have hfits : ¬ (groups = 0 ∧ last < b) := by
    intro h
    exact absurd h.2 (UInt8.not_lt.2 (hlast h.1))
  simp [decodeGroups, Reader.run_bind, byte, Except.bind, hb, hfits]

/-- A byte with the high bit puts its other bits below the number behind it. -/
theorem decodeGroups_more (hb : ¬ b < 128) (bs : List UInt8) :
    decodeGroups last (groups + 1) (b :: bs)
      = (decodeGroups last groups bs).map fun p => (b.toNat % 128 + 128 * p.1, p.2) := by
  simp only [decodeGroups, Reader.run_bind, byte, Except.bind, hb, if_false]
  cases decodeGroups last groups bs <;> rfl

theorem decodeGroups_encodeGroups (hlast : last < 128)
    (hn : n < (last.toNat + 1) * 128 ^ groups) (rest : List UInt8) :
    decodeGroups last (groups + 1) (encodeGroups (groups + 1) n ++ rest) = .ok (n, rest) := by
  have hlast' : last.toNat < 128 := UInt8.lt_iff_toNat_lt.1 hlast
  induction groups generalizing n with
  | zero =>
    have hb : (UInt8.ofNat n).toNat = n := UInt8.toNat_ofNat_of_lt (by change n < 256; omega)
    have hlt : UInt8.ofNat n < 128 := UInt8.lt_iff_toNat_lt.2 (by rw [hb]; change n < 128; omega)
    have hle : UInt8.ofNat n ≤ last := UInt8.le_iff_toNat_le.2 (by omega)
    rw [encodeGroups, if_pos (by omega), List.singleton_append,
      decodeGroups_last hlt fun _ => hle, hb]
  | succ groups ih =>
    rw [encodeGroups]
    by_cases h : n < 128
    · have hb : (UInt8.ofNat n).toNat = n := UInt8.toNat_ofNat_of_lt (by change n < 256; omega)
      have hlt : UInt8.ofNat n < 128 := UInt8.lt_iff_toNat_lt.2 (by rw [hb]; exact h)
      rw [if_pos h, List.singleton_append, decodeGroups_last hlt (by simp), hb]
    · have hb : (UInt8.ofNat (n % 128 + 128)).toNat = n % 128 + 128 :=
        UInt8.toNat_ofNat_of_lt (by change n % 128 + 128 < 256; omega)
      have hge : ¬ UInt8.ofNat (n % 128 + 128) < 128 := by
        rw [UInt8.lt_iff_toNat_lt, hb]
        change ¬ n % 128 + 128 < 128
        omega
      have hdiv : n / 128 < (last.toNat + 1) * 128 ^ groups := by
        rw [Nat.div_lt_iff_lt_mul (by decide), Nat.mul_assoc, ← Nat.pow_succ]
        exact hn
      have hsum : (n % 128 + 128) % 128 + 128 * (n / 128) = n := by omega
      rw [if_neg h, List.cons_append, decodeGroups_more hge, ih hdiv, hb]
      simp only [Except.map, hsum]

/-- Numbers below the limit are read back. -/
theorem decode_encode {f : Format} (hgroups : f.groups ≠ 0) (hlast : f.lastMax < 128)
    (hn : n < f.limit) (rest : List UInt8) : decode f (encode f n ++ rest) = .ok (n, rest) := by
  obtain ⟨groups, last⟩ := f
  obtain ⟨groups, rfl⟩ := Nat.exists_eq_succ_of_ne_zero hgroups
  exact decodeGroups_encodeGroups hlast hn rest

theorem decode_word32 (hn : n < 2 ^ 32) (rest : List UInt8) :
    decode word32 (encode word32 n ++ rest) = .ok (n, rest) :=
  decode_encode (by decide) (by decide) hn rest

theorem decode_word64 (hn : n < 2 ^ 64) (rest : List UInt8) :
    decode word64 (encode word64 n ++ rest) = .ok (n, rest) :=
  decode_encode (by decide) (by decide) hn rest

end Varint

/-! ## Fields -/

@[simp] theorem decodeWord_encodeWord (v : UInt32) (rest : List UInt8) :
    decodeWord (encodeWord v ++ rest) = .ok (v, rest) := by
  rw [decodeWord, encodeWord, Reader.run_map, Varint.decode_word32 v.toNat_lt]
  simp [Except.map]

@[simp] theorem decodeTag_encodeTag (t : Tag) (rest : List UInt8) :
    decodeTag (encodeTag t ++ rest) = .ok (t, rest) := by
  have hlt : t.value.toNat - 1 < 2 ^ 32 := by
    have h := t.value_bounds
    omega
  have hall : Tag.all[t.value.toNat - 1]? = some t := by
    cases t with
    | basic b => cases b <;> rfl
    | _ => rfl
  rw [decodeTag, encodeTag, Reader.run_bind, Varint.decode_word32 hlt]
  simp [Except.bind, hall]

@[simp] theorem decodeId_encodeId (id : TypeId) (rest : List UInt8) :
    decodeId (encodeId id ++ rest) = .ok (id, rest) := by
  simp [decodeId, encodeId, Reader.run_map, Except.map]

@[simp] theorem decodeBool_encodeBool (b : Bool) (rest : List UInt8) :
    decodeBool (encodeBool b ++ rest) = .ok (b, rest) := by
  cases b <;> rfl

@[simp] theorem decodeOption_encodeOption (o : Option TypeId) (rest : List UInt8) :
    decodeOption (encodeOption o ++ rest) = .ok (o, rest) := by
  cases o with
  | none => rfl
  | some id =>
    change (some <$> decodeId) (encodeId id ++ rest) = _
    simp [Reader.run_map, Except.map]

theorem decodeList_encodeList {ids : List TypeId} (h : ids.length < 2 ^ 64) (rest : List UInt8) :
    decodeList (encodeList ids ++ rest) = .ok (ids, rest) := by
  rw [decodeList, encodeList, Reader.run_bind, List.append_assoc, Varint.decode_word64 h]
  exact Reader.list_flatMap decodeId_encodeId ids rest

/-- Views are read back if the length of their list fits in 64 bits. -/
theorem decodeView_encodeView {v : View} (h : v.list.length < 2 ^ 64) (rest : List UInt8) :
    decodeView (encodeView v ++ rest) = .ok (v, rest) := by
  obtain ⟨tag, isConst, type1, type2, size, list⟩ := v
  simp [decodeView, encodeView, Reader.run_bind, Reader.run_map, Except.bind, Except.map,
    decodeList_encodeList h]

end Wire

end TypeCodex
