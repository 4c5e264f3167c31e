import Mathlib.Data.Set.Function
import TypeCodex.Proofs.Registry.Run

/-!
# The layout of a registry

The index of a registry numbers its encodings from one without gaps or repetitions. An
encoding of at most four bytes stands in its cell. The longer ones stand one behind the
other in the stash, in the order of their numbers, so that each byte of the stash belongs
to one encoding.

## Main definitions

* `Registry.offset` — the total length of the longer encodings in front of a place.
* `Registry.Layout` — how the encodings of a registry are numbered and placed.

## Main statements

* `Registry.Holds.bijOn_index` — the index is a bijection onto the valid identifiers.
* `Registry.Holds.existsUnique_owner` — each byte of the stash has one owner.
* `Registry.layout_run` — every run from a new registry keeps to the layout.
-/

namespace TypeCodex.Registry

/-- The total length of the encodings of more than four bytes in front of a place. -/
def offset (ps : List Packed) (i : Nat) : Nat :=
  (((ps.take i).filter fun p => 4 < p.size).map Packed.size).sum

/-- How the encodings of a registry are numbered and placed. -/
structure Layout (r : Registry) (ps : List Packed) : Prop where
  /-- There are as many encodings as valid identifiers. -/
  length : ps.length = r.size
  /-- The index numbers as many byte sequences. -/
  size_index : r.index.size = r.size
  /-- The byte sequences and the valid identifiers correspond one to one. -/
  bijOn : Set.BijOn (fun bs => r.index.getD bs TypeId.invalid) {bs | bs ∈ r.index}
    {id | 1 ≤ id.index ∧ id.index ≤ r.size}
  /-- The encodings are listed in the order of their identifiers. -/
  index : ∀ p id, r.index[p.bytes]? = some id ↔ Numbers ps id p
  /-- The first sixteen are those of the basic types. -/
  basics : ps.take 16 = basicEncodings
  /-- The identifier of a basic type is the one under which its encoding is found. -/
  basicId : ∀ b c, basicId (.basic b) c = r.find (Descriptor.mk c (.basic b)).pack
  /-- An identifier that is newly given out is the next one. -/
  next : ∀ q, r.index[q.packed.bytes]? = none → r.answer q ≠ TypeId.invalid →
    (r.answer q).index = r.size + 1
  /-- An encoding of at most four bytes stands in its cell, a longer one in the stash
  behind the longer ones before it. -/
  cell : ∀ i p, ps[i]? = some p → ∃ c, r.cells[i + 1]? = some c ∧ c.location =
    if p.size ≤ 4 then .inline (Cell.padded p.bytes) else .stashed (offset ps i)
  /-- The stash is the longer ones one behind the other. -/
  stash : r.stash.toList = (ps.filter fun p => 4 < p.size).flatMap Packed.bytes
  /-- Each byte of the stash belongs to one encoding. -/
  owner : ∀ k < r.stash.size, ∃! i, ∃ p, ps[i]? = some p ∧ 4 < p.size ∧
    offset ps i ≤ k ∧ k < offset ps i + p.size

variable {r : Registry} {ps : List Packed} {p : Packed} {id : TypeId}

/-! ## Offsets -/

theorem length_stashed (ps : List Packed) :
    (stashed ps).length = ((ps.filter fun p => 4 < p.size).map Packed.size).sum := by
  rw [stashed, List.length_flatMap]
  simp only [Packed.length_bytes]
  rfl

theorem offset_succ {i : Nat} (hp : ps[i]? = some p) :
    offset ps (i + 1) = offset ps i + if 4 < p.size then p.size else 0 := by
  have htake : ps.take (i + 1) = ps.take i ++ [p] := by
    rw [List.take_add_one, hp]
    rfl
  rw [offset, htake, List.filter_append, List.map_append, List.sum_append]
  by_cases h : 4 < p.size
  · simp [offset, h]
  · simp [offset, h]

theorem offset_mono {i j : Nat} (h : i ≤ j) : offset ps i ≤ offset ps j := by
  induction j with
  | zero => rw [Nat.le_zero.1 h]
  | succ j ih =>
    rcases Nat.lt_or_ge i (j + 1) with hlt | hge
    · refine Nat.le_trans (ih (by omega)) ?_
      cases hp : ps[j]? with
      | some p =>
        rw [offset_succ hp]
        omega
      | none =>
        have hlen := List.getElem?_eq_none_iff.1 hp
        rw [offset, offset, List.take_of_length_le hlen, List.take_of_length_le (by omega)]
    · rw [Nat.le_antisymm h hge]

theorem exists_owner {k n : Nat} (h : k < offset ps n) :
    ∃ i p, ps[i]? = some p ∧ 4 < p.size ∧ offset ps i ≤ k ∧ k < offset ps i + p.size := by
  induction n with
  | zero => cases h
  | succ n ih =>
    by_cases hlt : k < offset ps n
    · exact ih hlt
    · cases hp : ps[n]? with
      | some p =>
        rw [offset_succ hp] at h
        by_cases hlong : 4 < p.size
        · rw [if_pos hlong] at h
          exact ⟨n, p, hp, hlong, by omega, h⟩
        · rw [if_neg hlong] at h
          omega
      | none =>
        have hlen := List.getElem?_eq_none_iff.1 hp
        rw [offset, List.take_of_length_le (by omega)] at h
        rw [offset, List.take_of_length_le hlen] at hlt
        omega

/-- No byte lies within two encodings. -/
theorem owner_unique {i j k : Nat} {p q : Packed} (hp : ps[i]? = some p) (hq : ps[j]? = some q)
    (hpl : 4 < p.size) (hql : 4 < q.size) (hi : offset ps i ≤ k ∧ k < offset ps i + p.size)
    (hj : offset ps j ≤ k ∧ k < offset ps j + q.size) : i = j := by
  have hi' := offset_succ hp
  have hj' := offset_succ hq
  rw [if_pos hpl] at hi'
  rw [if_pos hql] at hj'
  rcases Nat.lt_trichotomy i j with h | h | h
  · have hmono : offset ps (i + 1) ≤ offset ps j := offset_mono h
    omega
  · exact h
  · have hmono : offset ps (j + 1) ≤ offset ps i := offset_mono h
    omega

namespace Holds

theorem size_stash (H : r.Holds ps) : r.stash.size = offset ps ps.length := by
  rw [← Array.length_toList, H.stash, length_stashed, offset, List.take_length]

/-- Each byte of the stash has one owner. -/
theorem existsUnique_owner (H : r.Holds ps) {k : Nat} (hk : k < r.stash.size) :
    ∃! i, ∃ p, ps[i]? = some p ∧ 4 < p.size ∧ offset ps i ≤ k ∧ k < offset ps i + p.size := by
  rw [H.size_stash] at hk
  obtain ⟨i, p, hp, hlong, hi⟩ := exists_owner hk
  refine ⟨i, ⟨p, hp, hlong, hi⟩, ?_⟩
  rintro j ⟨q, hq, hlong', hj⟩
  exact owner_unique hq hp hlong' hlong hj hi

/-! ## Numbers -/

/-- The index is a bijection onto the valid identifiers. -/
theorem bijOn_index (H : r.Holds ps) :
    Set.BijOn (fun bs => r.index.getD bs TypeId.invalid) {bs | bs ∈ r.index}
      {id | 1 ≤ id.index ∧ id.index ≤ r.size} := by
  have hget : ∀ bs ∈ r.index, ∃ id, r.index[bs]? = some id ∧
      r.index.getD bs TypeId.invalid = id := by
    intro bs hbs
    obtain ⟨id, hid⟩ := Option.isSome_iff_exists.1 (Std.ExtTreeMap.mem_iff_isSome_getElem?.1 hbs)
    refine ⟨id, hid, ?_⟩
    rw [Std.ExtTreeMap.getD_eq_getD_getElem?, hid, Option.getD_some]
  refine ⟨?_, ?_, ?_⟩
  · intro bs hbs
    obtain ⟨id, hid, hd⟩ := hget bs hbs
    obtain ⟨p, hp, -⟩ := (H.index bs id).1 hid
    change 1 ≤ (r.index.getD bs TypeId.invalid).index ∧
      (r.index.getD bs TypeId.invalid).index ≤ r.size
    rw [hd, H.size]
    exact hp.bounds
  · intro bs hbs bs' hbs' heq
    obtain ⟨id, hid, hd⟩ := hget bs hbs
    obtain ⟨id', hid', hd'⟩ := hget bs' hbs'
    obtain rfl : id = id' := hd.symm.trans (heq.trans hd')
    obtain ⟨p, hp, rfl⟩ := (H.index bs id).1 hid
    obtain ⟨q, hq, rfl⟩ := (H.index bs' id).1 hid'
    rw [hp.unique hq]
  · rintro id ⟨h1, hle⟩
    rw [H.size] at hle
    obtain ⟨p, hp⟩ := exists_numbers h1 hle
    refine ⟨p.bytes, ?_, H.find hp⟩
    exact Std.ExtTreeMap.mem_iff_isSome_getElem?.2 (by rw [H.index_eq_some_iff.2 hp]; rfl)

/-- An identifier that is newly given out is the next one. -/
theorem next (H : r.Holds ps) {q : Request} (hnew : r.index[q.packed.bytes]? = none)
    (hanswer : r.answer q ≠ TypeId.invalid) : (r.answer q).index = r.size + 1 := by
  rw [H.size]
  rcases H.request_cases q with ⟨h, -⟩ | ⟨h, -⟩ | ⟨h, -⟩
  · exact absurd h.mem (H.index_eq_none_iff.1 hnew)
  · exact absurd h hanswer
  · exact h

end Holds

theorem numbers_basicId (b : Basic) (c : Bool) :
    Numbers basicEncodings (basicId (.basic b) c) (Descriptor.mk c (.basic b)).pack := by
  refine ⟨(basicId (.basic b) c).index - 1, ?_, ?_⟩
  · cases b <;> cases c <;> decide
  · cases b <;> cases c <;> decide

/-- Every run from a new registry keeps to the layout. -/
theorem layout_run (options : Options) (qs : List Request) :
    ∃ ps, ((make options).run qs).Layout ps := by
  obtain ⟨new, H⟩ := holds_run options qs
  refine ⟨basicEncodings ++ new, ?_⟩
  constructor
  case length => exact H.size.symm
  case size_index => rw [H.size_index, H.size]
  case bijOn => exact H.bijOn_index
  case index => exact fun p id => H.index_eq_some_iff
  case basics => exact List.take_left' rfl
  case basicId => exact fun b c => (H.find ((numbers_basicId b c).append new)).symm
  case next => exact fun q hnew hanswer => H.next hnew hanswer
  case cell =>
    intro i p hp
    obtain ⟨c, hc, hloc⟩ := H.cells i p hp
    refine ⟨c, hc, ?_⟩
    rw [hloc, place, length_stashed]
    rfl
  case stash => exact H.stash
  case owner => exact fun k hk => H.existsUnique_owner hk

end TypeCodex.Registry
