import Mathlib.Data.List.Nodup
import TypeCodex.Proofs.Registry.Outcome

/-!
# What a registry holds

The cells, the stash and the index of a registry describe one list of encodings, each
under the number of its place. A request that is granted a new number appends its
encoding to the list, and no other request changes anything.

## Main definitions

* `Registry.Numbers` — the identifier of an encoding in a list.
* `Registry.stashed`, `Registry.place` — where the encodings of a list stand.
* `Registry.Holds` — the registry describes a list of encodings.

## Main statements

* `Registry.Holds.intern_cases` — interning appends to the list or leaves it alone.
* `Registry.holds_make` — a new registry holds the basic types.
* `Registry.Holds.unique` — a registry describes one list only.
-/

namespace TypeCodex

namespace Registry

variable {r : Registry} {ps : List Packed} {p q : Packed} {id : TypeId}

/-! ## Numbers -/

/-- An identifier counts the place of an encoding in a list, from one. -/
def Numbers (ps : List Packed) (id : TypeId) (p : Packed) : Prop :=
  ∃ i, id.index = i + 1 ∧ ps[i]? = some p

theorem getElem?_concat_eq_some {α : Type} {as : List α} {a b : α} {i : Nat} :
    (as ++ [a])[i]? = some b ↔ as[i]? = some b ∨ i = as.length ∧ a = b := by
  rcases Nat.lt_trichotomy i as.length with h | rfl | h
  · rw [List.getElem?_append_left h]
    have hne : i ≠ as.length := by omega
    simp [hne]
  · simp
  · have hlen : (as ++ [a]).length = as.length + 1 := List.length_append
    rw [List.getElem?_eq_none (by omega), List.getElem?_eq_none (by omega)]
    have hne : i ≠ as.length := by omega
    simp [hne]

theorem numbers_concat : Numbers (ps ++ [q]) id p ↔
    Numbers ps id p ∨ id.index = ps.length + 1 ∧ q = p := by
  constructor
  · rintro ⟨i, hid, hi⟩
    rcases getElem?_concat_eq_some.1 hi with hi | ⟨rfl, hq⟩
    · exact .inl ⟨i, hid, hi⟩
    · exact .inr ⟨hid, hq⟩
  · rintro (⟨i, hid, hi⟩ | ⟨hid, hq⟩)
    · exact ⟨i, hid, getElem?_concat_eq_some.2 (.inl hi)⟩
    · exact ⟨ps.length, hid, getElem?_concat_eq_some.2 (.inr ⟨rfl, hq⟩)⟩

namespace Numbers

theorem mem (h : Numbers ps id p) : p ∈ ps := by
  obtain ⟨i, -, hi⟩ := h
  exact List.mem_of_getElem? hi

theorem bounds (h : Numbers ps id p) : 1 ≤ id.index ∧ id.index ≤ ps.length := by
  obtain ⟨i, hid, hi⟩ := h
  have hlt := (List.getElem?_eq_some_iff.1 hi).1
  omega

theorem ne_invalid (h : Numbers ps id p) : id ≠ TypeId.invalid :=
  TypeId.one_le_index.1 h.bounds.1

/-- More encodings at the end change no number. -/
theorem append (h : Numbers ps id p) (qs : List Packed) : Numbers (ps ++ qs) id p := by
  obtain ⟨i, hid, hi⟩ := h
  have hlt := (List.getElem?_eq_some_iff.1 hi).1
  exact ⟨i, hid, by rw [List.getElem?_append_left hlt, hi]⟩

theorem unique (h : Numbers ps id p) (h' : Numbers ps id q) : p = q := by
  obtain ⟨i, hid, hi⟩ := h
  obtain ⟨j, hid', hj⟩ := h'
  obtain rfl : i = j := by omega
  exact Option.some.inj (hi.symm.trans hj)

end Numbers

theorem exists_numbers (h1 : 1 ≤ id.index) (h : id.index ≤ ps.length) : ∃ p, Numbers ps id p := by
  have hlt : id.index - 1 < ps.length := by omega
  exact ⟨ps[id.index - 1], id.index - 1, by omega, List.getElem?_eq_getElem hlt⟩

/-! ## What is held -/

/-- The encodings that are too long for a cell, one after another. -/
def stashed (ps : List Packed) : List UInt8 :=
  (ps.filter fun p => Cell.capacity < p.size).flatMap Packed.bytes

theorem stashed_append (ps qs : List Packed) : stashed (ps ++ qs) = stashed ps ++ stashed qs := by
  simp [stashed]

theorem stashed_singleton (p : Packed) :
    stashed [p] = if p.size ≤ Cell.capacity then [] else p.bytes := by
  by_cases h : p.size ≤ Cell.capacity
  · have h' : ¬ Cell.capacity < p.size := by omega
    simp [stashed, h, h']
  · have h' : Cell.capacity < p.size := by omega
    simp [stashed, h, h']

/-- Where an encoding stands, given the ones registered before it. -/
def place (earlier : List Packed) (p : Packed) : Cell.Location :=
  if p.size ≤ Cell.capacity then .inline (Cell.padded p.bytes)
  else .stashed (stashed earlier).length

/-- The operands of a descriptor are among the first `n` identifiers, if the options
ask for registered operands. -/
def Refers (options : Options) (d : Descriptor) (n : Nat) : Prop :=
  options.checkOperands = true → ∀ id ∈ d.operands, id ≠ TypeId.invalid ∧ id.index ≤ n

/-- The cells, the stash and the index describe one list of encodings. -/
structure Holds (r : Registry) (ps : List Packed) : Prop where
  size_cells : r.cells.size = ps.length + 1
  limit : r.cells.size ≤ cellLimit
  nodup : ps.Nodup
  index : ∀ bs id, r.index[bs]? = some id ↔ ∃ p, Numbers ps id p ∧ p.bytes = bs
  size_index : r.index.size = ps.length
  stash : r.stash.toList = stashed ps
  cells : ∀ i p, ps[i]? = some p →
    ∃ c, r.cells[i + 1]? = some c ∧ c.location = place (ps.take i) p
  encodes : ∀ i p, ps[i]? = some p → ∃ d, p.Encodes d ∧ Refers r.options d i

namespace Holds

theorem index_eq_some_iff (H : r.Holds ps) : r.index[p.bytes]? = some id ↔ Numbers ps id p := by
  rw [H.index]
  constructor
  · rintro ⟨q, hq, hbytes⟩
    rwa [← Packed.bytes_injective hbytes]
  · intro h
    exact ⟨p, h, rfl⟩

/-- There are identifiers for all places. -/
theorem exists_id (H : r.Holds ps) {i : Nat} (hi : i < ps.length) :
    ∃ id : TypeId, id.index = i + 1 := by
  have hsize := H.size_cells
  have hlimit := H.limit
  exact ⟨⟨UInt32.ofNat (i + 1)⟩, UInt32.toNat_ofNat_of_lt (by change _ < cellLimit; omega)⟩

theorem index_eq_none_iff (H : r.Holds ps) : r.index[p.bytes]? = none ↔ p ∉ ps := by
  constructor
  · intro h hp
    obtain ⟨i, hi⟩ := List.mem_iff_getElem?.1 hp
    obtain ⟨id, hid⟩ := H.exists_id (List.getElem?_eq_some_iff.1 hi).1
    rw [H.index_eq_some_iff.2 ⟨i, hid, hi⟩] at h
    cases h
  · intro hp
    cases h : r.index[p.bytes]? with
    | none => rfl
    | some id => exact absurd (H.index_eq_some_iff.1 h).mem hp

theorem contains_iff (H : r.Holds ps) :
    r.contains id = true ↔ id ≠ TypeId.invalid ∧ id.index ≤ ps.length := by
  rw [contains, cell?]
  by_cases h : id = TypeId.invalid
  · simp [h]
  · have hlt : r.cells[id.index]?.isSome = true ↔ id.index < r.cells.size := by simp
    rw [if_neg h, hlt, H.size_cells, Nat.lt_succ_iff]
    exact ⟨fun hle => ⟨h, hle⟩, And.right⟩

theorem admits_iff (H : r.Holds ps) {d : Descriptor} :
    r.Admits d ↔ Refers r.options d ps.length := by
  simp only [Admits, Refers, H.contains_iff]

theorem size (H : r.Holds ps) : r.size = ps.length := by
  rw [Registry.size, H.size_cells, Nat.add_sub_cancel]

theorem find (H : r.Holds ps) (h : Numbers ps id p) : r.find p = id := by
  rw [Registry.find, Std.ExtTreeMap.getD_eq_getD_getElem?, H.index_eq_some_iff.2 h,
    Option.getD_some]

/-- A registry describes one list only. -/
theorem unique {qs : List Packed} (H : r.Holds ps) (H' : r.Holds qs) : ps = qs := by
  have hlen : ps.length = qs.length := by
    have h := H.size_cells.symm.trans H'.size_cells
    omega
  refine List.ext_getElem hlen fun i hi hi' => ?_
  obtain ⟨id, hid⟩ := H.exists_id hi
  have hp : Numbers ps id ps[i] := ⟨i, hid, List.getElem?_eq_getElem hi⟩
  have hq : Numbers qs id qs[i] := ⟨i, hid, List.getElem?_eq_getElem hi'⟩
  exact (H'.index_eq_some_iff.1 (H.index_eq_some_iff.2 hp)).unique hq

/-! ## Growing -/

/-- The next identifier is the one behind all places. -/
theorem index_next (H : r.Holds ps) (hroom : r.cells.size < cellLimit) :
    (TypeId.mk (UInt32.ofNat r.cells.size)).index = ps.length + 1 :=
  (UInt32.toNat_ofNat_of_lt hroom).trans H.size_cells

/-- A valid new encoding may be put under the next number, in a cell that tells its place. -/
theorem push (H : r.Holds ps) (hroom : r.cells.size < cellLimit) (hnew : p ∉ ps)
    (stash : Array UInt8) (hstash : stash.toList = stashed (ps ++ [p])) {c : Cell}
    (hc : c.location = place ps p) {d : Descriptor} (hd : p.Encodes d) (hadmits : r.Admits d) :
    ({ r with stash := stash }.push p c).Holds (ps ++ [p]) where
  size_cells := by
    change (r.cells.push c).size = _
    rw [Array.size_push, H.size_cells, List.length_append, List.length_singleton]
  limit := by
    change (r.cells.push c).size ≤ _
    rw [Array.size_push]
    omega
  nodup := by
    rw [List.nodup_append]
    refine ⟨H.nodup, List.nodup_singleton p, ?_⟩
    rintro q hq q' hq' rfl
    rw [List.mem_singleton.1 hq'] at hq
    exact hnew hq
  index := by
    intro bs id
    have hid := H.index_next hroom
    have hget : ({ r with stash := stash }.push p c).index[bs]?
        = if p.bytes = bs then some ⟨UInt32.ofNat r.cells.size⟩ else r.index[bs]? := by
      change (r.index.insert p.bytes ⟨UInt32.ofNat r.cells.size⟩)[bs]? = _
      rw [Std.ExtTreeMap.getElem?_insert]
      simp
    rw [hget]
    by_cases hbs : p.bytes = bs
    · rw [if_pos hbs]
      constructor
      · intro h
        cases h
        exact ⟨p, numbers_concat.2 (.inr ⟨hid, rfl⟩), hbs⟩
      · rintro ⟨q, hq, hbytes⟩
        rcases numbers_concat.1 hq with hq | ⟨hindex, -⟩
        · rw [← Packed.bytes_injective (hbytes.trans hbs.symm)] at hnew
          exact absurd hq.mem hnew
        · exact congrArg some (TypeId.index_injective (hid.trans hindex.symm))
    · rw [if_neg hbs, H.index]
      constructor
      · rintro ⟨q, hq, hbytes⟩
        exact ⟨q, hq.append [p], hbytes⟩
      · rintro ⟨q, hq, hbytes⟩
        rcases numbers_concat.1 hq with hq | ⟨-, rfl⟩
        · exact ⟨q, hq, hbytes⟩
        · exact absurd hbytes hbs
  size_index := by
    have hmem : r.index.contains p.bytes = false := by
      rw [Std.ExtTreeMap.contains_eq_isSome_getElem?, H.index_eq_none_iff.2 hnew]
      rfl
    change (r.index.insert p.bytes _).size = _
    rw [Std.ExtTreeMap.size_insert, hmem, H.size_index, List.length_append,
      List.length_singleton]
    rfl
  stash := hstash
  cells := by
    intro i q hq
    change ∃ c', (r.cells.push c)[i + 1]? = some c' ∧ _
    rcases getElem?_concat_eq_some.1 hq with hq | ⟨rfl, rfl⟩
    · have hlt := (List.getElem?_eq_some_iff.1 hq).1
      obtain ⟨c', hc', hloc⟩ := H.cells i q hq
      refine ⟨c', ?_, ?_⟩
      · rw [Array.getElem?_push, if_neg (by rw [H.size_cells]; omega), hc']
      · rw [hloc, List.take_append_of_le_length (by omega)]
    · refine ⟨c, ?_, ?_⟩
      · rw [Array.getElem?_push, if_pos H.size_cells.symm]
      · rw [hc, List.take_left]
  encodes := by
    intro i q hq
    rcases getElem?_concat_eq_some.1 hq with hq | ⟨rfl, rfl⟩
    · exact H.encodes i q hq
    · exact ⟨d, hd, H.admits_iff.1 hadmits⟩

/-- A short encoding may be put into its own cell. -/
theorem push_inline (H : r.Holds ps) (hroom : r.cells.size < cellLimit) (hnew : p ∉ ps) {c : Cell}
    (hc : Cell.inline? p.bytes = some c) {d : Descriptor} (hd : p.Encodes d)
    (hadmits : r.Admits d) : (r.push p c).Holds (ps ++ [p]) := by
  have hsize : p.size ≤ Cell.capacity := (size_le_capacity_iff hd).2 (by rw [hc]; rfl)
  refine H.push hroom hnew r.stash ?_ ?_ hd hadmits
  · rw [stashed_append, stashed_singleton, if_pos hsize, List.append_nil, H.stash]
  · rw [Cell.location_of_inline? hc, place, if_pos hsize]

/-- Storing a valid new encoding appends it, unless a limit is reached. -/
theorem store (H : r.Holds ps) (hnew : p ∉ ps) {d : Descriptor} (hd : p.Encodes d)
    (hadmits : r.Admits d) :
    (∃ e, r.store p = (.error e, r)) ∨
    ∃ id r', r.store p = (.ok id, r') ∧ id.index = ps.length + 1 ∧
      r'.options = r.options ∧ r'.Holds (ps ++ [p]) := by
  rcases r.store_cases p with ⟨-, h⟩ | ⟨hroom, c, hc, h⟩ | ⟨hroom, hc, c, hc', h⟩ | ⟨-, -, -, h⟩
  · exact .inl ⟨_, h⟩
  · exact .inr ⟨_, _, h, H.index_next hroom, rfl, H.push_inline hroom hnew hc hd hadmits⟩
  · have hsize : ¬ p.size ≤ Cell.capacity := by
      rw [size_le_capacity_iff hd, hc]
      exact Bool.false_ne_true
    refine .inr ⟨_, _, h, H.index_next hroom, rfl, ?_⟩
    refine H.push hroom hnew (r.stash ++ p.bytes) ?_ ?_ hd hadmits
    · rw [Array.toList_appendList, stashed_append, stashed_singleton, if_neg hsize, H.stash]
    · have hlen : r.stash.size = (stashed ps).length := by rw [← H.stash, Array.length_toList]
      rw [Cell.location_of_stashed? hc', place, if_neg hsize, hlen]
  · exact .inl ⟨_, h⟩

/-- A request is answered with the number that an encoding has, is refused without a
trace, or appends the encoding under the next number. -/
theorem intern_cases (H : r.Holds ps) (p : Packed) :
    (∃ id, Numbers ps id p ∧ r.intern p = (.ok id, r)) ∨
    (p ∉ ps ∧ ∃ e, r.intern p = (.error e, r)) ∨
    (p ∉ ps ∧ ∃ id r', r.intern p = (.ok id, r') ∧ id.index = ps.length + 1 ∧
      r'.options = r.options ∧ r'.Holds (ps ++ [p])) := by
  cases hindex : r.index[p.bytes]? with
  | some id => exact .inl ⟨id, H.index_eq_some_iff.1 hindex, intern_known hindex⟩
  | none =>
    have hnew := H.index_eq_none_iff.1 hindex
    cases hval : r.validate p with
    | error e => exact .inr (.inl ⟨hnew, e, intern_refused hindex hval⟩)
    | ok =>
      obtain ⟨d, hd, hadmits⟩ := validate_eq_ok_iff.1 hval
      rw [intern_valid hindex hval]
      rcases H.store hnew hd hadmits with h | h
      · exact .inr (.inl ⟨hnew, h⟩)
      · exact .inr (.inr ⟨hnew, h⟩)

end Holds

/-! ## The basic types -/

theorem holds_bare (options : Options) : (bare options).Holds [] where
  size_cells := rfl
  limit := by
    change 1 ≤ 0x100000000
    decide
  nodup := List.nodup_nil
  index := by simp [bare, Numbers]
  size_index := Std.ExtTreeMap.size_empty
  stash := rfl
  cells := by
    intro i p hp
    cases hp
  encodes := by
    intro i p hp
    cases hp

/-- The encodings of the basic types in the order of their identifiers. -/
def basicEncodings : List Packed := basics.map Descriptor.pack

theorem encodes_basic (c : Bool) (b : Basic) :
    (Descriptor.mk c (.basic b)).pack.Encodes ⟨c, .basic b⟩ :=
  Packed.encodes_pack (d := ⟨c, .basic b⟩) (Nat.two_pow_pos 32)

theorem mem_basics {d : Descriptor} : d ∈ basics ↔ ∃ b, d.shape = .basic b := by
  obtain ⟨c, s⟩ := d
  constructor
  · intro h
    obtain ⟨b, -, hb⟩ := List.mem_flatMap.1 h
    simp only [List.mem_cons, Descriptor.mk.injEq, List.not_mem_nil, or_false] at hb
    rcases hb with ⟨-, hs⟩ | ⟨-, hs⟩
    · exact ⟨b, hs⟩
    · exact ⟨b, hs⟩
  · rintro ⟨b, rfl⟩
    cases b <;> cases c <;> decide

/-- The encoding of a compound type is not that of a basic one. -/
theorem not_mem_basicEncodings {d : Descriptor} (h : ∀ b, d.tag ≠ .basic b) :
    d.pack ∉ basicEncodings := by
  intro hmem
  obtain ⟨d', hd', hpack⟩ := List.mem_map.1 hmem
  obtain ⟨b, hb⟩ := mem_basics.1 hd'
  have htag : d'.pack.tagByte.tag? = d.pack.tagByte.tag? := by rw [hpack]
  simp only [Descriptor.pack, Expanded.pack, Descriptor.expand, Expanded.tag?_ofWords,
    Option.some.injEq] at htag
  exact h b (by rw [← htag, Descriptor.tag, hb, Shape.tag])

/-- Basic types may be put into a registry one after another. -/
theorem Holds.foldl_push {ds : List Descriptor} (H : r.Holds ps)
    (hroom : r.cells.size + ds.length ≤ cellLimit) (hbasic : ∀ d ∈ ds, d ∈ basics)
    (hnodup : (ps ++ ds.map Descriptor.pack).Nodup) :
    (ds.foldl (fun r d => r.push d.pack ((Cell.inline? d.pack.bytes).getD Cell.reserved)) r).Holds
      (ps ++ ds.map Descriptor.pack) := by
  induction ds generalizing r ps with
  | nil => simpa using H
  | cons d ds ih =>
    obtain ⟨c, s⟩ := d
    obtain ⟨b, rfl⟩ := mem_basics.1 (hbasic ⟨c, s⟩ (by simp))
    have henc := encodes_basic c b
    have hsize : (Descriptor.mk c (.basic b)).pack.size ≤ Cell.capacity := by
      change 1 + 0 ≤ 4
      decide
    obtain ⟨cell, hcell⟩ := Option.isSome_iff_exists.1 ((size_le_capacity_iff henc).1 hsize)
    rw [List.map_cons, List.append_cons] at hnodup ⊢
    rw [List.length_cons] at hroom
    have hnew : (Descriptor.mk c (.basic b)).pack ∉ ps := by
      intro hmem
      have hps := (List.nodup_append.1 hnodup).1
      exact (List.nodup_append.1 hps).2.2 _ hmem _ (List.mem_singleton_self _) rfl
    have hadmits : r.Admits ⟨c, .basic b⟩ := by
      intro _ id hid
      cases hid
    have hpush := H.push_inline (by omega) hnew hcell henc hadmits
    rw [List.foldl_cons, hcell, Option.getD_some]
    refine ih hpush ?_ (fun d hd => hbasic d (List.mem_cons_of_mem _ hd)) hnodup
    change (r.cells.push cell).size + _ ≤ _
    rw [Array.size_push]
    omega

/-- A new registry holds the basic types. -/
theorem holds_make (options : Options) : (make options).Holds basicEncodings := by
  have hnodup : ([] ++ basics.map Descriptor.pack).Nodup := by decide
  have hroom : (bare options).cells.size + basics.length ≤ cellLimit := by
    change 1 + 16 ≤ 0x100000000
    decide
  exact (holds_bare options).foldl_push hroom (fun d hd => hd) hnodup

end Registry

end TypeCodex
