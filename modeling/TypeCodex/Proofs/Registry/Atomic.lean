import TypeCodex.Proofs.Registry.Outcome

/-!
# Interning all or nothing

A request to intern an encoding puts exactly one entry into the cells and the index, or it
leaves everything as it was. Nothing is assumed of the registry here: the limits may be
reached or passed already, and the index may say anything.

## Main definitions

* `Registry.Refuses` — why an encoding that is not known is refused.
* `Registry.Grows` — what is added for an encoding that is accepted.

## Main statements

* `Registry.refuses_of_validate` — every refusal of an invalid encoding has its cause.
* `Registry.store_grows` — storing grows the registry or is refused at a limit.
* `Registry.intern_atomic` — interning finds, refuses or grows.
-/

namespace TypeCodex.Registry

/-- Why a registry refuses an encoding that it does not know. The limits are looked at for
valid encodings only, the number of identifiers before the length of the stash. -/
inductive Refuses (r : Registry) (p : Packed) : RegistryError → Prop where
  /-- The bytes do not read as a descriptor. -/
  | unreadable {fault : Fault} (h : p.decode = .error fault) : Refuses r p (.invalidEncoding fault)
  /-- An operand is not registered although the options ask for that. -/
  | operand {d : Descriptor} {id : TypeId} (h : p.decode = .ok d)
      (hcheck : r.options.checkOperands = true) (hid : id ∈ d.operands)
      (hnew : r.contains id = false) : Refuses r p (.unknownIdentifier id r.size)
  /-- The descriptor is written in another way. -/
  | nonCanonical {d : Descriptor} (h : p.decode = .ok d) (hadmits : r.Admits d)
      (hne : d.pack ≠ p) : Refuses r p (.invalidEncoding .nonCanonical)
  /-- There is no identifier left. -/
  | full {d : Descriptor} (h : p.Encodes d) (hadmits : r.Admits d)
      (hfull : cellLimit ≤ r.cells.size) : Refuses r p .registryFull
  /-- The encoding is too long for a cell and the end of the stash too far for an offset. -/
  | overflow {d : Descriptor} (h : p.Encodes d) (hadmits : r.Admits d)
      (hroom : r.cells.size < cellLimit) (hlong : Cell.capacity < p.size)
      (hfull : Cell.offsetLimit ≤ r.stash.size) : Refuses r p (.stashOverflow r.stash.size)

/-- What a registry gains with an encoding: one cell and one index entry, and in the stash
the encoding itself if it is too long for its cell. -/
structure Grows (r : Registry) (p : Packed) (id : TypeId) (r' : Registry) : Prop where
  new : r.index[p.bytes]? = none
  /-- The identifier is the old number of cells, which fits in its word. -/
  number : id.index = r.cells.size
  options : r'.options = r.options
  index : r'.index = r.index.insert p.bytes id
  size_index : r'.index.size = r.index.size + 1
  cell : ∃ c, r'.cells = r.cells.push c ∧
    ((p.size ≤ Cell.capacity ∧ c.location = .inline (Cell.padded p.bytes) ∧
      r'.stash = r.stash) ∨
    (Cell.capacity < p.size ∧ r.stash.size < Cell.offsetLimit ∧
      c.location = .stashed r.stash.size ∧ r'.stash = r.stash ++ p.bytes))

variable {r : Registry} {p : Packed}

/-! ## Refusals -/

/-- An operand that is found missing is an operand and is missing. -/
theorem not_contains_of_find? {d : Descriptor} {id : TypeId}
    (h : (d.operands.find? fun id => r.options.checkOperands && !r.contains id) = some id) :
    r.options.checkOperands = true ∧ id ∈ d.operands ∧ r.contains id = false := by
  have hid := List.find?_some h
  simp only [Bool.and_eq_true, Bool.not_eq_true'] at hid
  exact ⟨hid.1, List.mem_of_find?_eq_some h, hid.2⟩

/-- Every refusal of an invalid encoding has its cause. -/
theorem refuses_of_validate {e : RegistryError} (h : r.validate p = .error e) :
    r.Refuses p e := by
  cases hdec : p.decode with
  | error fault =>
    rw [validate_of_decode_error hdec] at h
    cases h
    exact .unreadable hdec
  | ok d =>
    cases hu : Packed.unpack p.bytes with
    | error fault =>
      rw [Packed.decode, hu] at hdec
      cases hdec
    | ok expanded =>
      have hread := Packed.decode_of_unpack hu ▸ hdec
      simp only [validate, hu, hread, Except.mapError, bind, Except.bind] at h
      cases hfind : d.operands.find? fun id => r.options.checkOperands && !r.contains id with
      | some id =>
        rw [hfind] at h
        cases h
        obtain ⟨hcheck, hid, hnew⟩ := not_contains_of_find? hfind
        exact .operand hdec hcheck hid hnew
      | none =>
        rw [hfind] at h
        by_cases heq : d.expand = expanded
        · simp only [if_pos heq] at h
          cases h
        · simp only [if_neg heq] at h
          cases h
          refine .nonCanonical hdec ((find?_operands_eq_none_iff d).1 hfind) ?_
          rwa [Ne, ← Packed.expand_eq_iff hu]

/-! ## Growth -/

/-- One entry more in the cells and the index, with a stash that suits the cell. -/
theorem grows_push (hnew : r.index[p.bytes]? = none) (hroom : r.cells.size < cellLimit)
    {c : Cell} {stash : Array UInt8}
    (hc : (p.size ≤ Cell.capacity ∧ c.location = .inline (Cell.padded p.bytes) ∧
        stash = r.stash) ∨
      (Cell.capacity < p.size ∧ r.stash.size < Cell.offsetLimit ∧
        c.location = .stashed r.stash.size ∧ stash = r.stash ++ p.bytes)) :
    r.Grows p ⟨UInt32.ofNat r.cells.size⟩ ({ r with stash := stash }.push p c) where
  new := hnew
  number := UInt32.toNat_ofNat_of_lt hroom
  options := rfl
  index := rfl
  size_index := by
    have hmem : r.index.contains p.bytes = false := by
      simp [Std.ExtTreeMap.contains_eq_isSome_getElem?, hnew]
    change (r.index.insert p.bytes _).size = _
    simp [Std.ExtTreeMap.size_insert, hmem]
  cell := ⟨c, rfl, hc⟩

/-- Storing a valid new encoding grows the registry or is refused at a limit. -/
theorem store_grows {d : Descriptor} (hnew : r.index[p.bytes]? = none) (hd : p.Encodes d)
    (hadmits : r.Admits d) :
    (∃ e, r.Refuses p e ∧ r.store p = (.error e, r)) ∨
    ∃ id r', r.store p = (.ok id, r') ∧ r.Grows p id r' := by
  have hshort := size_le_capacity_iff hd
  rcases r.store_cases p with
    ⟨hfull, h⟩ | ⟨hroom, c, hc, h⟩ | ⟨hroom, hc, c, hc', h⟩ | ⟨hroom, hc, hfull, h⟩
  · exact .inl ⟨_, .full hd hadmits hfull, h⟩
  · rw [hc] at hshort
    refine .inr ⟨_, _, h, grows_push hnew hroom (.inl ⟨hshort.2 rfl, ?_, rfl⟩)⟩
    exact Cell.location_of_inline? hc
  · have hlong : Cell.capacity < p.size := by
      rw [← Nat.not_le, hshort, hc]
      simp
    have hlt : r.stash.size < Cell.offsetLimit := by
      by_contra hfull
      rw [Cell.stashed?, if_neg hfull] at hc'
      cases hc'
    refine .inr ⟨_, _, h, grows_push hnew hroom (.inr ⟨hlong, hlt, ?_, rfl⟩)⟩
    exact Cell.location_of_stashed? hc'
  · have hlong : Cell.capacity < p.size := by
      rw [← Nat.not_le, hshort, hc]
      simp
    exact .inl ⟨_, .overflow hd hadmits hroom hlong hfull, h⟩

/-- Whatever a registry holds, an encoding is answered with the identifier it has, is
refused for a cause, or is put under the next identifier. In the first two cases nothing
changes. -/
theorem intern_atomic (r : Registry) (p : Packed) :
    (∃ id, r.index[p.bytes]? = some id ∧ r.intern p = (.ok id, r)) ∨
    (r.index[p.bytes]? = none ∧ ∃ e, r.Refuses p e ∧ r.intern p = (.error e, r)) ∨
    ∃ id r', r.intern p = (.ok id, r') ∧ r.Grows p id r' := by
  cases hindex : r.index[p.bytes]? with
  | some id => exact .inl ⟨id, rfl, intern_known hindex⟩
  | none =>
    cases hval : r.validate p with
    | error e => exact .inr (.inl ⟨rfl, e, refuses_of_validate hval, intern_refused hindex hval⟩)
    | ok =>
      obtain ⟨d, hd, hadmits⟩ := validate_eq_ok_iff.1 hval
      rw [intern_valid hindex hval]
      rcases store_grows hindex hd hadmits with hrefused | hgrows
      · exact .inr (.inl ⟨rfl, hrefused⟩)
      · exact .inr (.inr hgrows)

end TypeCodex.Registry
