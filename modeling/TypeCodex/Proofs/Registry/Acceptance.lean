import TypeCodex.Proofs.Registry.Run

/-!
# Which encodings are accepted

While a registry has room, it accepts exactly the encodings that are written from views,
with registered operands if the options ask for them. An encoding that is known already
is answered without being validated. This accepts nothing more, because it was valid when
it was registered and operands are never withdrawn.

## Main definitions

* `Registry.HasRoom` — neither limit is reached.

## Main statements

* `Registry.Holds.validate_of_mem` — a known encoding is still valid.
* `Registry.Holds.intern_ok_iff` — with room, the valid encodings are accepted.
* `Registry.accepts_iff` — the accepted encodings are those written from views.
-/

namespace TypeCodex.Registry

/-- There is an identifier left, and a cell can hold the end of the stash. -/
structure HasRoom (r : Registry) : Prop where
  cells : r.cells.size < cellLimit
  stash : r.stash.size < Cell.offsetLimit

variable {r : Registry} {ps : List Packed} {p : Packed}

theorem Refers.mono {options : Options} {d : Descriptor} {m n : Nat} (h : Refers options d m)
    (hmn : m ≤ n) : Refers options d n := by
  intro hcheck id hid
  obtain ⟨hne, hle⟩ := h hcheck id hid
  exact ⟨hne, Nat.le_trans hle hmn⟩

theorem store_ok_of_hasRoom (hroom : r.HasRoom) (p : Packed) : ∃ id, (r.store p).1 = .ok id := by
  have hcells := hroom.cells
  have hstash := hroom.stash
  rcases r.store_cases p with ⟨hfull, -⟩ | ⟨-, c, -, h⟩ | ⟨-, -, c, -, h⟩ | ⟨-, -, hfull, -⟩
  · omega
  · exact ⟨_, by rw [h]⟩
  · exact ⟨_, by rw [h]⟩
  · omega

namespace Holds

/-- A known encoding is still valid. -/
theorem validate_of_mem (H : r.Holds ps) (hp : p ∈ ps) : r.validate p = .ok () := by
  obtain ⟨i, hi⟩ := List.mem_iff_getElem?.1 hp
  obtain ⟨d, hd, hrefers⟩ := H.encodes i p hi
  have hlt := (List.getElem?_eq_some_iff.1 hi).1
  exact validate_eq_ok_iff.2 ⟨d, hd, H.admits_iff.2 (hrefers.mono (by omega))⟩

/-- With room, the valid encodings are accepted. -/
theorem intern_ok_iff (H : r.Holds ps) (hroom : r.HasRoom) :
    (∃ id, (r.intern p).1 = .ok id) ↔ r.validate p = .ok () := by
  cases hindex : r.index[p.bytes]? with
  | some id =>
    have hmem := (H.index_eq_some_iff.1 hindex).mem
    rw [intern_known hindex]
    exact iff_of_true ⟨id, rfl⟩ (H.validate_of_mem hmem)
  | none =>
    cases hval : r.validate p with
    | error e =>
      rw [intern_refused hindex hval]
      refine iff_of_false ?_ (fun hok => ?_)
      · rintro ⟨id, h⟩
        cases h
      · cases hok
    | ok =>
      rw [intern_valid hindex hval]
      exact iff_of_true (store_ok_of_hasRoom hroom p) rfl

end Holds

/-- The valid encodings are written from views whose operands are admitted. -/
theorem validate_eq_ok_iff_pack : r.validate p = .ok () ↔
    ∃ v : View, v.list.length < 2 ^ 32 ∧ v.pack = p ∧
      (r.options.checkOperands = true →
        ∀ d, p.decode = .ok d → ∀ id ∈ d.operands, r.contains id = true) := by
  rw [validate_eq_ok_iff]
  constructor
  · rintro ⟨d, hd, hadmits⟩
    refine ⟨d.view, ?_, ?_, ?_⟩
    · rw [Descriptor.list_view]
      exact Packed.countable_of_decode hd.decode
    · rw [View.pack, Descriptor.descriptor_view, hd.pack]
    · intro hcheck d' hd'
      obtain rfl : d = d' := Except.ok.inj (hd.decode.symm.trans hd')
      exact hadmits hcheck
  · rintro ⟨v, hv, rfl, hadmits⟩
    have henc : v.pack.Encodes v.descriptor.canonical :=
      Packed.encodes_pack (View.countable_shape hv)
    exact ⟨v.descriptor.canonical, henc, fun hcheck => hadmits hcheck _ henc.decode⟩

/-- A registry that has room accepts the encodings written from views, with registered
operands if the options ask for them. What it answers without validation is valid, and
when operands are not checked it accepts whatever is written from a view. -/
theorem accepts_iff (options : Options) (qs : List Request) (p : Packed)
    (hroom : ((make options).run qs).HasRoom) :
    ((∃ id, (((make options).run qs).intern p).1 = .ok id) ↔
      ∃ v : View, v.list.length < 2 ^ 32 ∧ v.pack = p ∧
        (options.checkOperands = true → ∀ d, p.decode = .ok d →
          ∀ id ∈ d.operands, ((make options).run qs).contains id = true)) ∧
    (∀ id, ((make options).run qs).index[p.bytes]? = some id →
      ((make options).run qs).validate p = .ok ()) ∧
    (options.checkOperands = false → ∀ v : View, v.list.length < 2 ^ 32 →
      ∃ id, (((make options).run qs).intern v.pack).1 = .ok id) := by
  obtain ⟨new, H⟩ := holds_run options qs
  have hoptions := options_run options qs
  refine ⟨?_, ?_, ?_⟩
  · rw [H.intern_ok_iff hroom, validate_eq_ok_iff_pack, hoptions]
  · intro id hindex
    exact H.validate_of_mem (H.index_eq_some_iff.1 hindex).mem
  · intro hoff v hv
    rw [H.intern_ok_iff hroom, validate_eq_ok_iff_pack, hoptions]
    refine ⟨v, hv, rfl, fun hcheck => ?_⟩
    rw [hoff] at hcheck
    cases hcheck

/-- With checked operands, a map over a registered vector. -/
theorem accepts_iff_map :
    let options : Options := { checkOperands := true }
    let vector : View := { tag := .vector, type1 := some ⟨5⟩ }
    let map : View := { tag := .map, type1 := some ⟨7⟩, type2 := some ⟨17⟩ }
    let r := (make options).run [.intern vector.pack]
    r.HasRoom ∧
    ((∃ id, (r.intern map.pack).1 = .ok id) ↔
      ∃ v : View, v.list.length < 2 ^ 32 ∧ v.pack = map.pack ∧
        (options.checkOperands = true → ∀ d, map.pack.decode = .ok d →
          ∀ id ∈ d.operands, r.contains id = true)) ∧
    (∀ id, r.index[map.pack.bytes]? = some id → r.validate map.pack = .ok ()) ∧
    (options.checkOperands = false → ∀ v : View, v.list.length < 2 ^ 32 →
      ∃ id, (r.intern v.pack).1 = .ok id) := by
  intro options vector map r
  have hroom : r.HasRoom := ⟨by decide +kernel, by decide +kernel⟩
  exact ⟨hroom, accepts_iff options [.intern vector.pack] map.pack hroom⟩

end TypeCodex.Registry
