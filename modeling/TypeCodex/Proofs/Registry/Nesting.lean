import TypeCodex.Proofs.Registry.Elision
import TypeCodex.Proofs.Registry.Interning
import TypeCodex.Proofs.Registry.Order

/-!
# How deep types nest

A registry that checks operands has no type that contains itself, so that every type in it has an
expansion. This expansion can still be deeper than the limit on nesting: each request may ask for
a vector of the type before. Whether something is left out by depth is decided by the height of
the expansion, which is bounded only by the number of types behind the basic ones.

## Main definitions

* `Registry.layers` — requests for vectors of vectors.
* `Registry.layered` — the expansion of the last of them.

## Main statements

* `Registry.height_lt_of_complete` — what is written to its end fits into the levels.
* `Registry.ExpandsTo.mark_infix_iff` — marks in the text of an expansion that is small enough.
* `Registry.Ordered.exists_expandsTo` — types in order have expansions.
* `Registry.ExpandsTo.height_le` — how deep types in order nest.
* `Registry.mark_iff_deeper` — these facts over all runs that check operands.
* `Registry.holds_layers` — vectors of vectors are registered one after another.
* `Registry.mark_infix_text_layers` — those nested deeper than the limit are cut off.
-/

namespace TypeCodex.Registry

variable {r : Registry} {new : List Packed} {id : TypeId} {o : Outline} {d : Descriptor}
  {limits : Limits}

/-! ## Marks by depth -/

/-- What is written to its end fits into the levels. -/
theorem height_lt_of_complete (r : Registry) (levels : Nat) (id : TypeId) (budget : Nat)
    (h : (r.writeOut levels id budget).1.Complete) :
    (r.writeOut levels id budget).1.height < levels := by
  induction levels generalizing id budget with
  | zero => cases h
  | succ levels ih =>
    cases budget with
    | zero => cases h
    | succ budget =>
      cases hd : r.describe id with
      | error e =>
        rw [writeOut_of_error hd]
        exact Nat.succ_pos levels
      | ok d =>
        rw [writeOut_of_describe hd] at h ⊢
        cases h with
        | node h =>
          have hoperands : ∀ o ∈ (d.shape.writeOut (r.writeOut levels) budget).1.operands,
              o.Complete → o.height < levels :=
            Shape.forall_writeOut (fun helided => by cases helided)
              (fun id _ budget => ih id budget) budget
          exact Nat.lt_succ_of_le (Shape.height_le_iff.2 fun o ho => hoperands o ho (h o ho))

namespace ExpandsTo

/-- When there are enough types in the budget, something is left out of an expansion exactly if
it is deeper than the limit. -/
theorem mark_infix_iff (h : r.ExpandsTo id o) (hids : o.ids.length ≤ limits.nodes) :
    "...".toList <:+: (r.text id limits).toList ↔ limits.depth < o.height := by
  constructor
  · intro hmark
    by_contra hheight
    rw [h.text_eq hids (Nat.not_lt.1 hheight)] at hmark
    exact h.complete.not_infix_text hmark
  · intro hheight
    -- Within limits that are deep enough, the outline is the expansion.
    have hdeep : r.outline id ⟨o.height, limits.nodes⟩ = o := by
      rw [outline, h.writeOut_eq (Nat.lt_succ_self o.height) hids]
    have hdepth : limits.depth ≤ (Limits.mk o.height limits.nodes).depth := hheight.le
    rcases r.outline_cases id hdepth le_rfl with ⟨-, heq⟩ | hcut
    · rw [hdeep] at heq
      have hlt : (r.outline id limits).height < limits.depth + 1 :=
        r.height_lt_of_complete _ id _ (by rw [← outline, ← heq]; exact h.complete)
      rw [← heq] at hlt
      omega
    · exact hcut.mark_infix

end ExpandsTo

/-! ## Types in order -/

/-- A type among the first sixteen has no operands. -/
theorem Holds.operands_eq_nil (H : r.Holds (basicEncodings ++ new)) (hd : r.describe id = .ok d)
    (hid : id.index ≤ 16) : d.operands = [] := by
  obtain ⟨i, hindex, hi⟩ := H.numbers_of_describe hd
  have hlt : i < basicEncodings.length := by
    change i < 16
    omega
  rw [List.getElem?_append_left hlt] at hi
  by_contra hne
  refine not_mem_basicEncodings (d := d) ?_ (List.mem_of_getElem? hi)
  intro b hb
  obtain ⟨isConst, shape⟩ := d
  cases shape with
  | basic => exact hne rfl
  | _ => cases hb

/-- An expansion is nested less deep than there are types behind the basic ones up to its own. -/
theorem ExpandsTo.height_le (h : r.ExpandsTo id o) (H : r.Holds (basicEncodings ++ new))
    (hordered : r.Ordered) (hid : r.contains id = true) : o.height ≤ id.index - 16 := by
  induction h with
  | unknown h => exact Nat.zero_le _
  | @node id isConst shape hview h ih =>
    have hd := describe_of_view hview
    obtain ⟨d, hd', hoperands⟩ := hordered id hid
    obtain rfl := Except.ok.inj (hd.symm.trans hd')
    have hmem : ∀ o ∈ shape.operands,
        o.root ∈ (Descriptor.mk isConst (shape.mapOperands Outline.root)).operands := by
      intro o ho
      rw [Descriptor.operands, Shape.operands_mapOperands]
      exact List.mem_map_of_mem ho
    refine Shape.height_le_iff.2 ?_
    intro o ho
    obtain ⟨hcontains, hlt⟩ := hoperands o.root (hmem o ho)
    have hbehind : 16 < id.index := by
      by_contra hle
      have hnil := H.operands_eq_nil hd (Nat.not_lt.1 hle)
      have hroot := hmem o ho
      rw [hnil] at hroot
      cases hroot
    have hheight := ih o ho hcontains
    omega

/-- Types in order have expansions. -/
theorem Ordered.exists_expandsTo (H : r.Ordered) (hid : r.contains id = true) :
    ∃ o, r.ExpandsTo id o := by
  induction hn : id.index using Nat.strong_induction_on generalizing id with
  | _ n ih =>
    obtain ⟨d, hd, hoperands⟩ := H id hid
    have hbelow : ∀ i ∈ d.operands, ∃ o, r.ExpandsTo i o :=
      fun i hi => ih i.index (hn ▸ (hoperands i hi).2) (hoperands i hi).1 rfl
    have : Nonempty Outline := ⟨.elided⟩
    choose! expand hexpand using hbelow
    have hroots : (d.shape.mapOperands expand).mapOperands Outline.root = d.shape :=
      Shape.mapOperands_mapOperands fun i hi => (hexpand i hi).root
    refine ⟨.node id d.isConst (d.shape.mapOperands expand), .node ?_ ?_⟩
    · rw [hroots, view_eq, hd]
      rfl
    · intro o ho
      rw [Shape.operands_mapOperands] at ho
      obtain ⟨i, hi, rfl⟩ := List.mem_map.1 ho
      rw [(hexpand i hi).root]
      exact hexpand i hi

/-- In a registry that checks operands every type has an expansion. When there are enough types in
the budget, something is left out of its text exactly if the expansion is deeper than the limit,
and it is at most as deep as there are types behind the basic ones up to it. -/
theorem mark_iff_deeper {options : Options} (hcheck : options.checkOperands = true)
    (qs : List Request) {id : TypeId} (hid : ((make options).run qs).contains id = true) :
    let r := (make options).run qs
    (∃ o, r.ExpandsTo id o) ∧
    ∀ o, r.ExpandsTo id o → o.height ≤ id.index - 16 ∧
      ∀ limits : Limits, o.ids.length ≤ limits.nodes →
        ("...".toList <:+: (r.text id limits).toList ↔ limits.depth < o.height) := by
  intro r
  obtain ⟨new, H⟩ := holds_run options qs
  have hordered : r.Ordered := H.ordered (by rw [options_run, hcheck])
  refine ⟨hordered.exists_expandsTo hid, ?_⟩
  intro o h
  exact ⟨h.height_le H hordered hid, fun limits hids => h.mark_infix_iff hids⟩

/-- A map to a vector: the second type behind the basic ones is at most two levels deep. -/
theorem mark_iff_deeper_map :
    let options : Options := { checkOperands := true }
    let vector : View := { tag := .vector, type1 := some ⟨5⟩ }
    let map : View := { tag := .map, type1 := some ⟨7⟩, type2 := some ⟨17⟩ }
    let r := (make options).run [.intern vector.pack, .intern map.pack]
    (options.checkOperands = true ∧ r.contains ⟨18⟩ = true) ∧
    (∃ o, r.ExpandsTo ⟨18⟩ o) ∧
    ∀ o, r.ExpandsTo ⟨18⟩ o → o.height ≤ 2 ∧
      ∀ limits : Limits, o.ids.length ≤ limits.nodes →
        ("...".toList <:+: (r.text ⟨18⟩ limits).toList ↔ limits.depth < o.height) := by
  intro options vector map r
  have hid : r.contains ⟨18⟩ = true := by decide +kernel
  exact ⟨⟨rfl, hid⟩, mark_iff_deeper rfl [.intern vector.pack, .intern map.pack] hid⟩

/-! ## Vectors of vectors -/

/-- The identifier that is so many places behind the last basic type. -/
def behindBasics (k : Nat) : TypeId := ⟨UInt32.ofNat (16 + k)⟩

/-- A vector of the type under such an identifier. -/
def vectorOf (k : Nat) : View := { tag := .vector, type1 := some (behindBasics k) }

/-- The encodings of vectors, the first one of the last basic type, each further one of the
vector before it. -/
def layerEncodings (n : Nat) : List Packed := (List.range n).map fun k => (vectorOf k).pack

theorem layerEncodings_zero : layerEncodings 0 = [] := rfl

theorem layerEncodings_succ (n : Nat) :
    layerEncodings (n + 1) = layerEncodings n ++ [(vectorOf n).pack] := by
  rw [layerEncodings, layerEncodings, List.range_succ, List.map_append]
  rfl

/-- Requests for so many vectors, from the innermost outwards. -/
def layers (n : Nat) : List Request := (layerEncodings n).map .intern

theorem layers_zero : layers 0 = [] := rfl

theorem layers_succ (n : Nat) : layers (n + 1) = layers n ++ [.intern (vectorOf n).pack] := by
  rw [layers, layers, layerEncodings_succ, List.map_append]
  rfl

/-- The expansion of the last of so many vectors. -/
def layered : Nat → Outline
  | 0 => .node (behindBasics 0) true (.basic .any)
  | n + 1 => .node (behindBasics (n + 1)) false (.vector (layered n))

theorem height_layered (n : Nat) : (layered n).height = n := by
  induction n with
  | zero => rfl
  | succ n ih => rw [layered, Outline.height, Shape.height, ih]

theorem length_ids_layered (n : Nat) : (layered n).ids.length = n + 1 := by
  induction n with
  | zero => rfl
  | succ n ih => rw [layered, Outline.ids, Shape.ids, List.length_cons, ih]

theorem root_layered (n : Nat) : (layered n).root = behindBasics n := by
  cases n <;> rfl

theorem index_behindBasics {k : Nat} (h : k ≤ 2 ^ 16) : (behindBasics k).index = 16 + k :=
  UInt32.toNat_ofNat_of_lt (by change _ < 2 ^ 32; omega)

theorem encodes_vectorOf (k : Nat) : (vectorOf k).pack.Encodes ⟨false, .vector (behindBasics k)⟩ :=
  Packed.encodes_pack (d := ⟨false, .vector (behindBasics k)⟩) (Nat.two_pow_pos 32)

/-- No vector is requested twice. -/
theorem vectorOf_not_mem {n : Nat} (h : n ≤ 2 ^ 16) :
    (vectorOf n).pack ∉ basicEncodings ++ layerEncodings n := by
  rw [List.mem_append, not_or]
  constructor
  · apply not_mem_basicEncodings
    intro b hb
    cases hb
  · intro hmem
    obtain ⟨k, hk, hpack⟩ := List.mem_map.1 hmem
    rw [List.mem_range] at hk
    have henc := encodes_vectorOf k
    rw [hpack] at henc
    have hid : behindBasics k = behindBasics n := by
      have hd := henc.unique (encodes_vectorOf n)
      simpa using hd
    have hindex := congrArg TypeId.index hid
    rw [index_behindBasics (by omega), index_behindBasics h] at hindex
    omega

/-- The vectors are written into their cells. -/
theorem size_vectorOf_le {k : Nat} (h : k ≤ 2 ^ 16) : (vectorOf k).pack.size ≤ Cell.capacity := by
  have hindex := index_behindBasics h
  have hcount : Nibble.digitCount (behindBasics k).raw.toNat ≤ 5 := by
    rw [Nibble.digitCount_le_iff]
    change (behindBasics k).index < _
    omega
  have hwidth : Nibble.width (behindBasics k).raw ≤ 6 := by
    unfold Nibble.width
    split <;> omega
  have hsize : (vectorOf k).pack.size = 1 + (1 + Nibble.width (behindBasics k).raw) / 2 := by
    change (vectorOf k).expand.pack.size = _
    rw [Expanded.size_pack, Expanded.packedSize, Expanded.size]
    change 1 + (1 + (Nibble.encodeAll [(behindBasics k).raw]).length) / 2 = _
    rw [Nibble.encodeAll_cons, Nibble.encodeAll_nil, List.append_nil, Nibble.length_encode]
  rw [hsize, Cell.capacity]
  omega

theorem stashed_layers {n : Nat} (h : n ≤ 2 ^ 16) :
    stashed (basicEncodings ++ layerEncodings n) = [] := by
  have hshort : ∀ p ∈ basicEncodings ++ layerEncodings n, p.size ≤ Cell.capacity := by
    intro p hp
    rcases List.mem_append.1 hp with hp | hp
    · have hbasic : ∀ p ∈ basicEncodings, p.size ≤ Cell.capacity := by decide
      exact hbasic p hp
    · obtain ⟨k, hk, rfl⟩ := List.mem_map.1 hp
      rw [List.mem_range] at hk
      exact size_vectorOf_le (by omega)
  have hnone : (basicEncodings ++ layerEncodings n).filter (fun p => Cell.capacity < p.size)
      = [] := by
    rw [List.filter_eq_nil_iff]
    intro p hp
    simpa using hshort p hp
  rw [stashed, hnone, List.flatMap_nil]

/-- The requests for vectors are accepted, whether operands are checked or not. -/
theorem holds_layers (options : Options) {n : Nat} (h : n ≤ 2 ^ 16) :
    ((make options).run (layers n)).Holds (basicEncodings ++ layerEncodings n) := by
  induction n with
  | zero =>
    rw [layers_zero, run_nil, layerEncodings_zero, List.append_nil]
    exact holds_make options
  | succ n ih =>
    have H := ih (by omega)
    have hlength : (basicEncodings ++ layerEncodings n).length = 16 + n := by
      rw [List.length_append, layerEncodings, List.length_map, List.length_range]
      rfl
    have hroom : ((make options).run (layers n)).HasRoom := by
      constructor
      · rw [H.size_cells, hlength, cellLimit]
        omega
      · rw [← Array.length_toList, H.stash, stashed_layers (by omega)]
        decide
    have hadmits : ((make options).run (layers n)).Admits ⟨false, .vector (behindBasics n)⟩ := by
      refine H.admits_iff.2 ?_
      intro _ id hid
      rw [List.mem_singleton.1 hid, ← TypeId.one_le_index, index_behindBasics (by omega), hlength]
      omega
    have hvalid := validate_eq_ok_iff.2 ⟨_, encodes_vectorOf n, hadmits⟩
    obtain ⟨id, hid⟩ := (H.intern_ok_iff hroom).2 hvalid
    obtain ⟨-, H'⟩ := H.intern_new (vectorOf_not_mem (by omega)) hid
    rw [layers_succ, run_append, run_cons, run_nil, layerEncodings_succ, ← List.append_assoc]
    exact H'

/-- Each of the vectors expands to the vectors inside of it. -/
theorem expandsTo_layered (options : Options) {m n : Nat} (hm : m ≤ n) (h : n ≤ 2 ^ 16) :
    ((make options).run (layers n)).ExpandsTo (behindBasics m) (layered m) := by
  have H := holds_layers options h
  induction m with
  | zero =>
    have hany : Numbers (basicEncodings ++ layerEncodings n) (behindBasics 0)
        (Descriptor.mk true (.basic .any)).pack :=
      Numbers.append ⟨15, rfl, rfl⟩ (layerEncodings n)
    refine .node (H.view_of_encodes hany (encodes_basic true .any)) ?_
    intro o ho
    cases ho
  | succ m ih =>
    have hvector : Numbers (basicEncodings ++ layerEncodings n) (behindBasics (m + 1))
        (vectorOf m).pack := by
      refine ⟨16 + m, index_behindBasics (by omega), ?_⟩
      have hlength : basicEncodings.length = 16 := rfl
      rw [List.getElem?_append_right (by omega), hlength, Nat.add_sub_cancel_left, layerEncodings,
        List.getElem?_map, List.getElem?_range (by omega)]
      rfl
    have hview := H.view_of_encodes hvector (encodes_vectorOf m)
    rw [← root_layered m] at hview
    refine .node hview ?_
    intro o ho
    rw [List.mem_singleton.1 ho, root_layered]
    exact ih (by omega)

/-- Vectors that are nested deeper than the limit are cut off, and no others. -/
theorem mark_infix_text_layers (options : Options) {n : Nat} (h : n ≤ 2 ^ 16)
    (hnodes : n < limits.nodes) :
    "...".toList <:+: (((make options).run (layers n)).text (behindBasics n) limits).toList
      ↔ limits.depth < n := by
  have hexpands := expandsTo_layered options (Nat.le_refl n) h
  have hids : (layered n).ids.length ≤ limits.nodes := by
    rw [length_ids_layered]
    exact hnodes
  rw [hexpands.mark_infix_iff hids, height_layered]

/-- Sixty-five vectors around a basic type are sixty-six types, none of which refers to itself or
to a later one. The innermost of them is left out. -/
theorem mark_infix_text_layers_sixty_five :
    let options : Options := { checkOperands := true }
    let r := (make options).run (layers 65)
    options.checkOperands = true ∧ r.contains ⟨81⟩ = true ∧
    (∃ o, r.ExpandsTo ⟨81⟩ o ∧ o.ids.length ≤ 256) ∧ "...".toList <:+: (r.text ⟨81⟩).toList := by
  intro options r
  have H := holds_layers options (n := 65) (by decide)
  have hexpands := expandsTo_layered options (Nat.le_refl 65) (by decide)
  have hids : (layered 65).ids.length ≤ 256 := by
    rw [length_ids_layered]
    decide
  refine ⟨rfl, H.contains_iff.2 ⟨by decide, by decide⟩, ⟨layered 65, hexpands, hids⟩, ?_⟩
  exact (mark_infix_text_layers options (by decide) (by decide)).2 (by decide)

end TypeCodex.Registry
