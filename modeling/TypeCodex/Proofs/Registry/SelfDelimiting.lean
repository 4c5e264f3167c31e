import TypeCodex.Proofs.Registry.Interning
import TypeCodex.Proofs.Registry.Window

/-!
# Encodings show where they end

A registry stores encodings without their lengths. The operands of an accepted encoding are
read off its bytes whatever bytes stand behind them, and reading stops behind the last
operand, in front of any padding. So two accepted encodings that begin one sequence of bytes
are the same: none continues another one, and zeros behind them never make them alike.

## Main statements

* `Registry.exists_encodes` — what is accepted is the encoding of a descriptor.
* `Registry.accepted_self_delimiting` — accepted encodings show where they end.
-/

namespace TypeCodex

namespace Registry

variable {options options' : Options} {qs qs' : List Request} {p q : Packed} {id id' : TypeId}

/-- What is accepted is the canonical encoding of a descriptor. -/
theorem exists_encodes (h : (((make options).run qs).intern p).1 = .ok id) :
    ∃ d, p.Encodes d := by
  obtain ⟨new, H⟩ := holds_run options qs
  obtain ⟨new', H', hp⟩ := H.intern_ok h
  obtain ⟨d, hd, -⟩ := H'.describe hp
  exact ⟨d, hd⟩

/-- The operands of an encoding that a registry accepts are read off its bytes whatever
follows them, as they are when the encoding is unpacked. So no accepted encoding continues
another one, and two that fit in a cell have different cells, although zeros fill these up. -/
theorem accepted_self_delimiting (hp : (((make options).run qs).intern p).1 = .ok id)
    (hq : (((make options').run qs').intern q).1 = .ok id') :
    (∃ e d, Packed.unpack p.bytes = .ok e ∧ Descriptor.ofExpanded e = .ok d ∧
      p.tagByte.tag? = some d.tag ∧
      ∀ rest, Shape.read (Source.ofBytes fun i => (p.bytes ++ rest)[i]?).int d.tag 0
        = .ok (d.shape, e.nibbles.length)) ∧
    (p.bytes <+: q.bytes → p = q) ∧
    (p.size ≤ Cell.capacity → q.size ≤ Cell.capacity → p ≠ q →
      ∃ c c', Cell.inline? p.bytes = some c ∧ Cell.inline? q.bytes = some c' ∧ c ≠ c') := by
  obtain ⟨d, Hp⟩ := exists_encodes hp
  obtain ⟨d', Hq⟩ := exists_encodes hq
  refine ⟨⟨d.expand, d, Hp.unpack, Hp.ofExpanded, Hp.tag?, Hp.read_append⟩, ?_, ?_⟩
  · rintro ⟨rest, hrest⟩
    have happend : p.bytes ++ rest = q.bytes ++ [] := by rw [hrest, List.append_nil]
    exact Hp.eq_of_append_eq Hq happend
  · intro hsize hsize' hne
    obtain ⟨c, hc⟩ := Option.isSome_iff_exists.1 ((size_le_capacity_iff Hp).1 hsize)
    obtain ⟨c', hc'⟩ := Option.isSome_iff_exists.1 ((size_le_capacity_iff Hq).1 hsize')
    refine ⟨c, c', hc, hc', ?_⟩
    rintro rfl
    have hlocation := (Cell.location_of_inline? hc).symm.trans (Cell.location_of_inline? hc')
    exact hne (Hp.eq_of_append_eq Hq (Cell.Location.inline.inj hlocation))

/-- Two vectors, each with an odd number of nibbles, that are padded to fill their cells. -/
theorem accepted_self_delimiting_vectors :
    let p := View.pack { tag := .vector, type1 := some ⟨16⟩ }
    let q := View.pack { tag := .vector, type1 := some ⟨1⟩ }
    ((((make {}).run []).intern p).1 = .ok ⟨17⟩ ∧
      (((make {}).run [.intern p]).intern q).1 = .ok ⟨18⟩ ∧
      p.size ≤ Cell.capacity ∧ q.size ≤ Cell.capacity ∧ p ≠ q) ∧
    (∃ e d, Packed.unpack p.bytes = .ok e ∧ Descriptor.ofExpanded e = .ok d ∧
      p.tagByte.tag? = some d.tag ∧
      ∀ rest, Shape.read (Source.ofBytes fun i => (p.bytes ++ rest)[i]?).int d.tag 0
        = .ok (d.shape, e.nibbles.length)) ∧
    ¬ p.bytes <+: q.bytes ∧
    ∃ c c', Cell.inline? p.bytes = some c ∧ Cell.inline? q.bytes = some c' ∧ c ≠ c' := by
  intro p q
  have hp : (((make {}).run []).intern p).1 = .ok ⟨17⟩ := by decide +kernel
  have hq : (((make {}).run [.intern p]).intern q).1 = .ok ⟨18⟩ := by decide +kernel
  have hsize : p.size ≤ Cell.capacity := by decide
  have hsize' : q.size ≤ Cell.capacity := by decide
  have hne : p ≠ q := by decide
  obtain ⟨hread, hfront, hcells⟩ := accepted_self_delimiting hp hq
  exact ⟨⟨hp, hq, hsize, hsize', hne⟩, hread, fun h => hne (hfront h), hcells hsize hsize' hne⟩

end Registry

end TypeCodex
