import TypeCodex.Proofs.Registry.Questions
import TypeCodex.Proofs.Registry.Run
import TypeCodex.Proofs.Registry.Window

/-!
# Reading back

A registry gives back, under each valid identifier, the encoding for which the identifier
was given out first, and what it says about the type is what that encoding says.

## Main statements

* `Registry.Holds.packed` — the encoding that is held is given back.
* `Registry.read_back` — the same over all runs from a new registry.
-/

namespace TypeCodex.Registry

variable {r : Registry} {ps : List Packed} {p : Packed} {id : TypeId}

theorem Holds.packed (H : r.Holds ps) (h : Numbers ps id p) : r.packed id = .ok p := by
  obtain ⟨d, hd, hdescribe⟩ := H.describe h
  rw [Registry.packed, hdescribe, ← hd.pack]
  rfl

/-- Each valid identifier was given out first for one encoding. The registry gives this
encoding back and finds the identifier under it. Read where it stands, at once or field
by field, the encoding says what it says when it is unpacked. -/
theorem read_back (options : Options) (qs : List Request) (id : TypeId) (h1 : 1 ≤ id.index)
    (hsize : id.index ≤ ((make options).run qs).size) :
    (∃! p, Created options qs id p) ∧
    ∀ p, Created options qs id p →
      ((make options).run qs).packed id = .ok p ∧
      ((make options).run qs).find p = id ∧
      ∃ d, p.decode = .ok d ∧ ((make options).run qs).describe id = .ok d ∧
        ((make options).run qs).view id = .ok d.view := by
  obtain ⟨new, H⟩ := holds_run options qs
  constructor
  · rw [H.size] at hsize
    obtain ⟨p, hp⟩ := exists_numbers h1 hsize
    refine ⟨p, (created_iff H).2 hp, ?_⟩
    intro q hq
    exact ((created_iff H).1 hq).unique hp
  · intro p hcreated
    have hp := (created_iff H).1 hcreated
    obtain ⟨d, hd, hdescribe⟩ := H.describe hp
    refine ⟨H.packed hp, H.find hp, d, hd.decode, hdescribe, ?_⟩
    rw [view_eq, hdescribe]
    rfl

/-- A tuple in the stash in front of another long encoding reads back. -/
theorem read_back_tuple :
    let wide : View := { tag := .tuple, list := [⟨1⟩, ⟨2⟩, ⟨300⟩, ⟨4⟩, ⟨5⟩, ⟨6⟩, ⟨7⟩, ⟨8⟩] }
    let far : View := { tag := .map, isConst := true, type1 := some ⟨70000⟩, type2 := some ⟨17⟩ }
    let qs := [Request.intern wide.pack, .create far.pack, .intern wide.pack]
    1 ≤ (TypeId.mk 17).index ∧ (TypeId.mk 17).index ≤ ((make {}).run qs).size ∧
    (∃! p, Created {} qs ⟨17⟩ p) ∧
    ∀ p, Created {} qs ⟨17⟩ p →
      ((make {}).run qs).packed ⟨17⟩ = .ok p ∧
      ((make {}).run qs).find p = ⟨17⟩ ∧
      ∃ d, p.decode = .ok d ∧ ((make {}).run qs).describe ⟨17⟩ = .ok d ∧
        ((make {}).run qs).view ⟨17⟩ = .ok d.view :=
  ⟨by decide, by decide +kernel, read_back {} _ ⟨17⟩ (by decide) (by decide +kernel)⟩

end TypeCodex.Registry
