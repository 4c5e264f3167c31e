import TypeCodex.Proofs.Outline.Resolved
import TypeCodex.Proofs.Outline.Traversal
import TypeCodex.Proofs.Registry.Stable

/-!
# Operands come first

A registry that checks operands accepts a type only after the types that it is made of. So
the operands of a type have smaller identifiers, everything below a registered type is
registered, and nothing that is registered later shows in its text.

## Main definitions

* `Registry.Ordered` — the operands of each type are registered before it.

## Main statements

* `Registry.Holds.ordered` — checked operands keep a registry in order.
* `Registry.Ordered.resolved_writeOut` — everything below a registered type is registered.
* `Registry.Ordered.writeOut_eq` — a type is written out alike in every later registry.
* `Registry.operands_precede` — the three facts over all runs from a new registry.
-/

namespace TypeCodex.Registry

/-- Each registered type can be described, and its operands are registered before it. -/
def Ordered (r : Registry) : Prop :=
  ∀ id, r.contains id = true → ∃ d, r.describe id = .ok d ∧
    ∀ o ∈ d.operands, r.contains o = true ∧ o.index < id.index

variable {r r' : Registry} {ps new : List Packed} {id : TypeId}

/-- Checked operands keep a registry in order. -/
theorem Holds.ordered (H : r.Holds ps) (hcheck : r.options.checkOperands = true) :
    r.Ordered := by
  intro id hid
  obtain ⟨p, hp⟩ := H.exists_numbers_of_contains hid
  have ⟨i, hindex, hi⟩ := hp
  have hbounds := hp.bounds
  obtain ⟨d, hd, hrefers⟩ := H.encodes i p hi
  refine ⟨d, H.describe_of_encodes hp hd, ?_⟩
  intro o ho
  have horder := hrefers hcheck o ho
  exact ⟨H.contains_iff.2 ⟨horder.1, by omega⟩, by omega⟩

theorem Holds.describe_eq (H : r.Holds ps) (H' : r'.Holds (ps ++ new))
    (hid : r.contains id = true) : r'.describe id = r.describe id := by
  obtain ⟨p, hp⟩ := H.exists_numbers_of_contains hid
  obtain ⟨d, hd, hdescribe⟩ := H.describe hp
  rw [hdescribe, H'.describe_of_encodes (hp.append new) hd]

namespace Ordered

/-- Everything below a registered type is registered. -/
theorem resolved_writeOut (H : r.Ordered) (hid : r.contains id = true) (levels budget : Nat) :
    (r.writeOut levels id budget).1.Resolved := by
  induction levels generalizing id budget with
  | zero => exact .elided
  | succ levels ih =>
    cases budget with
    | zero => exact .elided
    | succ budget =>
      obtain ⟨d, hd, hoperands⟩ := H id hid
      rw [writeOut_of_describe hd]
      refine .node (Shape.forall_writeOut .elided ?_ budget)
      intro o ho budget
      exact ih (hoperands o ho).1 budget

/-- A type is written out alike in a registry that describes the types alike. -/
theorem writeOut_eq (H : r.Ordered)
    (hdescribe : ∀ id, r.contains id = true → r'.describe id = r.describe id)
    (hid : r.contains id = true) (levels budget : Nat) :
    r'.writeOut levels id budget = r.writeOut levels id budget := by
  induction levels generalizing id budget with
  | zero => rw [writeOut_zero, writeOut_zero]
  | succ levels ih =>
    cases budget with
    | zero => rw [writeOut_spent, writeOut_spent]
    | succ budget =>
      obtain ⟨d, hd, hoperands⟩ := H id hid
      have hshape : d.shape.writeOut (r'.writeOut levels) budget
          = d.shape.writeOut (r.writeOut levels) budget := by
        refine Shape.writeOut_congr ?_ budget
        intro o ho
        funext budget
        exact ih (hoperands o ho).1 budget
      have hd' := (hdescribe id hid).trans hd
      rw [writeOut_of_describe hd, writeOut_of_describe hd', hshape]

end Ordered

/-- In a registry that checks operands, the view of a type refers to smaller identifiers
only, the text of a type shows no unregistered one, and further requests leave the text as
it is, within any limits. -/
theorem operands_precede {options : Options} (hcheck : options.checkOperands = true)
    (before : List Request) {id : TypeId}
    (hid : ((make options).run before).contains id = true) :
    let r := (make options).run before
    (∃ v, r.view id = .ok v ∧ ∀ o ∈ v.operands, 1 ≤ o.index ∧ o.index < id.index) ∧
    (∀ limits : Limits, ¬ "<invalid".toList <:+: (r.text id limits).toList) ∧
    ∀ (after : List Request) (limits : Limits), (r.run after).text id limits = r.text id limits := by
  intro r
  obtain ⟨held, H⟩ := holds_run options before
  have hordered : r.Ordered := H.ordered (by rw [options_run, hcheck])
  refine ⟨?_, ?_, ?_⟩
  · obtain ⟨d, hd, hoperands⟩ := hordered id hid
    refine ⟨d.view, by rw [view_eq, hd]; rfl, ?_⟩
    intro o ho
    rw [Descriptor.operands_view] at ho
    have ho' := hoperands o ho
    exact ⟨TypeId.one_le_index.2 (H.contains_iff.1 ho'.1).1, ho'.2⟩
  · intro limits
    exact (hordered.resolved_writeOut hid _ _).not_infix_text
  · intro after limits
    obtain ⟨⟨new, H'⟩, -⟩ := H.run after
    rw [text, text, outline, outline,
      hordered.writeOut_eq (fun id hid => H.describe_eq H' hid) hid]

/-- A function over a map of a vector, each registered before it is used. -/
theorem operands_precede_function :
    let options : Options := { checkOperands := true }
    let vector : View := { tag := .vector, type1 := some ⟨5⟩ }
    let map : View := { tag := .map, isConst := true, type1 := some ⟨7⟩, type2 := some ⟨17⟩ }
    let function : View := { tag := .function, type1 := some ⟨18⟩, list := [⟨17⟩, ⟨1⟩, ⟨17⟩] }
    let r := (make options).run [.intern vector.pack, .intern function.pack, .intern map.pack,
      .intern function.pack]
    (options.checkOperands = true ∧ r.contains ⟨19⟩ = true) ∧
    (∃ v, r.view ⟨19⟩ = .ok v ∧
      ∀ o ∈ v.operands, 1 ≤ o.index ∧ o.index < (TypeId.mk 19).index) ∧
    (∀ limits : Limits, ¬ "<invalid".toList <:+: (r.text ⟨19⟩ limits).toList) ∧
    ∀ (after : List Request) (limits : Limits),
      (r.run after).text ⟨19⟩ limits = r.text ⟨19⟩ limits := by
  intro options vector map function r
  have hcheck : options.checkOperands = true := rfl
  have hid : r.contains ⟨19⟩ = true := by decide +kernel
  exact ⟨⟨hcheck, hid⟩, operands_precede hcheck [.intern vector.pack, .intern function.pack,
    .intern map.pack, .intern function.pack] hid⟩

end TypeCodex.Registry
