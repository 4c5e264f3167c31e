import TypeCodex.Proofs.Outline.Elision
import TypeCodex.Proofs.Registry.Expansion

/-!
# Texts within limits

The text of a type says what the type is made of, up to the first place where something is left
out. An expansion within the limits is written to its end, and nothing is left out of it. Larger
limits only ever change a text from its first mark on.

## Main statements

* `Registry.continues_writeOut` — more levels and more budget continue what is written.
* `Registry.outline_cases` — larger limits give the same outline, or the text is cut off.
* `Registry.text_faithful` — texts of all types within all limits.
-/

namespace TypeCodex.Registry

variable {r : Registry} {id : TypeId} {o : Outline} {limits limits' : Limits}

open Outline (Continues CutOff beforeMark)

/-- More levels and more budget continue what is written. -/
theorem continues_writeOut (r : Registry) (levels extra gap : Nat) (id : TypeId) (budget : Nat) :
    Continues Outline.text gap (r.writeOut levels id budget)
      (r.writeOut (levels + extra) id (budget + gap)) := by
  induction levels generalizing id budget with
  | zero => exact .cut _ _ (Outline.cutOff_elided _)
  | succ levels ih =>
    cases budget with
    | zero => exact .cut _ _ (Outline.cutOff_elided _)
    | succ budget =>
      rw [Nat.add_right_comm levels, Nat.add_right_comm budget]
      cases hd : r.describe id with
      | error e =>
        rw [writeOut_of_error hd, writeOut_of_error hd]
        exact .whole _ budget (Outline.Complete.unknown id).point_not_mem_text
      | ok d =>
        have hshape := Shape.continues_writeOut (fun id (_ : id ∈ d.shape.operands) => ih id) budget
        have hconst : '.' ∉ (if d.isConst then "const " else "").toList := by
          cases d.isConst <;> decide
        rw [writeOut_of_describe hd, writeOut_of_describe hd]
        refine hshape.enclose (Outline.node id d.isConst)
          (if d.isConst then "const " else "").toList [] ?_ hconst List.not_mem_nil
        intro shape
        rw [Outline.text, String.toList_append, List.append_nil]

/-- Larger limits give the same outline of a type, or its text is cut off. -/
theorem outline_cases (r : Registry) (id : TypeId) (hdepth : limits.depth ≤ limits'.depth)
    (hnodes : limits.nodes ≤ limits'.nodes) :
    ('.' ∉ (r.text id limits).toList ∧ r.outline id limits' = r.outline id limits) ∨
      CutOff (r.text id limits).toList (r.text id limits').toList := by
  have H := r.continues_writeOut (limits.depth + 1) (limits'.depth - limits.depth)
    (limits'.nodes - limits.nodes) id limits.nodes
  have hlevels : limits.depth + 1 + (limits'.depth - limits.depth) = limits'.depth + 1 := by omega
  rw [hlevels, Nat.add_sub_cancel' hnodes] at H
  rw [text, text, outline, outline]
  generalize r.writeOut (limits.depth + 1) id limits.nodes = p at H ⊢
  generalize r.writeOut (limits'.depth + 1) id limits'.nodes = p' at H ⊢
  cases H with
  | whole o budget h => exact .inl ⟨h, rfl⟩
  | cut p p' h => exact .inr h

/-- Up to its first mark, a text is the beginning of every text within larger limits. -/
theorem beforeMark_text_prefix (r : Registry) (id : TypeId) (hdepth : limits.depth ≤ limits'.depth)
    (hnodes : limits.nodes ≤ limits'.nodes) :
    beforeMark (r.text id limits).toList <+: (r.text id limits').toList := by
  rcases r.outline_cases id hdepth hnodes with ⟨hpoint, heq⟩ | h
  · have htext : r.text id limits' = r.text id limits := congrArg Outline.text heq
    have hwhole := Outline.beforeMark_of_not_mem hpoint
    exact ⟨[], by rw [List.append_nil, hwhole, htext]⟩
  · exact h.beforeMark_prefix

/-- Nothing is left out of an expansion. -/
theorem ExpandsTo.complete (h : r.ExpandsTo id o) : o.Complete := by
  induction h with
  | unknown h => exact .unknown _
  | node hview h ih => exact .node ih

/-- An expansion within the limits is the text, without a mark. Any text is, up to its first
mark, the beginning of the texts within larger limits. -/
theorem text_faithful (r : Registry) (id : TypeId) (limits : Limits) :
    (∀ o, r.ExpandsTo id o → o.ids.length ≤ limits.nodes → o.height ≤ limits.depth →
      r.text id limits = o.text ∧ ¬ "...".toList <:+: (r.text id limits).toList) ∧
    ∀ limits' : Limits, limits.depth ≤ limits'.depth → limits.nodes ≤ limits'.nodes →
      beforeMark (r.text id limits).toList <+: (r.text id limits').toList := by
  constructor
  · intro o h hids hheight
    have htext := h.text_eq hids hheight
    rw [htext]
    exact ⟨rfl, h.complete.not_infix_text⟩
  · intro limits' hdepth hnodes
    exact r.beforeMark_text_prefix id hdepth hnodes

/-- A map from an unregistered type to a vector, complete with three levels, and cut off behind
the word for the vector with two. -/
theorem text_faithful_map :
    let vector : View := { tag := .vector, type1 := some ⟨9⟩ }
    let map : View := { tag := .map, isConst := true, type1 := some ⟨40⟩, type2 := some ⟨17⟩ }
    let r := (make {}).run [.intern vector.pack, .intern map.pack]
    let two : Limits := { depth := 1 }
    (∃ o, (r.ExpandsTo ⟨18⟩ o ∧ o.ids.length ≤ 256 ∧ o.height ≤ 64) ∧
      r.text ⟨18⟩ = o.text ∧ ¬ "...".toList <:+: (r.text ⟨18⟩).toList) ∧
    (two.depth ≤ 64 ∧ two.nodes ≤ 256) ∧
    beforeMark (r.text ⟨18⟩ two).toList = "const map<<invalid #40>, vector<".toList ∧
    beforeMark (r.text ⟨18⟩ two).toList <+: (r.text ⟨18⟩).toList := by
  intro vector map r two
  let int : Outline := .node ⟨9⟩ false (.basic .int)
  let ints : Outline := .node ⟨17⟩ false (.vector int)
  have hint : r.ExpandsTo ⟨9⟩ int := .node (by decide +kernel) (by simp [Shape.operands])
  have hunknown : r.ExpandsTo ⟨40⟩ (.unknown ⟨40⟩) := .unknown (by decide +kernel)
  have hints : r.ExpandsTo ⟨17⟩ ints := by
    refine .node (by decide +kernel) ?_
    intro o ho
    rwa [List.mem_singleton.1 ho]
  have hmap : r.ExpandsTo ⟨18⟩ (.node ⟨18⟩ true (.map (.unknown ⟨40⟩) ints)) := by
    refine .node (by decide +kernel) ?_
    simpa [Shape.operands] using ⟨hunknown, hints⟩
  have hfits : (Outline.node ⟨18⟩ true (.map (.unknown ⟨40⟩) ints)).ids.length ≤ 256 := by decide
  have hheight : (Outline.node ⟨18⟩ true (.map (.unknown ⟨40⟩) ints)).height ≤ 64 := by decide
  have htwo : two.depth ≤ 64 ∧ two.nodes ≤ 256 := by decide
  refine ⟨⟨_, ⟨hmap, hfits, hheight⟩, ?_⟩, htwo, by decide +kernel, ?_⟩
  · exact (text_faithful r ⟨18⟩ {}).1 _ hmap hfits hheight
  · exact (text_faithful r ⟨18⟩ two).2 {} htwo.1 htwo.2

end TypeCodex.Registry
