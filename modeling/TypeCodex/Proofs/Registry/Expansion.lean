import TypeCodex.Proofs.Outline.Unambiguous
import TypeCodex.Proofs.Outline.Whole
import TypeCodex.Proofs.Registry.Stable

/-!
# Texts name types

A type is expanded when every operand below it is replaced by its view, down to types without
operands and to identifiers under which nothing is registered. An expansion that keeps within
the limits is what the type is written out as, and since equal types are registered once, its
text belongs to one type only.

## Main definitions

* `Registry.ExpandsTo` — the expansion of a type.
* `Registry.FitsIn` — the expansion of a type keeps within limits.

## Main statements

* `Registry.Holds.describe_injective` — no two identifiers have one description.
* `Registry.ExpandsTo.writeOut_eq` — an expansion within the limits is written to its end.
* `Registry.ExpandsTo.apart` — the text of an expansion tells its type.
* `Registry.text_eq_iff` — texts and types over all runs from a new registry.
-/

namespace TypeCodex.Registry

/-- The expansion of a type. Below a registered type stand the expansions of the operands in
its view, and an identifier that is not registered is a leaf. -/
inductive ExpandsTo (r : Registry) : TypeId → Outline → Prop where
  | unknown {id : TypeId} (h : r.contains id = false) : ExpandsTo r id (.unknown id)
  | node {id : TypeId} {isConst : Bool} {shape : Shape Outline}
      (hview : r.view id = .ok (Descriptor.view ⟨isConst, shape.mapOperands Outline.root⟩))
      (h : ∀ o ∈ shape.operands, ExpandsTo r o.root o) : ExpandsTo r id (.node id isConst shape)

/-- The expansion of a type is finite and keeps within limits. -/
def FitsIn (r : Registry) (id : TypeId) (limits : Limits) : Prop :=
  ∃ o, r.ExpandsTo id o ∧ o.ids.length ≤ limits.nodes ∧ o.height ≤ limits.depth

variable {r : Registry} {ps : List Packed} {a b id : TypeId} {o o' : Outline} {d : Descriptor}

theorem describe_of_view (h : r.view id = .ok d.view) : r.describe id = .ok d := by
  rw [view_eq] at h
  cases hd : r.describe id with
  | error e =>
    rw [hd] at h
    cases h
  | ok d' =>
    rw [hd] at h
    rw [Descriptor.view_injective (Except.ok.inj h)]

/-- A description is written as the encoding that the identifier numbers. -/
theorem Holds.numbers_of_describe (H : r.Holds ps) (h : r.describe id = .ok d) :
    Numbers ps id d.pack := by
  cases hcontains : r.contains id with
  | false =>
    rw [describe_of_not_contains hcontains] at h
    cases h
  | true =>
    obtain ⟨p, hp⟩ := H.exists_numbers_of_contains hcontains
    obtain ⟨e, he, hdescribe⟩ := H.describe hp
    rw [hdescribe] at h
    rwa [← Except.ok.inj h, he.pack]

/-- No two identifiers have one description. -/
theorem Holds.describe_injective (H : r.Holds ps) (ha : r.describe a = .ok d)
    (hb : r.describe b = .ok d) : a = b := by
  rw [← H.find (H.numbers_of_describe ha), H.find (H.numbers_of_describe hb)]

namespace ExpandsTo

theorem root (h : r.ExpandsTo id o) : o.root = id := by
  cases h <;> rfl

theorem length_ids_pos (h : r.ExpandsTo id o) : 0 < o.ids.length := by
  cases h <;> simp [Outline.ids]

/-- An expansion within the limits is written to its end. -/
theorem writeOut_eq (h : r.ExpandsTo id o) {levels budget : Nat} (hheight : o.height < levels)
    (hids : o.ids.length ≤ budget) :
    r.writeOut levels id budget = (o, budget - o.ids.length) := by
  induction h generalizing levels budget with
  | unknown h =>
    cases levels with
    | zero => cases hheight
    | succ levels =>
      cases budget with
      | zero => cases hids
      | succ budget =>
        exact writeOut_of_error (describe_of_not_contains h) levels budget
  | @node id isConst shape hview h ih =>
    rw [Outline.height] at hheight
    rw [Outline.ids, List.length_cons] at hids
    cases levels with
    | zero => cases hheight
    | succ levels =>
      cases budget with
      | zero => cases hids
      | succ budget =>
        have hoperands := Shape.height_le_iff.1 (Nat.le_of_lt_succ hheight)
        have hwritten : ∀ o ∈ shape.operands, o.WrittenBy (r.writeOut levels) :=
          fun o ho => ⟨(h o ho).length_ids_pos, fun budget => ih o ho (hoperands o ho)⟩
        rw [writeOut_of_describe (describe_of_view hview)]
        simp only [Shape.writeOut_mapOperands hwritten (Nat.le_of_succ_le_succ hids), Outline.ids,
          List.length_cons, Nat.add_sub_add_right]

theorem text_eq (h : r.ExpandsTo id o) {limits : Limits} (hids : o.ids.length ≤ limits.nodes)
    (hheight : o.height ≤ limits.depth) : r.text id limits = o.text := by
  rw [text, outline, h.writeOut_eq (Nat.lt_succ_of_le hheight) hids]

/-- The text of an expansion tells its type, and shows where it ends. -/
theorem apart (H : r.Holds ps) (h : r.ExpandsTo a o) (h' : r.ExpandsTo b o') : o.Apart o' := by
  induction h generalizing b o' with
  | unknown h =>
    intro t t' heq
    cases h' with
    | unknown h' =>
      obtain ⟨rfl, ht⟩ := Outline.unknown_inj heq
      exact ⟨rfl, ht⟩
    | @node _ isConst => cases isConst <;> cases Outline.head_eq heq
  | @node _ isConst _ hview h ih =>
    intro t t' heq
    cases h' with
    | unknown h' => cases isConst <;> cases Outline.head_eq heq
    | node hview' h' =>
      obtain ⟨rfl, rfl, ht⟩ := Outline.node_inj (fun o ho o' ho' => ih o ho (h' o' ho')) heq
      obtain rfl := H.describe_injective (describe_of_view hview) (describe_of_view hview')
      exact ⟨rfl, ht⟩

end ExpandsTo

/-- In every run from a new registry, two identifiers whose expansions are finite and within
the limits have the same text only if they are the same, registered or not. -/
theorem text_eq_iff (options : Options) (qs : List Request) (limits : Limits) {a b : TypeId}
    (ha : ((make options).run qs).FitsIn a limits) (hb : ((make options).run qs).FitsIn b limits) :
    ((make options).run qs).text a limits = ((make options).run qs).text b limits ↔ a = b := by
  obtain ⟨held, H⟩ := holds_run options qs
  obtain ⟨o, ho, hids, hheight⟩ := ha
  obtain ⟨o', ho', hids', hheight'⟩ := hb
  constructor
  · intro htext
    rw [ho.text_eq hids hheight, ho'.text_eq hids' hheight'] at htext
    obtain ⟨rfl, -⟩ := ho.apart H ho' [] [] (by rw [htext])
    rw [← ho.root, ho'.root]
  · rintro rfl
    rfl

/-- A pair of a function and a byte, and a tuple of the function alone. One parameter of the
function is not registered. -/
theorem text_eq_iff_tuples :
    let function : View := { tag := .function, type1 := some ⟨9⟩, list := [⟨3⟩, ⟨40⟩] }
    let pair : View := { tag := .tuple, list := [⟨17⟩, ⟨5⟩] }
    let single : View := { tag := .tuple, list := [⟨17⟩] }
    let r := (make {}).run [.intern function.pack, .intern pair.pack, .intern single.pack]
    r.FitsIn ⟨18⟩ {} ∧ r.FitsIn ⟨19⟩ {} ∧ r.text ⟨18⟩ ≠ r.text ⟨19⟩ := by
  intro function pair single r
  let bool : Outline := .node ⟨3⟩ false (.basic .bool)
  let byte : Outline := .node ⟨5⟩ false (.basic .byte)
  let int : Outline := .node ⟨9⟩ false (.basic .int)
  let called : Outline := .node ⟨17⟩ false (.function int [bool, .unknown ⟨40⟩])
  have hunknown : r.ExpandsTo ⟨40⟩ (.unknown ⟨40⟩) := .unknown (by decide +kernel)
  have hbool : r.ExpandsTo ⟨3⟩ bool := .node (by decide +kernel) (by simp [Shape.operands])
  have hbyte : r.ExpandsTo ⟨5⟩ byte := .node (by decide +kernel) (by simp [Shape.operands])
  have hint : r.ExpandsTo ⟨9⟩ int := .node (by decide +kernel) (by simp [Shape.operands])
  have hcalled : r.ExpandsTo ⟨17⟩ called := by
    refine .node (by decide +kernel) ?_
    simpa [Shape.operands] using ⟨hint, hbool, hunknown⟩
  have hpair : r.ExpandsTo ⟨18⟩ (.node ⟨18⟩ false (.tuple [called, byte])) := by
    refine .node (by decide +kernel) ?_
    simpa [Shape.operands] using ⟨hcalled, hbyte⟩
  have hsingle : r.ExpandsTo ⟨19⟩ (.node ⟨19⟩ false (.tuple [called])) := by
    refine .node (by decide +kernel) ?_
    intro o ho
    rwa [List.mem_singleton.1 ho]
  have hfits : r.FitsIn ⟨18⟩ {} := ⟨_, hpair, by decide, by decide⟩
  have hfits' : r.FitsIn ⟨19⟩ {} := ⟨_, hsingle, by decide, by decide⟩
  refine ⟨hfits, hfits', ?_⟩
  rw [Ne, text_eq_iff {} [.intern function.pack, .intern pair.pack, .intern single.pack] {}
    hfits hfits']
  decide

end TypeCodex.Registry
