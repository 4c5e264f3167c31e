import Mathlib.Algebra.Order.BigOperators.Group.List
import TypeCodex.Proofs.Outline.Length
import TypeCodex.Proofs.Outline.Resolved
import TypeCodex.Proofs.Registry.Interning
import TypeCodex.Proofs.Registry.Stable

/-!
# How long texts get

The text of a type is bounded by the number of types that may be written and by the operands
that each of these has. A bound on the number of types alone is not enough: operands below
the last level are left out one by one and free of charge, so that the text of a type that
contains itself grows with the number of its operands.

## Main definitions

* `Registry.arity` — the number of operands of a type.
* `Registry.selfTuple` — a tuple of itself.

## Main statements

* `Registry.length_ids_writeOut` — a budget is spent on the types that are looked up.
* `Registry.text_bounded` — a bound by the operands of the types that are looked up.
* `Registry.le_length_text_selfTuple` — a tuple of itself is written at least so long.
-/

namespace TypeCodex.Registry

variable {r : Registry} {id : TypeId}

/-- The number of operands of a type, none if it is not registered. -/
def arity (r : Registry) (id : TypeId) : Nat :=
  ((r.describe id).toOption.map fun d => d.operands.length).getD 0

theorem arity_of_describe {d : Descriptor} (h : r.describe id = .ok d) :
    r.arity id = d.operands.length := by
  simp [arity, h, Except.toOption]

/-! ## A bound -/

/-- A budget is spent on the types that are looked up. -/
theorem length_ids_writeOut (r : Registry) (levels : Nat) (id : TypeId) (budget : Nat) :
    (r.writeOut levels id budget).1.ids.length + (r.writeOut levels id budget).2 = budget := by
  induction levels generalizing id budget with
  | zero => simp [Outline.ids]
  | succ levels ih =>
    cases budget with
    | zero => simp [Outline.ids]
    | succ budget =>
      cases hd : r.describe id with
      | error e => simp [writeOut_of_error hd, Outline.ids, Nat.add_comm]
      | ok d =>
        have h := Shape.length_ids_writeOut (fun id (_ : id ∈ d.shape.operands) => ih id) budget
        simp only [writeOut_of_describe hd, Outline.ids, List.length_cons]
        omega

theorem sum_map_add_three_le {os : List Outline} {f : Outline → Nat}
    (h : ∀ o ∈ os, o.text.length ≤ 3 + f o) :
    (os.map fun o => 3 + o.text.length).sum ≤ 6 * os.length + (os.map f).sum := by
  induction os with
  | nil => simp
  | cons o os ih =>
    have ho := h o (by simp)
    have hos := ih fun o ho => h o (by simp [ho])
    simp only [List.map_cons, List.sum_cons, List.length_cons]
    omega

/-- Each type that is looked up adds at most eighteen characters, and at most six for each of
its operands: a separator, and the mark that stands for an operand that is left out. -/
theorem length_text_writeOut_le (r : Registry) (levels : Nat) (id : TypeId) (budget : Nat) :
    (r.writeOut levels id budget).1.text.length
      ≤ 3 + ((r.writeOut levels id budget).1.ids.map fun i => 18 + 6 * r.arity i).sum := by
  -- A mark has three characters and no identifier that could pay for them.
  have helided : Outline.elided.text.length
      ≤ 3 + (Outline.elided.ids.map fun i => 18 + 6 * r.arity i).sum := Nat.le_add_right 3 _
  induction levels generalizing id budget with
  | zero => exact helided
  | succ levels ih =>
    cases budget with
    | zero => exact helided
    | succ budget =>
      cases hd : r.describe id with
      | error e =>
        have hid := length_toString_le id.raw
        simp only [writeOut_of_error hd, Outline.text, Outline.ids, TypeId.text,
          String.length_append, List.map_cons, List.map_nil, List.sum_cons, List.sum_nil]
        change 9 + (1 + (toString id.raw.toNat).length) + 1 ≤ _
        omega
      | ok d =>
        have hshape := Shape.length_text_le (d.shape.writeOut (r.writeOut levels) budget).1
        have hoperands : ∀ o ∈ (d.shape.writeOut (r.writeOut levels) budget).1.operands,
            o.text.length ≤ 3 + (o.ids.map fun i => 18 + 6 * r.arity i).sum :=
          Shape.forall_writeOut helided (fun id _ budget => ih id budget) budget
        have hsum := sum_map_add_three_le hoperands
        have hcount := Shape.length_operands_writeOut_le (r.writeOut levels) d.shape budget
        have harity : r.arity id = d.shape.operands.length := arity_of_describe hd
        have hconst : (if d.isConst then "const " else "").length ≤ 6 := by
          cases d.isConst <;> decide
        simp only [writeOut_of_describe hd, Outline.text, Outline.ids, String.length_append,
          List.map_cons, List.sum_cons, Shape.sum_ids, harity]
        omega

/-- A sum of shares is at most the number of terms times the largest share. -/
theorem sum_share_le {ids : List TypeId} {f : TypeId → Nat} {width : Nat}
    (h : ∀ i ∈ ids, f i ≤ width) :
    (ids.map fun i => 18 + 6 * f i).sum ≤ ids.length * (18 + 6 * width) := by
  have hle : ∀ n ∈ ids.map fun i => 18 + 6 * f i, n ≤ 18 + 6 * width := by
    intro n hn
    obtain ⟨i, hi, rfl⟩ := List.mem_map.1 hn
    have hwidth := h i hi
    omega
  simpa using List.sum_le_card_nsmul _ _ hle

/-- At most as many types are looked up as the limit allows. The text of a type is bounded by
the number of operands of those, and so it is short if none of them has many. -/
theorem text_bounded (r : Registry) (id : TypeId) (limits : Limits) :
    let ids := (r.outline id limits).ids
    ids.length ≤ limits.nodes ∧
    (r.text id limits).length ≤ 3 + (ids.map fun i => 18 + 6 * r.arity i).sum ∧
    ∀ width, (∀ i ∈ ids, r.arity i ≤ width) →
      (r.text id limits).length ≤ 3 + limits.nodes * (18 + 6 * width) := by
  intro ids
  have hcount : ids.length ≤ limits.nodes := by
    have h := r.length_ids_writeOut (limits.depth + 1) id limits.nodes
    change (r.writeOut (limits.depth + 1) id limits.nodes).1.ids.length ≤ limits.nodes
    omega
  have hlength := r.length_text_writeOut_le (limits.depth + 1) id limits.nodes
  refine ⟨hcount, hlength, ?_⟩
  intro width hwidth
  calc
    (r.text id limits).length ≤ 3 + (ids.map fun i => 18 + 6 * r.arity i).sum := hlength
    _ ≤ 3 + ids.length * (18 + 6 * width) := Nat.add_le_add_left (sum_share_le hwidth) 3
    _ ≤ 3 + limits.nodes * (18 + 6 * width) :=
      Nat.add_le_add_left (Nat.mul_le_mul_right _ hcount) 3

/-- A map with an unregistered value: no type that is looked up has more than two operands. -/
theorem text_bounded_map :
    let map : View := { tag := .map, type1 := some ⟨7⟩, type2 := some ⟨300⟩ }
    let r := (make {}).run [.intern map.pack]
    let ids := (r.outline ⟨17⟩).ids
    (∀ i ∈ ids, r.arity i ≤ 2) ∧
    ids.length ≤ 256 ∧
    (r.text ⟨17⟩).length ≤ 3 + (ids.map fun i => 18 + 6 * r.arity i).sum ∧
    (r.text ⟨17⟩).length ≤ 3 + 256 * (18 + 6 * 2) := by
  intro map r ids
  have harity : ∀ i ∈ ids, r.arity i ≤ 2 := by decide +kernel
  have H := text_bounded r ⟨17⟩ {}
  exact ⟨harity, H.1, H.2.1, H.2.2 2 harity⟩

/-! ## A tuple of itself -/

section

variable {isConst : Bool} {width : Nat}
  (h : r.describe id = .ok ⟨isConst, .tuple (List.replicate width id)⟩)
include h

/-- A type on the last level is written with a mark for each of its operands, and none of the
marks costs anything. -/
theorem le_length_text_last_level (budget : Nat) :
    (r.writeOut 1 id (budget + 1 + 1)).2 = budget + 1 ∧
      3 * width ≤ (r.writeOut 1 id (budget + 1 + 1)).1.text.length := by
  have hlist : Outline.writeList (r.writeOut 0) (List.replicate width id) (budget + 1)
      = (List.replicate width .elided, budget + 1) := by
    rw [Outline.writeList_elided fun id budget => r.writeOut_zero id budget, List.length_replicate]
  have hjoined := Outline.le_length_joined ", " (List.replicate width .elided)
  have hmark : Outline.elided.text.length = 3 := rfl
  simp only [List.map_replicate, hmark, List.sum_replicate_nat] at hjoined
  rw [writeOut_of_describe h]
  simp only [Shape.writeOut_tuple, hlist, Outline.text, Shape.text, String.length_append]
  exact ⟨trivial, by omega⟩

/-- A list of such types has their marks as long as the budget lasts. -/
theorem le_sum_length_last_level (n budget : Nat) :
    3 * width * min n (budget - 1) ≤ ((Outline.writeList (r.writeOut 1) (List.replicate n id)
      budget).1.map fun o => o.text.length).sum := by
  induction n generalizing budget with
  | zero => simp
  | succ n ih =>
    rcases budget with _ | _ | budget
    · simp
    · simp
    · have hfirst := le_length_text_last_level h budget
      have hrest := ih (budget + 1)
      have hmin : min (n + 1) (budget + 1 + 1 - 1) = min n (budget + 1 - 1) + 1 := by omega
      rw [List.replicate_succ, Outline.writeList_cons, hfirst.1, hmin, Nat.mul_add_one]
      simp only [List.map_cons, List.sum_cons]
      omega

/-- On the levels above, the first operand is written first, and on the level above the last
one as many operands as the budget allows. -/
theorem le_length_text_writeOut (levels budget : Nat) :
    3 * width * min width (budget - levels - 2)
      ≤ (r.writeOut (levels + 2) id budget).1.text.length := by
  -- Below the first level only the first operand is followed; it keeps enough of the budget.
  induction levels generalizing budget with
  | zero =>
    cases budget with
    | zero => simp
    | succ budget =>
      have hsum := le_sum_length_last_level h width budget
      have hjoined := Outline.le_length_joined ", "
        (Outline.writeList (r.writeOut 1) (List.replicate width id) budget).1
      have hsub : budget + 1 - 0 - 2 = budget - 1 := by omega
      rw [writeOut_of_describe h, hsub]
      simp only [Shape.writeOut_tuple, Outline.text, Shape.text, String.length_append]
      omega
  | succ levels ih =>
    rcases budget with _ | _ | budget
    · simp
    · have hsub : 0 + 1 - (levels + 1) - 2 = 0 := by omega
      rw [hsub, Nat.min_zero, Nat.mul_zero]
      exact Nat.zero_le _
    · cases width with
      | zero => simp
      | succ width =>
        have hfirst := ih (budget + 1)
        have hsub : budget + 1 + 1 - (levels + 1) - 2 = budget + 1 - levels - 2 := by omega
        rw [writeOut_of_describe h, hsub]
        simp only [Shape.writeOut_tuple, List.replicate_succ, Outline.writeList_cons,
          Outline.text, Shape.text, Outline.joined, String.length_append]
        omega

end

/-- A tuple in which every field has the first identifier behind the basic types. -/
def selfTuple (width : Nat) : View := { tag := .tuple, list := List.replicate width ⟨17⟩ }

/-- Such a tuple is made of itself when it is the first type behind the basic ones. -/
theorem describe_selfTuple {width : Nat} (h : width < 2 ^ 32) :
    ((make {}).run [.intern (selfTuple width).pack]).describe ⟨17⟩
      = .ok (selfTuple width).descriptor := by
  have hlist : (selfTuple width).list.length < 2 ^ 32 := by
    rw [selfTuple, List.length_replicate]
    exact h
  have hroom : (make {}).HasRoom := ⟨by decide +kernel, by decide +kernel⟩
  have hnew : (selfTuple width).pack ∉ basicEncodings := by
    apply not_mem_basicEncodings
    intro b hb
    cases hb
  have henc : (selfTuple width).pack.Encodes (selfTuple width).descriptor :=
    Packed.encodes_pack (View.countable_shape hlist)
  have H := holds_make {}
  obtain ⟨id, hid⟩ := H.exists_intern_pack hroom rfl hlist
  obtain ⟨hindex, H'⟩ := H.intern_new hnew hid
  have hself : id = ⟨17⟩ := TypeId.index_injective hindex
  rw [← hself]
  exact H'.describe_of_encodes (numbers_concat.2 (.inr ⟨hindex, rfl⟩)) henc

/-- The text of a tuple of itself grows with the number of its fields: each of the tuples that
the budget leaves for the last level is written with a mark for every field. -/
theorem le_length_text_selfTuple {width : Nat} (h : width < 2 ^ 32) :
    3 * width * min width 191
      ≤ (((make {}).run [.intern (selfTuple width).pack]).text ⟨17⟩).length :=
  le_length_text_writeOut (describe_selfTuple h) 63 256

/-- A tuple of itself with 74 fields takes more than 64 characters for each of 256 types. -/
theorem length_text_selfTuple_gt :
    64 * 256 < (((make {}).run [.intern (selfTuple 74).pack]).text ⟨17⟩).length := by
  have h : 3 * 74 * min 74 191
      ≤ (((make {}).run [.intern (selfTuple 74).pack]).text ⟨17⟩).length :=
    le_length_text_selfTuple (by decide)
  omega

end TypeCodex.Registry
