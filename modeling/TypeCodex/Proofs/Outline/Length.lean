import Mathlib.Algebra.GroupWithZero.Nat
import TypeCodex.Registry.Outline

/-!
# How long outlines are

The text of a shape is longer than the texts of its operands by a few characters for the
shape and a few for each operand. A budget counts the identifiers that are looked up, so that
a type that is left out is free.

## Main statements

* `Shape.length_text_le` — the text of a shape against the texts of its operands.
* `Shape.sum_ids` — what is summed over the identifiers is summed operand by operand.
* `Shape.length_operands_writeOut_le` — writing out makes no operands.
* `Shape.length_ids_writeOut` — a budget is spent on identifiers only.
-/

namespace TypeCodex

/-! ## Texts -/

theorem Basic.length_name_le (b : Basic) : b.name.length ≤ 6 := by
  cases b <;> decide

/-- A word has at most ten decimal digits. -/
theorem length_toString_le (n : UInt32) : (toString n.toNat).length ≤ 10 := by
  have hlt := n.toNat_lt
  rw [Nat.toString_eq_ofList_toDigits, String.length_ofList,
    Nat.length_toDigits_le_iff (by decide) (by decide)]
  omega

namespace Outline

theorem length_following (separator : String) (os : List Outline) :
    (following separator os).length
      = (os.map fun o => separator.length + o.text.length).sum := by
  induction os with
  | nil => rfl
  | cons o os ih => simp [following, ih]

/-- Separators stand between the texts only. -/
theorem length_joined_le (separator : String) (os : List Outline) :
    (joined separator os).length
      ≤ (os.map fun o => separator.length + o.text.length).sum := by
  cases os with
  | nil => simp [joined]
  | cons o os =>
    simp only [joined, String.length_append, length_following, List.map_cons, List.sum_cons]
    omega

theorem le_length_joined (separator : String) (os : List Outline) :
    (os.map fun o => o.text.length).sum ≤ (joined separator os).length := by
  cases os with
  | nil => simp
  | cons o os =>
    have hle : (os.map fun o => o.text.length).sum ≤ (following separator os).length := by
      induction os with
      | nil => simp
      | cons o os ih =>
        simp only [following, String.length_append, List.map_cons, List.sum_cons]
        omega
    simp only [joined, String.length_append, List.map_cons, List.sum_cons]
    omega

theorem length_joined_le_add_three (separator : String) (h : separator.length ≤ 3)
    (os : List Outline) :
    (joined separator os).length ≤ (os.map fun o => 3 + o.text.length).sum := by
  refine Nat.le_trans (length_joined_le separator os) ?_
  induction os with
  | nil => simp
  | cons o os ih =>
    simp only [List.map_cons, List.sum_cons]
    omega

end Outline

/-- A shape adds at most eleven characters, and at most three for each operand. -/
theorem Shape.length_text_le (s : Shape Outline) :
    s.text.length ≤ 11 + (s.operands.map fun o => 3 + o.text.length).sum := by
  have hcomma := Outline.length_joined_le_add_three ", " (by decide)
  have hbar := Outline.length_joined_le_add_three " | " (by decide)
  cases s with
  | basic b =>
    have hname := b.length_name_le
    simp only [Shape.text]
    omega
  | variant members =>
    have h := hbar members
    simp [Shape.text, operands, ← String.length_toList] at h ⊢
    omega
  | array size elem =>
    have h := length_toString_le size
    simp [Shape.text, operands, ← String.length_toList] at h ⊢
    omega
  | vector | map =>
    simp [Shape.text, operands, ← String.length_toList]
    omega
  | tuple fields | package fields =>
    have h := hcomma fields
    simp [Shape.text, operands, ← String.length_toList] at h ⊢
    omega
  | function ret params =>
    have h := hcomma params
    simp [Shape.text, operands, ← String.length_toList] at h ⊢
    omega

/-! ## Identifiers -/

theorem Outline.sum_idsAll (f : TypeId → Nat) (os : List Outline) :
    ((idsAll os).map f).sum = (os.map fun o => (o.ids.map f).sum).sum := by
  induction os with
  | nil => rfl
  | cons o os ih => simp [idsAll, ih]

/-- A sum over the identifiers below a shape, operand by operand. -/
theorem Shape.sum_ids (f : TypeId → Nat) (s : Shape Outline) :
    (s.ids.map f).sum = (s.operands.map fun o => (o.ids.map f).sum).sum := by
  cases s with
  | basic b => rfl
  | array | vector => simp [ids, operands]
  | map key value => simp [ids, operands]
  | variant | tuple | package => simp [ids, operands, Outline.sum_idsAll]
  | function ret params =>
    simp [ids, operands, Outline.sum_idsAll]
    omega

/-! ## Budgets -/

section

variable {write : TypeId → Nat → Outline × Nat} {ids : List TypeId}

/-- A list whose operands are all left out costs nothing, however long it is. -/
theorem Outline.writeList_elided (h : ∀ id budget, write id budget = (.elided, budget))
    (ids : List TypeId) (budget : Nat) :
    writeList write ids (budget + 1) = (List.replicate ids.length .elided, budget + 1) := by
  induction ids with
  | nil => rfl
  | cons id ids ih => simp [writeList_cons, h, ih, List.replicate_succ]

theorem Outline.length_writeList_le (ids : List TypeId) (budget : Nat) :
    (writeList write ids budget).1.length ≤ ids.length := by
  induction ids generalizing budget with
  | nil => simp
  | cons id ids ih =>
    cases budget with
    | zero => simp
    | succ budget =>
      have h := ih (write id (budget + 1)).2
      simp only [writeList_cons, List.length_cons]
      omega

/-- A list that is cut short has fewer operands, and no shape has more than before. -/
theorem Shape.length_operands_writeOut_le (write : TypeId → Nat → Outline × Nat)
    (s : Shape TypeId) (budget : Nat) :
    (s.writeOut write budget).1.operands.length ≤ s.operands.length := by
  cases s with
  | basic | array | vector | map => simp [operands]
  | variant ids | tuple ids | package ids =>
    simpa [operands] using Outline.length_writeList_le ids budget
  | function ret params =>
    simpa [operands] using Outline.length_writeList_le params budget

theorem Outline.length_ids_writeList
    (h : ∀ id ∈ ids, ∀ budget, (write id budget).1.ids.length + (write id budget).2 = budget)
    (budget : Nat) :
    (idsAll (writeList write ids budget).1).length + (writeList write ids budget).2 = budget := by
  induction ids generalizing budget with
  | nil => simp [idsAll]
  | cons id ids ih =>
    cases budget with
    | zero => simp [idsAll, Outline.ids]
    | succ budget =>
      have hid := h id (by simp) (budget + 1)
      have hids := ih (fun id hid => h id (by simp [hid])) (write id (budget + 1)).2
      simp only [writeList_cons, idsAll, List.length_append]
      omega

/-- A budget that is spent on the identifiers of each operand is spent on those of a shape. -/
theorem Shape.length_ids_writeOut {s : Shape TypeId}
    (h : ∀ id ∈ s.operands, ∀ budget,
      (write id budget).1.ids.length + (write id budget).2 = budget) (budget : Nat) :
    (s.writeOut write budget).1.ids.length + (s.writeOut write budget).2 = budget := by
  cases s with
  | basic b => simp [Shape.ids]
  | variant | tuple | package =>
    exact Outline.length_ids_writeList h budget
  | array size elem => exact h elem (by simp [operands]) budget
  | vector elem => exact h elem (by simp [operands]) budget
  | map key value =>
    have hkey := h key (by simp [operands]) budget
    have hvalue := h value (by simp [operands]) (write key budget).2
    simp only [writeOut_map, Shape.ids, List.length_append]
    omega
  | function ret params =>
    have hparams := Outline.length_ids_writeList
      (fun id (hid : id ∈ params) => h id (by simp [operands, hid])) budget
    have hret := h ret (by simp [operands]) (Outline.writeList write params budget).2
    simp only [writeOut_function, Shape.ids, List.length_append]
    omega

end

end TypeCodex
