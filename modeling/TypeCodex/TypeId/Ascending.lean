import TypeCodex.TypeId

/-!
# Ascending identifiers

A finite set of identifiers has one list that names each member once, in strictly
ascending order.

## Main definitions

* `TypeId.ascending` — the members of a list in that order.

## Main statements

* `TypeId.pairwise_ascending`, `TypeId.mem_ascending` — the list is in order and
  keeps exactly the members.
* `TypeId.ascending_of_pairwise` — a list in order is left alone.
-/

namespace TypeCodex

namespace TypeId

/-- Puts an identifier into an ascending list, unless it is there already. -/
def insertAscending (id : TypeId) : List TypeId → List TypeId
  | [] => [id]
  | a :: as =>
    if id < a then id :: a :: as
    else if id = a then a :: as
    else a :: insertAscending id as

/-- The members of a list in strictly ascending order. -/
def ascending : List TypeId → List TypeId
  | [] => []
  | a :: as => insertAscending a (ascending as)

theorem mem_insertAscending {x id : TypeId} {as : List TypeId} :
    x ∈ insertAscending id as ↔ x = id ∨ x ∈ as := by
  induction as with
  | nil => simp [insertAscending]
  | cons a as ih =>
    unfold insertAscending
    split
    · simp
    · split
      · next h => simp [h]
      · simp only [List.mem_cons, ih]
        grind

@[simp] theorem mem_ascending {x : TypeId} {as : List TypeId} : x ∈ ascending as ↔ x ∈ as := by
  induction as with
  | nil => rfl
  | cons a as ih => simp [ascending, mem_insertAscending, ih]

theorem pairwise_insertAscending {id : TypeId} {as : List TypeId} (h : as.Pairwise (· < ·)) :
    (insertAscending id as).Pairwise (· < ·) := by
  induction as with
  | nil => simp [insertAscending]
  | cons a as ih =>
    rw [List.pairwise_cons] at h
    unfold insertAscending
    split
    · next hlt =>
      refine List.pairwise_cons.2 ⟨fun x hx => ?_, List.pairwise_cons.2 h⟩
      rcases List.mem_cons.1 hx with rfl | hx
      · exact hlt
      · have := (lt_iff _ _).1 hlt
        have := (lt_iff _ _).1 (h.1 x hx)
        exact (lt_iff _ _).2 (by omega)
    · split
      · exact List.pairwise_cons.2 h
      · next hlt hne =>
        refine List.pairwise_cons.2 ⟨fun x hx => ?_, ih h.2⟩
        rcases mem_insertAscending.1 hx with rfl | hx
        · have h1 : ¬ x.index < a.index := fun h => hlt ((lt_iff _ _).2 h)
          have h2 : x.index ≠ a.index := fun h => hne (index_injective h)
          exact (lt_iff _ _).2 (by omega)
        · exact h.1 x hx

/-- The order is strict, so no member is repeated. -/
theorem pairwise_ascending (as : List TypeId) : (ascending as).Pairwise (· < ·) := by
  induction as with
  | nil => exact List.Pairwise.nil
  | cons a as ih => exact pairwise_insertAscending ih

/-- A list that is in order already stays as it is. -/
theorem ascending_of_pairwise {as : List TypeId} (h : as.Pairwise (· < ·)) :
    ascending as = as := by
  induction as with
  | nil => rfl
  | cons a as ih =>
    rw [List.pairwise_cons] at h
    rw [ascending, ih h.2]
    cases as with
    | nil => rfl
    | cons b bs => simp [insertAscending, h.1 b (by simp)]

theorem length_insertAscending_le (id : TypeId) (as : List TypeId) :
    (insertAscending id as).length ≤ as.length + 1 := by
  induction as with
  | nil => simp [insertAscending]
  | cons a as ih =>
    unfold insertAscending
    split
    · simp
    · split
      · simp
      · exact Nat.succ_le_succ ih

theorem length_ascending_le (as : List TypeId) : (ascending as).length ≤ as.length := by
  induction as with
  | nil => exact Nat.le_refl _
  | cons a as ih =>
    exact Nat.le_trans (length_insertAscending_le _ _) (Nat.succ_le_succ ih)

end TypeId

end TypeCodex
