import TypeCodex.Registry.Outline

/-!
# Writing out by a meter

A meter shows what writing out costs: it counts the budget down in whole numbers, without a
floor at zero, and keeps a list of what was paid for. With a meter as its budget, the traversal
writes what it writes with a counter, and it pays for the first of the lookups that an unlimited
writer would make, as many of them as the budget allows.

## Main definitions

* `Lookup`, `Meter` — what is paid for, and the counter that it is paid from.
* `Metered` — a metered outcome beside the plain one.

## Main statements

* `Metered.append` — two outcomes in sequence.
* `Outline.metered_writeList`, `Shape.metered_writeOut` — lists of operands, and shapes.
-/

namespace TypeCodex

/-- A type that is looked up while another one is written out. -/
structure Lookup where
  id : TypeId
  /-- How deep it is nested below the type that is written out. -/
  level : Nat
  deriving DecidableEq

/-- A budget that may fall below zero, and the lookups that were paid from it, each with what
was left then. -/
structure Meter where
  budget : Int
  paid : List (Lookup × Int)
  deriving DecidableEq

namespace Meter

/-- Pays for a lookup, whether or not the budget suffices. -/
def pay (m : Meter) (x : Lookup) : Meter := ⟨m.budget - 1, m.paid ++ [(x, m.budget - 1)]⟩

/-- Pays for several lookups. -/
def payAll (m : Meter) (xs : List Lookup) : Meter := xs.foldl pay m

@[simp] theorem payAll_nil (m : Meter) : m.payAll [] = m := rfl
@[simp] theorem payAll_cons (m : Meter) (x : Lookup) (xs : List Lookup) :
    m.payAll (x :: xs) = (m.pay x).payAll xs := rfl
@[simp] theorem payAll_append (m : Meter) (xs ys : List Lookup) :
    m.payAll (xs ++ ys) = (m.payAll xs).payAll ys := List.foldl_append

theorem budget_payAll (m : Meter) (xs : List Lookup) :
    (m.payAll xs).budget = m.budget - xs.length := by
  induction xs generalizing m with
  | nil => simp
  | cons x xs ih =>
    have hpay : (m.pay x).budget = m.budget - 1 := rfl
    rw [payAll_cons, ih, hpay, List.length_cons]
    omega

theorem map_paid_payAll (m : Meter) (xs : List Lookup) :
    (m.payAll xs).paid.map Prod.fst = m.paid.map Prod.fst ++ xs := by
  induction xs generalizing m with
  | nil => simp
  | cons x xs ih => simp [ih, pay]

/-- No payment leaves less than the last one. -/
theorem le_of_mem_paid {m : Meter} {xs : List Lookup} {p : Lookup × Int}
    (h : p ∈ (m.payAll xs).paid) : p ∈ m.paid ∨ (m.payAll xs).budget ≤ p.2 := by
  induction xs generalizing m with
  | nil => exact .inl h
  | cons x xs ih =>
    rw [payAll_cons] at h ⊢
    rcases ih h with h | h
    · rcases List.mem_append.1 h with h | h
      · exact .inl h
      · have hleft := budget_payAll (m.pay x) xs
        rw [List.mem_singleton.1 h]
        refine .inr ?_
        change ((m.pay x).payAll xs).budget ≤ (m.pay x).budget
        omega
    · exact .inr h

/-- A meter is used up when nothing is left, but not below. -/
instance : Budget (StateM Meter) where
  spent := do
    let m ← get
    pure (m.budget == 0)

section

variable {α : Type} {m : Meter} {budget : Nat}

theorem spent_bind_zero (hm : m.budget = (0 : Nat)) (f : Bool → StateM Meter α) :
    (Budget.spent >>= f) m = f true m := by
  have hspent : (m.budget == 0) = true := beq_of_eq hm
  change f (m.budget == 0) m = _
  rw [hspent]

theorem spent_bind_succ (hm : m.budget = (budget + 1 : Nat)) (f : Bool → StateM Meter α) :
    (Budget.spent >>= f) m = f false m := by
  have hleft : (m.budget == 0) = false := beq_eq_false_iff_ne.2 (by omega)
  change f (m.budget == 0) m = _
  rw [hleft]

end

end Meter

/-- The operands of a shape in the order of its text, the parameters of a function before its
result. -/
def Shape.inOrder {α : Type} : Shape α → List α
  | .function ret params => params ++ [ret]
  | shape => shape.operands

/-! ## Outcomes -/

/-- An outcome by a meter beside the plain one: what is written is the same, and the first of
the listed lookups were paid for, as many as the budget allows. -/
structure Metered {α : Type} (ids : α → List TypeId) (listed : List Lookup) (m : Meter)
    (budget : Nat) (plain : α × Nat) (metered : α × Meter) : Prop where
  same : metered.1 = plain.1
  left : plain.2 = budget - listed.length
  meter : metered.2 = m.payAll (listed.take budget)
  ids : ids plain.1 = (listed.take budget).map Lookup.id

namespace Metered

variable {α β γ : Type} {idsα : α → List TypeId} {idsβ : β → List TypeId}
  {idsγ : γ → List TypeId} {xs ys : List Lookup} {m : Meter} {budget : Nat}
  {p : α × Nat} {q : α × Meter} {p' : β × Nat} {q' : β × Meter}

/-- The meter shows what is left of the budget. -/
theorem budget_eq (H : Metered idsα xs m budget p q) (hm : m.budget = budget) :
    q.2.budget = p.2 := by
  rw [H.meter, H.left, Meter.budget_payAll, List.length_take, hm]
  omega

/-- Where there is nothing to look up, nothing is paid. -/
theorem of_nil {a : α} (ha : idsα a = []) : Metered idsα [] m budget (a, budget) (a, m) where
  same := rfl
  left := rfl
  meter := by rw [List.take_nil, Meter.payAll_nil]
  ids := by rw [ha, List.take_nil, List.map_nil]

/-- Without a budget, nothing is paid. -/
theorem of_zero {a : α} (ha : idsα a = []) : Metered idsα xs m 0 (a, 0) (a, m) where
  same := rfl
  left := (Nat.zero_sub _).symm
  meter := rfl
  ids := ha

theorem map (H : Metered idsα xs m budget p q) (f : α → β) (hf : ∀ a, idsβ (f a) = idsα a) :
    Metered idsβ xs m budget (f p.1, p.2) (f q.1, q.2) where
  same := congrArg f H.same
  left := H.left
  meter := H.meter
  ids := (hf p.1).trans H.ids

/-- A lookup that is paid first comes in front of those that follow. -/
theorem pay {x : Lookup} (H : Metered idsα xs (m.pay x) budget p q) (f : α → β)
    (hf : ∀ a, idsβ (f a) = x.id :: idsα a) :
    Metered idsβ (x :: xs) m (budget + 1) (f p.1, p.2) (f q.1, q.2) where
  same := congrArg f H.same
  left := by rw [H.left, List.length_cons, Nat.add_sub_add_right]
  meter := by rw [H.meter, List.take_succ_cons, Meter.payAll_cons]
  ids := by rw [hf, H.ids, List.take_succ_cons, List.map_cons]

/-- Of two outcomes in sequence, the second one goes on with what the first one leaves. -/
theorem append (H : Metered idsα xs m budget p q) (H' : Metered idsβ ys q.2 p.2 p' q')
    (f : α → β → γ) (hf : ∀ a b, idsγ (f a b) = idsα a ++ idsβ b) :
    Metered idsγ (xs ++ ys) m budget (f p.1 p'.1, p'.2) (f q.1 q'.1, q'.2) where
  same := by rw [H.same, H'.same]
  left := by
    rw [H'.left, H.left, List.length_append]
    omega
  meter := by
    rw [H'.meter, H.meter, H.left, List.take_append, Meter.payAll_append]
  ids := by
    rw [hf, H.ids, H'.ids, H.left, List.take_append, List.map_append]

end Metered

section

variable {write : TypeId → Nat → Outline × Nat} {meter : TypeId → StateM Meter Outline}
  {listed : TypeId → List Lookup}

/-- A list is metered if its operands are. -/
theorem Outline.metered_writeList {ids : List TypeId}
    (h : ∀ id ∈ ids, ∀ (m : Meter) (budget : Nat), m.budget = budget →
      Metered Outline.ids (listed id) m budget (write id budget) (meter id m))
    {m : Meter} {budget : Nat} (hm : m.budget = budget) :
    Metered Outline.idsAll (ids.flatMap listed) m budget (writeList write ids budget)
      (writeListM meter ids m) := by
  induction ids generalizing m budget with
  | nil => exact Metered.of_nil rfl
  | cons id ids ih =>
    cases budget with
    | zero =>
      rw [writeListM, Meter.spent_bind_zero hm]
      exact Metered.of_zero rfl
    | succ budget =>
      have hfirst := h id (by simp) m (budget + 1) hm
      have hrest := ih (fun id hid => h id (by simp [hid])) (hfirst.budget_eq hm)
      rw [writeListM, Meter.spent_bind_succ hm, writeList_cons]
      exact hfirst.append hrest List.cons fun o os => by rw [idsAll]

/-- A shape is metered if its operands are. -/
theorem Shape.metered_writeOut {s : Shape TypeId}
    (h : ∀ id ∈ s.operands, ∀ (m : Meter) (budget : Nat), m.budget = budget →
      Metered Outline.ids (listed id) m budget (write id budget) (meter id m))
    {m : Meter} {budget : Nat} (hm : m.budget = budget) :
    Metered Shape.ids (s.inOrder.flatMap listed) m budget (s.writeOut write budget)
      (s.writeOutM meter m) := by
  cases s with
  | basic b => exact Metered.of_nil rfl
  | variant members => exact (Outline.metered_writeList h hm).map variant fun _ => rfl
  | tuple fields => exact (Outline.metered_writeList h hm).map tuple fun _ => rfl
  | package fields => exact (Outline.metered_writeList h hm).map package fun _ => rfl
  | array size elem =>
    have helem := h elem (by simp [operands]) m budget hm
    change Metered _ ([elem].flatMap listed) m budget _ _
    rw [List.flatMap_singleton]
    exact helem.map (array size) fun _ => rfl
  | vector elem =>
    have helem := h elem (by simp [operands]) m budget hm
    change Metered _ ([elem].flatMap listed) m budget _ _
    rw [List.flatMap_singleton]
    exact helem.map vector fun _ => rfl
  | map key value =>
    have hkey := h key (by simp [operands]) m budget hm
    have hvalue := h value (by simp [operands]) _ _ (hkey.budget_eq hm)
    change Metered _ ([key, value].flatMap listed) m budget _ _
    rw [List.flatMap_cons, List.flatMap_singleton]
    exact hkey.append hvalue map fun _ _ => rfl
  | function ret params =>
    have hparams := Outline.metered_writeList
      (fun id (hid : id ∈ params) => h id (by simp [operands, hid])) hm
    have hret := h ret (by simp [operands]) _ _ (hparams.budget_eq hm)
    rw [inOrder, List.flatMap_append, List.flatMap_singleton]
    exact hparams.append hret (fun params ret => function ret params) fun _ _ => rfl

end

end TypeCodex
