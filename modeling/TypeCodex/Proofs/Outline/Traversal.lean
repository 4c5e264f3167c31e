import TypeCodex.Reader
import TypeCodex.Registry.Outline

/-!
# One traversal in two monads

Types are written out by the same traversal whatever monad it runs in. Two runs of it keep in
step if their lookups do: each step of one of them is related to the same step of the other. So
a type is written as its operands are, and a writer that may stop writes what one that never
stops does, as long as it goes on.

## Main definitions

* `Lockstep` — a relation between the computations of two monads that is kept in sequence.

## Main statements

* `Lockstep.writeListM`, `Lockstep.writeOutM`, `Lockstep.writeM` — the runs of the traversal.
* `Shape.writeOut_congr` — a shape is written as its operands are.
* `lockstep_ok` — a writer that may stop, as long as it goes on.
-/

namespace TypeCodex

/-- A relation between the computations of two monads that is kept in sequence. Both find their
budgets used up at the same time. -/
structure Lockstep {m n : Type → Type} [Monad m] [Monad n] [Budget m] [Budget n]
    (rel : (α : Type) → m α → n α → Prop) : Prop where
  of_pure : ∀ {α : Type} (a : α), rel α (pure a) (pure a)
  of_bind : ∀ {α β : Type} {x : m α} {y : n α} {f : α → m β} {g : α → n β},
    rel α x y → (∀ a, rel β (f a) (g a)) → rel β (x >>= f) (y >>= g)
  of_spent : rel Bool Budget.spent Budget.spent

namespace Lockstep

variable {m n : Type → Type} [Monad m] [Monad n] [Budget m] [Budget n]
  {rel : (α : Type) → m α → n α → Prop} {write : TypeId → m Outline} {write' : TypeId → n Outline}

theorem writeListM (H : Lockstep rel) {ids : List TypeId}
    (h : ∀ id ∈ ids, rel _ (write id) (write' id)) :
    rel _ (Outline.writeListM write ids) (Outline.writeListM write' ids) := by
  induction ids with
  | nil => exact H.of_pure []
  | cons id ids ih =>
    rw [Outline.writeListM, Outline.writeListM]
    refine H.of_bind H.of_spent fun spent => ?_
    cases spent with
    | true => exact H.of_pure [Outline.elided]
    | false =>
      have hids := ih fun id hid => h id (by simp [hid])
      exact H.of_bind (h id (by simp)) fun o => H.of_bind hids fun os => H.of_pure (o :: os)

theorem writeOutM (H : Lockstep rel) {s : Shape TypeId}
    (h : ∀ id ∈ s.operands, rel _ (write id) (write' id)) :
    rel _ (s.writeOutM write) (s.writeOutM write') := by
  cases s with
  | basic b => exact H.of_pure (Shape.basic b)
  | variant | tuple | package => exact H.of_bind (H.writeListM h) fun _ => H.of_pure _
  | array | vector =>
    simp only [Shape.operands, List.forall_mem_singleton] at h
    exact H.of_bind h fun _ => H.of_pure _
  | map key value =>
    simp only [Shape.operands, List.forall_mem_cons] at h
    exact H.of_bind h.1 fun _ => H.of_bind h.2.1 fun _ => H.of_pure _
  | function ret params =>
    simp only [Shape.operands, List.forall_mem_cons] at h
    exact H.of_bind (H.writeListM h.2) fun _ => H.of_bind h.1 fun _ => H.of_pure _

theorem writeFound (H : Lockstep rel) (h : ∀ id, rel _ (write id) (write' id)) (id : TypeId)
    (found : Option Descriptor) :
    rel _ (Outline.writeFound write id found) (Outline.writeFound write' id found) := by
  cases found with
  | none => exact H.of_pure (Outline.unknown id)
  | some d => exact H.of_bind (H.writeOutM fun id _ => h id) fun shape => H.of_pure _

/-- Runs whose lookups keep in step keep in step. -/
theorem writeM (H : Lockstep rel) {lookUp : Nat → TypeId → m (Option Descriptor)}
    {lookUp' : Nat → TypeId → n (Option Descriptor)}
    (h : ∀ levels id, rel _ (lookUp levels id) (lookUp' levels id)) (levels : Nat) (id : TypeId) :
    rel _ (Outline.writeM lookUp levels id) (Outline.writeM lookUp' levels id) := by
  induction levels generalizing id with
  | zero => exact H.of_pure Outline.elided
  | succ levels ih =>
    rw [Outline.writeM, Outline.writeM]
    refine H.of_bind H.of_spent fun spent => ?_
    cases spent with
    | true => exact H.of_pure Outline.elided
    | false => exact H.of_bind (h levels id) fun found => H.writeFound ih id found

end Lockstep

/-! ## The same writer twice -/

theorem lockstep_eq {m : Type → Type} [Monad m] [Budget m] :
    Lockstep fun (α : Type) (x y : m α) => x = y where
  of_pure _ := rfl
  of_bind hx hf := by rw [hx, funext hf]
  of_spent := rfl

/-- A shape is written as its operands are. -/
theorem Shape.writeOut_congr {write write' : TypeId → Nat → Outline × Nat} {s : Shape TypeId}
    (h : ∀ id ∈ s.operands, write id = write' id) (budget : Nat) :
    s.writeOut write budget = s.writeOut write' budget :=
  congrFun (lockstep_eq.writeOutM h) budget

/-! ## Writers that may stop -/

/-- A writer that may stop keeps in step with one that never does, as long as it goes on. -/
theorem lockstep_ok {ε : Type} :
    Lockstep fun (α : Type) (x : Reader Nat ε α) (y : StateM Nat α) =>
      ∀ budget, x budget = .ok (y budget) where
  of_pure _ _ := rfl
  of_bind hx hf budget := by
    rw [Reader.run_bind, hx]
    exact hf _ _
  of_spent _ := rfl

end TypeCodex
