import TypeCodex.Descriptor
import TypeCodex.Proofs.Reader.Follows

/-!
# Checked computations

Some steps rely on facts that are established elsewhere: an index is used without a test, a
length is asserted. A checked computation makes the test at this place and stops if it fails.
All checks pass if the outcome is that of the computation without them, its error included.

## Main definitions

* `Check`, `Stop` — what is tested, and why a checked computation stops.
* `require`, `access`, `slice` — a test, and accesses to a list.
* `Passes` — all checks pass.

## Main statements

* `Passes.bind`, `passes_require`, `passes_access` — checks in sequence.
* `Reader.passes_list`, `Shape.passes_readIds` — readers that are built from a checked one.
-/

namespace TypeCodex

/-- The tests that are left out where a fact is relied on. -/
inductive Check where
  /-- A buffer has a tag byte. -/
  | nonEmpty
  /-- The odd-length flag of a tag byte agrees with the number of elements. -/
  | parity
  /-- A tag that is written alone is that of a basic type. -/
  | basicTag
  /-- Packing gives the announced number of bytes. -/
  | packedSize
  /-- Unpacking gives the announced number of elements. -/
  | expandedSize
  /-- A word has at most eight digits. -/
  | digitCount
  /-- A list has a byte at an index. -/
  | byte (i : Nat)
  /-- A registry has a cell at an index. -/
  | cell (i : Nat)
  deriving DecidableEq

/-- Why a checked computation stops. -/
inductive Stop (ε : Type) where
  /-- A check fails. -/
  | failed (c : Check)
  /-- An error is reported. -/
  | error (e : ε)
  deriving DecidableEq

/-- The same reason with another error. -/
def Stop.map {ε ε' : Type} (f : ε → ε') : Stop ε → Stop ε'
  | failed c => failed c
  | error e => error (f e)

section

variable {ε ε' α β : Type}

/-- Stops if a condition does not hold. -/
def require (c : Check) (p : Prop) [Decidable p] : Except (Stop ε) Unit :=
  if p then .ok () else .error (.failed c)

/-- Stops if there is nothing at an index. -/
def access (c : Check) (a? : Option α) : Except (Stop ε) α :=
  match a? with
  | some a => .ok a
  | none => .error (.failed c)

/-- The bytes from an index on. Stops if the index is past the end. -/
def slice (bytes : List UInt8) (i : Nat) : Except (Stop ε) (List UInt8) :=
  if i ≤ bytes.length then .ok (bytes.drop i) else .error (.failed (.byte i))

/-- All checks of a computation pass: its outcome is that of the computation without checks, a
value or an error, and so it does not stop at a check. -/
def Passes (x : Except (Stop ε) α) (y : Except ε α) : Prop := x = y.mapError .error

/-! ## Checks in sequence -/

theorem passes_ok (a : α) : Passes (.ok a : Except (Stop ε) α) (.ok a) := rfl

theorem passes_error (e : ε) : Passes (.error (.error e) : Except (Stop ε) α) (.error e) := rfl

/-- A computation that tests nothing has no check that could fail. -/
theorem passes_of_eq {x y : Except ε α} (h : x = y) : Passes (x.mapError .error) y := by
  rw [h]
  rfl

theorem passes_require {c : Check} {p : Prop} [Decidable p] (h : p) :
    Passes (require c p : Except (Stop ε) Unit) (.ok ()) := if_pos h

theorem passes_access {c : Check} {a? : Option α} {a : α} (h : a? = some a) :
    Passes (access c a? : Except (Stop ε) α) (.ok a) := by
  rw [h]
  rfl

theorem passes_slice {bytes : List UInt8} {i : Nat} (h : i ≤ bytes.length) :
    Passes (slice bytes i : Except (Stop ε) (List UInt8)) (.ok (bytes.drop i)) := if_pos h

namespace Passes

variable {x : Except (Stop ε) α} {y : Except ε α}

/-- The second computation only has to pass for what the first one gives. -/
theorem bind {f : α → Except (Stop ε) β} {g : α → Except ε β} (h : Passes x y)
    (hf : ∀ a, y = .ok a → Passes (f a) (g a)) : Passes (x >>= f) (y >>= g) := by
  rw [h]
  cases y with
  | error e => rfl
  | ok a => exact hf a rfl

/-- What follows a computation that gives a certain value goes on with it. -/
theorem ok_bind {a : α} {f : α → Except (Stop ε) β} {z : Except ε β} (h : Passes x (.ok a))
    (hf : Passes (f a) z) : Passes (x >>= f) z := by
  rw [h]
  exact hf

/-- Nothing follows an error. -/
theorem error_bind {e : ε} {f : α → Except (Stop ε) β} (h : Passes x (.error e)) :
    Passes (x >>= f) (.error e) := by
  rw [h]
  rfl

theorem map (f : α → β) (h : Passes x y) : Passes (x.map f) (y.map f) := by
  rw [h]
  cases y <;> rfl

/-- An error is reported as another one. -/
theorem mapError (f : ε → ε') (h : Passes x y) :
    Passes (x.mapError (Stop.map f)) (y.mapError f) := by
  rw [h]
  cases y <;> rfl

end Passes

end

/-! ## Checked readers -/

namespace Reader

variable {σ ε α β : Type}

/-- All checks of a reader pass, from every state. -/
def Passes (x : Reader σ (Stop ε) α) (y : Reader σ ε α) : Prop :=
  ∀ s, TypeCodex.Passes (x s) (y s)

theorem passes_pure (a : α) : Passes (pure a : Reader σ (Stop ε) α) (pure a) := fun _ => rfl

theorem passes_bind {x : Reader σ (Stop ε) α} {y : Reader σ ε α} {f : α → Reader σ (Stop ε) β}
    {g : α → Reader σ ε β} (h : Passes x y) (hf : ∀ a, Passes (f a) (g a)) :
    Passes (x >>= f) (y >>= g) :=
  fun s => (h s).bind fun p _ => hf p.1 p.2

theorem passes_map {x : Reader σ (Stop ε) α} {y : Reader σ ε α} (f : α → β) (h : Passes x y) :
    Passes (f <$> x) (f <$> y) := by
  intro s
  rw [run_map, run_map]
  exact (h s).map _

theorem passes_list {x : Reader σ (Stop ε) α} {y : Reader σ ε α} (h : Passes x y) (count : Nat) :
    Passes (list x count) (list y count) := by
  induction count with
  | zero => exact passes_pure []
  | succ count ih =>
    rw [list_succ, list_succ]
    exact passes_bind h fun a => passes_bind ih fun as => passes_pure (a :: as)

end Reader

namespace Shape

variable {σ ε : Type} {x : Reader σ (Stop ε) UInt32} {y : Reader σ ε UInt32}

theorem passes_readId (h : Reader.Passes x y) : Reader.Passes (readId x) (readId y) :=
  Reader.passes_map TypeId.mk h

theorem passes_readIds (h : Reader.Passes x y) : Reader.Passes (readIds x) (readIds y) :=
  Reader.passes_bind h fun count => Reader.passes_list (passes_readId h) count.toNat

end Shape

end TypeCodex
