/-!
# Readers

A reader takes a state and gives a value together with the state after it, or an
error. The decoders of this library are readers over a cursor, a position or the
unread bytes.

## Main definitions

* `Reader` — functions that read one value.
* `Reader.many` — repeated reading, with what was read before an error.
* `Reader.list` — repeated reading of an announced number of values.
-/

namespace TypeCodex

/-- Functions that read a value of type `α` from a state of type `σ`. -/
abbrev Reader (σ ε α : Type) := StateT σ (Except ε) α

namespace Reader

variable {σ ε α β : Type}

@[simp] theorem run_pure (a : α) (s : σ) : (pure a : Reader σ ε α) s = .ok (a, s) := rfl

/-- The second reader goes on where the first one stopped. -/
theorem run_bind (x : Reader σ ε α) (f : α → Reader σ ε β) (s : σ) :
    (x >>= f) s = (x s).bind fun p => f p.1 p.2 := rfl

theorem run_map (f : α → β) (x : Reader σ ε α) (s : σ) :
    (f <$> x) s = (x s).map fun p => (f p.1, p.2) := by
  show (x s).bind (fun p => .ok (f p.1, p.2)) = _
  cases x s <;> rfl

/-- Reads up to `count` values. The answer holds the values read and the state after
the last of them, or the first error. -/
def many (read : Reader σ ε α) : Nat → σ → List α × Except ε σ
  | 0, s => ([], .ok s)
  | count + 1, s =>
    match read s with
    | .error e => ([], .error e)
    | .ok (a, s) =>
      let (as, r) := many read count s
      (a :: as, r)

/-- Reads exactly `count` values. -/
def list (read : Reader σ ε α) (count : Nat) : Reader σ ε (List α) := fun s =>
  match many read count s with
  | (as, .ok s) => .ok (as, s)
  | (_, .error e) => .error e

theorem many_succ_error {read : Reader σ ε α} {s : σ} {e : ε} (h : read s = .error e)
    (count : Nat) : many read (count + 1) s = ([], .error e) := by
  simp [many, h]

theorem many_succ_ok {read : Reader σ ε α} {s s' : σ} {a : α} (h : read s = .ok (a, s'))
    (count : Nat) :
    many read (count + 1) s = (a :: (many read count s').1, (many read count s').2) := by
  simp [many, h]

end Reader

end TypeCodex
