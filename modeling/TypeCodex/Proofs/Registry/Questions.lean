import TypeCodex.Registry.Query

/-!
# Questions one by one

Each question about a type starts to read at its tag byte and skips the operands in front
of the one that is asked for. The answers together are what one reading of all operands
gives, also where an operand cannot be read.

## Main definitions

* `Reader.value` — what a reader gives, without the state after it.

## Main statements

* `Reader.value_pair` — two values in sequence are one value and one behind it.
* `Registry.readAs_eq_bind` — a question is answered with one value read from an entry.
* `Registry.view_eq` — a view asked for field by field is the view of the description.
-/

namespace TypeCodex

namespace Reader

variable {σ ε α β γ : Type}

/-- The value that a reader gives, without the state after it. -/
def value (x : Reader σ ε α) (s : σ) : Except ε α := (x s).map Prod.fst

theorem value_map (f : α → β) (x : Reader σ ε α) (s : σ) :
    (f <$> x).value s = (x.value s).map f := by
  rw [value, value, run_map]
  cases x s <;> rfl

/-- Two values read in sequence are the first one and the one behind it. -/
theorem value_pair (f : α → β → γ) (x : Reader σ ε α) (y : Reader σ ε β) (s : σ) :
    value (do let a ← x; let b ← y; pure (f a b)) s
      = (x.value s).bind fun a => ((x *> y).value s).map (f a) := by
  have hskip : (x *> y) s = (x s).bind fun p => y p.2 := rfl
  rw [value, value, value, run_bind, hskip]
  cases x s with
  | error e => rfl
  | ok p =>
    change ((y p.2).bind fun q => .ok (f p.1 q.1, q.2)).map _ = ((y p.2).map _).map _
    cases y p.2 <;> rfl

end Reader

theorem Shape.skip_readId {σ ε α : Type} (int : Reader σ ε UInt32) (x : Reader σ ε α) :
    (Shape.readId int *> x) = (int *> x) := by
  funext s
  change ((TypeId.mk <$> int) s).bind _ = (int s).bind _
  rw [Reader.run_map]
  cases int s <;> rfl

namespace Registry

variable {r : Registry} {id : TypeId} {e : Entry}

theorem readAs_of_entry {α : Type} (he : r.entry id = .ok e)
    (read : Reader Nat Fault UInt32 → Reader Nat Fault α) :
    r.readAs id e.tag read = ((read e.operands.int).value 0).mapError .invalidEncoding := by
  rw [readAs, he]
  change (if e.tag = e.tag then _ else _) = _
  rw [if_pos rfl, Reader.value]
  cases read e.operands.int 0 <;> rfl

/-- A question reads the operands of an entry of the right category. -/
theorem readAs_eq_bind {α : Type} (r : Registry) (id : TypeId) (expected : Tag)
    (read : Reader Nat Fault UInt32 → Reader Nat Fault α) :
    r.readAs id expected read = (r.entry id).bind fun e =>
      if e.tag = expected then ((read e.operands.int).value 0).mapError .invalidEncoding
      else .error (.shapeMismatch id (.tag expected) e.tag) := by
  cases he : r.entry id with
  | error err =>
    rw [readAs, he]
    rfl
  | ok e =>
    by_cases htag : e.tag = expected
    · rw [← htag, readAs_of_entry he]
      exact (if_pos rfl).symm
    · rw [readAs, he]
      change (if _ then _ else _) = (if _ then _ else _)
      rw [if_neg htag, if_neg htag]
      rfl

theorem describe_of_entry (he : r.entry id = .ok e) :
    r.describe id = (((Shape.read e.operands.int e.tag).value 0).mapError .invalidEncoding).map
      (Descriptor.mk e.tagByte.isConst) := by
  rw [describe, he, Reader.value]
  simp only [bind, Except.bind]
  cases Shape.read e.operands.int e.tag 0 <;> rfl

/-- A view that is asked for field by field is the view of the description, and fails
with the same error. -/
theorem view_eq (r : Registry) (id : TypeId) : r.view id = (r.describe id).map Descriptor.view := by
  cases he : r.entry id with
  | error err =>
    rw [view, describe, he]
    rfl
  | ok e =>
    obtain ⟨tagByte, tag, operands⟩ := e
    have hread := fun α read => readAs_of_entry (α := α) he read
    rw [describe_of_entry he, view, he]
    cases tag with
    | basic b => rfl
    | variant =>
      change (r.variantMembers id).bind _ = _
      rw [variantMembers, hread, Shape.read, Reader.value_map]
      cases (Shape.readIds operands.int).value 0 <;> rfl
    | array =>
      change (r.arraySize id).bind (fun _ => (r.arrayElem id).bind _) = _
      rw [arraySize, arrayElem, hread, hread, Shape.read, Reader.value_pair]
      cases operands.int.value 0 with
      | error fault => rfl
      | ok size => cases (operands.int *> Shape.readId operands.int).value 0 <;> rfl
    | vector =>
      change (r.vectorElem id).bind _ = _
      rw [vectorElem, hread, Shape.read, Reader.value_map]
      cases (Shape.readId operands.int).value 0 <;> rfl
    | map =>
      change (r.mapKey id).bind (fun _ => (r.mapValue id).bind _) = _
      rw [mapKey, mapValue, hread, hread, Shape.read, Reader.value_pair, Shape.skip_readId]
      cases (Shape.readId operands.int).value 0 with
      | error fault => rfl
      | ok key => cases (operands.int *> Shape.readId operands.int).value 0 <;> rfl
    | tuple =>
      change (r.tupleFields id).bind _ = _
      rw [tupleFields, hread, Shape.read, Reader.value_map]
      cases (Shape.readIds operands.int).value 0 <;> rfl
    | package =>
      change (r.packageFields id).bind _ = _
      rw [packageFields, hread, Shape.read, Reader.value_map]
      cases (Shape.readIds operands.int).value 0 <;> rfl
    | function =>
      change (r.functionResult id).bind (fun _ => (r.functionParams id).bind _) = _
      rw [functionResult, functionParams, hread, hread, Shape.read, Reader.value_pair,
        Shape.skip_readId]
      cases (Shape.readId operands.int).value 0 with
      | error fault => rfl
      | ok ret => cases (operands.int *> Shape.readIds operands.int).value 0 <;> rfl

end Registry

end TypeCodex
