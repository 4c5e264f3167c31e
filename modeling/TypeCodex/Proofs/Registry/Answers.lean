import TypeCodex.Proofs.Descriptor.RoundTrip
import TypeCodex.Proofs.Registry.Questions

/-!
# Answers from a view

The view of a registered type settles every other question about it. A question that
belongs to its category is answered with a field of the view, any other one with the two
categories that do not match.

## Main definitions

* `View.answer` — the answer to a question for types of one category.
* `Registry.Answers` — every question about a type is answered from one view.

## Main statements

* `Registry.answers_of_view` — a type that has a view is answered for from it.
-/

namespace TypeCodex

/-- The answer to a question for types of one category: a field of the view if it is the
category of the type. -/
def View.answer {α : Type} (v : View) (id : TypeId) (expected : Tag) (a : α) :
    Except RegistryError α :=
  if v.tag = expected then .ok a else .error (.shapeMismatch id (.tag expected) v.tag)

namespace Registry

/-- Every question about a type is answered from one view. -/
structure Answers (r : Registry) (id : TypeId) (v : View) : Prop where
  view : r.view id = .ok v
  packed : r.packed id = .ok v.pack
  tag : r.tag? id = some v.tag
  isConst : r.isConst id = v.isConst
  arraySize : r.arraySize id = v.answer id .array v.size
  arrayElem : r.arrayElem id = v.answer id .array (v.type1.getD TypeId.invalid)
  vectorElem : r.vectorElem id = v.answer id .vector (v.type1.getD TypeId.invalid)
  mapKey : r.mapKey id = v.answer id .map (v.type1.getD TypeId.invalid)
  mapValue : r.mapValue id = v.answer id .map (v.type2.getD TypeId.invalid)
  tupleFields : r.tupleFields id = v.answer id .tuple v.list
  packageFields : r.packageFields id = v.answer id .package v.list
  variantMembers : r.variantMembers id = v.answer id .variant v.list
  functionResult : r.functionResult id = v.answer id .function (v.type1.getD TypeId.invalid)
  functionParams : r.functionParams id = v.answer id .function v.list

variable {α β : Type} {r : Registry} {id : TypeId} {v : View} {e : Entry}

/-- The encoding of a type is that of its view. -/
theorem packed_eq (r : Registry) (id : TypeId) : r.packed id = (r.view id).map View.pack := by
  rw [view_eq, packed]
  cases r.describe id with
  | error err => rfl
  | ok d => simp [Except.map, View.pack]

theorem bind_eq_ok {ε : Type} {x : Except ε α} {f : α → Except ε β} {b : β} :
    x.bind f = .ok b ↔ ∃ a, x = .ok a ∧ f a = .ok b := by
  cases x <;> simp [Except.bind]

/-! ## Types that are not registered -/

section

variable (h : r.contains id = false)
include h

theorem window_of_not_contains : r.window id = .error (.unknownIdentifier id r.size) := by
  rw [contains, Option.isSome_eq_false_iff, Option.isNone_iff_eq_none] at h
  rw [window, h]

theorem tagByte?_of_not_contains : r.tagByte? id = none := by
  rw [tagByte?, window_of_not_contains h]
  rfl

theorem readAs_of_not_contains (expected : Tag)
    (read : Reader Nat Fault UInt32 → Reader Nat Fault α) :
    r.readAs id expected read = .error (.unknownIdentifier id r.size) := by
  rw [readAs, entry, window_of_not_contains h]
  rfl

/-- Nothing is said about an identifier that is not registered. -/
theorem describe_of_not_contains : r.describe id = .error (.unknownIdentifier id r.size) := by
  rw [describe, entry, window_of_not_contains h]
  rfl

theorem view_of_not_contains : r.view id = .error (.unknownIdentifier id r.size) := by
  rw [view_eq, describe_of_not_contains h]
  rfl

theorem packed_of_not_contains : r.packed id = .error (.unknownIdentifier id r.size) := by
  rw [packed_eq, view_of_not_contains h]
  rfl

theorem tag?_of_not_contains : r.tag? id = none := by
  rw [tag?, tagByte?_of_not_contains h]
  rfl

theorem isConst_of_not_contains : r.isConst id = false := by
  rw [isConst, tagByte?_of_not_contains h]
  rfl

end

/-! ## Types that have a view -/

/-- A view begins with what the tag byte says. -/
theorem entry_of_view (h : r.view id = .ok v) :
    ∃ e, r.entry id = .ok e ∧ v.tag = e.tag ∧ v.isConst = e.tagByte.isConst := by
  rw [view_eq] at h
  cases he : r.entry id with
  | error err =>
    rw [describe, he] at h
    cases h
  | ok e =>
    refine ⟨e, rfl, ?_⟩
    rw [describe_of_entry he, Reader.value] at h
    cases hread : Shape.read e.operands.int e.tag 0 with
    | error fault =>
      rw [hread] at h
      cases h
    | ok p =>
      obtain ⟨shape, pos⟩ := p
      have htag : shape.tag = e.tag := Shape.tag_of_read hread
      rw [hread] at h
      cases h
      simp [Descriptor.tag, htag]

theorem tagByte?_of_entry (he : r.entry id = .ok e) :
    r.tagByte? id = some e.tagByte ∧ e.tagByte.tag? = some e.tag := by
  obtain ⟨w, hw, he⟩ := bind_eq_ok.1 he
  cases hb : w.tagByte? with
  | none =>
    rw [hb] at he
    cases he
  | some b =>
    rw [hb] at he
    cases ht : b.tag? with
    | none =>
      simp only [ht] at he
      cases he
    | some t =>
      simp only [ht] at he
      cases he
      simp [tagByte?, hw, Except.toOption, hb, ht]

/-- The questions for the category of a type are answered with fields of its view. -/
theorem fields_of_view (h : r.view id = .ok v) :
    match v.tag with
    | .basic _ => True
    | .variant => r.variantMembers id = .ok v.list
    | .array => r.arraySize id = .ok v.size ∧ r.arrayElem id = .ok (v.type1.getD TypeId.invalid)
    | .vector => r.vectorElem id = .ok (v.type1.getD TypeId.invalid)
    | .map =>
      r.mapKey id = .ok (v.type1.getD TypeId.invalid) ∧
        r.mapValue id = .ok (v.type2.getD TypeId.invalid)
    | .tuple => r.tupleFields id = .ok v.list
    | .package => r.packageFields id = .ok v.list
    | .function =>
      r.functionResult id = .ok (v.type1.getD TypeId.invalid) ∧
        r.functionParams id = .ok v.list := by
  obtain ⟨⟨tagByte, tag, operands⟩, -, h⟩ := bind_eq_ok.1 h
  cases tag with
  | basic b =>
    cases h
    trivial
  | variant | vector | tuple | package =>
    obtain ⟨a, ha, h⟩ := bind_eq_ok.1 h
    cases h
    exact ha
  | array | map | function =>
    obtain ⟨a, ha, h⟩ := bind_eq_ok.1 h
    obtain ⟨b, hb, h⟩ := bind_eq_ok.1 h
    cases h
    exact ⟨ha, hb⟩

/-- A question for types of one category is answered if it is the category of the type. -/
theorem readAs_eq_answer (h : r.view id = .ok v) {expected : Tag}
    {read : Reader Nat Fault UInt32 → Reader Nat Fault α} {a : α}
    (hfield : v.tag = expected → r.readAs id expected read = .ok a) :
    r.readAs id expected read = v.answer id expected a := by
  by_cases htag : v.tag = expected
  · rw [hfield htag, View.answer, if_pos htag]
  · obtain ⟨e, he, hv, -⟩ := entry_of_view h
    have hne : ¬ e.tag = expected := hv ▸ htag
    rw [View.answer, if_neg htag, readAs, he, hv]
    exact if_neg hne

/-- A type that has a view is answered for from it. -/
theorem answers_of_view (h : r.view id = .ok v) : r.Answers id v := by
  have hfields := fields_of_view h
  obtain ⟨e, he, htag, hconst⟩ := entry_of_view h
  obtain ⟨hbyte, hbtag⟩ := tagByte?_of_entry he
  constructor
  case view => exact h
  case packed => simp [packed_eq, h, Except.map]
  case tag => simp [tag?, hbyte, hbtag, htag]
  case isConst => simp [isConst, hbyte, hconst]
  case arraySize | mapKey | functionResult =>
    refine readAs_eq_answer h fun ht => ?_
    rw [ht] at hfields
    exact hfields.1
  case arrayElem | mapValue | functionParams =>
    refine readAs_eq_answer h fun ht => ?_
    rw [ht] at hfields
    exact hfields.2
  case vectorElem | tupleFields | packageFields | variantMembers =>
    refine readAs_eq_answer h fun ht => ?_
    rw [ht] at hfields
    exact hfields

end Registry

end TypeCodex
