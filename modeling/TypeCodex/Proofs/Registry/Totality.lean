import TypeCodex.Proofs.Registry.Canonical
import TypeCodex.Proofs.Registry.Stable

/-!
# Every question is answered

A question about one operand fails for two reasons only: the identifier is not registered, or
the type belongs to another category. Otherwise its answer is the field that the view of the
type shows. What is stored can always be read, so no question ever reports damaged bytes.

## Main definitions

* `Question` — the questions about one operand, by the kind of their answer.
* `Question.read` — reads the operand that a question is about.
* `Question.Settled` — when a registry answers a question, and when it refuses to.

## Main statements

* `Question.settled_of_view` — a type that has a view settles every question.
* `Registry.Holds.settled` — so every question about every identifier is settled.
* `Registry.Holds.variantMembers_ascending` — members of a variant come in ascending order.
* `Registry.questions_settled` — the same of all identifiers, over all runs.
-/

namespace TypeCodex

/-- A question about one operand of a type, by the kind of its answer. -/
inductive Question : Type → Type where
  | arraySize : Question UInt32
  | arrayElem : Question TypeId
  | vectorElem : Question TypeId
  | mapKey : Question TypeId
  | mapValue : Question TypeId
  | tupleFields : Question (List TypeId)
  | packageFields : Question (List TypeId)
  | variantMembers : Question (List TypeId)
  | functionResult : Question TypeId
  | functionParams : Question (List TypeId)

namespace Question

variable {α : Type}

/-- The category of the types that a question is about. -/
def expected : Question α → Tag
  | arraySize => .array
  | arrayElem => .array
  | vectorElem => .vector
  | mapKey => .map
  | mapValue => .map
  | tupleFields => .tuple
  | packageFields => .package
  | variantMembers => .variant
  | functionResult => .function
  | functionParams => .function

/-- The field of a view that shows the answer. -/
def field : Question α → View → Option α
  | arraySize, v => some v.size
  | arrayElem, v => v.type1
  | vectorElem, v => v.type1
  | mapKey, v => v.type1
  | mapValue, v => v.type2
  | tupleFields, v => some v.list
  | packageFields, v => some v.list
  | variantMembers, v => some v.list
  | functionResult, v => v.type1
  | functionParams, v => some v.list

/-- What a registry answers. -/
def ask : Question α → Registry → TypeId → Except RegistryError α
  | arraySize, r, id => r.arraySize id
  | arrayElem, r, id => r.arrayElem id
  | vectorElem, r, id => r.vectorElem id
  | mapKey, r, id => r.mapKey id
  | mapValue, r, id => r.mapValue id
  | tupleFields, r, id => r.tupleFields id
  | packageFields, r, id => r.packageFields id
  | variantMembers, r, id => r.variantMembers id
  | functionResult, r, id => r.functionResult id
  | functionParams, r, id => r.functionParams id

/-- Reads the operand that a question is about, behind those in front of it. -/
def read {σ ε : Type} (q : Question α) (int : Reader σ ε UInt32) : Reader σ ε α :=
  match q with
  | arraySize => int
  | arrayElem | mapValue => int *> Shape.readId int
  | vectorElem | mapKey | functionResult => Shape.readId int
  | tupleFields | packageFields | variantMembers => Shape.readIds int
  | functionParams => int *> Shape.readIds int

theorem ask_eq_readAs (q : Question α) (r : Registry) (id : TypeId) :
    q.ask r id = r.readAs id q.expected q.read := by
  cases q <;> rfl

/-- When a registry answers a question about an identifier, and when it refuses to. -/
structure Settled (q : Question α) (r : Registry) (id : TypeId) : Prop where
  unknown_iff : q.ask r id = .error (.unknownIdentifier id r.size) ↔ r.contains id = false
  mismatch_iff : ∀ found, q.ask r id = .error (.shapeMismatch id (.tag q.expected) found) ↔
    r.contains id = true ∧ r.tag? id = some found ∧ found ≠ q.expected
  ok_iff : ∀ a, q.ask r id = .ok a ↔
    ∃ v, r.view id = .ok v ∧ v.tag = q.expected ∧ q.field v = some a
  /-- These are all outcomes. -/
  outcome : (∃ a, q.ask r id = .ok a) ∨ q.ask r id = .error (.unknownIdentifier id r.size) ∨
    ∃ found, q.ask r id = .error (.shapeMismatch id (.tag q.expected) found)

variable {r : Registry} {id : TypeId} {v : View} {d : Descriptor} {q : Question α}

/-- A settled question reports no damaged bytes. -/
theorem Settled.undamaged (H : q.Settled r id) :
    (∀ fault, q.ask r id ≠ .error (.invalidEncoding fault)) ∧
      ∀ offset, q.ask r id ≠ .error (.stashOverflow offset) := by
  rcases H.outcome with ⟨a, h⟩ | h | ⟨found, h⟩
  all_goals simp [h]

/-- The answer from a view is the field that the view shows, if it shows one. -/
theorem ask_eq_answer (h : r.view id = .ok v) :
    ∃ a, (∀ b, q.field v = some b → a = b) ∧ q.ask r id = v.answer id q.expected a := by
  have H := Registry.answers_of_view h
  have hgetD : ∀ {o : Option TypeId} (b : TypeId), o = some b → o.getD TypeId.invalid = b := by
    rintro o b rfl
    rfl
  cases q with
  | arraySize => exact ⟨_, fun b => Option.some.inj, H.arraySize⟩
  | arrayElem => exact ⟨_, hgetD, H.arrayElem⟩
  | vectorElem => exact ⟨_, hgetD, H.vectorElem⟩
  | mapKey => exact ⟨_, hgetD, H.mapKey⟩
  | mapValue => exact ⟨_, hgetD, H.mapValue⟩
  | tupleFields => exact ⟨_, fun b => Option.some.inj, H.tupleFields⟩
  | packageFields => exact ⟨_, fun b => Option.some.inj, H.packageFields⟩
  | variantMembers => exact ⟨_, fun b => Option.some.inj, H.variantMembers⟩
  | functionResult => exact ⟨_, hgetD, H.functionResult⟩
  | functionParams => exact ⟨_, fun b => Option.some.inj, H.functionParams⟩

/-- A view shows the answer to every question about its category. -/
theorem exists_field (h : d.tag = q.expected) : ∃ a, q.field d.view = some a := by
  obtain ⟨isConst, shape⟩ := d
  cases q with
  | arraySize | tupleFields | packageFields | variantMembers | functionParams => exact ⟨_, rfl⟩
  | arrayElem | vectorElem | mapKey | mapValue | functionResult =>
    cases shape <;> simp_all [expected, field, Descriptor.tag, Descriptor.view, Shape.tag]

/-- A question about the category of a type is answered. -/
theorem settled_of_tag_eq (hid : r.contains id = true) (h : r.view id = .ok v)
    (htag : v.tag = q.expected) {a : α} (ha : q.field v = some a) (hask : q.ask r id = .ok a) :
    q.Settled r id := by
  have hcategory := (Registry.answers_of_view h).tag
  refine ⟨?_, ?_, ?_, .inl ⟨a, hask⟩⟩
  · simp [hask, hid]
  · intro found
    rw [hask, hcategory]
    refine iff_of_false (by simp) ?_
    rintro ⟨-, hfound, hne⟩
    exact hne (Option.some.inj hfound ▸ htag)
  · intro b
    rw [hask]
    constructor
    · intro hb
      cases hb
      exact ⟨v, h, htag, ha⟩
    · rintro ⟨w, hw, -, hb⟩
      rw [h] at hw
      cases hw
      exact congrArg Except.ok (Option.some.inj (ha.symm.trans hb))

/-- A question about another category than that of a type is refused. -/
theorem settled_of_tag_ne (hid : r.contains id = true) (h : r.view id = .ok v)
    (htag : v.tag ≠ q.expected)
    (hask : q.ask r id = .error (.shapeMismatch id (.tag q.expected) v.tag)) :
    q.Settled r id := by
  have hcategory := (Registry.answers_of_view h).tag
  refine ⟨?_, ?_, ?_, .inr (.inr ⟨v.tag, hask⟩)⟩
  · simp [hask, hid]
  · intro found
    rw [hask, hcategory]
    constructor
    · intro herror
      cases herror
      exact ⟨hid, rfl, htag⟩
    · rintro ⟨-, hfound, -⟩
      cases hfound
      rfl
  · intro a
    rw [hask]
    refine iff_of_false (by simp) ?_
    rintro ⟨w, hw, hne, -⟩
    rw [h] at hw
    cases hw
    exact htag hne

/-- A type that has a view settles every question. -/
theorem settled_of_view (hid : r.contains id = true) (h : r.view id = .ok d.view) :
    q.Settled r id := by
  obtain ⟨a, ha, hask⟩ := ask_eq_answer (q := q) h
  rw [View.answer] at hask
  by_cases htag : d.view.tag = q.expected
  · obtain ⟨b, hb⟩ := exists_field (d.tag_view.symm.trans htag)
    obtain rfl := ha b hb
    rw [if_pos htag] at hask
    exact settled_of_tag_eq hid h htag hb hask
  · rw [if_neg htag] at hask
    exact settled_of_tag_ne hid h htag hask

/-- An identifier that is not registered settles every question. -/
theorem settled_of_not_contains (hid : r.contains id = false) : q.Settled r id := by
  have hask : q.ask r id = .error (.unknownIdentifier id r.size) := by
    cases q <;> simp only [ask, Registry.arraySize, Registry.arrayElem, Registry.vectorElem,
      Registry.mapKey, Registry.mapValue, Registry.tupleFields, Registry.packageFields,
      Registry.variantMembers, Registry.functionResult, Registry.functionParams,
      Registry.readAs_of_not_contains hid]
  refine ⟨?_, ?_, ?_, .inr (.inl hask)⟩
  · exact iff_of_true hask hid
  · intro found
    simp [hask, hid]
  · intro a
    simp [hask, Registry.view_of_not_contains hid]

end Question

namespace Registry

variable {r : Registry} {ps : List Packed} {id : TypeId}

/-- What is registered is described by a canonical descriptor. -/
theorem Holds.exists_canonical (H : r.Holds ps) (hid : r.contains id = true) :
    ∃ d : Descriptor, r.view id = .ok d.view ∧ d.canonical = d := by
  obtain ⟨p, hp⟩ := H.exists_numbers_of_contains hid
  obtain ⟨d, hd, -⟩ := H.describe hp
  exact ⟨d, H.view_of_encodes hp hd, Descriptor.canonical_eq_self hd.ofExpanded⟩

/-- Every question about every identifier is settled. -/
theorem Holds.settled {α : Type} (H : r.Holds ps) (q : Question α) (id : TypeId) :
    q.Settled r id := by
  cases hid : r.contains id with
  | false => exact Question.settled_of_not_contains hid
  | true =>
    obtain ⟨d, hview, -⟩ := H.exists_canonical hid
    exact Question.settled_of_view hid hview

/-- The members of a variant come in strictly ascending order. -/
theorem Holds.variantMembers_ascending (H : r.Holds ps) {members : List TypeId}
    (h : r.variantMembers id = .ok members) : members.Pairwise (· < ·) := by
  cases hid : r.contains id with
  | false =>
    rw [variantMembers, readAs_of_not_contains hid] at h
    cases h
  | true =>
    obtain ⟨d, hview, hcanonical⟩ := H.exists_canonical hid
    have hshape : d.shape.canonical = d.shape := congrArg Descriptor.shape hcanonical
    rw [(answers_of_view hview).variantMembers, View.answer] at h
    by_cases htag : d.view.tag = .variant
    · rw [if_pos htag, Descriptor.list_view] at h
      cases h
      exact Shape.canonical_eq_self_iff.1 hshape (d.tag_view.symm.trans htag)
    · rw [if_neg htag] at h
      cases h

/-- Every question about every identifier is settled, in every registry that requests make of
a new one, and none reports damaged bytes. Of an identifier that is not registered nothing is
said; what is said of a whole type agrees with its view. The members of a variant are in
strictly ascending order. -/
theorem questions_settled (options : Options) (qs : List Request) (id : TypeId) :
    let r := (make options).run qs
    (∀ {α : Type} (q : Question α), q.Settled r id ∧
      (∀ fault, q.ask r id ≠ .error (.invalidEncoding fault)) ∧
      ∀ offset, q.ask r id ≠ .error (.stashOverflow offset)) ∧
    (r.contains id = false →
      r.view id = .error (.unknownIdentifier id r.size) ∧
      r.packed id = .error (.unknownIdentifier id r.size) ∧
      r.tag? id = none ∧ r.isConst id = false) ∧
    (r.contains id = true → ∃ v, r.view id = .ok v ∧ r.packed id = .ok v.pack ∧
      r.tag? id = some v.tag ∧ r.isConst id = v.isConst) ∧
    ∀ members, r.variantMembers id = .ok members → members.Pairwise (· < ·) := by
  intro r
  obtain ⟨new, H⟩ := holds_run options qs
  change r.Holds (basicEncodings ++ new) at H
  refine ⟨?_, ?_, ?_, fun members => H.variantMembers_ascending⟩
  · intro α q
    exact ⟨H.settled q id, (H.settled q id).undamaged⟩
  · intro hid
    exact ⟨view_of_not_contains hid, packed_of_not_contains hid, tag?_of_not_contains hid,
      isConst_of_not_contains hid⟩
  · intro hid
    obtain ⟨d, hview, -⟩ := H.exists_canonical hid
    have HA := answers_of_view hview
    exact ⟨d.view, HA.view, HA.packed, HA.tag, HA.isConst⟩

/-- A constant variant whose members were given out of order, and a function in the stash. -/
theorem questions_settled_variant :
    let variant : View := { tag := .variant, isConst := true, list := [⟨300⟩, ⟨1⟩, ⟨300⟩, ⟨9⟩] }
    let function : View := { tag := .function, type1 := some ⟨70000⟩, list := [⟨17⟩, ⟨9⟩] }
    let r := (make {}).run [.intern variant.pack, .create function.pack, .intern variant.pack]
    (r.contains ⟨17⟩ = true ∧ r.contains ⟨19⟩ = false) ∧
    (∀ {α : Type} (q : Question α), q.Settled r ⟨17⟩ ∧
      (∀ fault, q.ask r ⟨17⟩ ≠ .error (.invalidEncoding fault)) ∧
      ∀ offset, q.ask r ⟨17⟩ ≠ .error (.stashOverflow offset)) ∧
    (∃ v, r.view ⟨17⟩ = .ok v ∧ r.packed ⟨17⟩ = .ok v.pack ∧
      r.tag? ⟨17⟩ = some v.tag ∧ r.isConst ⟨17⟩ = v.isConst) ∧
    r.variantMembers ⟨17⟩ = .ok [⟨1⟩, ⟨9⟩, ⟨300⟩] ∧
    r.view ⟨19⟩ = .error (.unknownIdentifier ⟨19⟩ r.size) := by
  intro variant function r
  have hid : r.contains ⟨17⟩ = true := by decide +kernel
  have hno : r.contains ⟨19⟩ = false := by decide +kernel
  have H := questions_settled {} [.intern variant.pack, .create function.pack, .intern variant.pack]
  obtain ⟨hsettled, -, hyes, -⟩ := H ⟨17⟩
  obtain ⟨-, hunknown, -, -⟩ := H ⟨19⟩
  exact ⟨⟨hid, hno⟩, hsettled, hyes hid, by decide +kernel, (hunknown hno).1⟩

end Registry

end TypeCodex
