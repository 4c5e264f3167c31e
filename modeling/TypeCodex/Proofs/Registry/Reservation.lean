import Mathlib.Algebra.Order.BigOperators.Group.List
import TypeCodex.Proofs.Nibble.Sequence
import TypeCodex.Proofs.Registry.ReadBack
import TypeCodex.Proofs.Registry.Totality

/-!
# Room for lists

Room for a list is reserved before its members are read, by the number that stands in front of
them. A registered encoding has its own number there, and that is no greater than the nibbles
behind it, whatever bytes follow the encoding. Nibbles that come from outside may announce any
number, but the list that is read off them grows by a member only when a nibble is used up.

## Main definitions

* `ListQuestion.reserved` — the number by which room is reserved for an answer.
* `Shape.pushed`, `Descriptor.pushed` — the members that a list gets until reading ends.

## Main statements

* `Reader.length_many_le_measure` — no more values are read than there is to read.
* `ListQuestion.reserved_of_ask` — the room that is reserved is that of the answer.
* `Registry.Holds.length_list_le` — registered lists are no longer than their encodings.
* `Registry.reservations_bounded` — room for registered lists, and members of other ones.
-/

namespace TypeCodex

/-- If every value that is read uses something up, there are no more values than there is to
use, however many are asked for. -/
theorem Reader.length_many_le_measure {σ ε α : Type} {read : Reader σ ε α} (left : σ → Nat)
    (h : ∀ s a s', read s = .ok (a, s') → left s' < left s) (count : Nat) (s : σ) :
    (many read count s).1.length ≤ left s := by
  induction count generalizing s with
  | zero => exact Nat.zero_le _
  | succ count ih =>
    cases hread : read s with
    | error e =>
      rw [many_succ_error hread]
      exact Nat.zero_le _
    | ok p =>
      obtain ⟨a, s'⟩ := p
      have hless := h s a s' hread
      have hrest := ih s'
      rw [many_succ_ok hread, List.length_cons]
      omega

namespace Cursor

variable {c c' : Cursor}

theorem length_of_next {n : UInt8} (h : next c = .ok (n, c')) :
    c'.rest.length + 1 = c.rest.length := by
  obtain ⟨offset, rest⟩ := c
  cases rest with
  | nil => cases h
  | cons m rest =>
    by_cases hm : Nibble.Fits m
    · rw [next_cons hm] at h
      cases h
      rfl
    · rw [next] at h
      simp only [if_neg hm] at h
      cases h

theorem length_of_digits {k acc v : Nat} (h : digits k acc c = .ok (v, c')) :
    c'.rest.length ≤ c.rest.length := by
  induction k generalizing acc c with
  | zero =>
    cases h
    exact Nat.le_refl _
  | succ k ih =>
    obtain ⟨n, c₁, hnext, hdigits⟩ := Reader.bind_eq_ok.1 h
    have hfirst := length_of_next hnext
    have hrest := ih hdigits
    omega

/-- A word uses up at least one nibble. -/
theorem length_of_int {v : UInt32} (h : int c = .ok (v, c')) :
    c'.rest.length < c.rest.length := by
  obtain ⟨head, c₁, hnext, h⟩ := Reader.bind_eq_ok.1 h
  have hhead := length_of_next hnext
  by_cases h8 : head < 8
  · rw [if_pos h8] at h
    cases h
    omega
  · rw [if_neg h8] at h
    obtain ⟨n, hdigits, -⟩ := Reader.map_eq_ok.1 h
    have hrest := length_of_digits hdigits
    omega

theorem length_of_readId {id : TypeId} (h : Shape.readId int c = .ok (id, c')) :
    c'.rest.length < c.rest.length := by
  obtain ⟨v, hint, -⟩ := Reader.map_eq_ok.1 h
  exact length_of_int hint

end Cursor

/-! ## Members until reading ends -/

namespace Shape

variable {σ ε : Type}

/-- The members that a list gets until reading ends, with or without a fault. -/
def pushedIds (int : Reader σ ε UInt32) (s : σ) : List TypeId :=
  match int s with
  | .ok (count, s) => (Reader.many (readId int) count.toNat s).1
  | .error _ => []

/-- The members that the list of a shape gets until reading ends. -/
def pushed (int : Reader σ ε UInt32) (t : Tag) (s : σ) : List TypeId :=
  match t with
  | .variant | .tuple | .package => pushedIds int s
  | .function =>
    match readId int s with
    | .ok (_, s) => pushedIds int s
    | .error _ => []
  | .basic _ | .array | .vector | .map => []

variable {int : Reader σ ε UInt32} {s s' : σ}

theorem pushedIds_of_readIds {ids : List TypeId} (h : readIds int s = .ok (ids, s')) :
    pushedIds int s = ids := by
  obtain ⟨count, s₁, hint, hlist⟩ := Reader.bind_eq_ok.1 h
  rw [pushedIds, hint]
  exact congrArg Prod.fst (Reader.list_eq_ok.1 hlist)

/-- If reading succeeds, the list has got all of its members. -/
theorem pushed_of_read {t : Tag} {shape : Shape TypeId} (h : read int t s = .ok (shape, s')) :
    pushed int t s = shape.listed := by
  cases t with
  | basic b =>
    cases h
    rfl
  | vector =>
    obtain ⟨elem, -, rfl⟩ := Reader.map_eq_ok.1 h
    rfl
  | variant | tuple | package =>
    obtain ⟨ids, hids, rfl⟩ := Reader.map_eq_ok.1 h
    exact pushedIds_of_readIds hids
  | array | map =>
    obtain ⟨a, s₁, -, h⟩ := Reader.bind_eq_ok.1 h
    obtain ⟨b, s₂, -, h⟩ := Reader.bind_eq_ok.1 h
    cases h
    rfl
  | function =>
    obtain ⟨ret, s₁, hret, h⟩ := Reader.bind_eq_ok.1 h
    obtain ⟨params, s₂, hparams, h⟩ := Reader.bind_eq_ok.1 h
    cases h
    rw [pushed, hret]
    exact pushedIds_of_readIds hparams

theorem length_pushedIds_le (c : Cursor) : (pushedIds Cursor.int c).length ≤ c.rest.length := by
  rw [pushedIds]
  cases hint : Cursor.int c with
  | error fault => exact Nat.zero_le _
  | ok p =>
    obtain ⟨count, c'⟩ := p
    have hcount := Cursor.length_of_int hint
    have hids := Reader.length_many_le_measure (fun c : Cursor => c.rest.length)
      (fun _ _ _ => Cursor.length_of_readId) count.toNat c'
    exact Nat.le_of_lt (Nat.lt_of_le_of_lt hids hcount)

/-- A list never gets more members than there are nibbles. -/
theorem length_pushed_le (t : Tag) (c : Cursor) :
    (pushed Cursor.int t c).length ≤ c.rest.length := by
  cases t with
  | basic | array | vector | map => exact Nat.zero_le _
  | variant | tuple | package => exact length_pushedIds_le c
  | function =>
    rw [pushed]
    cases hret : readId Cursor.int c with
    | error fault => exact Nat.zero_le _
    | ok p =>
      obtain ⟨ret, c'⟩ := p
      have hfirst := Cursor.length_of_readId hret
      exact Nat.le_trans (length_pushedIds_le c') (Nat.le_of_lt hfirst)

/-- A listed operand takes at least one nibble. -/
theorem length_listed_le (s : Shape TypeId) :
    s.listed.length ≤ (Nibble.encodeAll s.words).length := by
  have hwidths : ∀ n ∈ s.words.map Nibble.width, 1 ≤ n := by
    intro n hn
    obtain ⟨v, -, rfl⟩ := List.mem_map.1 hn
    exact Nibble.one_le_width v
  have hwords : s.words.length ≤ (Nibble.encodeAll s.words).length := by
    have hsum := List.length_le_sum_of_one_le _ hwidths
    rwa [List.length_map, ← Nibble.length_encodeAll] at hsum
  refine Nat.le_trans ?_ hwords
  cases s <;> simp [listed, words, counted]
  omega

end Shape

namespace Descriptor

/-- The members that the list of a descriptor gets until the operands behind its tag byte are
read, or cannot be read. -/
def pushed (e : Expanded) : List TypeId :=
  match e.tagByte.tag? with
  | none => []
  | some t => Shape.pushed Cursor.int t (Cursor.start e.nibbles)

theorem length_pushed_le (e : Expanded) : (pushed e).length ≤ e.nibbles.length := by
  rw [pushed]
  cases e.tagByte.tag? with
  | none => exact Nat.zero_le _
  | some t => exact Shape.length_pushed_le t (Cursor.start e.nibbles)

theorem pushed_of_ofExpanded {e : Expanded} {d : Descriptor} (h : ofExpanded e = .ok d) :
    pushed e = d.shape.listed := by
  obtain ⟨htag, -, c, hread⟩ := ofExpanded_eq_ok h
  rw [pushed, htag]
  exact Shape.pushed_of_read hread

end Descriptor

/-- The list of an encoding has at most as many members as its operand bytes have nibbles. -/
theorem Packed.Encodes.length_listed_le {p : Packed} {d : Descriptor} (H : p.Encodes d) :
    d.shape.listed.length ≤ 2 * p.body.length := by
  have hcanonical : d.shape.canonical = d.shape :=
    congrArg Descriptor.shape (Descriptor.canonical_eq_self H.ofExpanded)
  have hlisted := Shape.length_listed_le d.shape
  have hnibbles : d.expand.nibbles = Nibble.encodeAll d.shape.words := by
    rw [Descriptor.expand, Expanded.nibbles_ofWords, hcanonical]
  have hbody : p.body.length = (d.expand.nibbles.length + 1) / 2 := by
    rw [← H.pack]
    exact Nibble.length_pairs _
  rw [hnibbles] at hbody
  omega

/-! ## Room for answers -/

/-- A question is answered when the entry has the right category and its operands can be read. -/
theorem Registry.readAs_eq_ok {α : Type} {r : Registry} {id : TypeId} {expected : Tag}
    {read : Reader Nat Fault UInt32 → Reader Nat Fault α} {a : α} :
    r.readAs id expected read = .ok a ↔
      ∃ e, r.entry id = .ok e ∧ e.tag = expected ∧ ∃ pos, read e.operands.int 0 = .ok (a, pos) := by
  rw [readAs_eq_bind, bind_eq_ok]
  refine exists_congr fun e => and_congr_right fun _ => ?_
  by_cases htag : e.tag = expected
  · rw [if_pos htag, Reader.value]
    cases hread : read e.operands.int 0 with
    | error fault => simp [Except.map, Except.mapError]
    | ok p => simp [Except.map, Except.mapError, htag, Prod.ext_iff]
  · simp [htag]

/-- The questions for a list. -/
inductive ListQuestion where
  | tupleFields
  | packageFields
  | variantMembers
  | functionParams

namespace ListQuestion

/-- A question for a list as one among all questions. -/
def question : ListQuestion → Question (List TypeId)
  | tupleFields => .tupleFields
  | packageFields => .packageFields
  | variantMembers => .variantMembers
  | functionParams => .functionParams

/-- Reads the number in front of a list, behind the operands that stand before it. -/
def lead (q : ListQuestion) (int : Reader Nat Fault UInt32) : Reader Nat Fault UInt32 :=
  match q with
  | functionParams => int *> int
  | tupleFields | packageFields | variantMembers => int

/-- The number by which room is reserved for an answer, before the first member is read. -/
def reserved (q : ListQuestion) (r : Registry) (id : TypeId) : Except RegistryError UInt32 :=
  r.readAs id q.question.expected q.lead

variable {q : ListQuestion} {r : Registry} {id : TypeId} {count : UInt32}

/-- An answer is read behind its number. -/
theorem read_question (q : ListQuestion) (int : Reader Nat Fault UInt32) :
    q.question.read int =
      q.lead int >>= fun count => Reader.list (Shape.readId int) count.toNat := by
  cases q with
  | tupleFields | packageFields | variantMembers => rfl
  | functionParams =>
    funext pos
    change (int pos).bind (fun p => (int p.2).bind _)
      = ((int pos).bind fun p => int p.2).bind _
    cases int pos <;> rfl

/-- The room that is reserved is that of the answer. -/
theorem reserved_of_ask {ids : List TypeId} (h : q.question.ask r id = .ok ids) :
    ∃ count, q.reserved r id = .ok count ∧ ids.length = count.toNat := by
  rw [Question.ask_eq_readAs] at h
  obtain ⟨e, he, htag, pos, hread⟩ := Registry.readAs_eq_ok.1 h
  rw [read_question] at hread
  obtain ⟨count, pos', hcount, hlist⟩ := Reader.bind_eq_ok.1 hread
  exact ⟨count, Registry.readAs_eq_ok.2 ⟨e, he, htag, pos', hcount⟩, Reader.length_list hlist⟩

/-- Room is reserved for the lists of registered types of the right category only. -/
theorem contains_of_reserved (h : q.reserved r id = .ok count) :
    r.contains id = true ∧ r.tag? id = some q.question.expected := by
  obtain ⟨e, he, htag, -⟩ := Registry.readAs_eq_ok.1 h
  obtain ⟨hbyte, hbtag⟩ := Registry.tagByte?_of_entry he
  constructor
  · cases hid : r.contains id with
    | true => rfl
    | false =>
      rw [reserved, Registry.readAs_of_not_contains hid] at h
      cases h
  · rw [Registry.tag?, hbyte, ← htag]
    exact hbtag

end ListQuestion

namespace Registry

variable {r : Registry} {ps : List Packed} {p : Packed} {id : TypeId}

/-- The list of a registered type is asked for by the question of its category, and is no longer
than the operand bytes of the type have nibbles. -/
theorem Holds.length_list_le (H : r.Holds ps) (hp : Numbers ps id p)
    {q : ListQuestion} (htag : r.tag? id = some q.question.expected) :
    ∃ ids, q.question.ask r id = .ok ids ∧ ids.length ≤ 2 * p.body.length := by
  obtain ⟨d, hd, -⟩ := H.describe hp
  have hview := H.view_of_encodes hp hd
  have hcategory : d.view.tag = q.question.expected :=
    Option.some.inj ((answers_of_view hview).tag.symm.trans htag)
  have hfield : q.question.field d.view = some d.view.list := by
    cases q <;> rfl
  have hask := ((H.settled q.question id).ok_iff _).2 ⟨d.view, hview, hcategory, hfield⟩
  refine ⟨d.view.list, hask, ?_⟩
  rw [Descriptor.list_view]
  exact hd.length_listed_le

/-- In every registry that requests make of a new one, the room that is reserved for the list of
a registered type is that of the answer, and at most two members for each operand byte of the
encoding for which the identifier was given out. No room is reserved for other lists. And the
list that is read off an expanded encoding, readable or not, gets at most as many members as
there are nibbles, which are all of its members if it can be read. -/
theorem reservations_bounded (options : Options) (qs : List Request) :
    let r := (make options).run qs
    (∀ (q : ListQuestion) (id : TypeId), r.contains id = true →
      r.tag? id = some q.question.expected → ∃ p count ids, Created options qs id p ∧
        r.packed id = .ok p ∧ q.reserved r id = .ok count ∧ q.question.ask r id = .ok ids ∧
        ids.length = count.toNat ∧ count.toNat ≤ 2 * p.body.length) ∧
    (∀ (q : ListQuestion) (id : TypeId) (count : UInt32),
      q.reserved r id = .ok count → r.contains id = true ∧ r.tag? id = some q.question.expected) ∧
    ∀ e : Expanded, (Descriptor.pushed e).length ≤ e.nibbles.length ∧
      ∀ d, Descriptor.ofExpanded e = .ok d → Descriptor.pushed e = d.shape.listed := by
  intro r
  obtain ⟨new, H⟩ := holds_run options qs
  change r.Holds (basicEncodings ++ new) at H
  refine ⟨?_, fun q id count => ListQuestion.contains_of_reserved, ?_⟩
  · intro q id hid htag
    obtain ⟨p, hp⟩ := H.exists_numbers_of_contains hid
    obtain ⟨ids, hask, hids⟩ := H.length_list_le hp htag
    obtain ⟨count, hcount, hlength⟩ := ListQuestion.reserved_of_ask hask
    exact ⟨p, count, ids, (created_iff H).2 hp, H.packed hp, hcount, hask, hlength,
      hlength ▸ hids⟩
  · intro e
    exact ⟨Descriptor.length_pushed_le e, fun d => Descriptor.pushed_of_ofExpanded⟩

/-- A tuple in the stash with a package behind it, and an encoding that announces the greatest
number of members and holds two. -/
theorem reservations_bounded_tuple :
    let tuple : View := { tag := .tuple, list := [⟨1⟩, ⟨300⟩, ⟨70000⟩] }
    let package : View := { tag := .package, list := [⟨70000⟩, ⟨1⟩, ⟨1⟩] }
    let r := (make {}).run [.intern tuple.pack, .create package.pack]
    let short : Expanded := ⟨⟨0x2d⟩, [15, 15, 15, 15, 15, 15, 15, 15, 15, 1, 2]⟩
    (r.contains ⟨17⟩ = true ∧ r.tag? ⟨17⟩ = some .tuple ∧
      ListQuestion.tupleFields.reserved r ⟨17⟩ = .ok 3 ∧
      Descriptor.ofExpanded package.expand = .ok package.descriptor ∧
      Descriptor.ofExpanded short = .error (.truncated 11) ∧
      Descriptor.pushed short = [⟨1⟩, ⟨2⟩]) ∧
    (∃ p count ids, Created {} [.intern tuple.pack, .create package.pack] ⟨17⟩ p ∧
      r.packed ⟨17⟩ = .ok p ∧ ListQuestion.tupleFields.reserved r ⟨17⟩ = .ok count ∧
      Question.tupleFields.ask r ⟨17⟩ = .ok ids ∧ ids.length = count.toNat ∧
      count.toNat ≤ 2 * p.body.length) ∧
    (Descriptor.pushed short).length ≤ short.nibbles.length ∧
    Descriptor.pushed package.expand = package.descriptor.shape.listed := by
  intro tuple package r short
  have hid : r.contains ⟨17⟩ = true := by decide +kernel
  have htag : r.tag? ⟨17⟩ = some .tuple := by decide +kernel
  have hread : Descriptor.ofExpanded package.expand = .ok package.descriptor := by decide +kernel
  have H := reservations_bounded {} [.intern tuple.pack, .create package.pack]
  exact ⟨⟨hid, htag, by decide +kernel, hread, by decide +kernel, by decide +kernel⟩,
    H.1 .tupleFields ⟨17⟩ hid htag, (H.2.2 short).1, (H.2.2 package.expand).2 _ hread⟩

end Registry

end TypeCodex
