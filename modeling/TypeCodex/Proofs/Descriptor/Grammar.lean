import TypeCodex.Descriptor
import TypeCodex.Proofs.Nibble.Grammar
import TypeCodex.Proofs.Packing.Bijection

/-!
# The grammar of operands

The operand nibbles of an encoding are well-formed for a tag when they are the operand words
of a shape with that tag, one after the other, each of them in the shortest form or with
leading zeros. Well-formed nibbles show where they end. So the nibbles behind a tag byte are
well-formed, or they begin with well-formed ones and go on, or they break off; reading tells
which, and how many nibbles are left over.

## Main definitions

* `Shape.Countable` — the length of a list fits in a word.
* `Shape.Spells`, `Tag.WellFormed` — the grammar, with and without the shape.

## Main statements

* `Shape.parses_read` — the operands behind a tag are read by the grammar.
* `Descriptor.ofExpanded_outcomes` — the outcomes of reading by the grammar.
-/

namespace TypeCodex

namespace Shape

open Cursor

variable {α β : Type}

/-- The operands that stand behind their number. -/
def listed : Shape α → List α
  | variant members => members
  | tuple fields => fields
  | package fields => fields
  | function _ params => params
  | _ => []

/-- The number of listed operands fits in a word. -/
def Countable (s : Shape α) : Prop := s.listed.length < 2 ^ 32

/-- Nibbles are well-formed for a tag and stand for a shape with the tag: they are the operand
words of the shape, one after the other, and a list is no longer than its first word says. -/
structure Spells (t : Tag) (ns : List UInt8) (s : Shape TypeId) : Prop where
  tag : s.tag = t
  countable : s.Countable
  words : Nibble.SpellsAll ns s.words

theorem parses_id : Parses (readId int) fun ns id => Nibble.Spells ns id.raw := by
  refine (parses_map TypeId.mk parses_int).congr fun ns id => ?_
  constructor
  · rintro ⟨v, h, rfl⟩
    exact h
  · intro h
    exact ⟨id.raw, h, rfl⟩

/-- An identifier that stands last, with a condition that always holds. -/
theorem parses_last_id {P : TypeId → Prop} (hP : ∀ id, P id) :
    Parses (readId int) fun ns id => P id ∧ Nibble.SpellsAll ns [id.raw] :=
  parses_id.congr fun ns id => by simp [hP id]

/-- A list is as long as the word in front of it says. -/
theorem parses_ids : Parses (readIds int) fun ns ids =>
    ids.length < 2 ^ 32 ∧ Nibble.SpellsAll ns (counted ids) := by
  refine (parses_bind parses_int fun count => parses_list parses_id count.toNat).congr
    fun ns ids => ?_
  constructor
  · rintro ⟨front, back, count, rfl, hcount, hlength, h⟩
    rw [counted, hlength, UInt32.ofNat_toNat]
    exact ⟨count.toNat_lt, .cons hcount h⟩
  · rintro ⟨hlength, h⟩
    obtain ⟨front, back, rfl, hcount, h⟩ := Nibble.spellsAll_cons.1 h
    exact ⟨front, back, _, rfl, hcount, (UInt32.toNat_ofNat_of_lt hlength).symm, h⟩

section

variable {t : Tag} {x : Reader Cursor Fault α} {y : Reader Cursor Fault β}

/-- Shapes that are made of what one reader gives. -/
theorem parses_make {make : α → Shape TypeId} (htag : ∀ s, s.tag = t ↔ ∃ a, make a = s)
    (hx : Parses x fun ns a => (make a).Countable ∧ Nibble.SpellsAll ns (make a).words) :
    Parses (make <$> x) (Spells t) := by
  refine (parses_map make hx).congr fun ns s => ?_
  constructor
  · rintro ⟨a, ⟨hcountable, h⟩, rfl⟩
    exact ⟨(htag _).2 ⟨a, rfl⟩, hcountable, h⟩
  · rintro ⟨hs, hcountable, h⟩
    obtain ⟨a, rfl⟩ := (htag s).1 hs
    exact ⟨a, ⟨hcountable, h⟩, rfl⟩

/-- Shapes that are made of one word and what a second reader gives. -/
theorem parses_make_pair {make : α → β → Shape TypeId} {word : α → UInt32}
    {words : β → List UInt32} (htag : ∀ s, s.tag = t ↔ ∃ a b, make a b = s)
    (hwords : ∀ a b, (make a b).words = word a :: words b)
    (hx : Parses x fun ns a => Nibble.Spells ns (word a))
    (hy : ∀ a, Parses y fun ns b => (make a b).Countable ∧ Nibble.SpellsAll ns (words b)) :
    Parses (x >>= fun a => y >>= fun b => pure (make a b)) (Spells t) := by
  refine (parses_bind hx fun a => parses_bind (hy a) fun b => parses_pure (make a b)).congr
    fun ns s => ?_
  constructor
  · rintro ⟨front, back, a, rfl, ha, middle, last, b, rfl, ⟨hcountable, hb⟩, rfl, rfl⟩
    rw [List.append_nil]
    exact ⟨(htag _).2 ⟨a, b, rfl⟩, hcountable, hwords a b ▸ .cons ha hb⟩
  · rintro ⟨hs, hcountable, h⟩
    obtain ⟨a, b, rfl⟩ := (htag s).1 hs
    rw [hwords] at h
    obtain ⟨front, back, rfl, ha, hb⟩ := Nibble.spellsAll_cons.1 h
    exact ⟨front, back, a, rfl, ha, back, [], b, (List.append_nil back).symm,
      ⟨hcountable, hb⟩, rfl, rfl⟩

end

/-- The operands behind a tag are read by the grammar. -/
theorem parses_read (t : Tag) : Parses (read int t) (Spells t) := by
  have hshort : (0 : Nat) < 2 ^ 32 := Nat.two_pow_pos 32
  cases t with
  | basic b =>
    refine (parses_pure (basic b)).congr fun ns s => ?_
    constructor
    · rintro ⟨rfl, rfl⟩
      exact ⟨rfl, hshort, .nil⟩
    · rintro ⟨htag, -, h⟩
      cases s with
      | basic c =>
        cases htag
        exact ⟨Nibble.spellsAll_nil.1 h, rfl⟩
      | _ => cases htag
  | variant => exact parses_make (fun s => by cases s <;> simp [tag]) parses_ids
  | array =>
    exact parses_make_pair (fun s => by cases s <;> simp [tag]) (fun _ _ => rfl) parses_int
      fun _ => parses_last_id fun _ => hshort
  | vector =>
    exact parses_make (fun s => by cases s <;> simp [tag]) (parses_last_id fun _ => hshort)
  | map =>
    exact parses_make_pair (fun s => by cases s <;> simp [tag]) (fun _ _ => rfl) parses_id
      fun _ => parses_last_id fun _ => hshort
  | tuple => exact parses_make (fun s => by cases s <;> simp [tag]) parses_ids
  | package => exact parses_make (fun s => by cases s <;> simp [tag]) parses_ids
  | function =>
    exact parses_make_pair (fun s => by cases s <;> simp [tag]) (fun _ _ => rfl) parses_id
      fun _ => parses_ids

end Shape

namespace Tag

/-- Nibbles are well-formed for a tag. -/
def WellFormed (t : Tag) (ns : List UInt8) : Prop := ∃ s, Shape.Spells t ns s

/-- Nibbles go on behind well-formed ones, with some of them left over. -/
def LeavesOver (t : Tag) (ns : List UInt8) (remaining : Nat) : Prop :=
  0 < remaining ∧ remaining ≤ ns.length ∧ t.WellFormed (ns.take (ns.length - remaining))

/-- Nibbles break off: more of them would be well-formed. -/
def BreaksOff (t : Tag) (ns : List UInt8) : Prop := ∃ more, more ≠ [] ∧ t.WellFormed (ns ++ more)

variable {t : Tag} {ns front back : List UInt8}

theorem leavesOver_append (h : t.WellFormed front) (hback : back ≠ []) :
    t.LeavesOver (front ++ back) back.length := by
  have hpos := List.length_pos_iff.2 hback
  have hlength : (front ++ back).length = front.length + back.length := List.length_append
  refine ⟨hpos, by omega, ?_⟩
  rw [hlength, Nat.add_sub_cancel, List.take_left]
  exact h

theorem LeavesOver.exists_append {remaining : Nat} (h : t.LeavesOver ns remaining) :
    ∃ front back, ns = front ++ back ∧ back ≠ [] ∧ back.length = remaining ∧
      t.WellFormed front := by
  obtain ⟨hpos, hle, hfront⟩ := h
  have hlength : (ns.drop (ns.length - remaining)).length = remaining := by
    rw [List.length_drop]
    omega
  refine ⟨_, ns.drop (ns.length - remaining), (List.take_append_drop _ ns).symm, ?_, hlength,
    hfront⟩
  exact List.length_pos_iff.1 (by omega)

/-- Any nibbles are well-formed, leave some over, or break off. -/
theorem wellFormed_or (t : Tag) (hns : ∀ n ∈ ns, Nibble.Fits n) :
    t.WellFormed ns ∨ (∃ remaining, t.LeavesOver ns remaining) ∨ t.BreaksOff ns := by
  rcases (Shape.parses_read t).split ns hns with ⟨front, back, s, rfl, h⟩ | ⟨⟨more, s, hmore, h⟩, -⟩
  · by_cases hback : back = []
    · subst hback
      rw [List.append_nil]
      exact .inl ⟨s, h⟩
    · exact .inr (.inl ⟨back.length, leavesOver_append ⟨s, h⟩ hback⟩)
  · exact .inr (.inr ⟨more, hmore, s, h⟩)

end Tag

namespace Descriptor

variable {e : Expanded} {t : Tag} {s : Shape TypeId}

theorem ofExpanded_of_spells (ht : e.tagByte.tag? = some t) (h : Shape.Spells t e.nibbles s) :
    ofExpanded e = .ok ⟨e.tagByte.isConst, s⟩ := by
  have hread := (Shape.parses_read t).reads e.nibbles s h 0 []
  rw [List.append_nil] at hread
  simp only [ofExpanded, ht, Cursor.start, hread, if_true]

theorem ofExpanded_of_leavesOver (ht : e.tagByte.tag? = some t) {remaining : Nat}
    (h : t.LeavesOver e.nibbles remaining) :
    ofExpanded e = .error (.trailingNibbles remaining) := by
  obtain ⟨front, back, hns, hback, rfl, s, hs⟩ := h.exists_append
  have hread := (Shape.parses_read t).reads front s hs 0 back
  simp only [ofExpanded, ht, Cursor.start, hns, hread, if_neg hback]

theorem ofExpanded_of_breaksOff (ht : e.tagByte.tag? = some t)
    (hns : ∀ n ∈ e.nibbles, Nibble.Fits n) (h : t.BreaksOff e.nibbles) :
    ofExpanded e = .error (.truncated e.nibbles.length) := by
  obtain ⟨more, hmore, s, hs⟩ := h
  have hread := (Shape.parses_read t).truncated hns hmore hs 0
  rw [Nat.zero_add] at hread
  simp only [ofExpanded, ht, Cursor.start, hread]

section

variable (ht : e.tagByte.tag? = some t) (hns : ∀ n ∈ e.nibbles, Nibble.Fits n)
include ht hns

/-- Every case has its own outcome. -/
theorem ofExpanded_cases :
    (∃ s, Shape.Spells t e.nibbles s ∧ ofExpanded e = .ok ⟨e.tagByte.isConst, s⟩) ∨
    (∃ remaining, t.LeavesOver e.nibbles remaining ∧
      ofExpanded e = .error (.trailingNibbles remaining)) ∨
    t.BreaksOff e.nibbles ∧ ofExpanded e = .error (.truncated e.nibbles.length) := by
  rcases t.wellFormed_or hns with ⟨s, h⟩ | ⟨remaining, h⟩ | h
  · exact .inl ⟨s, h, ofExpanded_of_spells ht h⟩
  · exact .inr (.inl ⟨remaining, h, ofExpanded_of_leavesOver ht h⟩)
  · exact .inr (.inr ⟨h, ofExpanded_of_breaksOff ht hns h⟩)

theorem ofExpanded_eq_ok_iff (s : Shape TypeId) :
    ofExpanded e = .ok ⟨e.tagByte.isConst, s⟩ ↔ Shape.Spells t e.nibbles s := by
  refine ⟨fun h => ?_, ofExpanded_of_spells ht⟩
  rcases ofExpanded_cases ht hns with ⟨s', hs, heq⟩ | ⟨remaining, -, heq⟩ | ⟨-, heq⟩
  all_goals
    rw [heq] at h
    cases h
  exact hs

theorem ofExpanded_eq_trailing_iff (remaining : Nat) :
    ofExpanded e = .error (.trailingNibbles remaining) ↔ t.LeavesOver e.nibbles remaining := by
  refine ⟨fun h => ?_, ofExpanded_of_leavesOver ht⟩
  rcases ofExpanded_cases ht hns with ⟨s, -, heq⟩ | ⟨remaining', hr, heq⟩ | ⟨-, heq⟩
  all_goals
    rw [heq] at h
    cases h
  exact hr

theorem ofExpanded_eq_truncated_iff (offset : Nat) :
    ofExpanded e = .error (.truncated offset) ↔
      offset = e.nibbles.length ∧ t.BreaksOff e.nibbles := by
  constructor
  · intro h
    rcases ofExpanded_cases ht hns with ⟨s, -, heq⟩ | ⟨remaining, -, heq⟩ | ⟨hb, heq⟩
    all_goals
      rw [heq] at h
      cases h
    exact ⟨rfl, hb⟩
  · rintro ⟨rfl, h⟩
    exact ofExpanded_of_breaksOff ht hns h

theorem ofExpanded_ne_invalidNibble (offset : Nat) (value : UInt8) :
    ofExpanded e ≠ .error (.invalidNibble offset value) := by
  intro h
  rcases ofExpanded_cases ht hns with ⟨s, -, heq⟩ | ⟨remaining, -, heq⟩ | ⟨-, heq⟩
  all_goals
    rw [heq] at h
    cases h

end

/-- The outcomes of reading an expanded encoding. An unknown tag is reported with its five
bits. Behind a known one, the operands are read if the nibbles are well-formed; nibbles are
reported as left over if those in front of them are well-formed, and as truncated at their end
if they break off. Exactly one of the three is the case, and no nibble is invalid. -/
theorem ofExpanded_outcomes {elements : List UInt8} {e : Expanded}
    (h : Expanded.ofElements elements = .ok e) :
    (e.tagByte.tag? = none → ofExpanded e = .error (.unknownTag (e.tagByte.byte % 32))) ∧
    ∀ t, e.tagByte.tag? = some t →
      (∀ s, ofExpanded e = .ok ⟨e.tagByte.isConst, s⟩ ↔ Shape.Spells t e.nibbles s) ∧
      (∀ remaining, ofExpanded e = .error (.trailingNibbles remaining) ↔
        t.LeavesOver e.nibbles remaining) ∧
      (∀ offset, ofExpanded e = .error (.truncated offset) ↔
        offset = e.nibbles.length ∧ t.BreaksOff e.nibbles) ∧
      (t.WellFormed e.nibbles ∨ (∃ remaining, t.LeavesOver e.nibbles remaining) ∨
        t.BreaksOff e.nibbles) ∧
      ¬ (t.WellFormed e.nibbles ∧ ∃ remaining, t.LeavesOver e.nibbles remaining) ∧
      ¬ (t.WellFormed e.nibbles ∧ t.BreaksOff e.nibbles) ∧
      ¬ ((∃ remaining, t.LeavesOver e.nibbles remaining) ∧ t.BreaksOff e.nibbles) ∧
      ∀ offset value, ofExpanded e ≠ .error (.invalidNibble offset value) := by
  have hns := (Expanded.ofElements_eq_ok_iff.1 h).1.fits
  constructor
  · intro hnone
    rw [ofExpanded, hnone]
    rfl
  · intro t ht
    have hover := ofExpanded_eq_trailing_iff ht hns
    have hoff := ofExpanded_eq_truncated_iff ht hns
    refine ⟨ofExpanded_eq_ok_iff ht hns, hover, hoff, t.wellFormed_or hns, ?_, ?_, ?_,
      ofExpanded_ne_invalidNibble ht hns⟩
    -- Cases with different outcomes exclude each other.
    · rintro ⟨⟨s, hs⟩, remaining, hr⟩
      have heq := (hover remaining).2 hr
      rw [ofExpanded_of_spells ht hs] at heq
      cases heq
    · rintro ⟨⟨s, hs⟩, hb⟩
      have heq := (hoff _).2 ⟨rfl, hb⟩
      rw [ofExpanded_of_spells ht hs] at heq
      cases heq
    · rintro ⟨⟨remaining, hr⟩, hb⟩
      have heq := (hoff _).2 ⟨rfl, hb⟩
      rw [(hover remaining).2 hr] at heq
      cases heq

/-- A function with an overlong parameter count of two and only one parameter. -/
theorem ofExpanded_outcomes_function :
    let e : Expanded := ⟨⟨0x2f⟩, [5, 9, 0, 2, 7]⟩
    (Expanded.ofElements [0x2f, 5, 9, 0, 2, 7] = .ok e ∧ e.tagByte.tag? = some .function) ∧
    ofExpanded e = .error (.truncated 5) ∧ Tag.function.BreaksOff e.nibbles ∧
    ¬ Tag.function.WellFormed e.nibbles ∧
    ∀ remaining, ¬ Tag.function.LeavesOver e.nibbles remaining := by
  intro e
  have h : Expanded.ofElements [0x2f, 5, 9, 0, 2, 7] = .ok e := by decide
  have ht : e.tagByte.tag? = some .function := by decide
  have hread : ofExpanded e = .error (.truncated 5) := by decide
  obtain ⟨-, -, hoff, -, -, hwell, hover, -⟩ := (ofExpanded_outcomes h).2 .function ht
  have hb := ((hoff 5).1 hread).2
  refine ⟨⟨h, ht⟩, hread, hb, ?_, ?_⟩
  · intro hw
    exact hwell ⟨hw, hb⟩
  · intro remaining hr
    exact hover ⟨⟨remaining, hr⟩, hb⟩

end Descriptor

end TypeCodex
