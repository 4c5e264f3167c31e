import TypeCodex.Registry.Outline

/-!
# Outlines of registered types

An outline is resolved if no identifier in it is unregistered, and complete if nothing is left
out of it. The text of a resolved outline has no place that reads as an unregistered identifier,
and the text of a complete one no mark for what was left out. Both are decided operand by
operand.

## Main definitions

* `Shape.Foreign` — no shape is written with a character.
* `Outline.Resolved` — all identifiers in an outline are registered.
* `Outline.Complete` — nothing is left out of an outline.

## Main statements

* `Shape.forall_writeOut` — what holds of each written operand.
* `Shape.not_mem_text` — foreign characters come from the operands.
* `Outline.Resolved.not_infix_text` — no text of a resolved outline shows an
  unregistered identifier.
* `Outline.Complete.not_infix_text` — no text of a complete outline shows that something was
  left out.
-/

namespace TypeCodex

/-! ## Writing operand by operand -/

section

variable {write : TypeId → Nat → Outline × Nat} {P : Outline → Prop} {ids : List TypeId}

theorem Outline.forall_writeList (helided : P .elided)
    (h : ∀ id ∈ ids, ∀ budget, P (write id budget).1) (budget : Nat) :
    ∀ o ∈ (Outline.writeList write ids budget).1, P o := by
  induction ids generalizing budget with
  | nil => simp
  | cons id ids ih =>
    cases budget with
    | zero => simpa using helided
    | succ budget =>
      simp only [Outline.writeList_cons, List.mem_cons, forall_eq_or_imp]
      exact ⟨h id (by simp) _, ih (fun id hid => h id (by simp [hid])) _⟩

/-- What holds of each written operand holds below a written shape. -/
theorem Shape.forall_writeOut {s : Shape TypeId} (helided : P .elided)
    (h : ∀ id ∈ s.operands, ∀ budget, P (write id budget).1) (budget : Nat) :
    ∀ o ∈ (s.writeOut write budget).1.operands, P o := by
  cases s with
  | basic b => simp [operands]
  | variant | tuple | package => exact Outline.forall_writeList helided h budget
  | array | vector =>
    simp only [operands, List.forall_mem_singleton] at h
    simpa [operands] using h budget
  | map key value =>
    simp only [operands, List.forall_mem_cons] at h
    simpa [operands] using And.intro (h.1 budget) (h.2.1 (write key budget).2)
  | function ret params =>
    simp only [operands, List.forall_mem_cons] at h
    have hparams := Outline.forall_writeList helided h.2 budget
    simpa [operands] using And.intro (h.1 _) hparams

end

/-! ## Characters of texts -/

/-- The characters that shapes are written with, apart from digits. -/
def Shape.alphabet : List Char := "abcefghiklmnoprstuvy<>[]\x7b\x7d()|,;- ".toList

/-- No shape is written with a character. -/
structure Shape.Foreign (c : Char) : Prop where
  not_mem_alphabet : c ∉ Shape.alphabet
  isDigit : c.isDigit = false

theorem Shape.Foreign.not_mem {c : Char} (hc : Foreign c) (word : String)
    (h : word.toList ⊆ alphabet) : c ∉ word.toList :=
  fun hmem => hc.not_mem_alphabet (h hmem)

/-! The letter `d` tells resolved outlines apart: it stands in the mark of an unregistered
identifier, and in no name of a category and no numeral. The point tells that something was
left out: it stands in the mark for that and nowhere else. -/

theorem Shape.foreign_d : Foreign 'd' := ⟨by decide, by decide⟩
theorem Shape.foreign_point : Foreign '.' := ⟨by decide, by decide⟩

namespace Outline

variable {c : Char}

theorem not_mem_toString (hc : c.isDigit = false) (n : Nat) : c ∉ (toString n).toList := by
  rw [Nat.toString_eq_ofList_toDigits, String.toList_ofList]
  intro h
  have hdigit := Nat.isDigit_of_mem_toDigits (by decide) (by decide) h
  rw [hc] at hdigit
  cases hdigit

theorem not_mem_following {separator : String} (hsep : c ∉ separator.toList)
    {os : List Outline} (h : ∀ o ∈ os, c ∉ o.text.toList) :
    c ∉ (following separator os).toList := by
  induction os with
  | nil => simp [following]
  | cons o os ih =>
    simp only [List.forall_mem_cons] at h
    simp [following, hsep, h.1, ih h.2]

theorem not_mem_joined {separator : String} (hsep : c ∉ separator.toList)
    {os : List Outline} (h : ∀ o ∈ os, c ∉ o.text.toList) :
    c ∉ (joined separator os).toList := by
  cases os with
  | nil => simp [joined]
  | cons o os =>
    simp only [List.forall_mem_cons] at h
    simp [joined, h.1, not_mem_following hsep h.2]

end Outline

theorem Shape.name_subset_alphabet (b : Basic) : b.name.toList ⊆ alphabet := by
  cases b <;> decide

/-- A foreign character stands in the text of a shape only if it does so in an operand. -/
theorem Shape.not_mem_text {c : Char} (hc : Foreign c) {s : Shape Outline}
    (h : ∀ o ∈ s.operands, c ∉ o.text.toList) : c ∉ s.text.toList := by
  have hcomma := hc.not_mem ", " (by decide)
  have hbar := hc.not_mem " | " (by decide)
  cases s with
  | basic b => exact hc.not_mem b.name (name_subset_alphabet b)
  | variant members =>
    have hmembers := Outline.not_mem_joined hbar h
    simp only [Shape.text, String.toList_append, List.mem_append, not_or]
    exact ⟨⟨hc.not_mem "variant<" (by decide), hmembers⟩, hc.not_mem ">" (by decide)⟩
  | array size elem =>
    simp only [operands, List.forall_mem_singleton] at h
    have hsize := Outline.not_mem_toString hc.isDigit size.toNat
    simp only [Shape.text, String.toList_append, List.mem_append, not_or]
    exact ⟨⟨⟨⟨hc.not_mem "[" (by decide), h⟩, hc.not_mem "; " (by decide)⟩, hsize⟩,
      hc.not_mem "]" (by decide)⟩
  | vector elem =>
    simp only [operands, List.forall_mem_singleton] at h
    simp only [Shape.text, String.toList_append, List.mem_append, not_or]
    exact ⟨⟨hc.not_mem "vector<" (by decide), h⟩, hc.not_mem ">" (by decide)⟩
  | map key value =>
    simp only [operands, List.forall_mem_cons] at h
    simp only [Shape.text, String.toList_append, List.mem_append, not_or]
    exact ⟨⟨⟨⟨hc.not_mem "map<" (by decide), h.1⟩, hcomma⟩, h.2.1⟩, hc.not_mem ">" (by decide)⟩
  | tuple fields =>
    have hfields := Outline.not_mem_joined hcomma h
    simp only [Shape.text, String.toList_append, List.mem_append, not_or]
    exact ⟨⟨hc.not_mem "(" (by decide), hfields⟩, hc.not_mem ")" (by decide)⟩
  | package fields =>
    have hfields := Outline.not_mem_joined hcomma h
    simp only [Shape.text, String.toList_append, List.mem_append, not_or]
    exact ⟨⟨hc.not_mem "package \x7b" (by decide), hfields⟩, hc.not_mem "\x7d" (by decide)⟩
  | function ret params =>
    simp only [operands, List.forall_mem_cons] at h
    have hparams := Outline.not_mem_joined hcomma h.2
    simp only [Shape.text, String.toList_append, List.mem_append, not_or]
    exact ⟨⟨⟨hc.not_mem "func(" (by decide), hparams⟩, hc.not_mem ") -> " (by decide)⟩, h.1⟩

/-- A foreign character stands in the text of a type only if it does so in an operand. -/
theorem Outline.not_mem_text_node {c : Char} (hc : Shape.Foreign c) {id : TypeId}
    {isConst : Bool} {shape : Shape Outline} (h : ∀ o ∈ shape.operands, c ∉ o.text.toList) :
    c ∉ (Outline.node id isConst shape).text.toList := by
  have hshape := Shape.not_mem_text hc h
  have hconst : c ∉ (if isConst then "const " else "").toList := by
    cases isConst with
    | false => exact List.not_mem_nil
    | true => exact hc.not_mem "const " (by decide)
  simp only [Outline.text, String.toList_append, List.mem_append, not_or]
  exact ⟨hconst, hshape⟩

/-! ## Resolved outlines -/

namespace Outline

/-- All identifiers in an outline are registered. -/
inductive Resolved : Outline → Prop where
  | elided : Resolved .elided
  | node {id : TypeId} {isConst : Bool} {shape : Shape Outline}
      (h : ∀ o ∈ shape.operands, Resolved o) : Resolved (.node id isConst shape)

theorem Resolved.d_not_mem_text {o : Outline} (H : o.Resolved) : 'd' ∉ o.text.toList := by
  induction H with
  | elided => decide
  | node h ih => exact not_mem_text_node Shape.foreign_d ih

/-- No text of a resolved outline shows an unregistered identifier. -/
theorem Resolved.not_infix_text {o : Outline} (H : o.Resolved) :
    ¬ "<invalid".toList <:+: o.text.toList := by
  intro h
  exact H.d_not_mem_text (h.subset (by decide))

/-! ## Complete outlines -/

/-- Nothing is left out of an outline. -/
inductive Complete : Outline → Prop where
  | unknown (id : TypeId) : Complete (.unknown id)
  | node {id : TypeId} {isConst : Bool} {shape : Shape Outline}
      (h : ∀ o ∈ shape.operands, Complete o) : Complete (.node id isConst shape)

theorem Complete.point_not_mem_text {o : Outline} (H : o.Complete) : '.' ∉ o.text.toList := by
  induction H with
  | unknown id =>
    have hid := not_mem_toString Shape.foreign_point.isDigit id.raw.toNat
    simp only [text, TypeId.text, String.toList_append, List.mem_append, not_or]
    exact ⟨⟨by decide, by decide, hid⟩, by decide⟩
  | node h ih => exact not_mem_text_node Shape.foreign_point ih

/-- No text of a complete outline shows that something was left out. -/
theorem Complete.not_infix_text {o : Outline} (H : o.Complete) :
    ¬ "...".toList <:+: o.text.toList := by
  intro h
  exact H.point_not_mem_text (h.subset (by decide))

end Outline

end TypeCodex
