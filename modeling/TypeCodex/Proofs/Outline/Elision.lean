import TypeCodex.Proofs.Outline.Resolved

/-!
# Texts up to the first mark

A type can be written out twice, the second time with a larger budget and with operands that are
written further down. Up to the first place where the first text leaves something out, the two
texts are the same. What is written in front of that place costs the same both times, so that the
second budget stays ahead by the same amount.

## Main definitions

* `Outline.beforeMark` — a text up to the first mark for something that is left out.
* `Outline.CutOff` — a text has a mark, and up to there it is the beginning of another text.
* `Outline.Continues` — an outcome is the same with more budget, or its text is cut off.

## Main statements

* `Outline.CutOff.append` — cut off inside is cut off as a whole.
* `Outline.continues_writeList` — lists of operands.
* `Shape.continues_writeOut` — a shape continues if its operands do.
-/

namespace TypeCodex

namespace Outline

/-! ## Marks -/

/-- The text in front of the first mark for something that is left out, or all of it if there
is no mark. -/
def beforeMark : List Char → List Char
  | [] => []
  | c :: cs => if "...".toList <+: c :: cs then [] else c :: beforeMark cs

variable {front rest s s' t t' : List Char}

theorem beforeMark_of_not_mem (h : '.' ∉ s) : beforeMark s = s := by
  induction s with
  | nil => rfl
  | cons c cs ih =>
    simp only [List.mem_cons, not_or] at h
    have hmark : ¬ "...".toList <+: c :: cs := by
      intro hprefix
      exact h.1 (List.cons_prefix_cons.1 hprefix).1
    rw [beforeMark, if_neg hmark, ih h.2]

theorem beforeMark_append (h : '.' ∉ front) :
    beforeMark (front ++ ("...".toList ++ rest)) = front := by
  induction front with
  | nil => exact if_pos (List.prefix_append _ _)
  | cons c cs ih =>
    simp only [List.mem_cons, not_or] at h
    have hmark : ¬ "...".toList <+: c :: (cs ++ ("...".toList ++ rest)) := by
      intro hprefix
      exact h.1 (List.cons_prefix_cons.1 hprefix).1
    rw [List.cons_append, beforeMark, if_neg hmark, ih h.2]

/-- A text has a mark, and what stands in front of its first mark is the beginning of another
text. -/
def CutOff (s s' : List Char) : Prop :=
  ∃ front rest, s = front ++ ("...".toList ++ rest) ∧ '.' ∉ front ∧ front <+: s'

namespace CutOff

theorem beforeMark_prefix (h : CutOff s s') : beforeMark s <+: s' := by
  obtain ⟨front, rest, rfl, hfront, hprefix⟩ := h
  rwa [beforeMark_append hfront]

theorem mark_infix (h : CutOff s s') : "...".toList <:+: s := by
  obtain ⟨front, rest, rfl, -, -⟩ := h
  exact ⟨front, rest, by rw [List.append_assoc]⟩

/-- A text that is cut off inside is cut off as a whole, whatever follows. -/
theorem append (h : CutOff s s') (hfront : '.' ∉ front) (t t' : List Char) :
    CutOff (front ++ (s ++ t)) (front ++ (s' ++ t')) := by
  obtain ⟨inner, rest, rfl, hinner, hprefix⟩ := h
  refine ⟨front ++ inner, rest ++ t, by simp only [List.append_assoc], ?_, ?_⟩
  · rw [List.mem_append, not_or]
    exact ⟨hfront, hinner⟩
  · rw [List.prefix_append_right_inj]
    exact hprefix.trans (List.prefix_append s' t')

end CutOff

theorem cutOff_elided (s' : List Char) : CutOff elided.text.toList s' :=
  ⟨[], [], rfl, List.not_mem_nil, List.nil_prefix⟩

/-! ## Outcomes -/

/-- What is written with more budget, by the amount `gap`, continues what is written with less:
it is the same at the same cost and complete, or the text with less is cut off. -/
inductive Continues {α : Type} (text : α → String) (gap : Nat) : α × Nat → α × Nat → Prop where
  | whole (a : α) (budget : Nat) (h : '.' ∉ (text a).toList) :
      Continues text gap (a, budget) (a, budget + gap)
  | cut (p p' : α × Nat) (h : CutOff (text p.1).toList (text p'.1).toList) :
      Continues text gap p p'

/-- What continues inside of certain words continues with them. -/
theorem Continues.enclose {α β : Type} {text : α → String} {text' : β → String} {gap : Nat}
    {p p' : α × Nat} (H : Continues text gap p p') (f : α → β) (front rest : List Char)
    (hf : ∀ a, (text' (f a)).toList = front ++ ((text a).toList ++ rest))
    (hfront : '.' ∉ front) (hrest : '.' ∉ rest) :
    Continues text' gap (f p.1, p.2) (f p'.1, p'.2) := by
  cases H with
  | whole a budget h =>
    refine .whole (f a) budget ?_
    rw [hf]
    simp only [List.mem_append, not_or]
    exact ⟨hfront, h, hrest⟩
  | cut p p' h =>
    refine .cut _ _ ?_
    rw [hf, hf]
    exact h.append hfront rest rest

section

variable {write write' : TypeId → Nat → Outline × Nat} {gap : Nat} {ids : List TypeId}
  {first separator : String}

/-- The texts of several outlines behind a first word, with a separator between them; no text
if there is no outline. -/
def behind (first separator : String) : List Outline → String
  | [] => ""
  | o :: os => first ++ (o.text ++ following separator os)

theorem following_eq_behind (os : List Outline) :
    following separator os = behind separator separator os := by
  cases os with
  | nil => rfl
  | cons o os => rw [following, behind, String.append_assoc]

theorem joined_eq_behind (os : List Outline) : joined separator os = behind "" separator os := by
  cases os with
  | nil => rfl
  | cons o os => rw [joined, behind, String.empty_append]

theorem toList_behind_cons (o : Outline) (os : List Outline) :
    (behind first separator (o :: os)).toList
      = first.toList ++ (o.text.toList ++ (behind separator separator os).toList) := by
  rw [behind, following_eq_behind, String.toList_append, String.toList_append]

/-- Of operands, something is written in any case. -/
theorem exists_writeList_cons (write : TypeId → Nat → Outline × Nat) (id : TypeId)
    (ids : List TypeId) (budget : Nat) :
    ∃ o os, (writeList write (id :: ids) budget).1 = o :: os := by
  cases budget with
  | zero => exact ⟨.elided, [], rfl⟩
  | succ budget => exact ⟨_, _, rfl⟩

/-- A list continues if its operands do. -/
theorem continues_writeList (hsep : '.' ∉ separator.toList) (hfirst : '.' ∉ first.toList)
    (h : ∀ id ∈ ids, ∀ budget, Continues text gap (write id budget) (write' id (budget + gap)))
    (budget : Nat) :
    Continues (behind first separator) gap (writeList write ids budget)
      (writeList write' ids (budget + gap)) := by
  induction ids generalizing first budget with
  | nil => exact .whole [] budget List.not_mem_nil
  | cons id ids ih =>
    cases budget with
    | zero =>
      -- The first text ends with a mark behind the first word, with which both begin.
      obtain ⟨o, os, hos⟩ := exists_writeList_cons write' id ids (0 + gap)
      have hmark : (writeList write (id :: ids) 0).1 = [elided] := rfl
      refine .cut _ _ ?_
      rw [hos, hmark, toList_behind_cons, toList_behind_cons]
      exact (cutOff_elided o.text.toList).append hfirst _ _
    | succ budget =>
      have hid := h id (by simp) (budget + 1)
      have hids := fun budget => ih hsep (fun id hid => h id (by simp [hid])) budget
      rw [Nat.add_right_comm] at hid ⊢
      rw [writeList_cons, writeList_cons]
      generalize write id (budget + 1) = p at hid ⊢
      generalize write' id (budget + gap + 1) = p' at hid ⊢
      cases hid with
      | whole o budget ho =>
        have hrest := hids budget
        generalize writeList write ids budget = q at hrest ⊢
        generalize writeList write' ids (budget + gap) = q' at hrest ⊢
        have hfront : '.' ∉ first.toList ++ o.text.toList := by
          rw [List.mem_append, not_or]
          exact ⟨hfirst, ho⟩
        refine hrest.enclose (o :: ·) (first.toList ++ o.text.toList) [] ?_ hfront List.not_mem_nil
        intro os
        rw [toList_behind_cons, List.append_nil, List.append_assoc]
      | cut p p' hcut =>
        refine .cut _ _ ?_
        rw [toList_behind_cons, toList_behind_cons]
        exact hcut.append hfirst _ _

/-- A list with its separators continues if its operands do. -/
theorem continues_joined (hsep : '.' ∉ separator.toList)
    (h : ∀ id ∈ ids, ∀ budget, Continues text gap (write id budget) (write' id (budget + gap)))
    (budget : Nat) :
    Continues (joined separator) gap (writeList write ids budget)
      (writeList write' ids (budget + gap)) := by
  have hjoined : joined separator = behind "" separator := funext joined_eq_behind
  rw [hjoined]
  exact continues_writeList hsep List.not_mem_nil h budget

end

end Outline

namespace Shape

open Outline (Continues continues_joined)

/-- A shape continues if its operands do. -/
theorem continues_writeOut {write write' : TypeId → Nat → Outline × Nat} {gap : Nat}
    {s : Shape TypeId}
    (h : ∀ id ∈ s.operands, ∀ budget,
      Continues Outline.text gap (write id budget) (write' id (budget + gap))) (budget : Nat) :
    Continues Shape.text gap (s.writeOut write budget) (s.writeOut write' (budget + gap)) := by
  have hcomma : '.' ∉ ", ".toList := by decide
  have hbar : '.' ∉ " | ".toList := by decide
  cases s with
  | basic b =>
    exact .whole (Shape.basic b) budget (foreign_point.not_mem b.name (name_subset_alphabet b))
  | variant members =>
    refine (continues_joined hbar h budget).enclose variant "variant<".toList ">".toList ?_
      (by decide) (by decide)
    intro os
    simp only [Shape.text, String.toList_append, List.append_assoc]
  | array size elem =>
    simp only [operands, List.forall_mem_singleton] at h
    have hsize := Outline.not_mem_toString foreign_point.isDigit size.toNat
    refine (h budget).enclose (array size) "[".toList
      ("; ".toList ++ ((toString size.toNat).toList ++ "]".toList)) ?_ (by decide) ?_
    · intro o
      simp only [Shape.text, String.toList_append, List.append_assoc]
    · simp only [List.mem_append, not_or]
      exact ⟨by decide, hsize, by decide⟩
  | vector elem =>
    simp only [operands, List.forall_mem_singleton] at h
    refine (h budget).enclose vector "vector<".toList ">".toList ?_ (by decide) (by decide)
    intro o
    simp only [Shape.text, String.toList_append, List.append_assoc]
  | map key value =>
    simp only [operands, List.forall_mem_cons] at h
    have hkey := h.1 budget
    rw [writeOut_map, writeOut_map]
    generalize write key budget = p at hkey ⊢
    generalize write' key (budget + gap) = p' at hkey ⊢
    cases hkey with
    | whole o budget ho =>
      refine (h.2.1 budget).enclose (map o) ("map<".toList ++ (o.text.toList ++ ", ".toList))
        ">".toList ?_ ?_ (by decide)
      · intro o'
        simp only [Shape.text, String.toList_append, List.append_assoc]
      · simp only [List.mem_append, not_or]
        exact ⟨by decide, ho, hcomma⟩
    | cut p p' hcut =>
      refine .cut _ _ ?_
      simp only [Shape.text, String.toList_append, List.append_assoc]
      exact hcut.append (by decide) _ _
  | tuple fields =>
    refine (continues_joined hcomma h budget).enclose tuple "(".toList ")".toList ?_
      (by decide) (by decide)
    intro os
    simp only [Shape.text, String.toList_append, List.append_assoc]
  | package fields =>
    refine (continues_joined hcomma h budget).enclose package "package \x7b".toList
      "\x7d".toList ?_ (by decide) (by decide)
    intro os
    simp only [Shape.text, String.toList_append, List.append_assoc]
  | function ret params =>
    simp only [operands, List.forall_mem_cons] at h
    have hparams := continues_joined hcomma h.2 budget
    rw [writeOut_function, writeOut_function]
    generalize Outline.writeList write params budget = p at hparams ⊢
    generalize Outline.writeList write' params (budget + gap) = p' at hparams ⊢
    cases hparams with
    | whole os budget hos =>
      refine (h.1 budget).enclose (function · os)
        ("func(".toList ++ ((Outline.joined ", " os).toList ++ ") -> ".toList)) [] ?_ ?_
        List.not_mem_nil
      · intro o
        simp only [Shape.text, String.toList_append, List.append_assoc, List.append_nil]
      · simp only [List.mem_append, not_or]
        exact ⟨by decide, hos, by decide⟩
    | cut p p' hcut =>
      refine .cut _ _ ?_
      simp only [Shape.text, String.toList_append, List.append_assoc]
      exact hcut.append (by decide) _ _

end Shape

end TypeCodex
