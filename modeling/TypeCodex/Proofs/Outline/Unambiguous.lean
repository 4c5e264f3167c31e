import TypeCodex.Proofs.Outline.Resolved

/-!
# Texts that say one thing

The text of an outline begins with one of a few words, none of which begins another, and its
parts end where a mark stands that cannot belong to them. So it can be taken apart again from
the left, even if more text follows: what is written out and where it ends are determined,
apart from the identifiers of registered types, which are not written.

## Main definitions

* `Outline.Head` — how a text can begin.
* `Outline.Apart` — two outlines are told apart by their texts, whatever follows.

## Main statements

* `Outline.Head.eq_of_prefix` — no two ways to begin fit one text.
* `Outline.joined_inj` — a list with a mark behind it ends there.
* `Shape.text_inj` — a text determines a shape if it determines the operands.
-/

namespace TypeCodex

/-! ## Where a part of a text ends -/

/-- What stands in front of a mark is found if the mark does not stand in it. -/
theorem append_cons_inj {α : Type} {c : α} {xs ys : List α} (hxs : c ∉ xs) (hys : c ∉ ys)
    {t t' : List α} (h : xs ++ c :: t = ys ++ c :: t') : xs = ys ∧ t = t' := by
  rcases List.append_eq_append_iff.1 h with ⟨as, rfl, has⟩ | ⟨bs, rfl, hbs⟩
  · cases as with
    | nil => exact ⟨(List.append_nil xs).symm, (List.cons.inj has).2⟩
    | cons a as =>
      obtain ⟨rfl, -⟩ := List.cons.inj has
      simp at hys
  · cases bs with
    | nil => exact ⟨List.append_nil ys, (List.cons.inj hbs).2.symm⟩
    | cons b bs =>
      obtain ⟨rfl, -⟩ := List.cons.inj hbs
      simp at hxs

/-- A numeral ends in front of what is not a digit. -/
theorem numeral_inj {c : Char} (hc : c.isDigit = false) {m n : Nat} {t t' : List Char}
    (h : (toString m).toList ++ c :: t = (toString n).toList ++ c :: t') : m = n ∧ t = t' := by
  obtain ⟨hdigits, ht⟩ := append_cons_inj (Outline.not_mem_toString hc m)
    (Outline.not_mem_toString hc n) h
  simp only [Nat.toString_eq_ofList_toDigits, String.toList_ofList] at hdigits
  refine ⟨?_, ht⟩
  rw [← @Nat.ofDigitChars_ten_toDigits m, hdigits, Nat.ofDigitChars_ten_toDigits]

namespace Outline

/-! ## How a text begins -/

/-- The ways in which the text of an outline can begin. -/
inductive Head where
  | elided
  | unknown
  | const
  | tag (t : Tag)
  deriving DecidableEq

namespace Head

/-- The word at the beginning of a text. -/
def text : Head → String
  | elided => "..."
  | unknown => "<invalid #"
  | const => "const "
  | tag (.basic b) => b.name
  | tag .variant => "variant<"
  | tag .array => "["
  | tag .vector => "vector<"
  | tag .map => "map<"
  | tag .tuple => "("
  | tag .package => "package \x7b"
  | tag .function => "func("

/-- All ways to begin. -/
def all : List Head := [elided, unknown, const] ++ Tag.all.map tag

theorem mem_all (a : Head) : a ∈ all := by
  cases a with
  | tag t => exact List.mem_append_right _ (List.mem_map_of_mem t.mem_all)
  | _ => simp [all]

/-- No two ways to begin fit one text. -/
theorem eq_of_prefix {a b : Head} {cs : List Char} (ha : a.text.toList <+: cs)
    (hb : b.text.toList <+: cs) : a = b := by
  have hfree : ∀ a ∈ all, ∀ b ∈ all, a.text.toList <+: b.text.toList → a = b := by decide
  rcases List.prefix_or_prefix_of_prefix ha hb with h | h
  · exact hfree a a.mem_all b b.mem_all h
  · exact (hfree b b.mem_all a a.mem_all h).symm

/-- The marks that stand behind a list. -/
def closing : List Char := [')', '>', '\x7d']

/-- No text begins with a mark that stands behind a list. -/
theorem not_prefix_cons {a : Head} {c : Char} (hc : c ∈ closing) (t : List Char) :
    ¬ a.text.toList <+: c :: t := by
  have hfirst : ∀ a ∈ all, (a.text.toList.head?.all fun d => d ∈ closing) = false := by decide
  intro h
  have hhead := hfirst a a.mem_all
  obtain ⟨rest, hrest⟩ := h
  cases htext : a.text.toList with
  | nil => simp [htext] at hhead
  | cons d ds =>
    rw [htext] at hrest
    obtain ⟨rfl, -⟩ := List.cons.inj hrest
    simp [htext, hc] at hhead

end Head

/-- How the text of an outline begins. -/
def head : Outline → Head
  | .elided => .elided
  | .unknown _ => .unknown
  | .node _ true _ => .const
  | .node _ false shape => .tag shape.tag

end Outline

theorem Shape.head_prefix (s : Shape Outline) (t : List Char) :
    (Outline.Head.tag s.tag).text.toList <+: s.text.toList ++ t := by
  cases s <;> simp [Shape.text, tag, Outline.Head.text]

namespace Outline

theorem head_prefix (o : Outline) (t : List Char) :
    o.head.text.toList <+: o.text.toList ++ t := by
  cases o with
  | elided => simp [head, text, Head.text]
  | unknown id => simp [head, text, Head.text, TypeId.text]
  | node id isConst shape =>
    cases isConst with
    | false => simpa [head, text] using shape.head_prefix t
    | true => simp [head, text, Head.text]

variable {o o' : Outline} {os os' : List Outline} {t t' : List Char}

theorem head_eq (h : o.text.toList ++ t = o'.text.toList ++ t') : o.head = o'.head :=
  Head.eq_of_prefix (o.head_prefix t) (h ▸ o'.head_prefix t')

theorem text_append_ne {c : Char} (hc : c ∈ Head.closing) : o.text.toList ++ t ≠ c :: t' :=
  fun h => Head.not_prefix_cons hc t' (h ▸ o.head_prefix t)

/-! ## Texts of several outlines -/

/-- Texts tell two outlines apart, whatever follows, and show where they end. -/
def Apart (o o' : Outline) : Prop :=
  ∀ t t', o.text.toList ++ t = o'.text.toList ++ t' → o = o' ∧ t = t'

variable {separator : String} {c d : Char} {ds : List Char}

theorem following_inj (hsep : separator.toList = d :: ds) (hd : d ≠ c)
    (h : ∀ o ∈ os, ∀ o' ∈ os', Apart o o')
    (htext : (following separator os).toList ++ c :: t
      = (following separator os').toList ++ c :: t') : os = os' ∧ t = t' := by
  induction os generalizing os' with
  | nil =>
    cases os' with
    | nil => simpa [following] using htext
    | cons o' os' => simp [following, hsep, hd.symm] at htext
  | cons o os ih =>
    cases os' with
    | nil => simp [following, hsep, hd] at htext
    | cons o' os' =>
      simp only [following, String.toList_append, List.append_assoc,
        List.append_cancel_left_eq] at htext
      obtain ⟨rfl, hrest⟩ := h o (by simp) o' (by simp) _ _ htext
      obtain ⟨rfl, ht⟩ := ih (fun o ho o' ho' => h o (by simp [ho]) o' (by simp [ho'])) hrest
      exact ⟨rfl, ht⟩

/-- A list with a mark behind it ends there. -/
theorem joined_inj (hsep : separator.toList = d :: ds) (hd : d ≠ c) (hc : c ∈ Head.closing)
    (h : ∀ o ∈ os, ∀ o' ∈ os', Apart o o')
    (htext : (joined separator os).toList ++ c :: t = (joined separator os').toList ++ c :: t') :
    os = os' ∧ t = t' := by
  cases os with
  | nil =>
    cases os' with
    | nil => simpa [joined] using htext
    | cons o' os' =>
      simp only [joined, String.toList_append, List.append_assoc] at htext
      exact absurd htext.symm (text_append_ne hc)
  | cons o os =>
    cases os' with
    | nil =>
      simp only [joined, String.toList_append, List.append_assoc] at htext
      exact absurd htext (text_append_ne hc)
    | cons o' os' =>
      simp only [joined, String.toList_append, List.append_assoc] at htext
      obtain ⟨rfl, hrest⟩ := h o (by simp) o' (by simp) _ _ htext
      obtain ⟨rfl, ht⟩ := following_inj hsep hd
        (fun o ho o' ho' => h o (by simp [ho]) o' (by simp [ho'])) hrest
      exact ⟨rfl, ht⟩

end Outline

/-! ## Texts of shapes -/

namespace Shape

open Outline (Apart Head joined joined_inj)

variable {s s' : Shape Outline} {t t' : List Char}

theorem tag_eq (h : s.text.toList ++ t = s'.text.toList ++ t') : s.tag = s'.tag :=
  Head.tag.inj (Head.eq_of_prefix (s.head_prefix t) (h ▸ s'.head_prefix t'))

/-- A text determines a shape, and shows where it ends, if it does so with the operands. -/
theorem text_inj (h : ∀ o ∈ s.operands, ∀ o' ∈ s'.operands, Apart o o')
    (htext : s.text.toList ++ t = s'.text.toList ++ t') : s = s' ∧ t = t' := by
  have htag := tag_eq htext
  cases s with
  | basic b =>
    cases s' with
    | basic b' =>
      cases htag
      exact ⟨rfl, List.append_cancel_left htext⟩
    | _ => cases htag
  | variant members =>
    cases s' with
    | variant members' =>
      have htext : (joined " | " members).toList ++ '>' :: t
          = (joined " | " members').toList ++ '>' :: t' := by simpa [Shape.text] using htext
      obtain ⟨rfl, ht⟩ := joined_inj rfl (by decide) (by decide) h htext
      exact ⟨rfl, ht⟩
    | _ => cases htag
  | array size elem =>
    cases s' with
    | array size' elem' =>
      have htext : elem.text.toList ++ ("; ".toList ++ ((toString size.toNat).toList ++ ']' :: t))
          = elem'.text.toList ++ ("; ".toList ++ ((toString size'.toNat).toList ++ ']' :: t')) := by
        simpa [Shape.text] using htext
      obtain ⟨rfl, hrest⟩ := h elem (by simp [operands]) elem' (by simp [operands]) _ _ htext
      obtain ⟨hsize, ht⟩ := numeral_inj (by decide) (List.append_cancel_left hrest)
      exact ⟨by rw [UInt32.toNat_inj.1 hsize], ht⟩
    | _ => cases htag
  | vector elem =>
    cases s' with
    | vector elem' =>
      have htext : elem.text.toList ++ (">".toList ++ t)
          = elem'.text.toList ++ (">".toList ++ t') := by simpa [Shape.text] using htext
      obtain ⟨rfl, hrest⟩ := h elem (by simp [operands]) elem' (by simp [operands]) _ _ htext
      exact ⟨rfl, List.append_cancel_left hrest⟩
    | _ => cases htag
  | map key value =>
    cases s' with
    | map key' value' =>
      have htext : key.text.toList ++ (", ".toList ++ (value.text.toList ++ (">".toList ++ t)))
          = key'.text.toList ++ (", ".toList ++ (value'.text.toList ++ (">".toList ++ t'))) := by
        simpa [Shape.text] using htext
      obtain ⟨rfl, hkey⟩ := h key (by simp [operands]) key' (by simp [operands]) _ _ htext
      have hvalue := List.append_cancel_left hkey
      obtain ⟨rfl, hrest⟩ := h value (by simp [operands]) value' (by simp [operands]) _ _ hvalue
      exact ⟨rfl, List.append_cancel_left hrest⟩
    | _ => cases htag
  | tuple fields =>
    cases s' with
    | tuple fields' =>
      have htext : (joined ", " fields).toList ++ ')' :: t
          = (joined ", " fields').toList ++ ')' :: t' := by simpa [Shape.text] using htext
      obtain ⟨rfl, ht⟩ := joined_inj rfl (by decide) (by decide) h htext
      exact ⟨rfl, ht⟩
    | _ => cases htag
  | package fields =>
    cases s' with
    | package fields' =>
      have htext : (joined ", " fields).toList ++ '\x7d' :: t
          = (joined ", " fields').toList ++ '\x7d' :: t' := by simpa [Shape.text] using htext
      obtain ⟨rfl, ht⟩ := joined_inj rfl (by decide) (by decide) h htext
      exact ⟨rfl, ht⟩
    | _ => cases htag
  | function ret params =>
    cases s' with
    | function ret' params' =>
      have htext : (joined ", " params).toList ++ ')' :: (" -> ".toList ++ (ret.text.toList ++ t))
          = (joined ", " params').toList ++ ')' :: (" -> ".toList ++ (ret'.text.toList ++ t')) := by
        simpa [Shape.text] using htext
      obtain ⟨rfl, hparams⟩ := joined_inj rfl (by decide) (by decide)
        (fun o ho o' ho' => h o (by simp [operands, ho]) o' (by simp [operands, ho'])) htext
      have hret := List.append_cancel_left hparams
      obtain ⟨rfl, ht⟩ := h ret (by simp [operands]) ret' (by simp [operands]) _ _ hret
      exact ⟨rfl, ht⟩
    | _ => cases htag

end Shape

/-! ## Texts of outlines -/

namespace Outline

variable {a b : TypeId} {c c' : Bool} {s s' : Shape Outline} {t t' : List Char}

theorem unknown_inj (htext : (unknown a).text.toList ++ t = (unknown b).text.toList ++ t') :
    a = b ∧ t = t' := by
  have htext : (toString a.index).toList ++ '>' :: t = (toString b.index).toList ++ '>' :: t' := by
    simpa [text, TypeId.text, TypeId.index] using htext
  obtain ⟨hindex, ht⟩ := numeral_inj (by decide) htext
  exact ⟨TypeId.index_injective hindex, ht⟩

/-- A text says all about a registered type but its identifier, if it does so about the
operands. -/
theorem node_inj (h : ∀ o ∈ s.operands, ∀ o' ∈ s'.operands, Apart o o')
    (htext : (node a c s).text.toList ++ t = (node b c' s').text.toList ++ t') :
    c = c' ∧ s = s' ∧ t = t' := by
  have hhead := head_eq htext
  cases c with
  | false =>
    cases c' with
    | false => exact ⟨rfl, Shape.text_inj h (by simpa [text] using htext)⟩
    | true => cases hhead
  | true =>
    cases c' with
    | false => cases hhead
    | true => exact ⟨rfl, Shape.text_inj h (by simpa [text] using htext)⟩

end Outline

end TypeCodex
