import Mathlib.Logic.Function.Defs
import TypeCodex.Proofs.Nibble.Agreement

/-!
# Words one after another

Words that are appended to any elements are read off again from where they were put, each from
the position at which the one before it ended, and what follows them makes no difference. The
elements in front and behind need not be nibbles.

## Main definitions

* `Nibble.appendAll` — the nibbles of several words behind other elements.

## Main statements

* `Nibble.list_decodeAt` — words are read in order wherever they stand.
* `Nibble.appendAll_self_delimiting` — what is appended, and that it is read back.
-/

namespace TypeCodex.Nibble

variable {ns front back : List UInt8} {vs : List UInt32} {pos : Nat}

/-- Elements with the nibbles of several words appended, one word at a time. -/
def appendAll (ns : List UInt8) (vs : List UInt32) : List UInt8 :=
  vs.foldl (fun ns v => ns ++ encode v) ns

theorem appendAll_eq (ns : List UInt8) (vs : List UInt32) :
    appendAll ns vs = ns ++ encodeAll vs := by
  induction vs generalizing ns with
  | nil => simp [appendAll]
  | cons v vs ih =>
    change appendAll (ns ++ encode v) vs = _
    rw [ih, encodeAll_cons, List.append_assoc]

theorem length_encodeAll (vs : List UInt32) : (encodeAll vs).length = (vs.map width).sum := by
  induction vs with
  | nil => rfl
  | cons v vs ih => simp [ih]

/-- Words are read in order wherever they stand, with leading zeros or without. -/
theorem list_decodeAt (h : SpellsAll front vs) (hdrop : ns.drop pos = front ++ back) :
    Reader.list (decodeAt ns) vs.length pos = .ok (vs, pos + front.length) := by
  induction h generalizing pos with
  | nil => rfl
  | @cons first rest v vs hv hvs ih =>
    rw [List.append_assoc] at hdrop
    have hnext : ns.drop (pos + first.length) = rest ++ back := by
      rw [← List.drop_drop, hdrop, List.drop_left]
    have hrest := ih hnext
    rw [Nat.add_assoc, ← List.length_append] at hrest
    rw [List.length_cons, Reader.list_succ]
    exact Reader.bind_eq_ok.2 ⟨v, _, decodeAt_of_spells hv hdrop,
      Reader.bind_eq_ok.2 ⟨vs, _, hrest, rfl⟩⟩

/-- Appending words adds nibbles only, as many as the words are wide. From where they begin, the
words are read back in order and up to where they end, whatever follows. So no two lists of words
have the same nibbles. -/
theorem appendAll_self_delimiting (before behind : List UInt8) (vs : List UInt32) :
    (∃ added, appendAll before vs = before ++ added ∧ (∀ n ∈ added, Fits n) ∧
      added.length = (vs.map width).sum) ∧
    Reader.list (decodeAt (appendAll before vs ++ behind)) vs.length before.length
      = .ok (vs, (appendAll before vs).length) ∧
    Function.Injective (appendAll before) := by
  refine ⟨⟨encodeAll vs, appendAll_eq before vs, fun n hn => fits_of_mem_encodeAll hn,
    length_encodeAll vs⟩, ?_, ?_⟩
  · have hdrop : (before ++ encodeAll vs ++ behind).drop before.length
        = encodeAll vs ++ behind := by
      rw [List.append_assoc, List.drop_left]
    rw [appendAll_eq, list_decodeAt (spellsAll_encodeAll vs) hdrop, List.length_append]
  · intro vs ws h
    rw [appendAll_eq, appendAll_eq] at h
    have hws := spellsAll_encodeAll ws
    rw [← List.append_cancel_left h] at hws
    exact (spellsAll_encodeAll vs).unique hws

/-- Four words of one to six nibbles, between elements that are no nibbles or would be digits. -/
theorem appendAll_self_delimiting_words :
    (∃ added, appendAll [0xff, 9] [3, 200, 0, 70000] = [0xff, 9] ++ added ∧
      (∀ n ∈ added, Fits n) ∧ added.length = 11) ∧
    Reader.list (decodeAt (appendAll [0xff, 9] [3, 200, 0, 70000] ++ [7, 0x10])) 4 2
      = .ok ([3, 200, 0, 70000], 13) :=
  have H := appendAll_self_delimiting [0xff, 9] [7, 0x10] [3, 200, 0, 70000]
  ⟨H.1, H.2.1⟩

end TypeCodex.Nibble
