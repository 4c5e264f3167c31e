import TypeCodex.Nibble.Source
import TypeCodex.Proofs.Nibble.Grammar

/-!
# The two ways of reading agree

A source that has the elements of a list and no more reads the words of the list as a cursor
does: the same words at every position, and the same faults where a word is cut off or the
position lies past the end. Packed bytes are such a source for the two halves of each byte.
So they are read where they stand, and behind an odd number of nibbles a reader meets the
zero that pads the last byte, which unpacking takes away.

## Main definitions

* `Reader.after` — the position after an attempt to read.
* `Reader.AgreeAt` — two readers do the same at a position.
* `Source.Has` — a source has the elements of a list and no more.

## Main statements

* `Nibble.decodeAt_cases` — what reading at a position comes to.
* `Source.has_halves`, `Source.has_packed` — the elements that bytes have where they stand.
* `Source.int_place`, `Source.follows_place` — reading by index keeps to the cursor.
* `Source.int_agrees` — the two ways of reading, over lists and over packed bytes.
-/

namespace TypeCodex

namespace Reader

variable {ε α : Type}

/-- The position after an attempt to read: behind what was read, or unchanged after a
fault. -/
def after (x : Reader Nat ε α) (pos : Nat) : Nat :=
  match x pos with
  | .ok (_, pos) => pos
  | .error _ => pos

/-- Two readers do the same at a position: they give the same value or the same fault, and
leave the same position. -/
structure AgreeAt (x y : Reader Nat ε α) (pos : Nat) : Prop where
  result : x pos = y pos
  after : x.after pos = y.after pos

theorem agreeAt_of_eq {x y : Reader Nat ε α} {pos : Nat} (h : x pos = y pos) :
    AgreeAt x y pos :=
  ⟨h, by simp only [after, h]⟩

end Reader

namespace Nibble

variable {ns : List UInt8} {v : UInt32}

/-- A word takes one nibble and at most eight digits. -/
theorem Spells.length_bounds (h : Spells ns v) : 1 ≤ ns.length ∧ ns.length ≤ 9 := by
  cases h with
  | single n h => simp
  | digits head ds h hhead hlength hds =>
    have hlt : head.toNat < 16 := UInt8.lt_iff_toNat_lt.1 hhead
    rw [List.length_cons, hlength]
    omega

/-- Reading at a position takes the nibbles of a word that stand there, whatever is around
them. -/
theorem decodeAt_of_spells {front back : List UInt8} {pos : Nat} (h : Spells front v)
    (hdrop : ns.drop pos = front ++ back) : decodeAt ns pos = .ok (v, pos + front.length) := by
  rw [decodeAt, Cursor.place, hdrop, Cursor.reads_of_spells h]
  rfl

/-- Reading at a position takes the nibbles of a word that stand there, or finds that the
list ends first. -/
theorem decodeAt_cases (hns : ∀ n ∈ ns, Fits n) (pos : Nat) :
    (∃ front back v, ns.drop pos = front ++ back ∧ Spells front v ∧
      decodeAt ns pos = .ok (v, pos + front.length)) ∨
    decodeAt ns pos = .error (.truncated (max pos ns.length)) := by
  have hdrop : ∀ n ∈ ns.drop pos, Fits n := fun n hn => hns n (List.mem_of_mem_drop hn)
  rcases Cursor.parses_int.split _ hdrop with ⟨front, back, v, heq, h⟩ | ⟨-, herror⟩
  · exact .inl ⟨front, back, v, heq, h, decodeAt_of_spells h heq⟩
  · have hend : pos + (ns.drop pos).length = max pos ns.length := by
      rw [List.length_drop]
      omega
    refine .inr ?_
    rw [decodeAt, Cursor.place, herror, hend]
    rfl

end Nibble

namespace Source

/-- A source has the elements of a list and no more. -/
def Has (s : Source) (ns : List UInt8) : Prop := ∀ i, s.element? i = ns[i]?

theorem has_ofList (ns : List UInt8) : (ofList ns).Has ns := fun _ => rfl

/-- Bytes behind a tag byte have the two halves of each byte. -/
theorem has_halves (tag : UInt8) (body : List UInt8) :
    (ofBytes fun i => (tag :: body)[i]?).Has (Nibble.halves body) := by
  intro i
  change ((tag :: body)[1 + i / 2]?).map _ = _
  rw [Nibble.getElem?_halves, Nat.add_comm 1, List.getElem?_cons_succ]

/-- Where they stand, unpacked bytes have their nibbles and the padding behind an odd
number of them. -/
theorem has_packed {bytes : List UInt8} {e : Expanded} (h : Packed.unpack bytes = .ok e) :
    (ofBytes fun i => bytes[i]?).Has (e.nibbles ++ if e.tagByte.oddLength then [0] else []) := by
  obtain ⟨hwell, rfl⟩ := Packed.bytes_of_unpack h
  have hodd : e.tagByte.oddLength = true ↔ e.nibbles.length % 2 = 1 := by
    rw [hwell.parity, beq_iff_eq]
  simp only [hodd, ← Nibble.halves_pairs hwell.fits]
  exact has_halves e.tagByte.byte (Nibble.pairs e.nibbles)

theorem fits_padded {e : Expanded} (hwell : e.WellFormed) :
    ∀ n ∈ e.nibbles ++ (if e.tagByte.oddLength then [0] else []), Nibble.Fits n := by
  intro n hn
  rcases List.mem_append.1 hn with hn | hn
  · exact hwell.fits n hn
  · split at hn
    · rw [List.mem_singleton.1 hn]
      decide
    · cases hn

section

variable {s : Source} {ns : List UInt8} (hs : s.Has ns) (hns : ∀ n ∈ ns, Nibble.Fits n)
include hs hns

theorem next_place (pos : Nat) :
    Cursor.next (Cursor.place ns pos)
      = (s.fetch pos).map fun n => (n, Cursor.place ns (pos + 1)) := by
  rw [fetch, hs]
  by_cases h : pos < ns.length
  · have hfits := hns ns[pos] (List.getElem_mem h)
    rw [Cursor.place, List.drop_eq_getElem_cons h, List.getElem?_eq_getElem h]
    exact Cursor.next_cons hfits pos (ns.drop (pos + 1))
  · have hle : ns.length ≤ pos := Nat.le_of_not_lt h
    rw [Cursor.place, List.drop_of_length_le hle, List.getElem?_eq_none hle]
    rfl

/-- Reading by index counts digits by their low four bits, and those of the list have no
others. -/
theorem toNat_of_fetch {pos : Nat} {n : UInt8} (h : s.fetch pos = .ok n) :
    n.toNat % 16 = n.toNat := by
  rw [fetch, hs] at h
  cases hn : ns[pos]? with
  | none =>
    rw [hn] at h
    cases h
  | some m =>
    rw [hn] at h
    cases h
    exact Nat.mod_eq_of_lt (UInt8.lt_iff_toNat_lt.1 (hns n (List.mem_of_getElem? hn)))

theorem digits_place (k acc pos : Nat) :
    Cursor.digits k acc (Cursor.place ns pos)
      = (s.digits k pos acc).map fun v => (v, Cursor.place ns (pos + k)) := by
  induction k generalizing acc pos with
  | zero => rfl
  | succ k ih =>
    rw [Cursor.digits, Reader.run_bind, next_place hs hns, digits]
    cases hfetch : s.fetch pos with
    | error fault => rfl
    | ok n =>
      change Cursor.digits k (acc * 16 + n.toNat) (Cursor.place ns (pos + 1))
        = (s.digits k (pos + 1) (acc * 16 + n.toNat % 16)).map _
      rw [ih, toNat_of_fetch hs hns hfetch, Nat.add_assoc, Nat.add_comm 1 k]

/-- Words are read alike, and so are the faults. -/
theorem int_place (pos : Nat) :
    Cursor.int (Cursor.place ns pos)
      = (s.int pos).map fun p => (p.1, Cursor.place ns p.2) := by
  rw [Cursor.int, Reader.run_bind, next_place hs hns, int]
  cases hfetch : s.fetch pos with
  | error fault => rfl
  | ok head =>
    change (if head < 8 then pure head.toUInt32
        else UInt32.ofNat <$> Cursor.digits (head.toNat - 7) 0) (Cursor.place ns (pos + 1))
      = Except.map _ (if head < 8 then _ else _)
    by_cases h8 : head < 8
    · rw [if_pos h8, if_pos h8]
      rfl
    · rw [if_neg h8, if_neg h8, Reader.run_map, digits_place hs hns]
      cases s.digits (head.toNat - 7) (pos + 1) 0 <;> rfl

/-- Reading by index follows the cursor, and its position is that of the cursor. -/
theorem follows_place :
    Reader.Follows (fun c pos => c = Cursor.place ns pos) Cursor.int s.int := by
  rintro c pos rfl v c' h
  rw [int_place hs hns] at h
  cases hint : s.int pos with
  | error fault =>
    rw [hint] at h
    cases h
  | ok read =>
    obtain ⟨w, pos'⟩ := read
    rw [hint] at h
    cases h
    exact ⟨pos', rfl, rfl⟩

theorem int_eq_decodeAt (pos : Nat) : s.int pos = Nibble.decodeAt ns pos := by
  rw [Nibble.decodeAt, int_place hs hns]
  cases s.int pos <;> rfl

end

/-- The two ways of reading a word agree. Over a list of nibbles they do the same at every
position. The position afterwards is one to nine nibbles further and not past the end, or
unchanged if the list ends before the word does. Over bytes that unpack, reading them where
they stand does the same as reading their nibbles with the padding behind them. -/
theorem int_agrees (ns bytes : List UInt8) (e : Expanded) :
    ((∀ n ∈ ns, Nibble.Fits n) → ∀ pos,
      Reader.AgreeAt (ofList ns).int (Nibble.decodeAt ns) pos ∧
      let after := Reader.after (Nibble.decodeAt ns) pos
      ((∃ v, Nibble.decodeAt ns pos = .ok (v, after) ∧
          pos < after ∧ after ≤ pos + 9 ∧ after ≤ ns.length) ∨
        Nibble.decodeAt ns pos = .error (.truncated (max pos ns.length)) ∧ after = pos)) ∧
    (Packed.unpack bytes = .ok e → bytes.head? = some e.tagByte.byte ∧ ∀ pos,
      Reader.AgreeAt (ofBytes fun i => bytes[i]?).int
        (Nibble.decodeAt (e.nibbles ++ if e.tagByte.oddLength then [0] else [])) pos) := by
  constructor
  · intro hns pos
    refine ⟨Reader.agreeAt_of_eq (int_eq_decodeAt (has_ofList ns) hns pos), ?_⟩
    intro after
    rcases Nibble.decodeAt_cases hns pos with ⟨front, back, v, hdrop, hv, hread⟩ | herror
    · have hafter : after = pos + front.length := by simp only [after, Reader.after, hread]
      have hlength := congrArg List.length hdrop
      have hbounds := hv.length_bounds
      rw [List.length_drop, List.length_append] at hlength
      exact .inl ⟨v, by rw [hread, hafter], by omega, by omega, by omega⟩
    · exact .inr ⟨herror, by simp only [after, Reader.after, herror]⟩
  · intro h
    obtain ⟨hwell, hbytes⟩ := Packed.bytes_of_unpack h
    refine ⟨?_, ?_⟩
    · rw [← hbytes]
      rfl
    · intro pos
      exact Reader.agreeAt_of_eq (int_eq_decodeAt (has_packed h) (fits_padded hwell) pos)

/-- Three nibbles and their padding, which reads as one more word where it stands. -/
theorem int_agrees_padded :
    let e : Expanded := ⟨⟨0x2b⟩, [9, 1, 5]⟩
    let bytes : List UInt8 := [0x2b, 0x91, 0x50]
    ((∀ n ∈ e.nibbles, Nibble.Fits n) ∧ Packed.unpack bytes = .ok e) ∧
    (∀ pos, Reader.AgreeAt (ofList e.nibbles).int (Nibble.decodeAt e.nibbles) pos ∧
      let after := Reader.after (Nibble.decodeAt e.nibbles) pos
      ((∃ v, Nibble.decodeAt e.nibbles pos = .ok (v, after) ∧
          pos < after ∧ after ≤ pos + 9 ∧ after ≤ 3) ∨
        Nibble.decodeAt e.nibbles pos = .error (.truncated (max pos 3)) ∧ after = pos)) ∧
    (∀ pos, Reader.AgreeAt (ofBytes fun i => bytes[i]?).int
      (Nibble.decodeAt (e.nibbles ++ [0])) pos) ∧
    Nibble.decodeAt e.nibbles 3 = .error (.truncated 3) ∧
    (ofBytes fun i => bytes[i]?).int 3 = .ok (0, 4) := by
  intro e bytes
  have hunpack : Packed.unpack bytes = .ok e := by decide
  have hns : ∀ n ∈ e.nibbles, Nibble.Fits n := (Packed.bytes_of_unpack hunpack).1.fits
  have hodd : e.tagByte.oddLength = true := by decide
  have H := int_agrees e.nibbles bytes e
  refine ⟨⟨hns, hunpack⟩, H.1 hns, ?_, by decide, by decide⟩
  simpa only [hodd, if_true] using (H.2 hunpack).2

end Source

end TypeCodex
