import Mathlib.Data.List.Forall2
import TypeCodex.Proofs.Wire.Local

/-!
# The bytes that are read as a view

Reading loses nothing but redundancy. The bytes of a view are those of its fields, one after
another, and a field has only one spelling unless it is a number: that may have groups of zero
at its end, as far as its format has room for them. So what is read as a view is what would be
written for it, or it is longer because some number is padded.

## Main definitions

* `Wire.Field`, `Wire.viewFields` — the bytes and numbers that a view is written as.
* `Wire.Field.Spells` — the bytes that are read as a field.
* `Wire.Padded` — a number with groups of zero at its end.
* `Wire.Spelled` — the bytes between two places are read as some fields.

## Main statements

* `Wire.Varint.decodeGroups_spells` — a number is written in the shortest way or padded.
* `Wire.spelled_decodeView` — what is read as a view is read field by field.
* `Wire.shortest_or_padded` — fields are written in the shortest way or some number is padded.
* `Wire.decodeView_spellings` — the same of views, and what more bytes change.
-/

namespace TypeCodex.Wire

/-- The last group is zero and not the only one. -/
def Padded (c : List UInt8) : Prop := 1 < c.length ∧ c.getLast? = some 0

/-! ## Numbers -/

namespace Varint

variable {last b : UInt8} {groups n : Nat} {bs rest : List UInt8}

/-- How a number is read off its first byte. -/
theorem decodeGroups_cons (h : decodeGroups last (groups + 1) (b :: bs) = .ok (n, rest)) :
    (b < 128 ∧ (groups = 0 → b ≤ last) ∧ n = b.toNat ∧ rest = bs) ∨
    (¬ b < 128 ∧ ∃ high, decodeGroups last groups bs = .ok (high, rest) ∧
      n = b.toNat % 128 + 128 * high) := by
  by_cases hb : b < 128
  · refine .inl ⟨hb, ?_⟩
    simp only [decodeGroups, Reader.run_bind, byte, Except.bind, hb, if_true] at h
    split at h
    · cases h
    · next hfits =>
      cases h
      exact ⟨fun hg => UInt8.not_lt.1 fun hlt => hfits ⟨hg, hlt⟩, rfl, rfl⟩
  · refine .inr ⟨hb, ?_⟩
    rw [decodeGroups_more hb] at h
    cases hread : decodeGroups last groups bs with
    | error e =>
      rw [hread] at h
      cases h
    | ok p =>
      rw [hread] at h
      cases h
      exact ⟨p.1, rfl, rfl⟩

/-- Nothing is read off no bytes. -/
theorem decodeGroups_nil : decodeGroups last groups [] ≠ .ok (n, rest) := by
  cases groups <;> rintro ⟨⟩

/-- What is read is within the limits. -/
theorem decodeGroups_lt (hlast : last < 128)
    (h : decodeGroups last (groups + 1) bs = .ok (n, rest)) :
    n < (last.toNat + 1) * 128 ^ groups := by
  have hlast' : last.toNat < 128 := UInt8.lt_iff_toNat_lt.1 hlast
  induction groups generalizing n bs with
  | zero =>
    rcases bs with _ | ⟨b, bs⟩
    · exact absurd h decodeGroups_nil
    rcases decodeGroups_cons h with ⟨-, hle, rfl, -⟩ | ⟨-, high, hhigh, -⟩
    · have := UInt8.le_iff_toNat_le.1 (hle rfl)
      omega
    · cases hhigh
  | succ groups ih =>
    rcases bs with _ | ⟨b, bs⟩
    · exact absurd h decodeGroups_nil
    have hpos : 0 < (last.toNat + 1) * 128 ^ groups := Nat.mul_pos (Nat.succ_pos _) (Nat.pow_pos (by decide))
    rw [Nat.pow_succ, ← Nat.mul_assoc]
    rcases decodeGroups_cons h with ⟨hb, -, rfl, -⟩ | ⟨-, high, hhigh, rfl⟩
    · have hb' : b.toNat < 128 := UInt8.lt_iff_toNat_lt.1 hb
      omega
    · have hlt := ih hhigh
      omega

/-- The group of a number above 127. -/
theorem ofNat_group (hb : ¬ b < 128) (high : Nat) :
    UInt8.ofNat ((b.toNat % 128 + 128 * high) % 128 + 128) = b := by
  have hb' : ¬ b.toNat < 128 := fun h => hb (UInt8.lt_iff_toNat_lt.2 h)
  have hlt := b.toNat_lt
  have hgroup : (b.toNat % 128 + 128 * high) % 128 + 128 = b.toNat := by omega
  rw [hgroup, UInt8.ofNat_toNat]

/-- The bytes of a number can be read alone. -/
theorem exists_spelling (h : decodeGroups last groups bs = .ok (n, rest)) :
    ∃ c, bs = c ++ rest ∧ decodeGroups last groups c = .ok (n, []) := by
  induction groups generalizing n bs with
  | zero => cases h
  | succ groups ih =>
    rcases bs with _ | ⟨b, bs⟩
    · exact absurd h decodeGroups_nil
    rcases decodeGroups_cons h with ⟨hb, hle, rfl, rfl⟩ | ⟨hb, high, hhigh, rfl⟩
    · exact ⟨[b], rfl, decodeGroups_last hb hle []⟩
    · obtain ⟨c, rfl, hc⟩ := ih hhigh
      refine ⟨b :: c, rfl, ?_⟩
      rw [decodeGroups_more hb, hc]
      rfl

/-- The bytes that are read as a number are those that are written for it, or there are more of
them and the last one is zero. -/
theorem decodeGroups_spells {c : List UInt8} (h : decodeGroups last groups c = .ok (n, [])) :
    (c = encodeGroups groups n ∧ (c.getLast? = some 0 → n = 0)) ∨
    ((encodeGroups groups n).length < c.length ∧ c.getLast? = some 0) := by
  induction groups generalizing n c with
  | zero => cases h
  | succ groups ih =>
    rcases c with _ | ⟨b, c⟩
    · exact absurd h decodeGroups_nil
    rcases decodeGroups_cons h with ⟨hb, -, rfl, rfl⟩ | ⟨hb, high, hhigh, rfl⟩
    · have hb' : b.toNat < 128 := UInt8.lt_iff_toNat_lt.1 hb
      refine .inl ⟨?_, ?_⟩
      · rw [encodeGroups, if_pos hb', UInt8.ofNat_toNat]
      · intro hlast
        cases hlast
        rfl
    · have hne : c ≠ [] := by
        rintro rfl
        exact decodeGroups_nil hhigh
      rw [List.getLast?_cons_of_ne_nil hne]
      by_cases hzero : high = 0
      · -- The groups behind the first one add nothing, so they end with a zero.
        have hsmall : b.toNat % 128 + 128 * high < 128 := by omega
        have hend : c.getLast? = some 0 := by
          rcases ih hhigh with ⟨hshort, -⟩ | ⟨-, hend⟩
          · cases groups with
            | zero => cases hhigh
            | succ groups =>
              rw [hshort, hzero, encodeGroups, if_pos (by decide)]
              rfl
          · exact hend
        refine .inr ⟨?_, hend⟩
        have hlen : 0 < c.length := List.length_pos_iff.2 hne
        rw [encodeGroups, if_pos hsmall, List.length_singleton, List.length_cons]
        omega
      · have hlarge : ¬ b.toNat % 128 + 128 * high < 128 := by omega
        have hdiv : (b.toNat % 128 + 128 * high) / 128 = high := by omega
        rw [encodeGroups, if_neg hlarge, ofNat_group hb, hdiv]
        rcases ih hhigh with ⟨hshort, hend⟩ | ⟨hlonger, hend⟩
        · refine .inl ⟨by rw [← hshort], fun hlast => ?_⟩
          exact absurd (hend hlast) hzero
        · exact .inr ⟨Nat.succ_lt_succ hlonger, hend⟩

/-- The bytes that are read as a number are those that are written for it, or there are more of
them and the number is padded. -/
theorem decode_spells {f : Format} {c : List UInt8} (h : decode f c = .ok (n, [])) :
    (c = encode f n ∧ ¬ Padded c) ∨ ((encode f n).length < c.length ∧ Padded c) := by
  obtain ⟨groups, last⟩ := f
  rcases groups with _ | groups
  · cases h
  rcases decodeGroups_spells h with ⟨hshort, hzero⟩ | ⟨hlonger, hend⟩
  · refine .inl ⟨hshort, ?_⟩
    rintro ⟨hlen, hend⟩
    rw [hshort, hzero hend] at hlen
    simp [encodeGroups] at hlen
  · refine .inr ⟨hlonger, ?_, hend⟩
    have hpos : 0 < (encodeGroups (groups + 1) n).length := by
      rw [encodeGroups]
      split <;> simp
    change (encodeGroups (groups + 1) n).length < c.length at hlonger
    omega

/-- What is read as a number of 32 bits is one. -/
theorem lt_of_decode_word32 (h : decode word32 bs = .ok (n, rest)) : n < 2 ^ 32 :=
  decodeGroups_lt (by decide) h

end Varint

/-! ## Fields -/

/-- A byte or a number of a view. -/
inductive Field where
  | byte (b : UInt8)
  | number (f : Varint.Format) (n : Nat)

namespace Field

/-- The bytes that are written for a field. -/
def bytes : Field → List UInt8
  | byte b => [b]
  | number f n => Varint.encode f n

/-- Whether bytes are read as a field. -/
def Spells : Field → List UInt8 → Prop
  | byte b, c => c = [b]
  | number f n, c => Varint.decode f c = .ok (n, [])

/-- What is read as a field is what is written for it, or it is longer because it is padded. -/
theorem Spells.shortest_or_padded {x : Field} {c : List UInt8} (h : x.Spells c) :
    (c = x.bytes ∧ ¬ Padded c) ∨ (x.bytes.length < c.length ∧ Padded c) := by
  cases x with
  | byte b =>
    obtain rfl : c = [b] := h
    exact .inl ⟨rfl, by simp [Padded]⟩
  | number f n => exact Varint.decode_spells h

/-- An identifier as a field. -/
def ofId (id : TypeId) : Field := number Varint.word32 id.raw.toNat

@[simp] theorem bytes_byte (b : UInt8) : (byte b).bytes = [b] := rfl
@[simp] theorem bytes_number (f : Varint.Format) (n : Nat) :
    (number f n).bytes = Varint.encode f n := rfl
@[simp] theorem bytes_ofId (id : TypeId) : (ofId id).bytes = encodeId id := rfl

/-- An operand that may be missing as fields. -/
def ofOption : Option TypeId → List Field
  | none => [byte 0]
  | some id => [byte 1, ofId id]

@[simp] theorem flatMap_ofOption (o : Option TypeId) :
    (ofOption o).flatMap bytes = encodeOption o := by
  cases o <;> simp [encodeOption, ofOption]

end Field

/-- The fields of a view in the order in which they are written. -/
def viewFields (v : View) : List Field :=
  [.number Varint.word32 (v.tag.value.toNat - 1), .byte (if v.isConst then 1 else 0)]
    ++ Field.ofOption v.type1 ++ Field.ofOption v.type2
    ++ [.number Varint.word32 v.size.toNat, .number Varint.word64 v.list.length]
    ++ v.list.map Field.ofId

/-- A view is written field by field. -/
theorem encodeView_eq (v : View) : encodeView v = (viewFields v).flatMap Field.bytes := by
  simp [encodeView, viewFields, encodeTag, encodeBool, encodeWord, encodeList, List.flatMap_map]

/-- Fields are written in the shortest way, or there are more bytes and some number is padded. -/
theorem shortest_or_padded {xs : List Field} {cs : List (List UInt8)}
    (h : List.Forall₂ Field.Spells xs cs) :
    (cs.flatten = xs.flatMap Field.bytes ∧ ∀ c ∈ cs, ¬ Padded c) ∨
    ((xs.flatMap Field.bytes).length < cs.flatten.length ∧ ∃ c ∈ cs, Padded c) := by
  induction h with
  | nil => exact .inl ⟨rfl, by simp⟩
  | @cons x c xs cs hx _ ih =>
    simp only [List.flatten_cons, List.flatMap_cons, List.length_append, List.forall_mem_cons,
      List.exists_mem_cons_iff]
    rcases hx.shortest_or_padded with ⟨hshort, hc⟩ | ⟨hlonger, hc⟩
    · rcases ih with ⟨hshort', hcs⟩ | ⟨hlonger', hcs⟩
      · exact .inl ⟨by rw [hshort, hshort'], hc, hcs⟩
      · exact .inr ⟨by rw [hshort]; omega, .inr hcs⟩
    · refine .inr ⟨?_, .inl hc⟩
      rcases ih with ⟨hshort', -⟩ | ⟨hlonger', -⟩
      · rw [hshort']
        omega
      · omega

/-! ## Reading field by field -/

/-- The bytes in front of a rest are read as fields, each with its own bytes. -/
def Spelled (xs : List Field) (bs rest : List UInt8) : Prop :=
  ∃ cs, bs = cs.flatten ++ rest ∧ List.Forall₂ Field.Spells xs cs

variable {bs rest mid : List UInt8} {xs ys : List Field}

theorem Spelled.nil : Spelled [] rest rest := ⟨[], rfl, .nil⟩

theorem Spelled.append (hx : Spelled xs bs mid) (hy : Spelled ys mid rest) :
    Spelled (xs ++ ys) bs rest := by
  obtain ⟨cs, rfl, hcs⟩ := hx
  obtain ⟨cs', rfl, hcs'⟩ := hy
  exact ⟨cs ++ cs', by simp, List.rel_append hcs hcs'⟩

theorem spelled_byte {b : UInt8} (h : byte bs = .ok (b, rest)) : Spelled [.byte b] bs rest := by
  cases bs with
  | nil => cases h
  | cons b bs =>
    cases h
    exact ⟨[[b]], rfl, .cons rfl .nil⟩

theorem spelled_decode {f : Varint.Format} {n : Nat} (h : Varint.decode f bs = .ok (n, rest)) :
    Spelled [.number f n] bs rest := by
  obtain ⟨c, rfl, hc⟩ := Varint.exists_spelling h
  exact ⟨[c], by simp, .cons hc .nil⟩

theorem spelled_decodeWord {w : UInt32} (h : decodeWord bs = .ok (w, rest)) :
    Spelled [.number Varint.word32 w.toNat] bs rest := by
  obtain ⟨n, hn, rfl⟩ := Reader.map_eq_ok.1 h
  rw [UInt32.toNat_ofNat_of_lt' (Varint.lt_of_decode_word32 hn)]
  exact spelled_decode hn

theorem spelled_decodeId {id : TypeId} (h : decodeId bs = .ok (id, rest)) :
    Spelled [.ofId id] bs rest := by
  obtain ⟨w, hw, rfl⟩ := Reader.map_eq_ok.1 h
  exact spelled_decodeWord hw

/-- A tag stands at the place that its value gives. -/
theorem eq_of_getElem?_all {t : Tag} {i : Nat} (h : Tag.all[i]? = some t) :
    i = t.value.toNat - 1 := by
  have hall : ∀ i : Fin 15, ∀ t, Tag.all[i.val]? = some t → i.val = t.value.toNat - 1 := by decide
  exact hall ⟨i, (List.getElem?_eq_some_iff.1 h).1⟩ t h

theorem spelled_decodeTag {t : Tag} (h : decodeTag bs = .ok (t, rest)) :
    Spelled [.number Varint.word32 (t.value.toNat - 1)] bs rest := by
  obtain ⟨i, mid, hi, h⟩ := Reader.bind_eq_ok.1 h
  cases hall : Tag.all[i]? with
  | none =>
    rw [hall] at h
    cases h
  | some t' =>
    rw [hall] at h
    cases h
    rw [← eq_of_getElem?_all hall]
    exact spelled_decode hi

theorem spelled_decodeBool {b : Bool} (h : decodeBool bs = .ok (b, rest)) :
    Spelled [.byte (if b then 1 else 0)] bs rest := by
  obtain ⟨c, mid, hc, h⟩ := Reader.bind_eq_ok.1 h
  split at h
  · next hzero =>
    subst hzero
    cases h
    exact spelled_byte hc
  · split at h
    · next hone =>
      subst hone
      cases h
      exact spelled_byte hc
    · cases h

theorem spelled_decodeOption {o : Option TypeId} (h : decodeOption bs = .ok (o, rest)) :
    Spelled (Field.ofOption o) bs rest := by
  obtain ⟨c, mid, hc, h⟩ := Reader.bind_eq_ok.1 h
  split at h
  · next hzero =>
    subst hzero
    cases h
    exact spelled_byte hc
  · split at h
    · next hone =>
      subst hone
      obtain ⟨id, hid, rfl⟩ := Reader.map_eq_ok.1 h
      exact (spelled_byte hc).append (spelled_decodeId hid)
    · cases h

theorem spelled_list {ids : List TypeId} {count : Nat}
    (h : Reader.list decodeId count bs = .ok (ids, rest)) :
    Spelled (ids.map Field.ofId) bs rest := by
  induction count generalizing bs ids with
  | zero =>
    cases h
    exact .nil
  | succ count ih =>
    rw [Reader.list_succ] at h
    obtain ⟨id, mid, hid, h⟩ := Reader.bind_eq_ok.1 h
    obtain ⟨tail, mid', htail, h⟩ := Reader.bind_eq_ok.1 h
    cases h
    exact (spelled_decodeId hid).append (ih htail)

theorem spelled_decodeList {ids : List TypeId} (h : decodeList bs = .ok (ids, rest)) :
    Spelled (.number Varint.word64 ids.length :: ids.map Field.ofId) bs rest := by
  obtain ⟨count, mid, hcount, h⟩ := Reader.bind_eq_ok.1 h
  obtain rfl : ids.length = count := Reader.length_list h
  exact (spelled_decode hcount).append (spelled_list h)

/-- What is read as a view is read field by field. -/
theorem spelled_decodeView {v : View} (h : decodeView bs = .ok (v, rest)) :
    Spelled (viewFields v) bs rest := by
  obtain ⟨tag, _, htag, h⟩ := Reader.bind_eq_ok.1 h
  obtain ⟨isConst, _, hisConst, h⟩ := Reader.bind_eq_ok.1 h
  obtain ⟨type1, _, htype1, h⟩ := Reader.bind_eq_ok.1 h
  obtain ⟨type2, _, htype2, h⟩ := Reader.bind_eq_ok.1 h
  obtain ⟨size, _, hsize, h⟩ := Reader.bind_eq_ok.1 h
  obtain ⟨list, _, hlist, h⟩ := Reader.bind_eq_ok.1 h
  cases h
  have H := (spelled_decodeTag htag).append <| (spelled_decodeBool hisConst).append <|
    (spelled_decodeOption htype1).append <| (spelled_decodeOption htype2).append <|
    (spelled_decodeWord hsize).append <| spelled_decodeList hlist
  simpa [viewFields] using H

/-- What is read as a view is read field by field, and it is at least as long as what is written
for the view. It is the same if and only if it is as long, and otherwise some number in it is
padded. More bytes behind a view stay unread, and more bytes behind an error do not mend it,
unless the error is that the bytes ended. -/
theorem decodeView_spellings (bs : List UInt8) :
    (∀ v rest, decodeView bs = .ok (v, rest) →
      (∃ cs, bs = cs.flatten ++ rest ∧ List.Forall₂ Field.Spells (viewFields v) cs ∧
        (encodeView v).length ≤ cs.flatten.length ∧
        (cs.flatten = encodeView v ↔ cs.flatten.length = (encodeView v).length) ∧
        (cs.flatten ≠ encodeView v ↔ ∃ c ∈ cs, Padded c)) ∧
      ∀ more, decodeView (bs ++ more) = .ok (v, rest ++ more)) ∧
    ∀ e, decodeView bs = .error e → e ≠ .unexpectedEnd →
      ∀ more, decodeView (bs ++ more) = .error e := by
  refine ⟨fun v rest h => ⟨?_, local_decodeView.ok bs v rest h⟩, local_decodeView.error bs⟩
  obtain ⟨cs, hbs, hcs⟩ := spelled_decodeView h
  refine ⟨cs, hbs, hcs, ?_⟩
  rcases shortest_or_padded hcs with ⟨hshort, hnone⟩ | ⟨hlonger, hsome⟩
  · rw [← encodeView_eq] at hshort
    refine ⟨hshort ▸ Nat.le_refl _, ?_, ?_⟩
    · simp [hshort]
    · refine iff_of_false (not_not_intro hshort) ?_
      rintro ⟨c, hc, hpadded⟩
      exact hnone c hc hpadded
  · rw [← encodeView_eq] at hlonger
    have hne : cs.flatten ≠ encodeView v := by
      intro heq
      rw [heq] at hlonger
      omega
    exact ⟨Nat.le_of_lt hlonger, iff_of_false hne (by omega), iff_of_true hne hsome⟩

/-- A constant vector with its tag in two bytes and its element in five, in front of a seven; and
the index of no tag. -/
theorem decodeView_spellings_vector :
    let v : View := { tag := .vector, isConst := true, type1 := some ⟨300⟩ }
    let bs : List UInt8 := [138, 0, 1, 1, 172, 130, 128, 128, 0, 0, 0, 0, 7]
    let bad : List UInt8 := [143, 128, 0, 1]
    (decodeView bs = .ok (v, [7]) ∧ decodeView bad = .error .unknownTag) ∧
    (∃ cs, bs = cs.flatten ++ [7] ∧ List.Forall₂ Field.Spells (viewFields v) cs ∧
      (encodeView v).length ≤ cs.flatten.length ∧ ∃ c ∈ cs, Padded c) ∧
    (∀ more, decodeView (bs ++ more) = .ok (v, [7] ++ more)) ∧
    ∀ more, decodeView (bad ++ more) = .error .unknownTag := by
  intro v bs bad
  have hread : decodeView bs = .ok (v, [7]) := rfl
  have hbad : decodeView bad = .error .unknownTag := rfl
  obtain ⟨⟨cs, hbs, hcs, hle, -, hpadded⟩, hmore⟩ := (decodeView_spellings bs).1 v [7] hread
  refine ⟨⟨hread, hbad⟩, ⟨cs, hbs, hcs, hle, hpadded.1 ?_⟩, hmore,
    (decodeView_spellings bad).2 .unknownTag hbad (by decide)⟩
  intro heq
  rw [heq] at hbs
  exact absurd hbs (by decide)

end TypeCodex.Wire
