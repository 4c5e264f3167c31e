import TypeCodex.Proofs.Reader.Follows
import TypeCodex.Proofs.Wire.RoundTrip

/-!
# Bytes that go on and bytes that break off

No decoder looks at a byte behind the value that it reads. So more bytes behind a value do
not change it, more bytes behind an error do not mend it, and the bytes of a value that
break off anywhere are an unexpected end: whatever else they could be read as, the full
bytes would be read as that too.

## Main definitions

* `Wire.Local` — more bytes change nothing unless the bytes had run out.

## Main statements

* `Wire.local_bind`, `Wire.local_list` — decoders in sequence.
* `Wire.local_decodeView` — the decoder of views.
* `Wire.Local.error_of_prefix` — a value whose bytes break off.
* `Wire.decodeView_exact` — views are read off all their bytes and off no part of them.
-/

namespace TypeCodex.Wire

variable {α β : Type}

/-- More bytes change neither a value nor an error, unless the error is that the bytes
ended. -/
structure Local (x : Decoder α) : Prop where
  ok : ∀ bs a rest, x bs = .ok (a, rest) → ∀ more, x (bs ++ more) = .ok (a, rest ++ more)
  error : ∀ bs e, x bs = .error e → e ≠ .unexpectedEnd → ∀ more, x (bs ++ more) = .error e

theorem local_pure (a : α) : Local (pure a : Decoder α) where
  ok := by
    intro bs b rest h more
    cases h
    rfl
  error := by
    intro bs e h
    cases h

theorem local_throw (e : Error) : Local (throw e : Decoder α) where
  ok := by
    intro bs a rest h
    cases h
  error := by
    intro bs e' h _ more
    cases h
    rfl

theorem local_byte : Local byte where
  ok := by
    intro bs b rest h more
    cases bs with
    | nil => cases h
    | cons b' bs =>
      cases h
      rfl
  error := by
    intro bs e h he
    cases bs with
    | nil =>
      cases h
      exact absurd rfl he
    | cons b bs => cases h

theorem local_bind {x : Decoder α} {f : α → Decoder β} (hx : Local x) (hf : ∀ a, Local (f a)) :
    Local (x >>= f) where
  ok := by
    intro bs b rest h more
    obtain ⟨a, rest₁, h1, h2⟩ := Reader.bind_eq_ok.1 h
    exact Reader.bind_eq_ok.2 ⟨a, rest₁ ++ more, hx.ok bs a rest₁ h1 more,
      (hf a).ok rest₁ b rest h2 more⟩
  error := by
    intro bs e h he more
    rw [Reader.run_bind] at h ⊢
    cases hbs : x bs with
    | error e' =>
      rw [hbs] at h
      cases h
      rw [hx.error bs e hbs he more]
      rfl
    | ok p =>
      obtain ⟨a, rest⟩ := p
      rw [hbs] at h
      rw [hx.ok bs a rest hbs more]
      exact (hf a).error rest e h he more

theorem local_map (f : α → β) {x : Decoder α} (hx : Local x) : Local (f <$> x) :=
  local_bind hx fun a => local_pure (f a)

theorem local_list {x : Decoder α} (hx : Local x) (count : Nat) :
    Local (Reader.list x count) := by
  induction count with
  | zero => exact local_pure []
  | succ count ih =>
    rw [Reader.list_succ]
    exact local_bind hx fun a => local_bind ih fun tail => local_pure (a :: tail)

/-! ## Fields -/

theorem local_decodeGroups (last : UInt8) (groups : Nat) :
    Local (Varint.decodeGroups last groups) := by
  induction groups with
  | zero => exact local_throw .badVarint
  | succ groups ih =>
    refine local_bind local_byte fun b => ?_
    split
    · split
      · exact local_throw .badVarint
      · exact local_pure b.toNat
    · exact local_bind ih fun high => local_pure _

theorem local_decode (f : Varint.Format) : Local (Varint.decode f) :=
  local_decodeGroups f.lastMax f.groups

theorem local_decodeWord : Local decodeWord := local_map UInt32.ofNat (local_decode _)

theorem local_decodeTag : Local decodeTag := by
  refine local_bind (local_decode _) fun i => ?_
  split
  · exact local_pure _
  · exact local_throw .unknownTag

theorem local_decodeId : Local decodeId := local_map TypeId.mk local_decodeWord

theorem local_decodeBool : Local decodeBool := by
  refine local_bind local_byte fun b => ?_
  split
  · exact local_pure false
  · split
    · exact local_pure true
    · exact local_throw .badBool

theorem local_decodeOption : Local decodeOption := by
  refine local_bind local_byte fun b => ?_
  split
  · exact local_pure none
  · split
    · exact local_map some local_decodeId
    · exact local_throw .badOption

theorem local_decodeList : Local decodeList :=
  local_bind (local_decode _) fun count => local_list local_decodeId count

theorem local_decodeView : Local decodeView := by
  refine local_bind local_decodeTag fun tag => ?_
  refine local_bind local_decodeBool fun isConst => ?_
  refine local_bind local_decodeOption fun type1 => ?_
  refine local_bind local_decodeOption fun type2 => ?_
  refine local_bind local_decodeWord fun size => ?_
  exact local_bind local_decodeList fun list => local_pure _

/-! ## Bytes that break off -/

/-- If a value takes all bytes, no part of them from the start holds a value, and the only
error is that they end. -/
theorem Local.error_of_prefix {x : Decoder α} (hx : Local x) {bs part : List UInt8} {a : α}
    (h : x bs = .ok (a, [])) (hpart : part <+: bs) (hne : part ≠ bs) :
    x part = .error .unexpectedEnd := by
  obtain ⟨more, rfl⟩ := hpart
  cases hread : x part with
  | ok p =>
    obtain ⟨b, rest⟩ := p
    have hall := hx.ok part b rest hread more
    rw [h, Except.ok.injEq, Prod.mk.injEq] at hall
    have hmore : more = [] := (List.append_eq_nil_iff.1 hall.2.symm).2
    exact absurd (by rw [hmore, List.append_nil]) hne
  | error e =>
    by_cases he : e = .unexpectedEnd
    · rw [he]
    · have hall := hx.error part e hread he more
      rw [h] at hall
      cases hall

/-- A view is read off its bytes, whatever follows them, if the length of its list fits in
64 bits. Bytes of a view that break off anywhere are an unexpected end. -/
theorem decodeView_exact {v : View} (h : v.list.length < 2 ^ 64) :
    (∀ rest, decodeView (encodeView v ++ rest) = .ok (v, rest)) ∧
    ∀ part, part <+: encodeView v → part ≠ encodeView v →
      decodeView part = .error .unexpectedEnd := by
  have hread := decodeView_encodeView h
  refine ⟨hread, ?_⟩
  intro part hpart hne
  have hall := hread []
  rw [List.append_nil] at hall
  exact local_decodeView.error_of_prefix hall hpart hne

/-- A constant function with a size that functions do not use, broken off inside the size. -/
theorem decodeView_exact_function :
    let v : View :=
      { tag := .function, isConst := true, type1 := some ⟨300⟩, size := 0xffffffff,
        list := [⟨17⟩, ⟨70000⟩] }
    let part : List UInt8 := [14, 1, 1, 0xac, 2, 0, 0xff, 0xff]
    (v.list.length < 2 ^ 64 ∧ part <+: encodeView v ∧ part ≠ encodeView v) ∧
    (∀ rest, decodeView (encodeView v ++ rest) = .ok (v, rest)) ∧
    decodeView part = .error .unexpectedEnd := by
  intro v part
  have hlist : v.list.length < 2 ^ 64 := by decide
  have hpart : part <+: encodeView v := by decide
  have hne : part ≠ encodeView v := by decide
  have H := decodeView_exact hlist
  exact ⟨⟨hlist, hpart, hne⟩, H.1, H.2 part hpart hne⟩

end TypeCodex.Wire
