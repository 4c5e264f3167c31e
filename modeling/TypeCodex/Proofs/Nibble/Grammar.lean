import TypeCodex.Proofs.Nibble.Reads
import TypeCodex.Proofs.Reader.Follows

/-!
# Grammars of nibbles

A reader parses a grammar when it takes exactly the sequences of the grammar. Of any
nibbles, it then either takes a sequence of the grammar from the front or reports that
they break off, and they do: more nibbles would make a sequence of the grammar of them.
Readers in sequence parse sequences of grammars.

## Main definitions

* `Nibble.SpellsAll` — nibbles stand for several words, one after the other.
* `Cursor.Parses` — a reader takes exactly the sequences of a grammar.

## Main statements

* `Cursor.Parses.unique` — no sequence of a grammar continues another one.
* `Cursor.parses_bind`, `Cursor.parses_list` — readers in sequence.
* `Cursor.parses_int` — words are parsed by their length nibble.
* `Nibble.SpellsAll.unique` — nibbles stand for one list of words at most.
-/

namespace TypeCodex

namespace Nibble

/-- Nibbles stand for several words, one after the other. -/
inductive SpellsAll : List UInt8 → List UInt32 → Prop where
  | nil : SpellsAll [] []
  | cons {ns ms : List UInt8} {v : UInt32} {vs : List UInt32} (h : Spells ns v)
      (hs : SpellsAll ms vs) : SpellsAll (ns ++ ms) (v :: vs)

@[simp] theorem spellsAll_nil {ns : List UInt8} : SpellsAll ns [] ↔ ns = [] := by
  constructor
  · intro h
    cases h
    rfl
  · rintro rfl
    exact .nil

theorem spellsAll_cons {ns : List UInt8} {v : UInt32} {vs : List UInt32} :
    SpellsAll ns (v :: vs)
      ↔ ∃ front back, ns = front ++ back ∧ Spells front v ∧ SpellsAll back vs := by
  constructor
  · intro h
    cases h with
    | cons h hs => exact ⟨_, _, rfl, h, hs⟩
  · rintro ⟨front, back, rfl, h, hs⟩
    exact .cons h hs

@[simp] theorem spellsAll_singleton {ns : List UInt8} {v : UInt32} :
    SpellsAll ns [v] ↔ Spells ns v := by
  simp [spellsAll_cons]

theorem spellsAll_encodeAll (vs : List UInt32) : SpellsAll (encodeAll vs) vs := by
  induction vs with
  | nil => exact .nil
  | cons v vs ih => exact .cons (spells_encode v) ih

end Nibble

namespace Cursor

variable {α β : Type} {x : Reader Cursor Fault α} {G : List UInt8 → α → Prop}

/-- A reader takes exactly the sequences of a grammar. It takes them whatever follows, and
where none stands in front, the nibbles end inside one. -/
structure Parses (x : Reader Cursor Fault α) (G : List UInt8 → α → Prop) : Prop where
  reads : ∀ ns a, G ns a → Reads x ns a
  split : ∀ ns, (∀ n ∈ ns, Nibble.Fits n) →
    (∃ front back a, ns = front ++ back ∧ G front a) ∨
    (∃ more a, more ≠ [] ∧ G (ns ++ more) a) ∧
      ∀ offset, x ⟨offset, ns⟩ = .error (.truncated (offset + ns.length))

namespace Parses

/-- No sequence of a grammar continues another one, and none has two values. -/
theorem unique (H : Parses x G) {front back front' back' : List UInt8} {a a' : α}
    (h : G front a) (h' : G front' a') (heq : front ++ back = front' ++ back') :
    front = front' ∧ back = back' ∧ a = a' := by
  have hread := H.reads front a h 0 back
  rw [heq, H.reads front' a' h' 0 back', Except.ok.injEq, Prod.mk.injEq, Cursor.mk.injEq] at hread
  obtain ⟨rfl, -, rfl⟩ := hread
  exact ⟨List.append_cancel_right heq, rfl, rfl⟩

/-- Every grammar that is parsed has a sequence. -/
theorem nonempty (H : Parses x G) : ∃ ns a, G ns a := by
  rcases H.split [] (by simp) with ⟨front, -, a, -, h⟩ | ⟨⟨more, a, -, h⟩, -⟩
  · exact ⟨front, a, h⟩
  · exact ⟨_, a, h⟩

/-- Grammars with the same sequences are parsed alike. -/
theorem congr (H : Parses x G) {G' : List UInt8 → α → Prop} (h : ∀ ns a, G ns a ↔ G' ns a) :
    Parses x G' := by
  have hG : G = G' := by
    funext ns a
    exact propext (h ns a)
  exact hG ▸ H

/-- Nibbles that end inside a sequence of the grammar are reported as truncated. -/
theorem truncated (H : Parses x G) {ns more : List UInt8} (hns : ∀ n ∈ ns, Nibble.Fits n)
    (hmore : more ≠ []) {a : α} (h : G (ns ++ more) a) (offset : Nat) :
    x ⟨offset, ns⟩ = .error (.truncated (offset + ns.length)) := by
  rcases H.split ns hns with ⟨front, back, b, rfl, hb⟩ | ⟨-, herror⟩
  · -- A sequence in front would be continued by the longer one.
    have happend : front ++ (back ++ more) = front ++ back ++ more ++ [] := by simp
    have hunique := H.unique hb h happend
    exact absurd (List.append_eq_nil_iff.1 hunique.2.1).2 hmore
  · exact herror offset

end Parses

theorem parses_pure (a : α) : Parses (pure a) fun ns b => ns = [] ∧ b = a where
  reads := by
    rintro ns b ⟨rfl, rfl⟩
    exact reads_pure b
  split := by
    intro ns _
    exact .inl ⟨[], ns, a, rfl, rfl, rfl⟩

theorem parses_bind {f : α → Reader Cursor Fault β} {H : α → List UInt8 → β → Prop}
    (hx : Parses x G) (hf : ∀ a, Parses (f a) (H a)) :
    Parses (x >>= f) fun ns b => ∃ front back a, ns = front ++ back ∧ G front a ∧ H a back b where
  reads := by
    rintro ns b ⟨front, back, a, rfl, ha, hb⟩
    exact reads_bind (hx.reads front a ha) ((hf a).reads back b hb)
  split := by
    intro ns hns
    rcases hx.split ns hns with ⟨front, back, a, rfl, ha⟩ | ⟨⟨more, a, hmore, ha⟩, herror⟩
    · have hread : ∀ offset, (x >>= f) ⟨offset, front ++ back⟩
          = f a ⟨offset + front.length, back⟩ := by
        intro offset
        rw [Reader.run_bind, hx.reads front a ha]
        rfl
      rcases (hf a).split back (fun n hn => hns n (by simp [hn])) with
        ⟨front', back', b, rfl, hb⟩ | ⟨⟨more, b, hmore, hb⟩, herror⟩
      · exact .inl ⟨front ++ front', back', b, by simp, front, front', a, rfl, ha, hb⟩
      · refine .inr ⟨⟨more, b, hmore, front, back ++ more, a, by simp, ha, hb⟩, ?_⟩
        intro offset
        rw [hread, herror, List.length_append, Nat.add_assoc]
    · -- What is missing of the first value is made up, and then any second value.
      obtain ⟨ms, b, hb⟩ := (hf a).nonempty
      refine .inr ⟨⟨more ++ ms, b, by simp [hmore], ns ++ more, ms, a, by simp, ha, hb⟩, ?_⟩
      intro offset
      rw [Reader.run_bind, herror]
      rfl

theorem parses_map (f : α → β) (hx : Parses x G) :
    Parses (f <$> x) fun ns b => ∃ a, G ns a ∧ f a = b := by
  refine (parses_bind hx fun a => parses_pure (f a)).congr fun ns b => ?_
  constructor
  · rintro ⟨front, back, a, rfl, ha, rfl, rfl⟩
    exact ⟨a, by rwa [List.append_nil], rfl⟩
  · rintro ⟨a, ha, rfl⟩
    exact ⟨ns, [], a, (List.append_nil ns).symm, ha, rfl, rfl⟩

/-- A list of values that are each a word is as many words as were announced. -/
theorem parses_list {word : α → UInt32} (hx : Parses x fun ns a => Nibble.Spells ns (word a))
    (count : Nat) : Parses (Reader.list x count) fun ns as =>
      as.length = count ∧ Nibble.SpellsAll ns (as.map word) := by
  induction count with
  | zero =>
    refine (parses_pure []).congr fun ns as => ?_
    constructor
    · rintro ⟨rfl, rfl⟩
      exact ⟨rfl, .nil⟩
    · rintro ⟨hlength, h⟩
      obtain rfl := List.length_eq_zero_iff.1 hlength
      exact ⟨Nibble.spellsAll_nil.1 h, rfl⟩
  | succ count ih =>
    rw [Reader.list_succ]
    refine (parses_bind hx fun a => parses_bind ih fun tail => parses_pure (a :: tail)).congr
      fun ns as => ?_
    constructor
    · rintro ⟨front, back, a, rfl, ha, middle, last, tail, rfl, ⟨rfl, htail⟩, rfl, rfl⟩
      rw [List.append_nil]
      exact ⟨rfl, .cons ha htail⟩
    · rintro ⟨hlength, h⟩
      cases as with
      | nil => cases hlength
      | cons a tail =>
        obtain ⟨front, back, rfl, ha, htail⟩ := Nibble.spellsAll_cons.1 h
        exact ⟨front, back, a, rfl, ha, back, [], tail, (List.append_nil back).symm,
          ⟨Nat.succ.inj hlength, htail⟩, rfl, rfl⟩

/-- Digits that end early end at the first one that is missing. -/
theorem digits_of_lt {ns : List UInt8} (hns : ∀ n ∈ ns, Nibble.Fits n) {k : Nat}
    (h : ns.length < k) (acc offset : Nat) :
    digits k acc ⟨offset, ns⟩ = .error (.truncated (offset + ns.length)) := by
  induction ns generalizing k acc offset with
  | nil =>
    cases k with
    | zero => cases h
    | succ k => rfl
  | cons n ns ih =>
    cases k with
    | zero => cases h
    | succ k =>
      have hrest := ih (fun n hn => hns n (by simp [hn])) (Nat.lt_of_succ_lt_succ h)
        (acc * 16 + n.toNat) (offset + 1)
      rw [digits, Reader.run_bind, next_cons (hns n (by simp))]
      change digits k (acc * 16 + n.toNat) ⟨offset + 1, ns⟩ = _
      rw [hrest, List.length_cons, Nat.add_assoc, Nat.add_comm 1]

/-- Words are parsed by their length nibble. -/
theorem parses_int : Parses int Nibble.Spells where
  reads := fun ns v h => reads_of_spells h
  split := by
    intro ns hns
    cases ns with
    | nil => exact .inr ⟨⟨[0], 0, by simp, .single 0 (by decide)⟩, fun offset => rfl⟩
    | cons head ds =>
      have hhead : Nibble.Fits head := hns head (by simp)
      have hds : ∀ d ∈ ds, Nibble.Fits d := fun d hd => hns d (by simp [hd])
      by_cases h : head < 8
      · exact .inl ⟨[head], ds, _, rfl, .single head h⟩
      · by_cases hlength : head.toNat - 7 ≤ ds.length
        · -- The announced digits are there.
          refine .inl ⟨head :: ds.take (head.toNat - 7), ds.drop (head.toNat - 7), _, by simp,
            .digits head _ h hhead (List.length_take_of_le hlength) ?_⟩
          exact fun d hd => hds d (List.mem_of_mem_take hd)
        · -- Zeros make up for the digits that are not there.
          let zeros : List UInt8 := List.replicate (head.toNat - 7 - ds.length) 0
          have hzeros : zeros ≠ [] := by
            rw [Ne, List.replicate_eq_nil_iff]
            omega
          have hcount : (ds ++ zeros).length = head.toNat - 7 := by
            rw [List.length_append, List.length_replicate]
            omega
          have hfits : ∀ d ∈ ds ++ zeros, Nibble.Fits d := by
            intro d hd
            rcases List.mem_append.1 hd with hd | hd
            · exact hds d hd
            · rw [List.eq_of_mem_replicate hd]
              decide
          refine .inr ⟨⟨zeros, _, hzeros, .digits head (ds ++ zeros) h hhead hcount hfits⟩, ?_⟩
          intro offset
          rw [int, Reader.run_bind, next_cons hhead]
          change (if head < 8 then pure head.toUInt32
            else UInt32.ofNat <$> digits (head.toNat - 7) 0) ⟨offset + 1, ds⟩ = _
          rw [if_neg h, Reader.run_map, digits_of_lt hds (by omega), List.length_cons,
            Nat.add_assoc, Nat.add_comm 1]
          rfl

end Cursor

/-- Nibbles stand for one list of words at most. -/
theorem Nibble.SpellsAll.unique {ns : List UInt8} {vs ws : List UInt32} (h : SpellsAll ns vs)
    (h' : SpellsAll ns ws) : vs = ws := by
  induction vs generalizing ns ws with
  | nil =>
    obtain rfl := spellsAll_nil.1 h
    cases ws with
    | nil => rfl
    | cons w ws =>
      obtain ⟨front, back, heq, hw, -⟩ := spellsAll_cons.1 h'
      obtain ⟨rfl, -⟩ := List.append_eq_nil_iff.1 heq.symm
      cases hw
  | cons v vs ih =>
    obtain ⟨front, back, rfl, hv, hvs⟩ := spellsAll_cons.1 h
    cases ws with
    | nil =>
      obtain ⟨rfl, -⟩ := List.append_eq_nil_iff.1 (spellsAll_nil.1 h')
      cases hv
    | cons w ws =>
      obtain ⟨front', back', heq, hw, hws⟩ := spellsAll_cons.1 h'
      obtain ⟨rfl, rfl, rfl⟩ := Cursor.parses_int.unique hv hw heq
      rw [ih hvs hws]

end TypeCodex
