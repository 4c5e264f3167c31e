import TypeCodex.Proofs.Nibble.Agreement

/-!
# The shortest way to write a word

A word can be written with leading zeros as long as its length nibble can announce them. Its
encoding is shorter than every other way, and the only one of its length. So several words
are each written in the shortest way exactly when their nibbles are the encodings of the
words, and no saving on one word makes up for another one.

## Main definitions

* `Nibble.Shortest` — nibbles stand for a word, and no fewer nibbles do.
* `Nibble.Minimal` — nibbles from which no digit can be taken away.
* `Nibble.ShortestAll` — nibbles stand for several words, each in the shortest way.

## Main statements

* `Nibble.digits_number` — nibbles are the digits of the number that they stand for.
* `Nibble.Spells.eq_encode_or_lt` — what stands for a word is its encoding or is longer.
* `Nibble.encode_shortest` — what is read as a word, against the encoding of the word.
* `Nibble.shortestAll_iff` — words in the shortest way are their encodings.
-/

namespace TypeCodex.Nibble

variable {ns ms : List UInt8} {v : UInt32} {vs : List UInt32}

/-! ## Numbers and their digits -/

theorem foldl_number (ds : List UInt8) (acc : Nat) :
    ds.foldl (fun n d => n * 16 + d.toNat) acc = acc * 16 ^ ds.length + number ds := by
  induction ds generalizing acc with
  | nil => simp [number]
  | cons d ds ih =>
    rw [number, List.foldl_cons, List.foldl_cons, ih, ih (0 * 16 + d.toNat), List.length_cons,
      Nat.pow_succ]
    ring

theorem number_cons (d : UInt8) (ds : List UInt8) :
    number (d :: ds) = d.toNat * 16 ^ ds.length + number ds := by
  rw [number, List.foldl_cons, foldl_number, Nat.zero_mul, Nat.zero_add]

theorem number_lt {ds : List UInt8} (h : ∀ d ∈ ds, Fits d) : number ds < 16 ^ ds.length := by
  induction ds with
  | nil => exact Nat.one_pos
  | cons d ds ih =>
    have hd : d.toNat < 16 := UInt8.lt_iff_toNat_lt.1 (h d (by simp))
    have htail := ih fun d hd => h d (by simp [hd])
    calc
      number (d :: ds) = d.toNat * 16 ^ ds.length + number ds := number_cons d ds
      _ < (d.toNat + 1) * 16 ^ ds.length := by rw [Nat.succ_mul]; omega
      _ ≤ 16 * 16 ^ ds.length := Nat.mul_le_mul_right _ hd
      _ = 16 ^ (d :: ds).length := by rw [List.length_cons, Nat.pow_succ, Nat.mul_comm]

/-- Higher digits do not change the lower ones. -/
theorem digits_add (k a v : Nat) : digits k (a * 16 ^ k + v) = digits k v := by
  induction k generalizing a with
  | zero => rfl
  | succ k ih =>
    have hsplit : a * 16 ^ (k + 1) + v = a * 16 * 16 ^ k + v := by
      rw [Nat.pow_succ, Nat.mul_comm (16 ^ k), Nat.mul_assoc]
    have hdigit : (a * 16 * 16 ^ k + v) / 16 ^ k % 16 = v / 16 ^ k % 16 := by
      rw [Nat.add_comm, Nat.add_mul_div_right _ _ (Nat.pow_pos (by decide)),
        Nat.add_mul_mod_self_right]
    rw [digits_succ, digits_succ, hsplit, hdigit, ih]

/-- Nibbles are the digits of the number that they stand for. -/
theorem digits_number {ds : List UInt8} (h : ∀ d ∈ ds, Fits d) :
    digits ds.length (number ds) = ds := by
  induction ds with
  | nil => rfl
  | cons d ds ih =>
    have hd : d.toNat < 16 := UInt8.lt_iff_toNat_lt.1 (h d (by simp))
    have hds : ∀ d ∈ ds, Fits d := fun d hd => h d (by simp [hd])
    have hlead : (d.toNat * 16 ^ ds.length + number ds) / 16 ^ ds.length % 16 = d.toNat := by
      rw [Nat.add_comm, Nat.add_mul_div_right _ _ (Nat.pow_pos (by decide)),
        Nat.div_eq_of_lt (number_lt hds), Nat.zero_add, Nat.mod_eq_of_lt hd]
    rw [List.length_cons, digits_succ, number_cons, hlead, digits_add, ih hds, UInt8.ofNat_toNat]

/-! ## The length of a word -/

/-- A length nibble announces at most eight digits, so no word overflows. -/
theorem toNat_number {head : UInt8} {ds : List UInt8} (hhead : Fits head)
    (hlength : ds.length = head.toNat - 7) (hds : ∀ d ∈ ds, Fits d) :
    (UInt32.ofNat (number ds)).toNat = number ds := by
  have hlt : head.toNat < 16 := UInt8.lt_iff_toNat_lt.1 hhead
  have hle : 16 ^ ds.length ≤ 16 ^ 8 := Nat.pow_le_pow_right (by decide) (by omega)
  exact UInt32.toNat_ofNat_of_lt (Nat.lt_of_lt_of_le (number_lt hds) hle)

/-- Nibbles that stand for a word are its encoding or are more than those of the encoding. -/
theorem Spells.eq_encode_or_lt (h : Spells ns v) : ns = encode v ∨ width v < ns.length := by
  cases h with
  | single n h =>
    have hv : n.toUInt32 < 8 := by
      rw [UInt32.lt_iff_toNat_lt, UInt8.toNat_toUInt32]
      exact UInt8.lt_iff_toNat_lt.1 h
    have hback : n.toUInt32.toUInt8 = n := by simp
    refine .inl ?_
    rw [encode, if_pos hv, hback]
  | digits head ds h hhead hlength hds =>
    have h8 : 8 ≤ head.toNat := Nat.le_of_not_lt fun hlt => h (UInt8.lt_iff_toNat_lt.2 hlt)
    have hnumber := toNat_number hhead hlength hds
    by_cases hv : UInt32.ofNat (number ds) < 8
    · refine .inr ?_
      rw [width, if_pos hv, List.length_cons, hlength]
      omega
    · rw [encode, width, if_neg hv, if_neg hv, hnumber, List.length_cons]
      have hcount : digitCount (number ds) ≤ ds.length :=
        (digitCount_le_iff _ _).2 (number_lt hds)
      rcases Nat.eq_or_lt_of_le hcount with heq | hlt
      · have hhead' : UInt8.ofNat (7 + ds.length) = head := by
          rw [hlength, Nat.add_sub_cancel' (by omega), UInt8.ofNat_toNat]
        refine .inl ?_
        rw [heq, hhead', digits_number hds]
      · exact .inr (by omega)

/-- Nibbles stand for a word, and no fewer nibbles do. -/
structure Shortest (ns : List UInt8) (v : UInt32) : Prop where
  spells : Spells ns v
  length_le : ∀ ms, Spells ms v → ns.length ≤ ms.length

/-- The encoding of a word is the only shortest way to write it. -/
theorem shortest_iff : Shortest ns v ↔ ns = encode v := by
  constructor
  · intro H
    have hle := H.length_le _ (spells_encode v)
    rw [length_encode] at hle
    exact H.spells.eq_encode_or_lt.resolve_right (Nat.not_lt.2 hle)
  · rintro rfl
    refine ⟨spells_encode v, ?_⟩
    intro ms hms
    rw [length_encode]
    rcases hms.eq_encode_or_lt with rfl | hlt
    · rw [length_encode]
    · exact Nat.le_of_lt hlt

/-! ## What no digit can be taken from -/

theorem one_le_width (v : UInt32) : 1 ≤ width v := by
  unfold width
  split <;> omega

/-- Nibbles that stand for a word are its encoding exactly when they are as many. -/
theorem Spells.length_eq_iff (h : Spells ns v) : ns.length = width v ↔ ns = encode v := by
  constructor
  · intro hlength
    exact h.eq_encode_or_lt.resolve_right (by omega)
  · rintro rfl
    exact length_encode v

/-- A number needs fewer digits than it is written with exactly when the first one is zero. -/
theorem digitCount_number_cons_le_iff {d : UInt8} {ds : List UInt8} (hds : ∀ d ∈ ds, Fits d) :
    digitCount (number (d :: ds)) ≤ ds.length ↔ d = 0 := by
  rw [digitCount_le_iff, number_cons, ← UInt8.toNat_inj]
  constructor
  · intro hlt
    by_contra hne
    have hpos : 1 ≤ d.toNat := Nat.one_le_iff_ne_zero.2 hne
    have hle : 1 * 16 ^ ds.length ≤ d.toNat * 16 ^ ds.length := Nat.mul_le_mul_right _ hpos
    omega
  · intro hzero
    rw [hzero]
    simpa using number_lt hds

/-- No digit can be taken away: a single nibble, one digit that does not fit a single nibble, or
several digits of which the first is not zero. -/
inductive Minimal : List UInt8 → Prop where
  | single (n : UInt8) (h : n < 8) : Minimal [n]
  | digit (d : UInt8) (h : 8 ≤ d) : Minimal [8, d]
  | digits (head d : UInt8) (ds : List UInt8) (h : 9 ≤ head) (hd : d ≠ 0) :
      Minimal (head :: d :: ds)

theorem minimal_pair_iff {d : UInt8} : Minimal [8, d] ↔ 8 ≤ d := by
  constructor
  · intro H
    cases H with
    | digit _ h => exact h
    | digits _ _ _ h => exact absurd h (by decide)
  · exact .digit d

theorem minimal_digits_iff {head d : UInt8} {ds : List UInt8} (h : 9 ≤ head) :
    Minimal (head :: d :: ds) ↔ d ≠ 0 := by
  constructor
  · intro H
    cases H with
    | digit _ _ => exact absurd h (by decide)
    | digits _ _ _ _ hd => exact hd
  · exact .digits head d ds h

/-- Digits are those of the shortest way exactly when the word does not fit a single nibble and
the digits are no more than it needs. -/
theorem length_eq_width_iff {head : UInt8} {ds : List UInt8} (hhead : Fits head)
    (hlength : ds.length = head.toNat - 7) (hpos : 0 < ds.length) (hds : ∀ d ∈ ds, Fits d) :
    (head :: ds).length = width (UInt32.ofNat (number ds))
      ↔ 8 ≤ number ds ∧ ds.length ≤ digitCount (number ds) := by
  have hnumber := toNat_number hhead hlength hds
  have hcount : digitCount (number ds) ≤ ds.length := (digitCount_le_iff _ _).2 (number_lt hds)
  have h8 : UInt32.ofNat (number ds) < 8 ↔ number ds < 8 := by
    rw [UInt32.lt_iff_toNat_lt, hnumber]
    rfl
  rw [width, hnumber, List.length_cons]
  by_cases h : number ds < 8
  · rw [if_pos (h8.2 h)]
    omega
  · rw [if_neg fun hlt => h (h8.1 hlt)]
    omega

/-- Nibbles that stand for a word are its encoding exactly when no digit can be taken away. -/
theorem Spells.eq_encode_iff_minimal (h : Spells ns v) : ns = encode v ↔ Minimal ns := by
  cases h with
  | single n h =>
    have hwidth := one_le_width n.toUInt32
    refine iff_of_true ?_ (.single n h)
    exact (Spells.single n h).eq_encode_or_lt.resolve_right (Nat.not_lt.2 hwidth)
  | digits head ds h hhead hlength hds =>
    have h8 : 8 ≤ head.toNat := Nat.le_of_not_lt fun hlt => h (UInt8.lt_iff_toNat_lt.2 hlt)
    rw [← (Spells.digits head ds h hhead hlength hds).length_eq_iff,
      length_eq_width_iff hhead hlength (by omega) hds]
    rcases ds with _ | ⟨d, _ | ⟨e, ds⟩⟩
    · rw [List.length_nil] at hlength
      omega
    · -- One digit: it must be one that needs its length nibble.
      have hhead' : head = 8 := by
        rw [← UInt8.toNat_inj]
        change head.toNat = 8
        rw [List.length_singleton] at hlength
        omega
      have hd : number [d] = d.toNat := by rw [number_cons]; simp [number]
      have hzero := digitCount_le_iff d.toNat 0
      have h8' : 8 ≤ d ↔ 8 ≤ d.toNat := UInt8.le_iff_toNat_le
      rw [hhead', minimal_pair_iff, hd, h8', List.length_singleton]
      omega
    · -- Several digits: without a leading zero their number is at least sixteen.
      have hhead' : 9 ≤ head := by
        rw [UInt8.le_iff_toNat_le]
        change 9 ≤ head.toNat
        rw [List.length_cons, List.length_cons] at hlength
        omega
      have hzero := digitCount_number_cons_le_iff (d := d) fun d hd => hds d (.tail _ hd)
      have hsixteen := digitCount_le_iff (number (d :: e :: ds)) 1
      rw [minimal_digits_iff hhead', Ne, ← hzero]
      simp only [List.length_cons] at *
      omega

/-- Reading whole nibbles as one word finds what they stand for. -/
theorem spells_of_decodeAt (hns : ∀ n ∈ ns, Fits n) (h : decodeAt ns 0 = .ok (v, ns.length)) :
    Spells ns v := by
  rcases decodeAt_cases hns 0 with ⟨front, back, w, hdrop, hw, hread⟩ | herror
  · rw [hread, Except.ok.injEq, Prod.mk.injEq] at h
    obtain ⟨rfl, hlength⟩ := h
    rw [List.drop_zero] at hdrop
    have hback : back = [] := by
      have htotal := congrArg List.length hdrop
      rw [List.length_append] at htotal
      exact List.length_eq_zero_iff.1 (by omega)
    rwa [hdrop, hback, List.append_nil]
  · rw [herror] at h
    cases h

/-- Of all the nibbles that are read as a word, its encoding is the only shortest one, and the
one from which no digit can be taken away. -/
theorem encode_shortest {ns : List UInt8} {v : UInt32} (hns : ∀ n ∈ ns, Fits n)
    (h : decodeAt ns 0 = .ok (v, ns.length)) :
    decodeAt (encode v) 0 = .ok (v, width v) ∧ width v ≤ ns.length ∧
      (ns.length = width v ↔ ns = encode v) ∧ (ns = encode v ↔ Minimal ns) := by
  have hspells := spells_of_decodeAt hns h
  refine ⟨?_, ?_, hspells.length_eq_iff, hspells.eq_encode_iff_minimal⟩
  · have hread : decodeAt (encode v) 0 = .ok (v, 0 + (encode v).length) :=
      decodeAt_of_spells (spells_encode v) (List.append_nil _).symm
    rwa [Nat.zero_add, length_encode] at hread
  · rcases hspells.eq_encode_or_lt with rfl | hlt
    · rw [length_encode]
    · exact Nat.le_of_lt hlt

/-- The number nine with a leading zero, one nibble longer than its encoding. -/
theorem encode_shortest_nine :
    ((∀ n ∈ [9, 0, 9], Fits n) ∧ decodeAt [9, 0, 9] 0 = .ok (9, 3)) ∧
    decodeAt (encode 9) 0 = .ok (9, width 9) ∧ width 9 ≤ 3 ∧
      (3 = width 9 ↔ [9, 0, 9] = encode 9) ∧ ([9, 0, 9] = encode 9 ↔ Minimal [9, 0, 9]) := by
  have hns : ∀ n ∈ [9, 0, 9], Fits n := by simp [Fits]
  have h : decodeAt [9, 0, 9] 0 = .ok (9, 3) := by decide
  exact ⟨⟨hns, h⟩, encode_shortest hns h⟩

/-! ## Several words -/

/-- Nibbles stand for several words, each of them written in the shortest way. -/
inductive ShortestAll : List UInt8 → List UInt32 → Prop where
  | nil : ShortestAll [] []
  | cons {ns ms : List UInt8} {v : UInt32} {vs : List UInt32} (h : Shortest ns v)
      (hs : ShortestAll ms vs) : ShortestAll (ns ++ ms) (v :: vs)

/-- Words in the shortest way are their encodings. -/
theorem shortestAll_iff : ShortestAll ns vs ↔ ns = encodeAll vs := by
  constructor
  · intro H
    induction H with
    | nil => rfl
    | cons h hs ih => rw [shortest_iff.1 h, ih, encodeAll_cons]
  · rintro rfl
    induction vs with
    | nil => exact .nil
    | cons v vs ih => exact .cons (shortest_iff.2 rfl) ih

end TypeCodex.Nibble
