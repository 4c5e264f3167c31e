import TypeCodex.Proofs.Registry.Acceptance
import TypeCodex.Proofs.Registry.Layout
import TypeCodex.Proofs.Registry.Stable

/-!
# The order of requests

When operands are not checked, a verdict depends on the encoding alone, as long as no limit
is reached. Encodings that are interned in another order are accepted and refused as before.
They may get other identifiers and other places in the stash, but the registry ends with the
same encodings.

## Main definitions

* `Registry.verdicts` — which of several encodings are accepted, one after another.
* `Registry.Unlimited` — no limit is reached on the way.

## Main statements

* `Registry.Holds.intern_unlimited`, `Registry.Holds.run_unlimited` — the encodings held after
  one request and after several.
* `Registry.Holds.verdicts_eq` — the verdicts are those of validation at the start.
* `Registry.permutation_run` — the order changes neither verdicts nor what is held.
-/

namespace TypeCodex.Registry

/-- Whether an encoding is accepted, with the reason if it is not. -/
def verdict (r : Registry) (p : Packed) : Except RegistryError Unit :=
  (r.intern p).1.map fun _ => ()

/-- The verdicts on encodings that are interned one after another. -/
def verdicts (r : Registry) : List Packed → List (Except RegistryError Unit)
  | [] => []
  | p :: ps => r.verdict p :: (r.perform (.intern p)).verdicts ps

/-- Whether an encoding is refused because a limit of the registry is reached. -/
def atLimit : Except RegistryError Unit → Bool
  | .error (.stashOverflow _) => true
  | .error .registryFull => true
  | _ => false

/-- Encodings are interned one after another without reaching a limit. -/
def Unlimited (r : Registry) (ps : List Packed) : Prop :=
  ∀ v ∈ r.verdicts ps, atLimit v = false

instance (r : Registry) (ps : List Packed) : Decidable (r.Unlimited ps) :=
  inferInstanceAs (Decidable (∀ v ∈ r.verdicts ps, atLimit v = false))

variable {r r' : Registry} {held held' ps qs : List Packed} {p q : Packed}

theorem unlimited_cons :
    r.Unlimited (p :: ps) ↔
      atLimit (r.verdict p) = false ∧ (r.perform (.intern p)).Unlimited ps := by
  simp [Unlimited, verdicts]

/-- Without checked operands, validation looks at the encoding only. -/
theorem validate_eq_of_unchecked (h : r.options.checkOperands = false)
    (h' : r'.options.checkOperands = false) (p : Packed) : r.validate p = r'.validate p := by
  have hnone : ∀ ids : List TypeId, (ids.find? fun _ => false) = none := by simp
  simp [validate, h, h', hnone]

/-- Storing fails at a limit only. -/
theorem store_of_unlimited (h : atLimit ((r.store p).1.map fun _ => ()) = false) :
    ∃ id, (r.store p).1 = .ok id := by
  rcases r.store_cases p with ⟨-, hs⟩ | ⟨-, c, -, hs⟩ | ⟨-, -, c, -, hs⟩ | ⟨-, -, -, hs⟩
  · rw [hs] at h
    cases h
  · exact ⟨_, by rw [hs]⟩
  · exact ⟨_, by rw [hs]⟩
  · rw [hs] at h
    cases h

namespace Holds

/-- Away from the limits, a verdict is that of validation. -/
theorem verdict_eq (H : r.Holds held) (h : atLimit (r.verdict p) = false) :
    r.verdict p = r.validate p := by
  cases hindex : r.index[p.bytes]? with
  | some id =>
    have hmem := (H.index_eq_some_iff.1 hindex).mem
    rw [H.validate_of_mem hmem, verdict, intern_known hindex]
    rfl
  | none =>
    cases hval : r.validate p with
    | error e =>
      rw [verdict, intern_refused hindex hval]
      rfl
    | ok =>
      rw [verdict, intern_valid hindex hval] at h ⊢
      have ⟨id, hid⟩ := store_of_unlimited h
      rw [hid]
      rfl

/-- Away from the limits, an encoding is held after it was interned exactly if it is valid,
and nothing else is new. -/
theorem intern_unlimited (H : r.Holds held) (h : atLimit (r.verdict p) = false) :
    ∃ held', (r.perform (.intern p)).Holds held' ∧
      ∀ q, q ∈ held' ↔ q ∈ held ∨ q = p ∧ r.validate p = .ok () := by
  have hverdict := H.verdict_eq h
  change ∃ held', (r.intern p).2.Holds held' ∧ _
  rcases H.intern_cases p with ⟨id, hp, hi⟩ | ⟨-, e, hi⟩ | ⟨-, id, r', hi, -, -, H'⟩
  · refine ⟨held, by rwa [hi], fun q => ?_⟩
    have hmem := hp.mem
    grind
  · rw [verdict, hi] at hverdict
    refine ⟨held, by rwa [hi], fun q => ?_⟩
    simp [← hverdict, Except.map]
  · rw [verdict, hi] at hverdict
    refine ⟨held ++ [p], by rwa [hi], fun q => ?_⟩
    simp [← hverdict, Except.map]

theorem unchecked_perform (H : r.Holds held) (hoff : r.options.checkOperands = false)
    (q : Request) : (r.perform q).options.checkOperands = false := by
  rw [(H.perform q).2, hoff]

/-- Away from the limits, the encodings held after several requests are those from before and
the valid ones among those requested. -/
theorem run_unlimited (H : r.Holds held) (hoff : r.options.checkOperands = false)
    (h : r.Unlimited ps) :
    ∃ held', (r.run (ps.map .intern)).Holds held' ∧
      ∀ q, q ∈ held' ↔ q ∈ held ∨ q ∈ ps ∧ r.validate q = .ok () := by
  -- Each step leaves the options as they are, so that validation stays what it was at the start.
  induction ps generalizing r held with
  | nil => exact ⟨held, H, by simp⟩
  | cons p ps ih =>
    rw [unlimited_cons] at h
    obtain ⟨held₁, H₁, hmem₁⟩ := H.intern_unlimited h.1
    have hoff₁ := H.unchecked_perform hoff (.intern p)
    obtain ⟨held₂, H₂, hmem₂⟩ := ih H₁ hoff₁ h.2
    refine ⟨held₂, H₂, fun q => ?_⟩
    rw [hmem₂, hmem₁, validate_eq_of_unchecked hoff₁ hoff]
    grind

/-- Without checked operands and away from the limits, all verdicts are those of validation
at the start. -/
theorem verdicts_eq (H : r.Holds held) (hoff : r.options.checkOperands = false)
    (h : r.Unlimited ps) : r.verdicts ps = ps.map r.validate := by
  induction ps generalizing r held with
  | nil => rfl
  | cons p ps ih =>
    rw [unlimited_cons] at h
    obtain ⟨held₁, H₁, -⟩ := H.intern_unlimited h.1
    have hoff₁ := H.unchecked_perform hoff (.intern p)
    have hvalidate : (r.perform (.intern p)).validate = r.validate :=
      funext (validate_eq_of_unchecked hoff₁ hoff)
    rw [verdicts, List.map_cons, H.verdict_eq h.1, ih H₁ hoff₁ h.2, hvalidate]

/-- What is found is what is held. -/
theorem find_eq_invalid_iff (H : r.Holds held) : r.find p = TypeId.invalid ↔ p ∉ held := by
  constructor
  · intro h hmem
    obtain ⟨i, hi⟩ := List.mem_iff_getElem?.1 hmem
    obtain ⟨id, hid⟩ := H.exists_id (List.getElem?_eq_some_iff.1 hi).1
    have hp : Numbers held id p := ⟨i, hid, hi⟩
    exact hp.ne_invalid ((H.find hp).symm.trans h)
  · intro h
    by_contra hne
    exact h (H.numbers_find hne).mem

/-- Registries that hold the same encodings in any order have the same sizes. -/
theorem sizes_eq_of_perm (H : r.Holds held) (H' : r'.Holds held') (h : held.Perm held') :
    r.size = r'.size ∧ r.stash.size = r'.stash.size := by
  constructor
  · rw [H.size, H'.size, h.length_eq]
  · rw [← Array.length_toList, ← Array.length_toList, H.stash, H'.stash, length_stashed,
      length_stashed]
    exact ((h.filter _).map _).sum_nat

end Holds

/-- When operands are not checked and no limit is reached, encodings that are interned in
another order get the same verdicts, each wherever it stands. The registry ends with as many
types and as many bytes in the stash, and it finds the same encodings. -/
theorem permutation_run {options : Options} (hoff : options.checkOperands = false)
    (before : List Request) {ps qs : List Packed} (hperm : ps.Perm qs)
    (hps : ((make options).run before).Unlimited ps)
    (hqs : ((make options).run before).Unlimited qs) :
    let r := (make options).run before
    let s := r.run (ps.map .intern)
    let t := r.run (qs.map .intern)
    (∀ i j : Nat, ps[i]? = qs[j]? → (r.verdicts ps)[i]? = (r.verdicts qs)[j]?) ∧
    s.size = t.size ∧ s.stash.size = t.stash.size ∧
    ∀ p, s.find p = TypeId.invalid ↔ t.find p = TypeId.invalid := by
  intro r s t
  obtain ⟨new, H⟩ := holds_run options before
  have hoff' : r.options.checkOperands = false := by
    rw [options_run]
    exact hoff
  obtain ⟨held, Hs, hs⟩ := H.run_unlimited hoff' hps
  obtain ⟨held', Ht, ht⟩ := H.run_unlimited hoff' hqs
  have hmem : ∀ p, p ∈ held ↔ p ∈ held' := by
    intro p
    rw [hs, ht, hperm.mem_iff]
  have hheld : held.Perm held' := (List.perm_ext_iff_of_nodup Hs.nodup Ht.nodup).2 hmem
  have hsizes := Hs.sizes_eq_of_perm Ht hheld
  refine ⟨?_, hsizes.1, hsizes.2, ?_⟩
  · intro i j hij
    rw [H.verdicts_eq hoff' hps, H.verdicts_eq hoff' hqs, List.getElem?_map, List.getElem?_map,
      hij]
  · intro p
    rw [Hs.find_eq_invalid_iff, Ht.find_eq_invalid_iff, hmem]

/-- A forward reference, a package in the stash, bytes without meaning and a repetition, in
the opposite order. -/
theorem permutation_run_reverse :
    let forward : View := { tag := .map, type1 := some ⟨18⟩, type2 := some ⟨300⟩ }
    let fields : View := { tag := .package, list := [⟨5⟩, ⟨9⟩, ⟨300⟩, ⟨17⟩] }
    let ps := [forward.pack, ⟨⟨0xff⟩, []⟩, fields.pack, forward.pack]
    let r := (make {}).run [.create (View.mk .vector false (some ⟨17⟩) none 0 []).pack]
    let s := r.run (ps.map .intern)
    let t := r.run (ps.reverse.map .intern)
    (ps.Perm ps.reverse ∧ r.Unlimited ps ∧ r.Unlimited ps.reverse) ∧
    (∀ i j : Nat, ps[i]? = ps.reverse[j]? → (r.verdicts ps)[i]? = (r.verdicts ps.reverse)[j]?) ∧
    s.size = t.size ∧ s.stash.size = t.stash.size ∧
    ∀ p, s.find p = TypeId.invalid ↔ t.find p = TypeId.invalid := by
  intro forward fields ps r s t
  have hperm : ps.Perm ps.reverse := (List.reverse_perm ps).symm
  have hps : r.Unlimited ps := by decide +kernel
  have hqs : r.Unlimited ps.reverse := by decide +kernel
  exact ⟨⟨hperm, hps, hqs⟩, permutation_run rfl
    [.create (View.mk .vector false (some ⟨17⟩) none 0 []).pack] hperm hps hqs⟩

end TypeCodex.Registry
