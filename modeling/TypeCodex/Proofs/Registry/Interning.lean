import TypeCodex.Proofs.Registry.Acceptance

/-!
# Interning by structure

Two views are registered under one identifier exactly when they have the same normal
form, whatever else is registered before, between or after them.

## Main statements

* `Registry.Holds.intern_ok` — the identifier answered is that of the encoding from then on.
* `Registry.Holds.intern_new` — a new encoding gets the next number.
* `Registry.Holds.intern_again` — a later request has the same answer.
* `Registry.same_identifier_iff` — one identifier for one normal form.
-/

namespace TypeCodex.Registry

variable {r : Registry} {ps : List Packed} {p : Packed} {id : TypeId}

/-- An answer is the number under which the encoding is held from then on. -/
theorem Holds.intern_ok (H : r.Holds ps) (h : (r.intern p).1 = .ok id) :
    ∃ new, (r.intern p).2.Holds (ps ++ new) ∧ Numbers (ps ++ new) id p := by
  rcases H.intern_cases p with ⟨id', hp, h'⟩ | ⟨-, e, h'⟩ | ⟨-, id', r', h', hid, -, H'⟩
  · rw [h'] at h ⊢
    cases h
    exact ⟨[], by rwa [List.append_nil], hp.append []⟩
  · rw [h'] at h
    cases h
  · rw [h'] at h ⊢
    cases h
    exact ⟨[p], H', numbers_concat.2 (.inr ⟨hid, rfl⟩)⟩

/-- A new encoding that is accepted gets the next number. -/
theorem Holds.intern_new (H : r.Holds ps) (hnew : p ∉ ps) (h : (r.intern p).1 = .ok id) :
    id.index = ps.length + 1 ∧ (r.intern p).2.Holds (ps ++ [p]) := by
  rcases H.intern_cases p with ⟨id', hp, -⟩ | ⟨-, e, h'⟩ | ⟨-, id', r', h', hid, -, H'⟩
  · exact absurd hp.mem hnew
  · rw [h'] at h
    cases h
  · rw [h'] at h ⊢
    cases h
    exact ⟨hid, H'⟩

/-- A later request for the encoding has the same answer. -/
theorem Holds.intern_again (H : r.Holds ps) (h : Numbers ps id p) : (r.intern p).1 = .ok id := by
  rw [intern_known (H.index_eq_some_iff.2 h)]

/-- The numbers of two encodings agree exactly when the encodings do. -/
theorem Holds.id_eq_iff {i j : TypeId} {p q : Packed} (H : r.Holds ps) (hp : Numbers ps i p)
    (hq : Numbers ps j q) : i = j ↔ p = q := by
  constructor
  · rintro rfl
    exact hp.unique hq
  · rintro rfl
    exact (H.find hp).symm.trans (H.find hq)

/-- A view with a list of countable length is accepted when operands are not checked. -/
theorem Holds.exists_intern_pack (H : r.Holds ps) (hroom : r.HasRoom)
    (hoff : r.options.checkOperands = false) {v : View} (hv : v.list.length < 2 ^ 32) :
    ∃ id, (r.intern v.pack).1 = .ok id := by
  rw [H.intern_ok_iff hroom, validate_eq_ok_iff_pack]
  refine ⟨v, hv, rfl, fun hcheck => ?_⟩
  rw [hoff] at hcheck
  cases hcheck

/-- Two views are registered under one identifier exactly when they have the same normal
form, with any requests before, between and after. The identifiers are answered again at
every later time. -/
theorem same_identifier_iff {options : Options} (hoff : options.checkOperands = false)
    (before between after : List Request) {v w : View} (hv : v.list.length < 2 ^ 32)
    (hw : w.list.length < 2 ^ 32) (hroom : ((make options).run before).HasRoom)
    (hroom' : (((make options).run before).run (.intern v.pack :: between)).HasRoom) :
    let r₁ := (make options).run before
    let r₂ := r₁.run (.intern v.pack :: between)
    let r₃ := r₂.run (.intern w.pack :: after)
    ∃ i j, (r₁.intern v.pack).1 = .ok i ∧ (r₂.intern w.pack).1 = .ok j ∧
      (i = j ↔ v.normalForm = w.normalForm) ∧
      (r₃.intern v.pack).1 = .ok i ∧ (r₃.intern w.pack).1 = .ok j := by
  intro r₁ r₂ r₃
  obtain ⟨new, H₁⟩ := holds_run options before
  have hoff₁ : r₁.options.checkOperands = false := by
    rw [options_run]
    exact hoff
  obtain ⟨i, hi⟩ := H₁.exists_intern_pack hroom hoff₁ hv
  obtain ⟨newv, Hv, hpv⟩ := H₁.intern_ok hi
  obtain ⟨⟨new₂, H₂⟩, -⟩ := Hv.run between
  change r₂.Holds _ at H₂
  have hoff₂ : r₂.options.checkOperands = false := by
    rw [(H₁.run _).2]
    exact hoff₁
  obtain ⟨j, hj⟩ := H₂.exists_intern_pack hroom' hoff₂ hw
  obtain ⟨neww, Hw, hpw⟩ := H₂.intern_ok hj
  obtain ⟨⟨new₃, H₃⟩, -⟩ := Hw.run after
  change r₃.Holds _ at H₃
  have hpv' := (hpv.append new₂).append neww
  refine ⟨i, j, hi, hj, ?_, H₃.intern_again (hpv'.append new₃), H₃.intern_again (hpw.append new₃)⟩
  rw [Hw.id_eq_iff hpv' hpw]
  exact View.pack_eq_pack_iff hv hw

/-- A variant and another order of its members, with other requests around them. -/
theorem same_identifier_iff_variant :
    let v : View := { tag := .variant, list := [⟨9⟩, ⟨1⟩, ⟨5⟩, ⟨9⟩] }
    let w : View := { tag := .variant, type1 := some ⟨3⟩, list := [⟨5⟩, ⟨9⟩, ⟨1⟩] }
    let other : View := { tag := .tuple, list := [⟨5⟩, ⟨9⟩, ⟨1⟩] }
    let r₁ := (make {}).run [.intern other.pack]
    let r₂ := r₁.run [.intern v.pack, .create other.pack]
    let r₃ := r₂.run [.intern w.pack, .intern ⟨⟨0⟩, []⟩]
    (v.list.length < 2 ^ 32 ∧ w.list.length < 2 ^ 32 ∧ r₁.HasRoom ∧ r₂.HasRoom) ∧
    ∃ i j, (r₁.intern v.pack).1 = .ok i ∧ (r₂.intern w.pack).1 = .ok j ∧
      (i = j ↔ v.normalForm = w.normalForm) ∧
      (r₃.intern v.pack).1 = .ok i ∧ (r₃.intern w.pack).1 = .ok j := by
  intro v w other r₁ r₂ r₃
  have hv : v.list.length < 2 ^ 32 := by decide
  have hw : w.list.length < 2 ^ 32 := by decide
  have hroom : r₁.HasRoom := ⟨by decide +kernel, by decide +kernel⟩
  have hroom' : r₂.HasRoom := ⟨by decide +kernel, by decide +kernel⟩
  exact ⟨⟨hv, hw, hroom, hroom'⟩, same_identifier_iff rfl [.intern other.pack]
    [.create other.pack] [.intern ⟨⟨0⟩, []⟩] hv hw hroom hroom'⟩

end TypeCodex.Registry
