import TypeCodex.Reader

/-!
# Readers that follow each other

One reader follows another if, from a related state, it gives the value that the other
gives and stops in a related state. It may go on where the other one fails. The relation
passes through sequences and lists, so that two decoders that agree on single words
agree on everything that is built from words.

## Main definitions

* `Reader.Follows` — the relation.

## Main statements

* `Reader.bind_eq_ok`, `Reader.map_eq_ok` — what a successful sequence has read.
* `Reader.list_succ` — a list is read value by value.
* `Reader.follows_bind`, `Reader.follows_list` — sequences and lists follow.
-/

namespace TypeCodex.Reader

variable {σ τ ε α β : Type}

theorem bind_eq_ok {x : Reader σ ε α} {f : α → Reader σ ε β} {s s' : σ} {b : β} :
    (x >>= f) s = .ok (b, s') ↔ ∃ a s₁, x s = .ok (a, s₁) ∧ f a s₁ = .ok (b, s') := by
  rw [run_bind]
  cases x s with
  | error e => simp [Except.bind]
  | ok p =>
    obtain ⟨a, s₁⟩ := p
    simp only [Except.bind, Except.ok.injEq, Prod.mk.injEq]
    constructor
    · intro h
      exact ⟨a, s₁, ⟨rfl, rfl⟩, h⟩
    · rintro ⟨a', s₂, ⟨rfl, rfl⟩, h⟩
      exact h

theorem map_eq_ok {f : α → β} {x : Reader σ ε α} {s s' : σ} {b : β} :
    (f <$> x) s = .ok (b, s') ↔ ∃ a, x s = .ok (a, s') ∧ f a = b := by
  rw [run_map]
  cases x s with
  | error e => simp [Except.map]
  | ok p =>
    obtain ⟨a, s₁⟩ := p
    simp only [Except.map, Except.ok.injEq, Prod.mk.injEq]
    constructor
    · rintro ⟨hb, hs⟩
      exact ⟨a, ⟨rfl, hs⟩, hb⟩
    · rintro ⟨a', ⟨rfl, hs⟩, hb⟩
      exact ⟨hb, hs⟩

theorem list_eq_ok {read : Reader σ ε α} {count : Nat} {s s' : σ} {as : List α} :
    list read count s = .ok (as, s') ↔ many read count s = (as, .ok s') := by
  unfold list
  split
  · next bs s₁ h => simp [h]
  · next h => simp [h]

/-- A list is read to its announced length. -/
theorem length_list {read : Reader σ ε α} {count : Nat} {s s' : σ} {as : List α}
    (h : list read count s = .ok (as, s')) : as.length = count := by
  rw [list_eq_ok] at h
  induction count generalizing s as with
  | zero => cases h; rfl
  | succ count ih =>
    cases hr : read s with
    | error e => rw [many_succ_error hr] at h; cases h
    | ok p =>
      obtain ⟨a, s₁⟩ := p
      rw [many_succ_ok hr, Prod.mk.injEq] at h
      obtain ⟨rfl, h2⟩ := h
      rw [List.length_cons, ih (Prod.ext rfl h2)]

/-- A list is read value by value. -/
theorem list_succ (read : Reader σ ε α) (count : Nat) :
    list read (count + 1)
      = read >>= fun a => list read count >>= fun tail => pure (a :: tail) := by
  funext s
  rw [run_bind]
  cases h : read s with
  | error e =>
    rw [list, many_succ_error h]
    rfl
  | ok p =>
    obtain ⟨a, s₁⟩ := p
    change _ = (list read count >>= fun tail => pure (a :: tail)) s₁
    rw [run_bind, list, list, many_succ_ok h]
    rcases many read count s₁ with ⟨as, e | s₂⟩ <;> rfl

/-- Whatever the first reader gives, the second one gives from every related state. -/
def Follows (R : σ → τ → Prop) (x : Reader σ ε α) (y : Reader τ ε α) : Prop :=
  ∀ s t, R s t → ∀ a s', x s = .ok (a, s') → ∃ t', y t = .ok (a, t') ∧ R s' t'

variable {R : σ → τ → Prop}

theorem follows_pure (a : α) : Follows R (pure a : Reader σ ε α) (pure a) := by
  intro s t H b s' h
  cases h
  exact ⟨t, rfl, H⟩

theorem follows_bind {x : Reader σ ε α} {y : Reader τ ε α} {f : α → Reader σ ε β}
    {g : α → Reader τ ε β} (hx : Follows R x y) (hf : ∀ a, Follows R (f a) (g a)) :
    Follows R (x >>= f) (y >>= g) := by
  intro s t H b s' h
  obtain ⟨a, s₁, h1, h2⟩ := bind_eq_ok.1 h
  obtain ⟨t₁, k1, H1⟩ := hx s t H a s₁ h1
  obtain ⟨t', k2, H2⟩ := hf a s₁ t₁ H1 b s' h2
  exact ⟨t', bind_eq_ok.2 ⟨a, t₁, k1, k2⟩, H2⟩

theorem follows_map {x : Reader σ ε α} {y : Reader τ ε α} (f : α → β) (hx : Follows R x y) :
    Follows R (f <$> x) (f <$> y) := by
  intro s t H b s' h
  obtain ⟨a, h1, rfl⟩ := map_eq_ok.1 h
  obtain ⟨t', k1, H1⟩ := hx s t H a s' h1
  exact ⟨t', map_eq_ok.2 ⟨a, k1, rfl⟩, H1⟩

theorem follows_list {x : Reader σ ε α} {y : Reader τ ε α} (hx : Follows R x y) (count : Nat) :
    Follows R (list x count) (list y count) := by
  intro s t H as s' h
  rw [list_eq_ok] at h
  induction count generalizing s t as with
  | zero => cases h; exact ⟨t, rfl, H⟩
  | succ count ih =>
    cases hr : x s with
    | error e => rw [many_succ_error hr] at h; cases h
    | ok p =>
      obtain ⟨a, s₁⟩ := p
      obtain ⟨t₁, k1, H1⟩ := hx s t H a s₁ hr
      rw [many_succ_ok hr, Prod.mk.injEq] at h
      obtain ⟨rfl, h2⟩ := h
      obtain ⟨t', k2, H2⟩ := ih s₁ t₁ H1 _ (Prod.ext rfl h2)
      refine ⟨t', ?_, H2⟩
      rw [list_eq_ok] at k2 ⊢
      rw [many_succ_ok k1, k2]

end TypeCodex.Reader
