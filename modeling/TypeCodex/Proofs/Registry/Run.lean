import Mathlib.Data.List.Induction
import TypeCodex.Proofs.Registry.Holds

/-!
# Runs of a registry

A run is a sequence of requests to register types, each of them accepted, refused or
answered with a number that is there already. Over a run a registry only ever grows at
the end of what it holds.

## Main definitions

* `Request`, `Registry.answer`, `Registry.perform` — requests, their answers and effects.
* `Registry.run` — the effect of a sequence of requests.
* `Registry.Created` — the encoding for which a run gives a number out first.

## Main statements

* `Registry.Holds.request_cases` — the three outcomes of a request.
* `Registry.Holds.run`, `Registry.holds_run` — what a run appends.
* `Registry.created_iff` — the encodings held are those for which numbers were given out.
-/

namespace TypeCodex

/-- A request to register a type. -/
inductive Request where
  /-- Intern an encoding; a refusal gives the reason. -/
  | intern (p : Packed)
  /-- Intern an encoding; a refusal gives the invalid identifier. -/
  | create (p : Packed)
  /-- Pack an expanded encoding and create it. -/
  | register (e : Expanded)

/-- The encoding that a request is about. -/
def Request.packed : Request → Packed
  | intern p => p
  | create p => p
  | register e => e.pack

namespace Registry

/-- The identifier that a request is answered with, invalid if it is refused. -/
def answer (r : Registry) : Request → TypeId
  | .intern p => (r.intern p).1.toOption.getD TypeId.invalid
  | .create p => (r.create p).1
  | .register e => (r.register e).1

/-- The registry after a request. -/
def perform (r : Registry) : Request → Registry
  | .intern p => (r.intern p).2
  | .create p => (r.create p).2
  | .register e => (r.register e).2

/-- The registry after a sequence of requests. -/
def run (r : Registry) (qs : List Request) : Registry := qs.foldl perform r

@[simp] theorem run_nil (r : Registry) : r.run [] = r := rfl
@[simp] theorem run_cons (r : Registry) (q : Request) (qs : List Request) :
    r.run (q :: qs) = (r.perform q).run qs := rfl
@[simp] theorem run_append (r : Registry) (qs qs' : List Request) :
    r.run (qs ++ qs') = (r.run qs).run qs' := List.foldl_append

theorem create_eq (r : Registry) (p : Packed) :
    r.create p = ((r.intern p).1.toOption.getD TypeId.invalid, (r.intern p).2) := by
  rw [create]
  rcases r.intern p with ⟨_ | _, r'⟩ <;> rfl

/-- All requests are answered as interning is. -/
theorem answer_eq (r : Registry) (q : Request) :
    r.answer q = (r.intern q.packed).1.toOption.getD TypeId.invalid := by
  cases q with
  | intern p => rfl
  | create p => exact congrArg Prod.fst (r.create_eq p)
  | register e => exact congrArg Prod.fst (r.create_eq e.pack)

/-- All requests leave what interning leaves. -/
theorem perform_eq (r : Registry) (q : Request) : r.perform q = (r.intern q.packed).2 := by
  cases q with
  | intern p => rfl
  | create p => exact congrArg Prod.snd (r.create_eq p)
  | register e => exact congrArg Prod.snd (r.create_eq e.pack)

variable {r : Registry} {ps : List Packed} {options : Options} {qs : List Request}
  {id : TypeId} {p : Packed}

namespace Holds

/-- A request is answered with the number of its encoding, is refused, or appends the
encoding. -/
theorem request_cases (H : r.Holds ps) (q : Request) :
    (Numbers ps (r.answer q) q.packed ∧ r.perform q = r) ∨
    (r.answer q = TypeId.invalid ∧ r.perform q = r) ∨
    ((r.answer q).index = ps.length + 1 ∧ q.packed ∉ ps ∧
      (r.perform q).options = r.options ∧ (r.perform q).Holds (ps ++ [q.packed])) := by
  rw [answer_eq, perform_eq]
  rcases H.intern_cases q.packed with
    ⟨id, hid, h⟩ | ⟨-, e, h⟩ | ⟨hnew, id, r', h, hid, hoptions, H'⟩
  · rw [h]
    exact .inl ⟨hid, rfl⟩
  · rw [h]
    exact .inr (.inl ⟨rfl, rfl⟩)
  · rw [h]
    exact .inr (.inr ⟨hid, hnew, hoptions, H'⟩)

/-- A request appends its encoding or changes nothing. -/
theorem perform (H : r.Holds ps) (q : Request) :
    (∃ new, (r.perform q).Holds (ps ++ new)) ∧ (r.perform q).options = r.options := by
  rcases H.request_cases q with ⟨-, h⟩ | ⟨-, h⟩ | ⟨-, -, hoptions, H'⟩
  · rw [h]
    exact ⟨⟨[], by rwa [List.append_nil]⟩, rfl⟩
  · rw [h]
    exact ⟨⟨[], by rwa [List.append_nil]⟩, rfl⟩
  · exact ⟨⟨[q.packed], H'⟩, hoptions⟩

/-- What is registered stays registered. -/
theorem contains_perform (H : r.Holds ps) (h : r.contains id = true) (q : Request) :
    (r.perform q).contains id = true := by
  obtain ⟨⟨new, H'⟩, -⟩ := H.perform q
  obtain ⟨hne, hle⟩ := H.contains_iff.1 h
  refine H'.contains_iff.2 ⟨hne, ?_⟩
  rw [List.length_append]
  omega

/-- A run appends some encodings to those that were there. -/
theorem run (H : r.Holds ps) (qs : List Request) :
    (∃ new, (r.run qs).Holds (ps ++ new)) ∧ (r.run qs).options = r.options := by
  induction qs generalizing r ps with
  | nil => exact ⟨⟨[], by rwa [List.append_nil]⟩, rfl⟩
  | cons q qs ih =>
    obtain ⟨⟨new, H'⟩, hoptions⟩ := H.perform q
    obtain ⟨⟨new', H''⟩, hoptions'⟩ := ih H'
    refine ⟨⟨new ++ new', ?_⟩, hoptions'.trans hoptions⟩
    rwa [← List.append_assoc]

end Holds

/-- A run from a new registry holds the basic types and what it appended to them. -/
theorem holds_run (options : Options) (qs : List Request) :
    ∃ new, ((make options).run qs).Holds (basicEncodings ++ new) :=
  ((holds_make options).run qs).1

theorem options_run (options : Options) (qs : List Request) :
    ((make options).run qs).options = options :=
  ((holds_make options).run qs).2

/-! ## Numbers given out -/

/-- A run from a new registry gives a number out first for an encoding. The numbers of
the basic types are given out before the run; any other number is the answer to a request
at a time when it was not valid. -/
inductive Created (options : Options) (qs : List Request) (id : TypeId) (p : Packed) : Prop where
  | basic (h : Numbers basicEncodings id p)
  | request (before after : List Request) (q : Request) (hqs : qs = before ++ q :: after)
      (hq : q.packed = p) (hanswer : ((make options).run before).answer q = id)
      (hid : id ≠ TypeId.invalid) (hnew : ((make options).run before).contains id = false)

theorem Created.append (h : Created options qs id p) (qs' : List Request) :
    Created options (qs ++ qs') id p := by
  rcases h with h | ⟨before, after, q, rfl, hq, hanswer, hid, hnew⟩
  · exact .basic h
  · exact .request before (after ++ qs') q (by simp) hq hanswer hid hnew

theorem numbers_of_created (H : ((make options).run qs).Holds ps) (h : Created options qs id p) :
    Numbers ps id p := by
  rcases h with h | ⟨before, after, q, rfl, rfl, rfl, hid, hnew⟩
  · obtain ⟨new, H'⟩ := holds_run options qs
    rw [H.unique H']
    exact h.append new
  · obtain ⟨new, H₀⟩ := holds_run options before
    rw [run_append, run_cons] at H
    rcases H₀.request_cases q with ⟨h, -⟩ | ⟨h, -⟩ | ⟨h, -, -, H₁⟩
    · rw [H₀.contains_iff.2 ⟨hid, h.bounds.2⟩] at hnew
      cases hnew
    · exact absurd h hid
    · obtain ⟨⟨new', H₂⟩, -⟩ := H₁.run after
      rw [H.unique H₂]
      exact Numbers.append (numbers_concat.2 (.inr ⟨h, rfl⟩)) new'

theorem created_of_numbers (H : ((make options).run qs).Holds ps) (hp : Numbers ps id p) :
    Created options qs id p := by
  -- The last request either appended the encoding or found it among the earlier ones.
  induction qs using List.reverseRecOn generalizing ps with
  | nil =>
    rw [run_nil] at H
    rw [H.unique (holds_make options)] at hp
    exact .basic hp
  | append_singleton qs q ih =>
    obtain ⟨new, H₀⟩ := holds_run options qs
    rw [run_append, run_cons, run_nil] at H
    rcases H₀.request_cases q with ⟨-, h⟩ | ⟨-, h⟩ | ⟨hanswer, -, -, H₁⟩
    · rw [h] at H
      exact (ih H hp).append [q]
    · rw [h] at H
      exact (ih H hp).append [q]
    · rw [H.unique H₁] at hp
      rcases numbers_concat.1 hp with hp' | ⟨hlast, hq⟩
      · exact (ih H₀ hp').append [q]
      · have hid : ((make options).run qs).answer q = id :=
          TypeId.index_injective (hanswer.trans hlast.symm)
        refine .request qs [] q rfl hq hid hp.ne_invalid ?_
        cases hcontains : ((make options).run qs).contains id with
        | false => rfl
        | true =>
          have hle := (H₀.contains_iff.1 hcontains).2
          omega

/-- The encodings held are those for which numbers were given out. -/
theorem created_iff (H : ((make options).run qs).Holds ps) :
    Created options qs id p ↔ Numbers ps id p :=
  ⟨numbers_of_created H, created_of_numbers H⟩

end Registry

end TypeCodex
