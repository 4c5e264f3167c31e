import TypeCodex.Proofs.Registry.Acceptance
import TypeCodex.Proofs.Registry.Atomic
import TypeCodex.Proofs.Registry.Totality
import TypeCodex.Proofs.Report.History

/-!
# Whose fault an error is

Bad bytes and identifiers that are not registered are the fault of the input. While a registry
has room, an error is the fault of the toolchain in one case only: a question was asked about a
registered type of another category. So if the errors of a run are reported, a problem is fatal
exactly if such a question was asked since the problems were last cleared.

## Main definitions

* `Operation`, `Operation.error?` — what is done with a registry, and the error it ends with.
* `Operation.Mismatches` — a question about another category than that of a registered type.
* `Monitored`, `Monitored.run` — runs of a registry whose errors are reported.
* `Monitored.Mismatched` — a mismatch since the problems were last cleared.

## Main statements

* `Operation.blame` — the fault is the input's, or the toolchain's in a mismatch.
* `Operation.exists_error_of_not_contains` — what is not registered is refused.
* `Monitored.hasFatal_run` — a problem is fatal exactly after a mismatch.
* `Monitored.blame_run` — the same over all runs from a new registry.
-/

namespace TypeCodex

/-- A problem with the input. -/
def Diagnostic.OfInput (d : Diagnostic) : Prop := d.category = .input ∧ d.severity = .error

/-- A problem with the toolchain. -/
def Diagnostic.OfToolchain (d : Diagnostic) : Prop := d.category = .internal ∧ d.severity = .fatal

namespace RegistryError

variable {e : RegistryError}

theorem ofInput (h : e.category = .input) (file : String) (position : Option Position) :
    (e.diagnostic file position).OfInput := by
  refine ⟨h, ?_⟩
  change e.severity = .error
  rw [severity, h]

theorem ofToolchain (h : e.category = .internal) (file : String) (position : Option Position) :
    (e.diagnostic file position).OfToolchain := by
  refine ⟨h, ?_⟩
  change e.severity = .fatal
  rw [severity, h]

end RegistryError

/-- The error of an outcome, if it is one. -/
def failure? {ε α : Type} : Except ε α → Option ε
  | .ok _ => none
  | .error e => some e

theorem failure?_eq_some {ε α : Type} {x : Except ε α} {e : ε} :
    failure? x = some e ↔ x = .error e := by
  cases x <;> simp [failure?]

/-- What is done with a registry, as far as it may fail or change the registry. -/
inductive Operation : Type 1 where
  /-- Take bytes as an encoding. -/
  | wrap (bytes : List UInt8)
  /-- Register a type. -/
  | request (q : Request)
  /-- Ask about one operand of a type. -/
  | ask {α : Type} (q : Question α) (id : TypeId)
  /-- Show a type. -/
  | view (id : TypeId)
  /-- Give back the encoding of a type. -/
  | packed (id : TypeId)

namespace Operation

/-- The error that an operation ends with. Only interning tells why it refuses a type. -/
def error? (r : Registry) : Operation → Option RegistryError
  | wrap bytes => failure? ((Packed.ofBytes bytes).mapError .invalidEncoding)
  | request (.intern p) => failure? (r.intern p).1
  | request _ => none
  | ask q id => failure? (q.ask r id)
  | view id => failure? (r.view id)
  | packed id => failure? (r.packed id)

/-- The registry after an operation. -/
def effect (r : Registry) : Operation → Registry
  | request q => r.perform q
  | _ => r

/-- The identifier that an operation asks about. -/
def about? : Operation → Option TypeId
  | ask _ id => some id
  | view id => some id
  | packed id => some id
  | _ => none

/-- Whether an operation asks a question about a registered type of another category. -/
def Mismatches (r : Registry) : Operation → Prop
  | ask q id => r.contains id = true ∧ ∃ t, r.tag? id = some t ∧ t ≠ q.expected
  | _ => False

variable {r : Registry} {ps : List Packed} {o : Operation} {e : RegistryError} {id : TypeId}

/-- With room, an encoding is refused for a fault of the input. -/
theorem input_of_intern (hroom : r.HasRoom) {p : Packed} (h : (r.intern p).1 = .error e) :
    e.category = .input := by
  have hcells := hroom.cells
  have hstash := hroom.stash
  rcases r.intern_atomic p with ⟨id, -, h'⟩ | ⟨-, e', hrefuses, h'⟩ | ⟨id, r', h', -⟩
  · rw [h'] at h
    cases h
  · rw [h'] at h
    cases h
    cases hrefuses with
    | unreadable | operand | nonCanonical => rfl
    | full => omega
    | overflow => omega
  · rw [h'] at h
    cases h

/-- What is not registered is refused. -/
theorem exists_error_of_not_contains (H : r.Holds ps) (ho : o.about? = some id)
    (hid : r.contains id = false) : o.error? r = some (.unknownIdentifier id r.size) := by
  cases o with
  | wrap | request => cases ho
  | ask q id' =>
    cases ho
    exact failure?_eq_some.2 ((H.settled q id).unknown_iff.2 hid)
  | view id' =>
    cases ho
    exact failure?_eq_some.2 (Registry.view_of_not_contains hid)
  | packed id' =>
    cases ho
    exact failure?_eq_some.2 (Registry.packed_of_not_contains hid)

/-- A registered type is shown and given back. -/
theorem exists_view (H : r.Holds ps) (hid : r.contains id = true) :
    (∃ v, r.view id = .ok v) ∧ ∃ p, r.packed id = .ok p := by
  obtain ⟨d, hview, -⟩ := H.exists_canonical hid
  have HA := Registry.answers_of_view hview
  exact ⟨⟨_, HA.view⟩, ⟨_, HA.packed⟩⟩

/-- A mismatch is refused. -/
theorem exists_error_of_mismatches (H : r.Holds ps) (h : o.Mismatches r) :
    ∃ e, o.error? r = some e := by
  cases o with
  | wrap | request | view | packed => exact h.elim
  | ask q id =>
    obtain ⟨hid, t, ht, hne⟩ := h
    exact ⟨_, failure?_eq_some.2 (((H.settled q id).mismatch_iff t).2 ⟨hid, ht, hne⟩)⟩

/-- The error of a question is the input's fault, or there is a mismatch. -/
theorem blame_ask {α : Type} {q : Question α} (H : r.Holds ps) (h : q.ask r id = .error e) :
    (e.category = .input ∧ ¬(ask q id).Mismatches r) ∨
      (e.category = .internal ∧ (ask q id).Mismatches r) := by
  have hsettled := H.settled q id
  rcases hsettled.outcome with ⟨a, ha⟩ | hunknown | ⟨t, ht⟩
  · rw [ha] at h
    cases h
  · have hid := hsettled.unknown_iff.1 hunknown
    rw [hunknown] at h
    cases h
    refine .inl ⟨rfl, ?_⟩
    rintro ⟨hid', -⟩
    rw [hid] at hid'
    cases hid'
  · obtain ⟨hid, htag, hne⟩ := (hsettled.mismatch_iff t).1 ht
    rw [ht] at h
    cases h
    exact .inr ⟨rfl, hid, t, htag, hne⟩

/-- With room, the fault of an operation is the input's, or the toolchain's in a mismatch. -/
theorem blame (H : r.Holds ps) (hroom : r.HasRoom) (h : o.error? r = some e) :
    (e.category = .input ∧ ¬o.Mismatches r) ∨ (e.category = .internal ∧ o.Mismatches r) := by
  cases o with
  | wrap bytes =>
    refine .inl ⟨?_, not_false⟩
    rcases bytes with _ | ⟨tag, body⟩
    · cases h
      rfl
    · cases h
  | request q =>
    cases q with
    | intern p => exact .inl ⟨input_of_intern hroom (failure?_eq_some.1 h), not_false⟩
    | create | register => cases h
  | ask q id => exact blame_ask H (failure?_eq_some.1 h)
  | view id | packed id =>
    refine .inl ⟨?_, not_false⟩
    cases hid : r.contains id with
    | false =>
      rw [exists_error_of_not_contains H rfl hid] at h
      cases h
      rfl
    | true =>
      obtain ⟨⟨v, hv⟩, p, hp⟩ := exists_view H hid
      simp [error?, hv, hp, failure?] at h

end Operation

/-- A registry with a reporter of its errors. -/
structure Monitored where
  registry : Registry
  reporter : Reporter

namespace Monitored

/-- What happens to a registry whose errors are reported. -/
inductive Step : Type 1 where
  /-- Do something with the registry, and report the error if there is one. -/
  | operate (position : Option Position) (o : Operation)
  | enterFile (name : String)
  | leaveFile
  | clear

/-- Whether a step asks a question about a registered type of another category. -/
def Step.Mismatches (r : Registry) : Step → Prop
  | operate _ o => o.Mismatches r
  | _ => False

/-- A new registry and a new reporter. -/
def start (options : Options) : Monitored := ⟨.make options, .empty⟩

/-- The state after a step. -/
def perform (s : Monitored) : Step → Monitored
  | .operate position o =>
    ⟨o.effect s.registry,
      (o.error? s.registry).elim s.reporter (s.reporter.reportError position)⟩
  | .enterFile name => { s with reporter := s.reporter.enterFile name }
  | .leaveFile => { s with reporter := s.reporter.leaveFile }
  | .clear => { s with reporter := s.reporter.clear }

/-- The state after a sequence of steps. -/
def run (s : Monitored) (xs : List Step) : Monitored := xs.foldl perform s

@[simp] theorem run_nil (s : Monitored) : s.run [] = s := rfl
@[simp] theorem run_cons (s : Monitored) (x : Step) (xs : List Step) :
    s.run (x :: xs) = (s.perform x).run xs := rfl
@[simp] theorem run_append (s : Monitored) (xs ys : List Step) :
    s.run (xs ++ ys) = (s.run xs).run ys := List.foldl_append

/-- There is room before each of some steps. -/
def FindsRoom (options : Options) (xs : List Step) : Prop :=
  ∀ before x after, xs = before ++ x :: after → ((start options).run before).registry.HasRoom

/-- Some step since the last clearing asked a question about a registered type of another
category. -/
def Mismatched (options : Options) (xs : List Step) : Prop :=
  ∃ before x after, xs = before ++ x :: after ∧
    x.Mismatches ((start options).run before).registry ∧ Step.clear ∉ after

variable {s : Monitored} {options : Options} {x : Step} {xs : List Step} {ps : List Packed}

/-! ## The registry of a run -/

/-- A step appends to what the registry holds, or changes nothing. -/
theorem holds_perform (H : s.registry.Holds ps) (x : Step) :
    ∃ new, (s.perform x).registry.Holds (ps ++ new) := by
  have hsame : ∃ new, s.registry.Holds (ps ++ new) := ⟨[], by rwa [List.append_nil]⟩
  cases x with
  | operate position o =>
    cases o with
    | request q => exact (H.perform q).1
    | wrap | ask | view | packed => exact hsame
  | enterFile | leaveFile | clear => exact hsame

/-- A run appends to what the registry holds. -/
theorem holds_run (H : s.registry.Holds ps) (xs : List Step) :
    ∃ new, (s.run xs).registry.Holds (ps ++ new) := by
  induction xs generalizing s ps with
  | nil => exact ⟨[], by rwa [List.append_nil]⟩
  | cons x xs ih =>
    obtain ⟨new, H'⟩ := holds_perform H x
    obtain ⟨new', H''⟩ := ih H'
    refine ⟨new ++ new', ?_⟩
    rwa [← List.append_assoc]

/-- Room that is left was there before. -/
theorem hasRoom_of_holds_append {r r' : Registry} {new : List Packed} (H : r.Holds ps)
    (H' : r'.Holds (ps ++ new)) (hroom : r'.HasRoom) : r.HasRoom where
  cells := by
    have hcells := hroom.cells
    rw [H'.size_cells, List.length_append] at hcells
    rw [H.size_cells]
    omega
  stash := by
    have hstash := hroom.stash
    rw [← Array.length_toList, H'.stash, Registry.stashed_append, List.length_append] at hstash
    rw [← Array.length_toList, H.stash]
    omega

/-- A run that leaves room found room at every step. -/
theorem findsRoom_of_hasRoom (hroom : ((start options).run xs).registry.HasRoom) :
    FindsRoom options xs := by
  rintro before x after rfl
  obtain ⟨new, H⟩ := holds_run (s := start options) (Registry.holds_make options) before
  obtain ⟨new', H'⟩ := holds_run H (x :: after)
  rw [run_append] at hroom
  exact hasRoom_of_holds_append H H' hroom

/-! ## The problems of a run -/

/-- A problem is fatal after a step if it is not cleared, and was there before or is a
mismatch. -/
theorem hasFatal_perform (H : s.registry.Holds ps) (hroom : s.registry.HasRoom) (x : Step) :
    (s.perform x).reporter.hasFatal = true ↔
      x ≠ .clear ∧ (s.reporter.hasFatal = true ∨ x.Mismatches s.registry) := by
  cases x with
  | enterFile | leaveFile | clear => simp [perform, Step.Mismatches]
  | operate position o =>
    cases herror : o.error? s.registry with
    | none =>
      have hno : ¬o.Mismatches s.registry := by
        intro hm
        obtain ⟨e, he⟩ := Operation.exists_error_of_mismatches H hm
        rw [herror] at he
        cases he
      simp [perform, herror, Step.Mismatches, hno]
    | some e =>
      have hfatal : e.severity = .fatal ↔ o.Mismatches s.registry := by
        rcases Operation.blame H hroom herror with ⟨hinput, hno⟩ | ⟨hinternal, hm⟩
        · simp [RegistryError.severity, hinput, hno]
        · simp [RegistryError.severity, hinternal, hm]
      simp [perform, herror, Step.Mismatches, Reporter.hasFatal_reportError, hfatal]

/-- A mismatch counts while the steps behind it do not clear the problems. -/
theorem mismatched_concat : Mismatched options (xs ++ [x]) ↔
    x ≠ .clear ∧
      (Mismatched options xs ∨ x.Mismatches ((start options).run xs).registry) := by
  constructor
  · rintro ⟨before, y, after, h, hm, hclear⟩
    rcases List.eq_nil_or_concat after with rfl | ⟨after, z, rfl⟩
    · obtain ⟨rfl, hx⟩ := List.append_inj' h rfl
      cases hx
      refine ⟨?_, .inr hm⟩
      rintro rfl
      exact hm
    · rw [List.concat_eq_append, ← List.cons_append, ← List.append_assoc] at h
      obtain ⟨rfl, hx⟩ := List.append_inj' h rfl
      cases hx
      simp only [List.concat_eq_append, List.mem_append, List.mem_singleton, not_or] at hclear
      exact ⟨Ne.symm hclear.2, .inl ⟨before, y, after, rfl, hm, hclear.1⟩⟩
  · rintro ⟨hx, ⟨before, y, after, rfl, hm, hclear⟩ | hm⟩
    · refine ⟨before, y, after ++ [x], by simp, hm, ?_⟩
      simp only [List.mem_append, List.mem_singleton, not_or]
      exact ⟨hclear, Ne.symm hx⟩
    · exact ⟨xs, x, [], rfl, hm, by simp⟩

theorem FindsRoom.of_concat (h : FindsRoom options (xs ++ [x])) :
    FindsRoom options xs ∧ ((start options).run xs).registry.HasRoom := by
  refine ⟨?_, h xs x [] rfl⟩
  rintro before y after rfl
  exact h before y (after ++ [x]) (by simp)

/-- A problem is fatal exactly after a mismatch. -/
theorem hasFatal_run (hroom : FindsRoom options xs) :
    ((start options).run xs).reporter.hasFatal = true ↔ Mismatched options xs := by
  induction xs using List.reverseRecOn with
  | nil => simp [start, Mismatched, Reporter.empty, Reporter.hasFatal, Reporter.countAtLeast]
  | append_singleton xs x ih =>
    obtain ⟨hbefore, hhere⟩ := hroom.of_concat
    obtain ⟨new, H⟩ := holds_run (s := start options) (Registry.holds_make options) xs
    rw [run_append, run_cons, run_nil, hasFatal_perform H hhere, ih hbefore, mismatched_concat]

/-- In every registry that is reached with room to spare, refused bytes, refused encodings and
questions about types that are not registered end with an error of the input; an error of the
toolchain comes only, and always, from a question about a registered type of another category.
If all errors are reported, a problem is fatal exactly if there was such a question since the
problems were last cleared. -/
theorem blame_run (options : Options) (xs : List Step) (hroom : FindsRoom options xs) :
    let s := (start options).run xs
    (s.registry.HasRoom → ∀ o : Operation,
      (∀ e, o.error? s.registry = some e → ∀ file position,
        ((e.diagnostic file position).OfInput ∧ ¬o.Mismatches s.registry) ∨
        ((e.diagnostic file position).OfToolchain ∧ o.Mismatches s.registry)) ∧
      (o.Mismatches s.registry → ∃ e, o.error? s.registry = some e) ∧
      (∀ id, o.about? = some id → s.registry.contains id = false →
        ∃ e, o.error? s.registry = some e ∧
          ∀ file position, (e.diagnostic file position).OfInput)) ∧
    (s.reporter.hasFatal = true ↔ Mismatched options xs) := by
  intro s
  obtain ⟨new, H⟩ := holds_run (s := start options) (Registry.holds_make options) xs
  refine ⟨fun hhere o => ⟨?_, Operation.exists_error_of_mismatches H, ?_⟩, hasFatal_run hroom⟩
  · intro e he file position
    rcases Operation.blame H hhere he with ⟨hinput, hno⟩ | ⟨hinternal, hm⟩
    · exact .inl ⟨e.ofInput hinput file position, hno⟩
    · exact .inr ⟨e.ofToolchain hinternal file position, hm⟩
  · intro id ho hid
    exact ⟨_, Operation.exists_error_of_not_contains H ho hid, RegistryError.ofInput rfl⟩

/-- A vector is taken for a map before the problems are cleared and once more afterwards. The
error about a number that is not given out yet is one of the input. -/
theorem blame_run_vector :
    let vector : View := { tag := .vector, type1 := some ⟨5⟩ }
    let xs : List Step := [.enterFile "prelude", .operate none (.wrap []),
      .operate none (.request (.intern vector.pack)), .operate none (.ask .mapKey ⟨17⟩), .clear,
      .operate none (.ask .mapKey ⟨17⟩), .leaveFile, .operate none (.view ⟨18⟩)]
    let s := (start {}).run xs
    (FindsRoom {} xs ∧ s.registry.HasRoom) ∧
    (∃ e, (Operation.view ⟨18⟩).error? s.registry = some e ∧
      ∀ file position, (e.diagnostic file position).OfInput) ∧
    (∃ e, (Operation.ask .mapKey ⟨17⟩).error? s.registry = some e ∧
      (e.diagnostic "prelude" none).OfToolchain) ∧
    Mismatched {} xs ∧ s.reporter.hasFatal = true := by
  intro vector xs s
  have hroom : s.registry.HasRoom := ⟨by decide +kernel, by decide +kernel⟩
  have hfinds : FindsRoom {} xs := findsRoom_of_hasRoom hroom
  have hm : (Operation.ask .mapKey ⟨17⟩).Mismatches s.registry :=
    ⟨by decide +kernel, .vector, by decide +kernel, by decide⟩
  have hmismatched : Mismatched {} xs := by
    refine ⟨xs.take 5, xs[5], xs.drop 6, rfl, ?_, by simp [xs]⟩
    exact ⟨by decide +kernel, .vector, by decide +kernel, by decide⟩
  obtain ⟨hblame, hfatal⟩ := blame_run {} xs hfinds
  obtain ⟨-, -, hunknown⟩ := hblame hroom (.view ⟨18⟩)
  obtain ⟨hfault, herror, -⟩ := hblame hroom (.ask .mapKey ⟨17⟩)
  obtain ⟨e, he⟩ := herror hm
  refine ⟨⟨hfinds, hroom⟩, hunknown ⟨18⟩ rfl (by decide +kernel), ⟨e, he, ?_⟩, hmismatched,
    hfatal.2 hmismatched⟩
  rcases hfault e he "prelude" none with ⟨-, hno⟩ | ⟨h, -⟩
  · exact absurd hm hno
  · exact h

end Monitored

end TypeCodex
