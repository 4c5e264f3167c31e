import Mathlib.Data.List.DropRight
import Mathlib.Data.List.Induction
import TypeCodex.Registry.Error

/-!
# Problems over whole runs

What a reporter holds can be read off the history of what it was told: the reports since it was
last cleared, each with the file that was innermost at that moment. Files are stacked on a root
that stays, so that leaving a file that was never entered is as if it had not happened.

## Main definitions

* `Notice`, `Reporter.run` — what a reporter is told, and its state after that.
* `Notice.stack` — the files that are open after some notices, on their root.
* `Notice.reports` — the problems reported behind some earlier notices.
* `Notice.Matched` — notices that leave exactly the files that they enter.

## Main statements

* `Reporter.files_run` — the open files are those of the history.
* `Reporter.diagnostics_run` — the problems are the reports since the last clearing.
* `Reporter.files_run_matched` — matched notices leave the files alone.
* `Reporter.history_run` — files, problems and counts over all runs of a new reporter.
-/

namespace TypeCodex

/-- What a reporter is told. -/
inductive Notice where
  | enterFile (name : String)
  | leaveFile
  /-- A problem with its classification and message. -/
  | report (position : Option Position) (severity : Severity) (category : Category) (number : Int)
    (message : String)
  /-- An error of a registry. -/
  | error (position : Option Position) (e : RegistryError)
  | clear

namespace Notice

/-- Whether the problems so far are kept. -/
def keeps : Notice → Bool
  | clear => false
  | _ => true

/-- The open files after a notice, the innermost first. The last one is never left. -/
def follow : List String → Notice → List String
  | files, enterFile name => name :: files
  | _ :: outer :: files, leaveFile => outer :: files
  | files, _ => files

/-- The open files after some notices, on their root. -/
def stack (xs : List Notice) : List String := xs.foldl follow [Reporter.root]

/-- The problem that a notice reports of a file, if it reports one. -/
def diagnostic? (file : String) : Notice → Option Diagnostic
  | report position severity category number message =>
    some ⟨file, position, severity, category, number, message⟩
  | error position e => some ⟨file, position, e.severity, e.category, e.number, e.message⟩
  | _ => none

/-- The problems that notices report behind some earlier ones, each of the file that is
innermost at that moment. -/
def reports (earlier : List Notice) : List Notice → List Diagnostic
  | [] => []
  | x :: xs => (x.diagnostic? ((stack earlier).headD Reporter.root)).toList
      ++ reports (earlier ++ [x]) xs

@[simp] theorem stack_concat (xs : List Notice) (x : Notice) :
    stack (xs ++ [x]) = follow (stack xs) x := by
  rw [stack, List.foldl_concat, stack]

theorem reports_concat (earlier xs : List Notice) (x : Notice) :
    reports earlier (xs ++ [x]) = reports earlier xs
      ++ (x.diagnostic? ((stack (earlier ++ xs)).headD Reporter.root)).toList := by
  induction xs generalizing earlier with
  | nil => simp [reports]
  | cons y xs ih => simp [reports, ih]

/-- Notices that leave exactly the files that they enter. -/
inductive Matched : List Notice → Prop where
  | nil : Matched []
  | report {xs : List Notice} (h : Matched xs) (position : Option Position) (severity : Severity)
      (category : Category) (number : Int) (message : String) :
      Matched (xs ++ [.report position severity category number message])
  | error {xs : List Notice} (h : Matched xs) (position : Option Position) (e : RegistryError) :
      Matched (xs ++ [.error position e])
  | clear {xs : List Notice} (h : Matched xs) : Matched (xs ++ [.clear])
  | file {xs inner : List Notice} (h : Matched xs) (name : String) (hinner : Matched inner) :
      Matched (xs ++ .enterFile name :: inner ++ [.leaveFile])

end Notice

namespace Reporter

open Notice (stack reports keeps)

/-- The reporter after a notice. -/
def perform (r : Reporter) : Notice → Reporter
  | .enterFile name => r.enterFile name
  | .leaveFile => r.leaveFile
  | .report position severity category number message =>
    r.report position severity category number message
  | .error position e => r.reportError position e
  | .clear => r.clear

/-- The reporter after a sequence of notices. -/
def run (r : Reporter) (xs : List Notice) : Reporter := xs.foldl perform r

@[simp] theorem run_nil (r : Reporter) : r.run [] = r := rfl
@[simp] theorem run_cons (r : Reporter) (x : Notice) (xs : List Notice) :
    r.run (x :: xs) = (r.perform x).run xs := rfl
@[simp] theorem run_append (r : Reporter) (xs ys : List Notice) :
    r.run (xs ++ ys) = (r.run xs).run ys := List.foldl_append

/-! ## Files -/

/-- A notice does to the open files what it does to their stack. -/
theorem files_perform (r : Reporter) (x : Notice) :
    (r.perform x).files ++ [root] = Notice.follow (r.files ++ [root]) x := by
  obtain ⟨files, latest⟩ := r
  cases x with
  | leaveFile =>
    rcases files with _ | ⟨file, _ | ⟨outer, files⟩⟩
    · rfl
    · rfl
    · rfl
  | _ => rfl

/-- The open files are those of the history. -/
theorem files_run (xs : List Notice) : (empty.run xs).files ++ [root] = stack xs := by
  induction xs using List.reverseRecOn with
  | nil => rfl
  | append_singleton xs x ih =>
    rw [run_append, run_cons, run_nil, files_perform, ih, Notice.stack_concat]

theorem currentFile_eq (r : Reporter) : r.currentFile = (r.files ++ [root]).headD root := by
  obtain ⟨_ | ⟨file, files⟩, latest⟩ := r
  · rfl
  · rfl

/-- The current file is on top of the stack. -/
theorem head?_stack (xs : List Notice) : (stack xs).head? = some (empty.run xs).currentFile := by
  rw [currentFile_eq, ← files_run]
  cases (empty.run xs).files with
  | nil => rfl
  | cons file files => rfl

/-- The root is at the bottom of the stack. -/
theorem getLast?_stack (xs : List Notice) : (stack xs).getLast? = some root := by
  rw [← files_run, List.getLast?_concat]

theorem leaveFile_of_nil {r : Reporter} (h : r.files = []) : r.leaveFile = r := by
  obtain ⟨files, latest⟩ := r
  obtain rfl : files = [] := h
  rfl

/-- Leaving the root has no effect, not even later. -/
theorem run_leaveFile_of_root {xs : List Notice} (h : stack xs = [root]) (ys : List Notice) :
    empty.run (xs ++ .leaveFile :: ys) = empty.run (xs ++ ys) := by
  rw [← files_run, List.append_left_eq_self] at h
  rw [run_append, run_append, run_cons]
  exact congrArg (run · ys) (leaveFile_of_nil h)

/-- What is done inside a file ends with it, if it leaves the files that it enters. -/
theorem files_run_file {inner : List Notice} (h : ∀ r : Reporter, (r.run inner).files = r.files)
    (r : Reporter) (name : String) :
    (r.run (.enterFile name :: inner ++ [.leaveFile])).files = r.files := by
  rw [List.cons_append, run_cons, run_append]
  change ((r.enterFile name).run inner).files.tail = r.files
  rw [h]
  rfl

/-- Matched notices leave the files alone. -/
theorem files_run_matched {inner : List Notice} (h : Notice.Matched inner) (r : Reporter) :
    (r.run inner).files = r.files := by
  induction h generalizing r with
  | nil => rfl
  | report _ _ _ _ _ _ ih | error _ _ _ ih | clear _ ih =>
    rw [run_append]
    exact ih r
  | file _ name _ ih ihinner =>
    rw [List.append_assoc, run_append]
    exact (files_run_file ihinner _ name).trans (ih r)

/-- A file stays the current one while matched notices follow. -/
theorem currentFile_run_matched {inner : List Notice} (h : Notice.Matched inner) (r : Reporter)
    (name : String) : (r.run (.enterFile name :: inner)).currentFile = name := by
  rw [run_cons, currentFile_eq, files_run_matched h]
  rfl

/-! ## Problems -/

/-- A notice adds the problem that it reports of the current file, and clearing forgets them. -/
theorem diagnostics_perform (r : Reporter) (x : Notice) :
    (r.perform x).diagnostics
      = if keeps x then r.diagnostics ++ (x.diagnostic? r.currentFile).toList else [] := by
  cases x with
  | enterFile | leaveFile => exact (List.append_nil _).symm
  | report | error => exact diagnostics_add r _
  | clear => rfl

/-- The problems are the reports since the last clearing. -/
theorem diagnostics_run (xs : List Notice) :
    (empty.run xs).diagnostics = reports (xs.rdropWhile keeps) (xs.rtakeWhile keeps) := by
  induction xs using List.reverseRecOn with
  | nil => rfl
  | append_singleton xs x ih =>
    rw [run_append, run_cons, run_nil, diagnostics_perform, List.rdropWhile_concat,
      List.rtakeWhile_concat]
    cases hx : keeps x with
    | false => rfl
    | true =>
      rw [if_pos rfl, if_pos rfl, if_pos rfl, Notice.reports_concat, ih, currentFile_eq, files_run,
        List.rdropWhile_append_rtakeWhile]

/-! ## Counts -/

theorem count_eq (r : Reporter) : r.count = r.diagnostics.length := List.length_reverse.symm

theorem countAtLeast_eq (r : Reporter) (s : Severity) :
    r.countAtLeast s = (r.diagnostics.filter fun d => s ≤ d.severity).length := by
  rw [countAtLeast, diagnostics, List.filter_reverse, List.length_reverse,
    List.countP_eq_length_filter]

theorem countAtLeast_anti (r : Reporter) {s t : Severity} (h : s ≤ t) :
    r.countAtLeast t ≤ r.countAtLeast s := by
  refine List.countP_mono_left fun d _ hd => ?_
  rw [decide_eq_true_eq] at hd ⊢
  exact Nat.le_trans h hd

theorem countAtLeast_note (r : Reporter) : r.countAtLeast .note = r.count :=
  List.countP_eq_length.2 fun _ _ => decide_eq_true (Nat.zero_le _)

theorem fatal_le_iff {s : Severity} : Severity.fatal ≤ s ↔ s = .fatal := by
  cases s <;> decide

theorem hasFatal_iff (r : Reporter) :
    r.hasFatal = true ↔ ∃ d ∈ r.diagnostics, d.severity = .fatal := by
  rw [hasFatal, decide_eq_true_eq, countAtLeast, List.countP_pos_iff]
  simp [diagnostics, fatal_le_iff]

@[simp] theorem hasFatal_enterFile (r : Reporter) (name : String) :
    (r.enterFile name).hasFatal = r.hasFatal := rfl

@[simp] theorem hasFatal_leaveFile (r : Reporter) : r.leaveFile.hasFatal = r.hasFatal := rfl

@[simp] theorem hasFatal_clear (r : Reporter) : r.clear.hasFatal = false := rfl

theorem hasFatal_reportError {r : Reporter} {position : Option Position} {e : RegistryError} :
    (r.reportError position e).hasFatal = true ↔ r.hasFatal = true ∨ e.severity = .fatal := by
  rw [hasFatal_iff, hasFatal_iff, reportError, diagnostics_add]
  simp [or_and_right, exists_or, RegistryError.diagnostic]

/-! ## Whole runs -/

/-- Whatever a new reporter is told, its problems are the reports since it was last cleared, in
order, each of the file that was on top of the stack at that moment, and its counts are counts of
these. The root stays at the bottom of the stack. Leaving it changes nothing, now or later; what
is done inside a file ends with that file; and clearing leaves the stack alone. -/
theorem history_run (xs : List Notice) :
    let r := empty.run xs
    r.diagnostics = reports (xs.rdropWhile keeps) (xs.rtakeWhile keeps) ∧
    (r.files ++ [root] = stack xs ∧ (stack xs).getLast? = some root ∧
      (stack xs).head? = some r.currentFile) ∧
    (∀ position (e : RegistryError), r.perform (.error position e)
      = r.perform (.report position e.severity e.category e.number e.message)) ∧
    (stack xs = [root] → ∀ ys, empty.run (xs ++ .leaveFile :: ys) = empty.run (xs ++ ys)) ∧
    (∀ name inner, Notice.Matched inner →
      (r.run (.enterFile name :: inner)).currentFile = name ∧
      (r.run (.enterFile name :: inner ++ [.leaveFile])).files = r.files) ∧
    ((r.perform .clear).files = r.files ∧ (r.perform .clear).diagnostics = []) ∧
    (∀ s, r.countAtLeast s = (r.diagnostics.filter fun d => s ≤ d.severity).length) ∧
    (∀ s t, s ≤ t → r.countAtLeast t ≤ r.countAtLeast s) ∧
    (r.countAtLeast .note = r.count ∧ r.count = r.diagnostics.length) ∧
    (r.hasFatal = true ↔ ∃ d ∈ r.diagnostics, d.severity = .fatal) := by
  intro r
  refine ⟨diagnostics_run xs, ⟨files_run xs, getLast?_stack xs, head?_stack xs⟩, fun _ _ => rfl,
    run_leaveFile_of_root, ?_, ⟨rfl, rfl⟩, countAtLeast_eq r, fun _ _ => countAtLeast_anti r,
    ⟨countAtLeast_note r, count_eq r⟩, hasFatal_iff r⟩
  intro name inner hinner
  exact ⟨currentFile_run_matched hinner r name, files_run_file (files_run_matched hinner) r name⟩

/-- Two files are left three times, so that the last time it is the root. A problem from before
the clearing is gone; of the later ones one is fatal. -/
theorem history_run_two_files :
    let xs : List Notice := [.enterFile "a", .report none .fatal .lexer 1 "early", .clear,
      .enterFile "b", .error none .registryFull, .leaveFile, .report none .warning .vm 2 "late",
      .leaveFile]
    let r := empty.run xs
    let fatal := RegistryError.registryFull.diagnostic "b" none
    r.diagnostics = [fatal, ⟨"a", none, .warning, .vm, 2, "late"⟩] ∧
    (r.files ++ [root] = [root] ∧ r.currentFile = root) ∧
    (∀ ys, empty.run (xs ++ .leaveFile :: ys) = empty.run (xs ++ ys)) ∧
    ((r.run [.enterFile "c", .clear]).currentFile = "c" ∧
      (r.run [.enterFile "c", .clear, .leaveFile]).files = r.files) ∧
    (r.countAtLeast .fatal ≤ r.countAtLeast .warning ∧ r.countAtLeast .note = 2) ∧
    r.hasFatal = true := by
  intro xs r fatal
  obtain ⟨hdiagnostics, ⟨hfiles, -, hcurrent⟩, -, hroot, hinner, -, -, hanti, ⟨hnote, -⟩, hfatal⟩ :=
    history_run xs
  have hreports : r.diagnostics = [fatal, ⟨"a", none, .warning, .vm, 2, "late"⟩] := hdiagnostics
  refine ⟨hreports, ⟨hfiles, ?_⟩, hroot rfl, hinner "c" [.clear] (.clear .nil),
    ⟨hanti .warning .fatal (by decide), hnote⟩, ?_⟩
  · exact (Option.some.inj hcurrent).symm
  · exact hfatal.2 ⟨fatal, hreports ▸ List.mem_cons_self, rfl⟩

end Reporter

end TypeCodex
