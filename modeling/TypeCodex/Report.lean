/-!
# Diagnostics

Problems are collected in the order in which they are reported, each with the file
that was current at that moment.

## Main definitions

* `Severity`, `Category`, `Position`, `Diagnostic` — one problem.
* `Reporter` — the open files and the problems so far.
-/

namespace TypeCodex

/-- How bad a problem is. -/
inductive Severity where
  | note
  | warning
  /-- Work goes on but cannot succeed. -/
  | error
  /-- Work stops. -/
  | fatal
  deriving DecidableEq

namespace Severity

/-- The rank of a severity, the mildest lowest. -/
def rank : Severity → Nat
  | note => 0
  | warning => 1
  | error => 2
  | fatal => 3

instance : LE Severity := ⟨fun a b => a.rank ≤ b.rank⟩

instance (a b : Severity) : Decidable (a ≤ b) :=
  inferInstanceAs (Decidable (a.rank ≤ b.rank))

/-- The name of a severity. -/
def name : Severity → String
  | note => "note"
  | warning => "warning"
  | error => "error"
  | fatal => "fatal"

end Severity

/-- The part of a toolchain that a problem comes from. -/
inductive Category where
  | unknown
  /-- A broken invariant of the toolchain itself. -/
  | internal
  /-- Malformed input. -/
  | input
  | lexer
  | parser
  | codegen
  | vm
  | runtime
  | other
  deriving DecidableEq

/-- The name of a category. -/
def Category.name : Category → String
  | unknown => "unknown"
  | internal => "internal"
  | input => "input"
  | lexer => "lexer"
  | parser => "parser"
  | codegen => "codegen"
  | vm => "vm"
  | runtime => "runtime"
  | other => "other"

/-- A place in a file, counted from one. -/
structure Position where
  line : Nat
  column : Nat
  deriving DecidableEq

/-- One reported problem. -/
structure Diagnostic where
  file : String
  position : Option Position
  severity : Severity
  category : Category
  /-- The number of the kind of problem. -/
  number : Int
  message : String
  deriving DecidableEq

namespace Diagnostic

/-- The file, the position if there is one, the classification, and the message. -/
def text (d : Diagnostic) : String :=
  let place :=
    match d.position with
    | none => ""
    | some p => ":" ++ toString p.line ++ ":" ++ toString p.column
  d.file ++ place ++ ": " ++ d.severity.name ++ "[" ++ d.category.name ++ " "
    ++ toString d.number ++ "]: " ++ d.message

end Diagnostic

/-- The open files, innermost first, and the problems, latest first. -/
structure Reporter where
  files : List String
  latest : List Diagnostic

namespace Reporter

/-- The file name while no file is open. -/
def root : String := "???"

/-- No open file and no problem. -/
def empty : Reporter := ⟨[], []⟩

/-- The file that problems are attributed to. -/
def currentFile (r : Reporter) : String := r.files.headD root

/-- Opens a file inside the current one. -/
def enterFile (r : Reporter) (name : String) : Reporter := { r with files := name :: r.files }

/-- Goes back to the enclosing file. Without an open file nothing changes. -/
def leaveFile (r : Reporter) : Reporter := { r with files := r.files.tail }

/-- Adds a problem, whatever file it names. -/
def add (r : Reporter) (d : Diagnostic) : Reporter := { r with latest := d :: r.latest }

/-- Reports a problem in the current file. -/
def report (r : Reporter) (position : Option Position) (severity : Severity)
    (category : Category) (number : Int) (message : String) : Reporter :=
  r.add ⟨r.currentFile, position, severity, category, number, message⟩

/-- The problems in the order in which they were reported. -/
def diagnostics (r : Reporter) : List Diagnostic := r.latest.reverse

/-- The number of problems. -/
def count (r : Reporter) : Nat := r.latest.length

/-- The number of problems at least as bad as a severity. -/
def countAtLeast (r : Reporter) (s : Severity) : Nat :=
  r.latest.countP fun d => s ≤ d.severity

/-- Whether a problem stops the work. -/
def hasFatal (r : Reporter) : Bool := 0 < r.countAtLeast .fatal

/-- Forgets the problems and keeps the open files. -/
def clear (r : Reporter) : Reporter := { r with latest := [] }

@[simp] theorem diagnostics_add (r : Reporter) (d : Diagnostic) :
    (r.add d).diagnostics = r.diagnostics ++ [d] := by
  simp [diagnostics, add]

end Reporter

end TypeCodex
