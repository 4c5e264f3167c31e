import TypeCodex.Fault
import TypeCodex.Report
import TypeCodex.Tag
import TypeCodex.TypeId

/-!
# Registry errors

What can go wrong with a request to a registry. Bad bytes and dangling identifiers
are the input's fault; everything else means that a caller or the registry broke an
invariant.

## Main definitions

* `RegistryError` — the causes, with their message and classification.
* `RegistryError.diagnostic`, `Reporter.reportError` — errors as problems.
-/

namespace TypeCodex

/-- What a request expects a type to be. -/
inductive Expected where
  /-- A type of one category. -/
  | tag (t : Tag)
  /-- A type of any basic category. -/
  | anyBasic
  deriving DecidableEq

/-- The words for what is expected. -/
def Expected.text : Expected → String
  | tag t => t.name
  | anyBasic => "a basic tag"

/-- Why a request to a registry fails. -/
inductive RegistryError where
  /-- Bytes that should encode a type do not. -/
  | invalidEncoding (fault : Fault)
  /-- No type is registered under the identifier. -/
  | unknownIdentifier (id : TypeId) (size : Nat)
  /-- The type has another category. -/
  | shapeMismatch (id : TypeId) (expected : Expected) (found : Tag)
  /-- A cell cannot hold the offset of the encoding. -/
  | stashOverflow (offset : Nat)
  /-- There is no identifier left. -/
  | registryFull
  deriving DecidableEq

namespace RegistryError

/-- One sentence about an error. -/
def message : RegistryError → String
  | invalidEncoding fault => "invalid type encoding: " ++ fault.message
  | unknownIdentifier id size =>
    "unknown type identifier " ++ id.text ++ " (registry holds " ++ toString size ++ " types)"
  | shapeMismatch id expected found =>
    "type " ++ id.text ++ " is " ++ found.name ++ ", expected " ++ expected.text
  | stashOverflow offset =>
    "type stash offset " ++ toString offset ++ " does not fit in 31 bits"
  | registryFull => "type registry cannot hold more than u32::MAX identifiers"

/-- Whose fault an error is. -/
def category : RegistryError → Category
  | invalidEncoding _ | unknownIdentifier _ _ => .input
  | shapeMismatch _ _ _ | stashOverflow _ | registryFull => .internal

/-- A broken invariant is fatal. -/
def severity (e : RegistryError) : Severity :=
  match e.category with
  | .internal => .fatal
  | _ => .error

/-- The number of a kind of error. -/
def number : RegistryError → Int
  | invalidEncoding _ => 101
  | unknownIdentifier _ _ => 102
  | shapeMismatch _ _ _ => 201
  | stashOverflow _ => 202
  | registryFull => 203

/-- An error as a problem of a file. -/
def diagnostic (e : RegistryError) (file : String) (position : Option Position) : Diagnostic :=
  ⟨file, position, e.severity, e.category, e.number, e.message⟩

end RegistryError

/-- Reports an error in the current file. -/
def Reporter.reportError (r : Reporter) (position : Option Position) (e : RegistryError) :
    Reporter :=
  r.add (e.diagnostic r.currentFile position)

end TypeCodex
