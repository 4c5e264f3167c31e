import Std.Data.ExtTreeMap
import TypeCodex.Registry.Basic

/-!
# Scopes of type names

Scopes are nested and a name means what the innermost scope that has it says. An
inner scope may use a name of an outer one again, but a scope never changes what a
name of its own means.

## Main definitions

* `Scope` — the names of one scope.
* `Scopes` — a scope and those around it.
* `Scopes.bind`, `Scopes.find` — giving and looking up a meaning.
-/

namespace TypeCodex

/-- The names of one scope with their types. -/
abbrev Scope := Std.ExtTreeMap String TypeId

/-- A scope inside other scopes. -/
structure Scopes where
  innermost : Scope
  /-- The scopes around it, from the inside out. -/
  enclosing : List Scope

namespace Scopes

/-- One scope without names. -/
def empty : Scopes := ⟨∅, []⟩

/-- All scopes, innermost first. -/
def chain (s : Scopes) : List Scope := s.innermost :: s.enclosing

/-- The number of scopes. -/
def depth (s : Scopes) : Nat := s.chain.length

/-- Opens a scope without names inside the innermost one. -/
def enter (s : Scopes) : Scopes := ⟨∅, s.chain⟩

/-- Closes the innermost scope, unless it is the only one. -/
def leave? (s : Scopes) : Option Scopes :=
  match s.enclosing with
  | [] => none
  | scope :: scopes => some ⟨scope, scopes⟩

/-- Gives a name its meaning in the innermost scope. The type has to be registered and
the name new to that scope. -/
def bind? (s : Scopes) (r : Registry) (name : String) (id : TypeId) : Option Scopes :=
  if !r.contains id || s.innermost.contains name then none
  else some { s with innermost := s.innermost.insert name id }

/-- What a name means; the invalid identifier if no scope has it. -/
def find (s : Scopes) (name : String) : TypeId :=
  (s.chain.findSome? fun scope => scope[name]?).getD TypeId.invalid

end Scopes

end TypeCodex
