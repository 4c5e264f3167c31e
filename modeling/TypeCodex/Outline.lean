import TypeCodex.Shape

/-!
# Outlines

An outline is a type written out: every operand is replaced by its own outline, down
to types that have none, identifiers that are not registered, and places where the
writing was cut short.

## Main definitions

* `Outline` — the trees.
* `Outline.text` — the text of an outline.
* `Outline.ids` — the identifiers in it from left to right.
-/

namespace TypeCodex

/-- A type with its operands written out. -/
inductive Outline where
  /-- The type is left out. -/
  | elided
  /-- No type is registered under the identifier. -/
  | unknown (id : TypeId)
  /-- A registered type. -/
  | node (id : TypeId) (isConst : Bool) (shape : Shape Outline)

mutual

/-- The text of an outline. -/
def Outline.text : Outline → String
  | .elided => "..."
  | .unknown id => "<invalid " ++ id.text ++ ">"
  | .node _ isConst shape => (if isConst then "const " else "") ++ shape.text
termination_by structural o => o

/-- The text of a shape. A function shows its parameters before its result. -/
def Shape.text : Shape Outline → String
  | .basic b => b.name
  | .variant members => "variant<" ++ Outline.joined " | " members ++ ">"
  | .array size elem => "[" ++ elem.text ++ "; " ++ toString size.toNat ++ "]"
  | .vector elem => "vector<" ++ elem.text ++ ">"
  | .map key value => "map<" ++ key.text ++ ", " ++ value.text ++ ">"
  | .tuple fields => "(" ++ Outline.joined ", " fields ++ ")"
  | .package fields => "package \x7b" ++ Outline.joined ", " fields ++ "\x7d"
  | .function ret params => "func(" ++ Outline.joined ", " params ++ ") -> " ++ ret.text
termination_by structural s => s

/-- The texts of several outlines with a separator between them. -/
def Outline.joined (separator : String) : List Outline → String
  | [] => ""
  | o :: os => o.text ++ Outline.following separator os
termination_by structural os => os

/-- The texts of several outlines with a separator before each. -/
def Outline.following (separator : String) : List Outline → String
  | [] => ""
  | o :: os => separator ++ o.text ++ Outline.following separator os
termination_by structural os => os

end

mutual

/-- The identifiers that were looked up for an outline, in the order of its text. -/
def Outline.ids : Outline → List TypeId
  | .elided => []
  | .unknown id => [id]
  | .node id _ shape => id :: shape.ids
termination_by structural o => o

/-- The identifiers below a shape, in the order of its text. -/
def Shape.ids : Shape Outline → List TypeId
  | .basic _ => []
  | .variant members => Outline.idsAll members
  | .array _ elem => elem.ids
  | .vector elem => elem.ids
  | .map key value => key.ids ++ value.ids
  | .tuple fields => Outline.idsAll fields
  | .package fields => Outline.idsAll fields
  | .function ret params => Outline.idsAll params ++ ret.ids
termination_by structural s => s

/-- The identifiers of several outlines. -/
def Outline.idsAll : List Outline → List TypeId
  | [] => []
  | o :: os => o.ids ++ Outline.idsAll os
termination_by structural os => os

end

end TypeCodex
