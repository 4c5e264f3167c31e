import TypeCodex.Proofs.Registry.Answers
import TypeCodex.Proofs.Registry.Run
import TypeCodex.Proofs.Registry.Window

/-!
# Stability of what is registered

A registry is only ever extended. What it says about a type depends on the encoding under
the identifier of the type alone, so it says the same after any further requests, although
these put other bytes behind the encoding.

## Main definitions

* `Registry.AgreesOn` — two registries answer every question about a type alike.

## Main statements

* `Registry.Holds.describe_of_encodes` — a description depends on the encoding alone.
* `Registry.answers_stable` — answers and lookups survive all further requests.
-/

namespace TypeCodex

theorem Packed.Encodes.unique {p : Packed} {d e : Descriptor} (hd : p.Encodes d)
    (he : p.Encodes e) : d = e :=
  Except.ok.inj (hd.decode.symm.trans he.decode)

namespace Registry

/-- Two registries answer every question about a type alike. -/
structure AgreesOn (r r' : Registry) (id : TypeId) : Prop where
  view : r'.view id = r.view id
  packed : r'.packed id = r.packed id
  tag : r'.tag? id = r.tag? id
  isConst : r'.isConst id = r.isConst id
  arraySize : r'.arraySize id = r.arraySize id
  arrayElem : r'.arrayElem id = r.arrayElem id
  vectorElem : r'.vectorElem id = r.vectorElem id
  mapKey : r'.mapKey id = r.mapKey id
  mapValue : r'.mapValue id = r.mapValue id
  tupleFields : r'.tupleFields id = r.tupleFields id
  packageFields : r'.packageFields id = r.packageFields id
  variantMembers : r'.variantMembers id = r.variantMembers id
  functionResult : r'.functionResult id = r.functionResult id
  functionParams : r'.functionParams id = r.functionParams id

variable {r r' : Registry} {ps new : List Packed} {p : Packed} {id : TypeId} {v : View}

/-- Two registries in which a type has the same view agree on it. -/
theorem agreesOn_of_view (h : r.view id = .ok v) (h' : r'.view id = .ok v) :
    r.AgreesOn r' id := by
  have H := answers_of_view h
  have H' := answers_of_view h'
  constructor
  case view => rw [H.view, H'.view]
  case packed => rw [H.packed, H'.packed]
  case tag => rw [H.tag, H'.tag]
  case isConst => rw [H.isConst, H'.isConst]
  case arraySize => rw [H.arraySize, H'.arraySize]
  case arrayElem => rw [H.arrayElem, H'.arrayElem]
  case vectorElem => rw [H.vectorElem, H'.vectorElem]
  case mapKey => rw [H.mapKey, H'.mapKey]
  case mapValue => rw [H.mapValue, H'.mapValue]
  case tupleFields => rw [H.tupleFields, H'.tupleFields]
  case packageFields => rw [H.packageFields, H'.packageFields]
  case variantMembers => rw [H.variantMembers, H'.variantMembers]
  case functionResult => rw [H.functionResult, H'.functionResult]
  case functionParams => rw [H.functionParams, H'.functionParams]

namespace Holds

/-- The description of a registered type depends on its encoding alone. -/
theorem describe_of_encodes (H : r.Holds ps) (h : Numbers ps id p) {d : Descriptor}
    (hd : p.Encodes d) : r.describe id = .ok d := by
  obtain ⟨e, he, hdescribe⟩ := H.describe h
  rw [hd.unique he, hdescribe]

theorem view_of_encodes (H : r.Holds ps) (h : Numbers ps id p) {d : Descriptor}
    (hd : p.Encodes d) : r.view id = .ok d.view := by
  rw [view_eq, H.describe_of_encodes h hd]
  rfl

/-- A valid identifier is the number of an encoding. -/
theorem exists_numbers_of_contains (H : r.Holds ps) (hid : r.contains id = true) :
    ∃ p, Numbers ps id p := by
  obtain ⟨hne, hle⟩ := H.contains_iff.1 hid
  exact exists_numbers (TypeId.one_le_index.2 hne) hle

theorem contains_of_numbers (H : r.Holds ps) (h : Numbers ps id p) : r.contains id = true :=
  H.contains_iff.2 ⟨h.ne_invalid, h.bounds.2⟩

/-- What is found is the number of the encoding. -/
theorem numbers_find (H : r.Holds ps) (h : r.find p ≠ TypeId.invalid) :
    Numbers ps (r.find p) p := by
  cases hindex : r.index[p.bytes]? with
  | none => exact absurd (by simp [Registry.find, Std.ExtTreeMap.getD_eq_getD_getElem?, hindex]) h
  | some id =>
    have hp := H.index_eq_some_iff.1 hindex
    rwa [H.find hp]

/-- A registry that holds more agrees on what was there. -/
theorem agreesOn (H : r.Holds ps) (H' : r'.Holds (ps ++ new)) (h : Numbers ps id p) :
    r.AgreesOn r' id := by
  obtain ⟨d, hd, -⟩ := H.describe h
  exact agreesOn_of_view (H.view_of_encodes h hd) (H'.view_of_encodes (h.append new) hd)

end Holds

/-- Whatever is requested of a registry, its valid identifiers stay valid, it answers every
question about them as before, and what was found is found under the same identifier. -/
theorem answers_stable (options : Options) (before after : List Request) (id : TypeId)
    (hid : ((make options).run before).contains id = true) :
    let r := (make options).run before
    let r' := r.run after
    r'.contains id = true ∧ r.AgreesOn r' id ∧
      ∀ p, r.find p ≠ TypeId.invalid → r'.find p = r.find p := by
  intro r r'
  obtain ⟨held, H⟩ := holds_run options before
  obtain ⟨⟨new, H'⟩, -⟩ := H.run after
  obtain ⟨p, hp⟩ := H.exists_numbers_of_contains hid
  refine ⟨H'.contains_of_numbers (hp.append new), H.agreesOn H' hp, ?_⟩
  intro q hq
  exact H'.find ((H.numbers_find hq).append new)

/-- A package in the stash, with a longer encoding put behind it and another one refused. -/
theorem answers_stable_package :
    let fields : View := { tag := .package, list := [⟨5⟩, ⟨9⟩, ⟨300⟩, ⟨17⟩] }
    let far : View := { tag := .function, type1 := some ⟨70000⟩, list := [⟨17⟩, ⟨9⟩, ⟨17⟩] }
    let r := (make {}).run [.intern fields.pack]
    let r' := r.run [.create far.pack, .intern ⟨⟨0xff⟩, []⟩, .intern fields.pack]
    r.contains ⟨17⟩ = true ∧ r'.contains ⟨17⟩ = true ∧ r.AgreesOn r' ⟨17⟩ ∧
      ∀ p, r.find p ≠ TypeId.invalid → r'.find p = r.find p := by
  intro fields far r r'
  have hid : r.contains ⟨17⟩ = true := by decide +kernel
  exact ⟨hid, answers_stable {} [.intern fields.pack]
    [.create far.pack, .intern ⟨⟨0xff⟩, []⟩, .intern fields.pack] ⟨17⟩ hid⟩

end Registry

end TypeCodex
