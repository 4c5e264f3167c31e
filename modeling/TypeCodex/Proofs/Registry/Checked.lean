import TypeCodex.Proofs.Outline.Traversal
import TypeCodex.Proofs.Packing.Checked
import TypeCodex.Proofs.Registry.Totality

/-!
# Checked questions

A question about a registered type relies on what the registry holds: a valid identifier is the
index of a cell, and whatever place the cell tells, there is a tag byte. In every registry that
requests make of a new one the checks of these facts pass, and with them those of all that is
read behind the tag byte, of the encoding that is written anew, and of the text.

## Main definitions

* `Registry.checkedWindow`, `Registry.checkedEntry` — checked access to an encoding.
* `Question.checkedAsk`, `Registry.checkedView`, `Registry.checkedPacked` — checked questions.
* `Registry.checkedTag?`, `Registry.checkedIsConst`, `Registry.checkedText` — checked questions
  that report no errors.
* `Registry.Tagged` — there is a tag byte wherever a cell points to.
* `Registry.ChecksPass` — all checks of the questions about an identifier pass.

## Main statements

* `Registry.Holds.tagged` — what a registry holds begins with a tag byte.
* `Registry.Tagged.checksPass` — then all checks of all questions pass.
* `Registry.checks_pass` — no check fails, of encodings and of registries.
-/

namespace TypeCodex

variable {α ε : Type}

/-! ## Outcomes without errors -/

/-- What a checked computation gives, if anything. Its error is forgotten, but not a check that
fails. -/
def tolerate (x : Except (Stop ε) α) : Except Check (Option α) :=
  match x with
  | .ok a => .ok (some a)
  | .error (.error _) => .ok none
  | .error (.failed c) => .error c

theorem Passes.tolerate {x : Except (Stop ε) α} {y : Except ε α} (h : Passes x y) :
    tolerate x = .ok y.toOption := by
  rw [h]
  cases y <;> rfl

/-! ## Entries -/

/-- The tag byte at the start of a window, which has to be there. -/
def Window.checkedTagByte (w : Window) : Except (Stop ε) TagByte := do
  let byte ← access (.byte 0) (w.byte? 0)
  pure ⟨byte⟩

theorem Window.passes_checkedTagByte {w : Window} {b : TagByte} (h : w.tagByte? = some b) :
    Passes (w.checkedTagByte : Except (Stop ε) TagByte) (.ok b) := by
  obtain ⟨byte, hbyte, rfl⟩ := Option.map_eq_some_iff.1 h
  exact (passes_access hbyte).ok_bind (passes_ok _)

namespace Registry

/-- The window on the encoding of a type. The cell of a valid identifier has to be there. -/
def checkedWindow (r : Registry) (id : TypeId) : Except (Stop RegistryError) Window :=
  if id ≠ TypeId.invalid ∧ id.index < r.cells.size then do
    let c ← access (.cell id.index) r.cells[id.index]?
    match c.location with
    | .inline bytes => pure ⟨bytes.toArray, 0⟩
    | .stashed offset =>
      if offset ≤ r.stash.size then pure ⟨r.stash, offset⟩
      else .error (.error (.stashOverflow offset))
  else .error (.error (.unknownIdentifier id r.size))

/-- The encoding of a type, whose tag byte has to be there. -/
def checkedEntry (r : Registry) (id : TypeId) : Except (Stop RegistryError) Entry := do
  let w ← r.checkedWindow id
  let b ← w.checkedTagByte
  match b.tag? with
  | none => .error (.error (.invalidEncoding (.unknownTag b.value)))
  | some t => pure ⟨b, t, w.source⟩

/-- There is a tag byte wherever a cell points to. -/
def Tagged (r : Registry) : Prop :=
  ∀ id w, r.window id = .ok w → ∃ b, w.tagByte? = some b

variable {r : Registry} {ps : List Packed} {id : TypeId}

/-- What a registry holds begins with a tag byte. -/
theorem Holds.tagged (H : r.Holds ps) : r.Tagged := by
  intro id w hw
  cases hid : r.contains id with
  | false =>
    rw [window_of_not_contains hid] at hw
    cases hw
  | true =>
    obtain ⟨p, hp⟩ := H.exists_numbers_of_contains hid
    obtain ⟨w', hw', hprefix⟩ := H.window hp
    obtain rfl : w' = w := Except.ok.inj (hw'.symm.trans hw)
    exact ⟨p.tagByte, Window.tagByte?_eq hprefix⟩

/-- A valid identifier is the index of a cell. -/
theorem passes_checkedWindow (r : Registry) (id : TypeId) :
    Passes (r.checkedWindow id) (r.window id) := by
  rw [checkedWindow, window, cell?]
  by_cases hinvalid : id = TypeId.invalid
  · rw [if_neg fun h => h.1 hinvalid, if_pos hinvalid]
    exact passes_error _
  · by_cases hlt : id.index < r.cells.size
    · have hcell := Array.getElem?_eq_getElem hlt
      rw [if_pos ⟨hinvalid, hlt⟩, if_neg hinvalid, hcell]
      refine (passes_access rfl).ok_bind ?_
      dsimp only
      cases r.cells[id.index].location with
      | inline bytes => exact passes_ok _
      | stashed offset =>
        by_cases hoffset : offset ≤ r.stash.size
        · simp only [if_pos hoffset]
          exact passes_ok _
        · simp only [if_neg hoffset]
          exact passes_error _
    · rw [if_neg fun h => hlt h.2, if_neg hinvalid, Array.getElem?_eq_none (Nat.le_of_not_lt hlt)]
      exact passes_error _

theorem Tagged.passes_checkedEntry (H : r.Tagged) (id : TypeId) :
    Passes (r.checkedEntry id) (r.entry id) := by
  refine (r.passes_checkedWindow id).bind fun w hw => ?_
  obtain ⟨b, hb⟩ := H id w hw
  rw [hb]
  refine (Window.passes_checkedTagByte hb).ok_bind ?_
  dsimp only
  cases b.tag? with
  | none => exact passes_error _
  | some t => exact passes_ok _

/-- The operands of an entry are halves of bytes. -/
theorem operands_of_entry {e : Entry} (he : r.entry id = .ok e) :
    ∃ byte?, e.operands = Source.ofBytes byte? := by
  obtain ⟨w, -, he⟩ := bind_eq_ok.1 he
  cases hb : w.tagByte? with
  | none =>
    rw [hb] at he
    cases he
  | some b =>
    rw [hb] at he
    cases ht : b.tag? with
    | none =>
      simp only [ht] at he
      cases he
    | some t =>
      simp only [ht] at he
      cases he
      exact ⟨w.byte?, rfl⟩

end Registry

/-! ## Questions -/

namespace Question

variable {σ : Type}

/-- The answer to a question, with the checks of the entry and of what is read from it. -/
def checkedAsk (q : Question α) (r : Registry) (id : TypeId) : Except (Stop RegistryError) α := do
  let e ← r.checkedEntry id
  if e.tag = q.expected then
    ((q.read e.operands.checkedInt).value 0).mapError (Stop.map .invalidEncoding)
  else .error (.error (.shapeMismatch id (.tag q.expected) e.tag))

theorem passes_read (q : Question α) {x : Reader σ (Stop ε) UInt32} {y : Reader σ ε UInt32}
    (h : Reader.Passes x y) : Reader.Passes (q.read x) (q.read y) := by
  cases q with
  | arraySize => exact h
  | arrayElem | mapValue => exact Reader.passes_bind h fun _ => Shape.passes_readId h
  | vectorElem | mapKey | functionResult => exact Shape.passes_readId h
  | tupleFields | packageFields | variantMembers => exact Shape.passes_readIds h
  | functionParams => exact Reader.passes_bind h fun _ => Shape.passes_readIds h

theorem passes_checkedAsk {r : Registry} (H : r.Tagged) (q : Question α) (id : TypeId) :
    Passes (q.checkedAsk r id) (q.ask r id) := by
  rw [ask_eq_readAs, Registry.readAs_eq_bind]
  refine (H.passes_checkedEntry id).bind fun e he => ?_
  by_cases htag : e.tag = q.expected
  · obtain ⟨byte?, hbytes⟩ := Registry.operands_of_entry he
    rw [if_pos htag, if_pos htag, hbytes]
    exact ((q.passes_read (Source.passes_checkedInt byte?) 0).map Prod.fst).mapError _
  · rw [if_neg htag, if_neg htag]
    exact passes_error _

end Question

namespace Registry

variable {r : Registry} {ps : List Packed} {id : TypeId}

/-- The view of a type, field by field, with the checks of each question. -/
def checkedView (r : Registry) (id : TypeId) : Except (Stop RegistryError) View := do
  let e ← r.checkedEntry id
  let empty : View := { tag := e.tag, isConst := e.tagByte.isConst }
  match e.tag with
  | .basic _ => pure empty
  | .variant => pure { empty with list := ← Question.variantMembers.checkedAsk r id }
  | .array =>
    pure { empty with
      size := ← Question.arraySize.checkedAsk r id
      type1 := some (← Question.arrayElem.checkedAsk r id) }
  | .vector => pure { empty with type1 := some (← Question.vectorElem.checkedAsk r id) }
  | .map =>
    pure { empty with
      type1 := some (← Question.mapKey.checkedAsk r id)
      type2 := some (← Question.mapValue.checkedAsk r id) }
  | .tuple => pure { empty with list := ← Question.tupleFields.checkedAsk r id }
  | .package => pure { empty with list := ← Question.packageFields.checkedAsk r id }
  | .function =>
    pure { empty with
      type1 := some (← Question.functionResult.checkedAsk r id)
      list := ← Question.functionParams.checkedAsk r id }

theorem Tagged.passes_checkedView (H : r.Tagged) (id : TypeId) :
    Passes (r.checkedView id) (r.view id) := by
  refine (H.passes_checkedEntry id).bind fun e _ => ?_
  obtain ⟨tagByte, tag, operands⟩ := e
  have hask := fun {α : Type} (q : Question α) => Question.passes_checkedAsk H q id
  cases tag with
  | basic b => exact passes_ok _
  | variant => exact (hask .variantMembers).bind fun _ _ => passes_ok _
  | vector => exact (hask .vectorElem).bind fun _ _ => passes_ok _
  | tuple => exact (hask .tupleFields).bind fun _ _ => passes_ok _
  | package => exact (hask .packageFields).bind fun _ _ => passes_ok _
  | array => exact (hask .arraySize).bind fun _ _ => (hask .arrayElem).bind fun _ _ => passes_ok _
  | map => exact (hask .mapKey).bind fun _ _ => (hask .mapValue).bind fun _ _ => passes_ok _
  | function =>
    exact (hask .functionResult).bind fun _ _ => (hask .functionParams).bind fun _ _ => passes_ok _

/-- The encoding of a type, written anew from its view with all assertions. -/
def checkedPacked (r : Registry) (id : TypeId) : Except (Stop RegistryError) Packed := do
  let v ← r.checkedView id
  let e ← v.descriptor.build
  e.checkedPack

theorem Tagged.passes_checkedPacked (H : r.Tagged) (id : TypeId) :
    Passes (r.checkedPacked id) (r.packed id) := by
  have hmap : r.packed id = (r.view id).bind fun v => .ok v.pack := by
    rw [packed_eq]
    cases r.view id <;> rfl
  rw [hmap]
  refine (H.passes_checkedView id).bind fun v _ => ?_
  exact v.descriptor.passes_build.ok_bind v.expand.passes_checkedPack

/-! ## Questions that report no errors -/

/-- The tag byte of a type, if it is registered. -/
def checkedTagByte? (r : Registry) (id : TypeId) : Except Check (Option TagByte) :=
  tolerate do
    let w ← r.checkedWindow id
    w.checkedTagByte

/-- The category of a type, if it is registered. -/
def checkedTag? (r : Registry) (id : TypeId) : Except Check (Option Tag) :=
  (r.checkedTagByte? id).map fun b => b.bind TagByte.tag?

/-- Whether a type is constant; one that is not registered is not. -/
def checkedIsConst (r : Registry) (id : TypeId) : Except Check Bool :=
  (r.checkedTagByte? id).map fun b => b.any TagByte.isConst

theorem Tagged.checkedTagByte?_eq (H : r.Tagged) (id : TypeId) :
    r.checkedTagByte? id = .ok (r.tagByte? id) := by
  rw [tagByte?]
  cases hw : r.window id with
  | error err =>
    have hpasses := r.passes_checkedWindow id
    rw [hw] at hpasses
    exact (hpasses.error_bind).tolerate
  | ok w =>
    obtain ⟨b, hb⟩ := H id w hw
    have hpasses := r.passes_checkedWindow id
    rw [hw] at hpasses
    rw [checkedTagByte?, (hpasses.ok_bind (Window.passes_checkedTagByte hb)).tolerate]
    exact congrArg Except.ok hb.symm

/-- A cell that points behind the last byte of the stash is noticed. -/
example : (mk {} #[.reserved, ⟨0x80000000⟩] #[] ∅).checkedTag? ⟨1⟩ = .error (.byte 0) := by
  decide +kernel

/-- Looks up a type by a checked view at the cost of one from the budget. -/
def checkedLookUp (r : Registry) (id : TypeId) : Reader Nat Check (Option Descriptor) := do
  modify (· - 1)
  let v ← tolerate (r.checkedView id)
  pure (v.map View.descriptor)

/-- The text of a type, with the checks of every type that is looked up for it. -/
def checkedText (r : Registry) (id : TypeId) (limits : Limits) : Except Check String := do
  let (o, _) ← Outline.writeM (fun _ => r.checkedLookUp) (limits.depth + 1) id limits.nodes
  pure o.text

theorem Tagged.checkedLookUp_eq (H : r.Tagged) (id : TypeId) (budget : Nat) :
    r.checkedLookUp id budget = .ok (r.lookUp id budget) := by
  have hview := (H.passes_checkedView id).tolerate
  have hfound : (r.view id).toOption.map View.descriptor = (r.describe id).toOption := by
    rw [view_eq]
    cases r.describe id with
    | error e => rfl
    | ok d => exact congrArg some d.descriptor_view
  change ((tolerate (r.checkedView id)).bind _).bind _ = _
  rw [hview, lookUp, ← hfound]
  rfl

theorem Tagged.checkedText_eq (H : r.Tagged) (id : TypeId) (limits : Limits) :
    r.checkedText id limits = .ok (r.text id limits) := by
  have h := lockstep_ok.writeM (fun _ => H.checkedLookUp_eq) (limits.depth + 1) id limits.nodes
  rw [checkedText, h]
  rfl

/-! ## Registration -/

/-- Checks that bytes are the canonical encoding of a type, with all assertions on the way. -/
def checkedValidate (r : Registry) (p : Packed) : Except (Stop RegistryError) Unit := do
  let e ← (Packed.checkedUnpack p.bytes).mapError (Stop.map .invalidEncoding)
  let d ← ((Descriptor.ofExpanded e).mapError .invalidEncoding).mapError .error
  match d.operands.find? fun id => r.options.checkOperands && !r.contains id with
  | some id => .error (.error (.unknownIdentifier id r.size))
  | none =>
    let e' ← d.build
    if e' = e then pure () else .error (.error (.invalidEncoding .nonCanonical))

/-- Validation passes its checks in every registry and for all bytes. -/
theorem passes_checkedValidate (r : Registry) (p : Packed) :
    Passes (r.checkedValidate p) (r.validate p) := by
  refine ((Packed.passes_checkedUnpack p.bytes).mapError _).bind fun e _ => ?_
  refine (passes_of_eq rfl).bind fun d _ => ?_
  cases d.operands.find? fun id => r.options.checkOperands && !r.contains id with
  | some id => exact passes_error _
  | none =>
    refine d.passes_build.ok_bind ?_
    by_cases he : d.expand = e
    · simp only [if_pos he]
      exact passes_ok _
    · simp only [if_neg he]
      exact passes_error _

/-! ## All checks -/

/-- All checks of the questions about an identifier pass. -/
structure ChecksPass (r : Registry) (id : TypeId) : Prop where
  tag : r.checkedTag? id = .ok (r.tag? id)
  isConst : r.checkedIsConst id = .ok (r.isConst id)
  ask : ∀ {α : Type} (q : Question α), Passes (q.checkedAsk r id) (q.ask r id)
  view : Passes (r.checkedView id) (r.view id)
  packed : Passes (r.checkedPacked id) (r.packed id)
  text : ∀ limits, r.checkedText id limits = .ok (r.text id limits)

/-- If there is a tag byte wherever a cell points to, all checks pass, for every identifier. -/
theorem Tagged.checksPass (H : r.Tagged) (id : TypeId) : r.ChecksPass id where
  tag := by
    rw [checkedTag?, H.checkedTagByte?_eq]
    rfl
  isConst := by
    rw [checkedIsConst, H.checkedTagByte?_eq]
    rfl
  ask q := Question.passes_checkedAsk H q id
  view := H.passes_checkedView id
  packed := H.passes_checkedPacked id
  text := H.checkedText_eq id

/-- No check fails. Every type is written, for a tag that is not basic an error is reported;
elements and bytes from outside are taken, packed and unpacked, or refused, as without checks;
a word is read from any bytes at any position. And in every registry that requests make of a
new one, encodings are validated and all questions about all identifiers are answered as without
checks. -/
theorem checks_pass (options : Options) (qs : List Request) :
    (∀ d : Descriptor, Passes (d.build : Except (Stop Fault) Expanded) (.ok d.expand)) ∧
    (∀ (t : Tag) (c : Bool), Passes (Expanded.checkedBasic t c)
      ((Descriptor.ofBasicTag t c).map Descriptor.expand)) ∧
    (∀ elements, Passes (Expanded.checkedOfElements elements) (Expanded.ofElements elements)) ∧
    (∀ e : Expanded, Passes (e.checkedPack : Except (Stop Fault) Packed) (.ok e.pack)) ∧
    (∀ bytes, Passes (Packed.checkedUnpack bytes) (Packed.unpack bytes)) ∧
    (∀ bytes, Passes (Packed.checkedOfBytes bytes) (Packed.ofBytes bytes)) ∧
    (∀ (bytes : List UInt8) (pos : Nat),
      let s := Source.ofBytes fun i => bytes[i]?
      Passes (s.checkedInt pos) (s.int pos)) ∧
    let r := (make options).run qs
    (∀ p, Passes (r.checkedValidate p) (r.validate p)) ∧ ∀ id, r.ChecksPass id := by
  obtain ⟨new, H⟩ := holds_run options qs
  exact ⟨Descriptor.passes_build, Expanded.passes_checkedBasic,
    Expanded.passes_checkedOfElements, Expanded.passes_checkedPack,
    Packed.passes_checkedUnpack, Packed.passes_checkedOfBytes,
    fun bytes pos => Source.passes_checkedInt _ pos,
    passes_checkedValidate _, H.tagged.checksPass⟩

end Registry

end TypeCodex
