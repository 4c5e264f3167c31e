import TypeCodex.Registry.Outline

/-!
# Outlines that are written to their end

An outline that fits into the limits is not cut short: what is written out is the outline
itself, and the budget is spent on its identifiers.

## Main definitions

* `Outline.root` — the identifier that an outline stands for.
* `Outline.height` — how deep an outline is nested.

## Main statements

* `Shape.mapOperands_mapOperands` — operands replaced and taken back.
* `Shape.height_le_iff` — the height of a shape operand by operand.
* `Shape.writeOut_mapOperands` — a shape whose operands fit is written to its end.
-/

namespace TypeCodex

/-- A shape with other operands in the same places. -/
def Shape.mapOperands {α β : Type} (f : α → β) : Shape α → Shape β
  | .basic b => .basic b
  | .variant members => .variant (members.map f)
  | .array size elem => .array size (f elem)
  | .vector elem => .vector (f elem)
  | .map key value => .map (f key) (f value)
  | .tuple fields => .tuple (fields.map f)
  | .package fields => .package (fields.map f)
  | .function ret params => .function (f ret) (params.map f)

theorem Shape.operands_mapOperands {α β : Type} (f : α → β) (s : Shape α) :
    (s.mapOperands f).operands = s.operands.map f := by
  cases s <;> rfl

/-- A shape stays as it is when its operands are replaced and then taken back. -/
theorem Shape.mapOperands_mapOperands {α β : Type} {f : α → β} {g : β → α} {s : Shape α}
    (h : ∀ a ∈ s.operands, g (f a) = a) : (s.mapOperands f).mapOperands g = s := by
  have hlist : ∀ as : List α, (∀ a ∈ as, g (f a) = a) → (as.map f).map g = as := by
    intro as has
    rw [List.map_map]
    exact (List.map_congr_left has).trans (List.map_id' as)
  cases s with
  | basic b => rfl
  | variant as | tuple as | package as => rw [mapOperands, mapOperands, hlist as h]
  | array | vector =>
    simp only [operands, List.forall_mem_singleton] at h
    rw [mapOperands, mapOperands, h]
  | map key value =>
    simp only [operands, List.forall_mem_cons] at h
    rw [mapOperands, mapOperands, h.1, h.2.1]
  | function ret params =>
    simp only [operands, List.forall_mem_cons] at h
    rw [mapOperands, mapOperands, h.1, hlist params h.2]

/-- The identifier that an outline stands for; none stands for a type that is left out. -/
def Outline.root : Outline → TypeId
  | .elided => TypeId.invalid
  | .unknown id => id
  | .node id _ _ => id

/-! ## Heights -/

mutual

/-- The deepest level of an outline, its root being at level zero. -/
def Outline.height : Outline → Nat
  | .elided => 0
  | .unknown _ => 0
  | .node _ _ shape => shape.height
termination_by structural o => o

/-- The number of levels below a shape. -/
def Shape.height : Shape Outline → Nat
  | .basic _ => 0
  | .variant members => Outline.levels members
  | .array _ elem => elem.height + 1
  | .vector elem => elem.height + 1
  | .map key value => max (key.height + 1) (value.height + 1)
  | .tuple fields => Outline.levels fields
  | .package fields => Outline.levels fields
  | .function ret params => max (Outline.levels params) (ret.height + 1)
termination_by structural s => s

/-- The number of levels of several outlines. -/
def Outline.levels : List Outline → Nat
  | [] => 0
  | o :: os => max (o.height + 1) (Outline.levels os)
termination_by structural os => os

end

theorem Outline.levels_le_iff {os : List Outline} {n : Nat} :
    levels os ≤ n ↔ ∀ o ∈ os, o.height < n := by
  induction os with
  | nil => simp [levels]
  | cons o os ih =>
    rw [levels, Nat.max_le, ih, Nat.add_one_le_iff, List.forall_mem_cons]

/-- The height of a shape operand by operand. -/
theorem Shape.height_le_iff {s : Shape Outline} {n : Nat} :
    s.height ≤ n ↔ ∀ o ∈ s.operands, o.height < n := by
  cases s with
  | basic b => simp [height, operands]
  | variant | tuple | package => exact Outline.levels_le_iff
  | array | vector =>
    rw [height, Nat.add_one_le_iff]
    simp [operands]
  | map key value =>
    rw [height, Nat.max_le, Nat.add_one_le_iff, Nat.add_one_le_iff]
    simp [operands]
  | function ret params =>
    rw [height, Nat.max_le, Nat.add_one_le_iff, Outline.levels_le_iff]
    simp [operands, and_comm]

/-! ## Writing to the end -/

variable {write : TypeId → Nat → Outline × Nat} {o : Outline} {budget : Nat}

/-- An outline is written to its end whenever the budget suffices for it. -/
def Outline.WrittenBy (write : TypeId → Nat → Outline × Nat) (o : Outline) : Prop :=
  0 < o.ids.length ∧
    ∀ budget, o.ids.length ≤ budget → write o.root budget = (o, budget - o.ids.length)

theorem Outline.writeList_map {os : List Outline} (h : ∀ o ∈ os, o.WrittenBy write)
    (hb : (idsAll os).length ≤ budget) :
    writeList write (os.map root) budget = (os, budget - (idsAll os).length) := by
  induction os generalizing budget with
  | nil => simp [idsAll]
  | cons o os ih =>
    obtain ⟨hpos, hwrite⟩ := h o (by simp)
    simp only [idsAll, List.length_append] at hb
    cases budget with
    | zero => omega
    | succ budget =>
      have hfirst := hwrite (budget + 1) (by omega)
      have hrest : writeList write (os.map root) (budget + 1 - o.ids.length)
          = (os, budget + 1 - o.ids.length - (idsAll os).length) :=
        ih (fun o ho => h o (by simp [ho])) (by omega)
      simp only [List.map_cons, writeList_cons, hfirst, hrest, idsAll, List.length_append,
        Nat.sub_sub]

/-- A shape whose operands are written to their ends is so itself. -/
theorem Shape.writeOut_mapOperands {s : Shape Outline} (h : ∀ o ∈ s.operands, o.WrittenBy write)
    (hb : s.ids.length ≤ budget) :
    (s.mapOperands Outline.root).writeOut write budget = (s, budget - s.ids.length) := by
  cases s with
  | basic b => rfl
  | variant os | tuple os | package os =>
    have hos : Outline.writeList write (os.map Outline.root) budget
        = (os, budget - (Outline.idsAll os).length) := Outline.writeList_map h hb
    simp [mapOperands, hos, Shape.ids]
  | array size elem =>
    have helem := (h elem (by simp [operands])).2 budget hb
    simp [mapOperands, helem, Shape.ids]
  | vector elem =>
    have helem := (h elem (by simp [operands])).2 budget hb
    simp [mapOperands, helem, Shape.ids]
  | map key value =>
    simp only [Shape.ids, List.length_append] at hb
    have hkey := (h key (by simp [operands])).2 budget (by omega)
    have hvalue := (h value (by simp [operands])).2 (budget - key.ids.length) (by omega)
    simp [mapOperands, hkey, hvalue, Shape.ids, Nat.sub_sub]
  | function ret params =>
    simp only [Shape.ids, List.length_append] at hb
    have hparams : Outline.writeList write (params.map Outline.root) budget
        = (params, budget - (Outline.idsAll params).length) :=
      Outline.writeList_map (fun o ho => h o (by simp [operands, ho])) (by omega)
    have hret := (h ret (by simp [operands])).2 (budget - (Outline.idsAll params).length)
      (by omega)
    simp [mapOperands, hparams, hret, Shape.ids, Nat.sub_sub]

end TypeCodex
