import TypeCodex.Proofs.Outline.Metered
import TypeCodex.Proofs.Registry.Expansion

/-!
# What is looked up for a text

However types refer to one another, writing one of them out ends after a number of lookups that
the limits give. A type unfolds from left to right into the types below it, without end if it is
below itself. Cut below the deepest level that is written, the beginning of this list is what is
looked up, as long as the budget lasts.

## Main definitions

* `Registry.parts`, `Registry.unfolding` — the operands of a type in the order of its text, and
  the types below it on a number of levels.
* `Registry.metered` — a type written out with a meter as the budget.

## Main statements

* `Registry.metered_writeOut` — the meter and the budget agree on every level.
* `Registry.filter_reach` — what is cut off are the levels that are too deep.
* `Registry.ExpandsTo.map_reach` — a finite expansion unfolds into its identifiers.
* `Registry.lookups_bounded` — the lookups for a text within limits.
-/

namespace TypeCodex

/-- The operands of a view in the order of its text, the parameters of a function before its
result. -/
def View.inOrder (v : View) : List TypeId :=
  match v.tag with
  | .function => v.list ++ v.type1.toList
  | _ => v.operands

theorem Descriptor.inOrder_view (d : Descriptor) : d.view.inOrder = d.shape.inOrder := by
  obtain ⟨isConst, shape⟩ := d
  cases shape <;> rfl

theorem Shape.inOrder_mapOperands {α β : Type} (f : α → β) (s : Shape α) :
    (s.mapOperands f).inOrder = s.inOrder.map f := by
  cases s with
  | function ret params => simp [mapOperands, inOrder]
  | _ => rfl

theorem Shape.mem_inOrder {α : Type} {s : Shape α} {a : α} : a ∈ s.inOrder ↔ a ∈ s.operands := by
  cases s with
  | function ret params => simp [inOrder, operands, or_comm]
  | _ => rfl

theorem Outline.idsAll_eq_flatMap (os : List Outline) : idsAll os = os.flatMap Outline.ids := by
  induction os with
  | nil => rfl
  | cons o os ih => rw [idsAll, List.flatMap_cons, ih]

/-- The identifiers below a shape, operand by operand. -/
theorem Shape.ids_eq_flatMap (s : Shape Outline) : s.ids = s.inOrder.flatMap Outline.ids := by
  cases s <;> simp [ids, inOrder, operands, Outline.idsAll_eq_flatMap]

namespace Registry

variable {r : Registry} {id : TypeId}

/-! ## Unfolding -/

/-- The operands of a type in the order of its text, none if it is not registered. -/
def parts (r : Registry) (id : TypeId) : List TypeId :=
  ((r.view id).toOption.map View.inOrder).getD []

/-- A type and those below it on so many levels, every type in front of its operands. -/
def reach (r : Registry) : Nat → Nat → TypeId → List Lookup
  | 0, _, _ => []
  | levels + 1, level, id =>
    ⟨id, level⟩ :: (r.parts id).flatMap (r.reach levels (level + 1))

/-- The expansion of a type, cut below a level and read from left to right. -/
def unfolding (r : Registry) (id : TypeId) (depth : Nat) : List Lookup := r.reach (depth + 1) 0 id

theorem parts_of_describe {d : Descriptor} (h : r.describe id = .ok d) :
    r.parts id = d.shape.inOrder := by
  simp [parts, view_eq, h, Except.map, Except.toOption, Descriptor.inOrder_view]

theorem parts_of_error {e : RegistryError} (h : r.describe id = .error e) : r.parts id = [] := by
  simp [parts, view_eq, h, Except.map, Except.toOption]

/-- What is reached lies on the levels from the first one on. -/
theorem level_bounds {levels level : Nat} {x : Lookup} (h : x ∈ r.reach levels level id) :
    level ≤ x.level ∧ x.level < level + levels := by
  induction levels generalizing level id with
  | zero => cases h
  | succ levels ih =>
    rcases List.mem_cons.1 h with rfl | h
    · exact ⟨Nat.le_refl _, Nat.lt_add_of_pos_right (Nat.succ_pos levels)⟩
    · obtain ⟨part, -, hx⟩ := List.mem_flatMap.1 h
      have hbounds := ih hx
      omega

/-- What is cut off are the levels that are too deep. -/
theorem filter_reach (r : Registry) (levels extra level : Nat) (id : TypeId) :
    (r.reach (levels + extra) level id).filter (fun x => x.level < level + levels)
      = r.reach levels level id := by
  induction levels generalizing level id with
  | zero =>
    rw [reach, List.filter_eq_nil_iff]
    intro x hx
    have hbounds := level_bounds hx
    rw [decide_eq_true_eq]
    omega
  | succ levels ih =>
    have hparts : (fun part => (r.reach (levels + extra) (level + 1) part).filter
        fun x => x.level < level + (levels + 1)) = r.reach levels (level + 1) := by
      funext part
      rw [← ih (level + 1) part]
      congr 1
      funext x
      rw [Nat.add_right_comm level 1 levels, Nat.add_assoc]
    rw [Nat.add_right_comm levels 1 extra, reach, reach, List.filter_cons_of_pos, List.filter_flatMap,
      hparts]
    rw [decide_eq_true_eq]
    exact Nat.lt_add_of_pos_right (Nat.succ_pos levels)

/-- A finite expansion unfolds into its identifiers. -/
theorem ExpandsTo.map_reach {o : Outline} (h : r.ExpandsTo id o) {levels level : Nat}
    (hheight : o.height < levels) : (r.reach levels level id).map Lookup.id = o.ids := by
  induction h generalizing levels level with
  | @unknown id h =>
    cases levels with
    | zero => cases hheight
    | succ levels =>
      rw [reach, parts_of_error (describe_of_not_contains h)]
      rfl
  | @node id isConst shape hview h ih =>
    rw [Outline.height] at hheight
    cases levels with
    | zero => cases hheight
    | succ levels =>
      have hoperands := Shape.height_le_iff.1 (Nat.le_of_lt_succ hheight)
      have hparts : r.parts id = shape.inOrder.map Outline.root := by
        rw [parts_of_describe (describe_of_view hview), Shape.inOrder_mapOperands]
      rw [reach, List.map_cons, hparts, List.flatMap_map, List.map_flatMap, Outline.ids,
        Shape.ids_eq_flatMap]
      congr 1
      refine List.flatMap_congr fun o ho => ?_
      exact ih o (Shape.mem_inOrder.1 ho) (hoperands o (Shape.mem_inOrder.1 ho))

/-! ## Lookups -/

/-- Looks up a type that has so many levels below it, and pays for it. -/
def meteredLookUp (r : Registry) (depth levels : Nat) (id : TypeId) :
    StateM Meter (Option Descriptor) := do
  modify fun m => m.pay ⟨id, depth - levels⟩
  pure (r.describe id).toOption

/-- A type written out within limits, with what was paid for it. -/
def metered (r : Registry) (id : TypeId) (limits : Limits) : Outline × Meter :=
  Outline.writeM (r.meteredLookUp limits.depth) (limits.depth + 1) id ⟨limits.nodes, []⟩

theorem writeM_meteredLookUp_succ (r : Registry) (depth levels : Nat) (id : TypeId) {m : Meter}
    {budget : Nat} (hm : m.budget = (budget + 1 : Nat)) :
    Outline.writeM (r.meteredLookUp depth) (levels + 1) id m
      = Outline.writeFound (Outline.writeM (r.meteredLookUp depth) levels) id
          (r.describe id).toOption (m.pay ⟨id, depth - levels⟩) := by
  rw [Outline.writeM, Meter.spent_bind_succ hm]
  rfl

/-- The meter and the budget agree on every level. -/
theorem metered_writeOut (r : Registry) {depth levels level : Nat}
    (hlevel : level + levels = depth + 1) (id : TypeId) {m : Meter} {budget : Nat}
    (hm : m.budget = budget) :
    Metered Outline.ids (r.reach levels level id) m budget (r.writeOut levels id budget)
      (Outline.writeM (r.meteredLookUp depth) levels id m) := by
  induction levels generalizing level id m budget with
  | zero => exact Metered.of_nil rfl
  | succ levels ih =>
    cases budget with
    | zero =>
      rw [Outline.writeM, Meter.spent_bind_zero hm]
      exact Metered.of_zero rfl
    | succ budget =>
      have hown : depth - levels = level := by omega
      have hpaid : (m.pay ⟨id, level⟩).budget = budget := by
        change m.budget - 1 = _
        omega
      rw [writeM_meteredLookUp_succ r depth levels id hm, hown, reach]
      cases hd : r.describe id with
      | error e =>
        have H : Metered (fun _ => []) [] (m.pay ⟨id, level⟩) budget ((), budget)
          ((), m.pay ⟨id, level⟩) := Metered.of_nil rfl
        rw [writeOut_of_error hd, parts_of_error hd]
        exact H.pay (fun _ => Outline.unknown id) fun _ => rfl
      | ok d =>
        have hbelow : level + 1 + levels = depth + 1 := by omega
        have H := Shape.metered_writeOut
          (fun part (_ : part ∈ d.shape.operands) _ _ hm => ih hbelow part hm) hpaid
        rw [writeOut_of_describe hd, parts_of_describe hd]
        exact H.pay (Outline.node id d.isConst) fun _ => rfl

/-- Whatever a registry holds, writing out a type within limits

1. makes the lookups for which a meter is paid, and otherwise does the same without a meter;
2. looks up the first types of the expansion cut below the deepest level, from left to right, as
   many as the budget allows, none of them deeper;
3. never leaves less than nothing of the budget.

The cut expansion is what every deeper one has on the same levels, and all of the expansion if
that is finite and no deeper. -/
theorem lookups_bounded (r : Registry) (id : TypeId) (limits : Limits) :
    let o := r.outline id limits
    let m := (r.metered id limits).2
    let made := m.paid.map Prod.fst
    ((r.metered id limits).1 = o ∧ o.ids = made.map Lookup.id) ∧
    (made = (r.unfolding id limits.depth).take limits.nodes ∧ made.length ≤ limits.nodes ∧
      ∀ x ∈ made, x.level ≤ limits.depth) ∧
    (m.budget = limits.nodes - made.length ∧ 0 ≤ m.budget ∧ ∀ p ∈ m.paid, 0 ≤ p.2) ∧
    (∀ extra, r.unfolding id limits.depth
      = (r.unfolding id (limits.depth + extra)).filter fun x => x.level ≤ limits.depth) ∧
    ∀ whole, r.ExpandsTo id whole → whole.height ≤ limits.depth →
      (r.unfolding id limits.depth).map Lookup.id = whole.ids := by
  intro o m made
  have H := r.metered_writeOut (Nat.zero_add (limits.depth + 1)) id (m := ⟨limits.nodes, []⟩) rfl
  have hmade : made = (r.unfolding id limits.depth).take limits.nodes := by
    change m.paid.map Prod.fst = _
    rw [show m = _ from H.meter, Meter.map_paid_payAll]
    rfl
  have hlength : made.length ≤ limits.nodes := by
    rw [hmade, List.length_take]
    exact Nat.min_le_left _ _
  have hbudget : m.budget = limits.nodes - made.length := by
    rw [hmade, show m = _ from H.meter, Meter.budget_payAll]
    rfl
  have hnonneg : 0 ≤ m.budget := by omega
  refine ⟨⟨H.same, ?_⟩, ⟨hmade, hlength, ?_⟩, ⟨hbudget, hnonneg, ?_⟩, ?_, ?_⟩
  · rw [hmade]
    exact H.ids
  · intro x hx
    rw [hmade] at hx
    have hbounds := level_bounds (List.mem_of_mem_take hx)
    omega
  · intro p hp
    rw [show m = _ from H.meter] at hp hnonneg
    rcases Meter.le_of_mem_paid hp with hp | hle
    · cases hp
    · omega
  · intro extra
    have hcut := r.filter_reach (limits.depth + 1) extra 0 id
    simp only [Nat.zero_add, Nat.lt_succ_iff] at hcut
    rw [unfolding, unfolding, Nat.add_right_comm, hcut]
  · intro whole hwhole hheight
    exact hwhole.map_reach (Nat.lt_succ_of_le hheight)

/-- A function over a pair of itself. The budget ends behind its parameters, before the result. -/
theorem lookups_bounded_function :
    let pair : View := { tag := .tuple, list := [⟨17⟩, ⟨17⟩] }
    let function : View := { tag := .function, type1 := some ⟨9⟩, list := [⟨17⟩, ⟨40⟩] }
    let r := (make {}).run [.intern pair.pack, .intern function.pack]
    let limits : Limits := { depth := 2, nodes := 5 }
    let m := (r.metered ⟨18⟩ limits).2
    let made := m.paid.map Prod.fst
    let int : Outline := .node ⟨9⟩ false (.basic .int)
    made = [⟨⟨18⟩, 0⟩, ⟨⟨17⟩, 1⟩, ⟨⟨17⟩, 2⟩, ⟨⟨17⟩, 2⟩, ⟨⟨40⟩, 1⟩] ∧
    made = (r.unfolding ⟨18⟩ limits.depth).take limits.nodes ∧
    (⟨⟨17⟩, 2⟩ ∈ made ∧ (Lookup.mk ⟨17⟩ 2).level ≤ limits.depth) ∧
    ((⟨⟨40⟩, 1⟩, 0) ∈ m.paid ∧ 0 ≤ ((⟨⟨40⟩, 1⟩, 0) : Lookup × Int).2) ∧
    (r.ExpandsTo ⟨9⟩ int ∧ int.height ≤ limits.depth) ∧
    (r.unfolding ⟨9⟩ limits.depth).map Lookup.id = int.ids := by
  intro pair function r limits m made int
  have H := lookups_bounded r ⟨18⟩ limits
  have hlookup : ⟨⟨17⟩, 2⟩ ∈ made := by decide +kernel
  have hpaid : (⟨⟨40⟩, 1⟩, 0) ∈ m.paid := by decide +kernel
  have hint : r.ExpandsTo ⟨9⟩ int := .node (by decide +kernel) (by simp [Shape.operands])
  have hheight : int.height ≤ limits.depth := by decide
  exact ⟨by decide +kernel, H.2.1.1, ⟨hlookup, H.2.1.2.2 _ hlookup⟩,
    ⟨hpaid, H.2.2.1.2.2 _ hpaid⟩, ⟨hint, hheight⟩,
    (lookups_bounded r ⟨9⟩ limits).2.2.2.2 int hint hheight⟩

end Registry

end TypeCodex
