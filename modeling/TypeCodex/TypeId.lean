/-!
# Type identifiers

An identifier is a 32-bit word. Zero means "no type"; registered types are
numbered from one.
-/

namespace TypeCodex

/-- The number under which a type is registered. -/
structure TypeId where
  raw : UInt32
  deriving DecidableEq

namespace TypeId

/-- The identifier that no type ever has. -/
def invalid : TypeId := ⟨0⟩

instance : Inhabited TypeId := ⟨invalid⟩

instance : LT TypeId := ⟨fun a b => a.raw < b.raw⟩

instance (a b : TypeId) : Decidable (a < b) :=
  inferInstanceAs (Decidable (a.raw < b.raw))

/-- The position that an identifier stands for. -/
def index (id : TypeId) : Nat := id.raw.toNat

/-- An identifier is written with a leading number sign. -/
def text (id : TypeId) : String := "#" ++ toString id.raw.toNat

theorem lt_iff (a b : TypeId) : a < b ↔ a.index < b.index := UInt32.lt_iff_toNat_lt

theorem index_injective {a b : TypeId} (h : a.index = b.index) : a = b := by
  cases a; cases b; exact congrArg TypeId.mk (UInt32.toNat_inj.1 h)

@[simp] theorem index_eq_zero {a : TypeId} : a.index = 0 ↔ a = invalid :=
  ⟨fun h => index_injective (h.trans rfl), fun h => h ▸ rfl⟩

theorem one_le_index {a : TypeId} : 1 ≤ a.index ↔ a ≠ invalid := by
  rw [Nat.one_le_iff_ne_zero, Ne, index_eq_zero]

end TypeId

end TypeCodex
