import Mathlib.Order.Lattice

/-- The comparisons of a floating-point type: a linear order, and values (NaN) for which every comparison is false. -/
class FloatOrder (F : Type*) [LT F] [LE F] : Prop where
  le_trans : ∀ {a b c : F}, a ≤ b → b ≤ c → a ≤ c
  ordered : ∀ {a b : F}, a ≤ b → a ≤ a ∧ b ≤ b
  total : ∀ {a b : F}, a ≤ a → b ≤ b → a ≤ b ∨ b ≤ a
  lt_iff : ∀ {a b : F}, a < b ↔ a ≤ b ∧ ¬ b ≤ a

instance {F : Type*} [LinearOrder F] : FloatOrder F where
  le_trans := Preorder.le_trans _ _ _
  ordered _ := ⟨le_rfl, le_rfl⟩
  total _ _ := le_total _ _
  lt_iff := lt_iff_le_not_ge

namespace FloatOrder

variable {F : Type*} [LT F] [LE F] [FloatOrder F] {a b c : F}

theorem irrefl (a : F) : ¬ a < a := fun less => (lt_iff.mp less).2 (lt_iff.mp less).1

theorem trans (first : a < b) (second : b < c) : a < c := by
  rw [lt_iff] at first second ⊢
  exact ⟨le_trans first.1 second.1, fun back => first.2 (le_trans second.1 back)⟩

theorem lt_of_lt_of_le (first : a < b) (second : b ≤ c) : a < c := by
  rw [lt_iff] at first ⊢
  exact ⟨le_trans first.1 second, fun back => first.2 (le_trans second back)⟩

theorem lt_of_le_of_lt (first : a ≤ b) (second : b < c) : a < c := by
  rw [lt_iff] at second ⊢
  exact ⟨le_trans first second.1, fun back => second.2 (le_trans back first)⟩

theorem not_lt_of_le (le : a ≤ b) : ¬ b < a := fun less => (lt_iff.mp less).2 le

theorem ordered_of_lt (less : a < b) : b ≤ b := (ordered (lt_iff.mp less).1).2

theorem le_of_not_lt (left : a ≤ a) (right : b ≤ b) (above : ¬ a < b) : b ≤ a := by
  rcases total left right with le | le
  · by_contra back
    exact above (lt_iff.mpr ⟨le, back⟩)
  · exact le

theorem lt_of_not_le (left : a ≤ a) (right : b ≤ b) (above : ¬ a ≤ b) : b < a :=
  lt_iff.mpr ⟨(total left right).resolve_left above, above⟩

end FloatOrder
