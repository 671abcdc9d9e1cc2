import Mathlib.Tactic.Linarith

namespace CLib

def wrap32 (x : Int) : Int := (x + 2^31) % 2^32 - 2^31

def wrap64 (x : Int) : Int := (x + 2^63) % 2^64 - 2^63

theorem wrap32_of_range {x : Int} (low : -2^31 ≤ x) (high : x < 2^31) : wrap32 x = x := by
  unfold wrap32
  omega

theorem wrap32_range (x : Int) : -2^31 ≤ wrap32 x ∧ wrap32 x < 2^31 := by
  unfold wrap32
  omega

theorem wrap32_add_wrap32 (x y : Int) : wrap32 (wrap32 x + y) = wrap32 (x + y) := by
  unfold wrap32
  omega

theorem wrap32_wrap32_mul_add (x y c : Int) : wrap32 (wrap32 x * c + y) = wrap32 (x * c + y) := by
  have multiple : wrap32 x = x - (x + 2^31) / 2^32 * 2^32 := by
    unfold wrap32
    omega
  rw [multiple, Int.sub_mul, Int.mul_right_comm]
  unfold wrap32
  omega

theorem wrap64_of_range {x : Int} (low : -2^63 ≤ x) (high : x < 2^63) : wrap64 x = x := by
  unfold wrap64
  omega

end CLib
