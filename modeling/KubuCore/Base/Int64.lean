import Mathlib.Data.Int.ModEq

/-!
# Signed numbers of 64 bits

The range of an `int64_t`, and the sum of the machine, which wraps around.
-/

namespace KubuCore

/-- A value of `int64_t`. -/
def InInt64 (n : Int) : Prop := -2 ^ 63 ≤ n ∧ n < 2 ^ 63

instance (n : Int) : Decidable (InInt64 n) := inferInstanceAs (Decidable (_ ∧ _))

/-- The value that is left of a result in 64 bits. -/
def wrapInt64 (n : Int) : Int := (n + 2 ^ 63) % 2 ^ 64 - 2 ^ 63

variable {n : Int}

theorem wrapInt64_eq (h : InInt64 n) : wrapInt64 n = n := by
  rw [InInt64] at h
  rw [wrapInt64]
  omega

/-- A value that is not too large can only wrap upwards. -/
theorem le_wrapInt64 (h : n < 2 ^ 63) : n ≤ wrapInt64 n := by
  rw [wrapInt64]
  omega

theorem wrapInt64_le (h : -2 ^ 63 ≤ n) : wrapInt64 n ≤ n := by
  rw [wrapInt64]
  omega

theorem wrapInt64_modEq (n : Int) : wrapInt64 n ≡ n [ZMOD 2 ^ 64] := by
  have h := (Int.mod_modEq (n + 2 ^ 63) (2 ^ 64)).sub_right (2 ^ 63)
  rwa [Int.add_sub_cancel] at h

/-- A product is the same modulo `2 ^ 64` if a factor has wrapped. -/
theorem wrapInt64_mul (n k : Int) : wrapInt64 (wrapInt64 n * k) = wrapInt64 (n * k) := by
  have h := ((wrapInt64_modEq n).mul_right k).add_right (2 ^ 63)
  rw [wrapInt64, h, ← wrapInt64]

/-- A sum of two positive values that does not fit is negative. -/
theorem wrapInt64_neg (low : 2 ^ 63 ≤ n) (high : n < 2 ^ 64) : wrapInt64 n < 0 := by
  rw [wrapInt64]
  omega

end KubuCore
