import Mathlib

/-!
# Long division

The quotient of two numbers of a fixed width, bit by bit: the divisor is
aligned with the number, subtracted where it fits, and shifted back. A number
is taken at its value: the loops that compare, subtract and shift its words are
arithmetic modulo `2 ^ width` here.
-/

namespace KubuCore.Words

/-- One more than the place of the highest bit that is set, tried from `width` down. -/
def bits : Nat → Nat → Nat
  | 0, _ => 0
  | pos + 1, n => if n / 2 ^ pos % 2 = 1 then pos + 1 else bits pos n

/-- Subtract the divisor where it fits, from the bit below `rounds` down; `quotient` collects the
bits. -/
def divLoop : Nat → Nat → Nat → Nat → Nat
  | 0, _, _, quotient => quotient
  | shift + 1, num, div, quotient =>
    if div ≤ num then divLoop shift (num - div) (div / 2) (quotient ||| 2 ^ shift)
    else divLoop shift num (div / 2) quotient

/-- The quotient of numbers below `2 ^ width`, none by zero. -/
def divide (width num div : Nat) : Option Nat :=
  if bits width div = 0 then none
  else if bits width num < bits width div then some 0
  else
    let shift := bits width num - bits width div
    some (divLoop (shift + 1) num (div * 2 ^ shift % 2 ^ width) 0)

theorem bits_eq {width n : Nat} (fits : n < 2 ^ width) : bits width n = n.size := by
  induction width with
  | zero => simp_all [bits]
  | succ pos ih =>
    rcases lt_or_ge n (2 ^ pos) with hlow | hhigh
    · rw [bits, Nat.div_eq_of_lt hlow, if_neg (by decide), ih hlow]
    · have hpos := Nat.div_pos hhigh (by positivity)
      have hlt : n / 2 ^ pos < 2 := Nat.div_lt_of_lt_mul (by rwa [← pow_succ])
      rw [bits, if_pos (by omega)]
      exact le_antisymm (Nat.lt_size.mpr hhigh) (Nat.size_le.mpr fits)

/-- With the divisor aligned and less than two of it left, the bits that are still to come make up
the quotient. -/
theorem divLoop_eq {d : Nat} (pos : 0 < d) {rounds num : Nat} (small : num < d * 2 ^ rounds)
    (high : Nat) :
    divLoop rounds num (d * 2 ^ rounds / 2) (2 ^ rounds * high) = 2 ^ rounds * high + num / d := by
  induction rounds generalizing num high with
  | zero => simp [divLoop, Nat.div_eq_of_lt (by simpa using small)]
  | succ shift ih =>
    have hhalf : d * 2 ^ (shift + 1) / 2 = d * 2 ^ shift := by
      rw [pow_succ, ← mul_assoc, Nat.mul_div_cancel _ two_pos]
    have hbits : 2 ^ (shift + 1) * high = 2 ^ shift * (2 * high) := by ring
    rw [divLoop, hhalf]
    split_ifs with hfits
    · have hset : 2 ^ (shift + 1) * high ||| 2 ^ shift = 2 ^ shift * (2 * high + 1) := by
        rw [← Nat.two_pow_add_eq_or_of_lt (Nat.pow_lt_pow_right one_lt_two (Nat.lt_add_one shift))]
        ring
      rw [pow_succ, ← mul_assoc] at small
      have hquotient : num / d = (num - d * 2 ^ shift) / d + 2 ^ shift := by
        rw [← Nat.add_mul_div_left _ _ pos, Nat.sub_add_cancel hfits]
      rw [hset, ih (by omega) _, hquotient]
      ring
    · rw [hbits, ih (not_le.mp hfits) _]

theorem divide_eq {width num div : Nat} (pos : 0 < div) (fits : div < 2 ^ width)
    (numFits : num < 2 ^ width) : divide width num div = some (num / div) := by
  have hsize := Nat.size_pos.mpr pos
  rw [divide, bits_eq fits, bits_eq numFits, if_neg (by omega)]
  split
  · rename_i hless
    rw [Nat.div_eq_of_lt]
    by_contra hle
    exact absurd (Nat.size_le_size (not_lt.mp hle)) (not_le.mpr hless)
  · generalize hshift : num.size - div.size = shift
    have haligned : div * 2 ^ shift < 2 ^ width := by
      calc div * 2 ^ shift < 2 ^ div.size * 2 ^ shift :=
            Nat.mul_lt_mul_of_pos_right (Nat.lt_size_self div) (by positivity)
        _ = 2 ^ num.size := by
            rw [← pow_add]
            congr 1
            omega
        _ ≤ 2 ^ width := Nat.pow_le_pow_right two_pos (Nat.size_le.mpr numFits)
    have hsmall : num < div * 2 ^ (shift + 1) := by
      calc num < 2 ^ num.size := Nat.lt_size_self num
        _ ≤ 2 ^ (div.size - 1 + (shift + 1)) := Nat.pow_le_pow_right two_pos (by omega)
        _ = 2 ^ (div.size - 1) * 2 ^ (shift + 1) := pow_add ..
        _ ≤ div * 2 ^ (shift + 1) := Nat.mul_le_mul_right _ (Nat.lt_size.mp (by omega))
    have hloop := divLoop_eq pos hsmall 0
    rw [pow_succ, ← mul_assoc, Nat.mul_div_cancel _ two_pos, mul_zero, zero_add,
      ← Nat.mod_eq_of_lt haligned] at hloop
    rw [← hloop]

end KubuCore.Words
