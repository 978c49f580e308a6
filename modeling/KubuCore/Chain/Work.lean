import KubuCore.AuxPow.Check
import KubuCore.Base.Words

/-!
# Chain work

`GetBlockProof` is the number of hashes that a target is expected to cost. It
avoids the power 2^256, which has no place in 256 bits. The eight words of a
`base_uint` are one number below it; its division goes bit by bit as in the source.
-/

namespace KubuCore.Chain

open AuxPow (setCompact)
open Words

/-- `GetBlockProof` of a block with the given `nBits`, none if the division throws. -/
def getBlockProof (nBits : UInt32) : Option Nat := do
  let (bnTarget, fNegative, fOverflow) := setCompact nBits.toNat
  if fNegative || fOverflow || bnTarget == 0 then return 0
  let quotient ← divide 256 (2 ^ 256 - 1 - bnTarget) ((bnTarget + 1) % 2 ^ 256)
  return (quotient + 1) % 2 ^ 256

/-- The highest target is not encoded: a shifted mantissa ends in zero bits. -/
theorem setCompact_lt (nCompact : Nat) : (setCompact nCompact).1 + 1 < 2 ^ 256 := by
  simp only [setCompact]
  generalize hword : nCompact % 2 ^ 23 = nWord
  split
  · have hle := Nat.div_le_self nWord (2 ^ (8 * (3 - nCompact / 2 ^ 24)))
    omega
  · have heven : 2 ∣ nWord * 2 ^ (8 * (nCompact / 2 ^ 24 - 3)) % 2 ^ 256 := by
      refine (Nat.dvd_mod_iff (by decide)).mpr (Dvd.dvd.mul_left (dvd_pow_self 2 ?_) _)
      omega
    omega

/-- No step of the computation wraps around. -/
theorem getBlockProof_eq {nBits : UInt32} {t : Nat}
    (decodes : setCompact nBits.toNat = (t, false, false)) (pos : t ≠ 0) :
    t + 1 < 2 ^ 256 ∧ (2 ^ 256 - 1 - t) / (t + 1) + 1 < 2 ^ 256 ∧
      getBlockProof nBits = some (2 ^ 256 / (t + 1)) := by
  have hlt := setCompact_lt nBits.toNat
  rw [decodes] at hlt
  have hquotient := Nat.div_le_self (2 ^ 256 - 1 - t) (t + 1)
  have hproof : (2 ^ 256 - 1 - t) / (t + 1) + 1 = 2 ^ 256 / (t + 1) := by
    rw [Nat.div_eq_sub_div (Nat.succ_pos t) hlt.le, Nat.sub_sub, Nat.add_comm 1 t]
  have hwrap : (2 ^ 256 - 1 - t) / (t + 1) + 1 < 2 ^ 256 := by omega
  refine ⟨hlt, hwrap, ?_⟩
  have hdivide : divide 256 (2 ^ 256 - 1 - t) (t + 1) = some ((2 ^ 256 - 1 - t) / (t + 1)) :=
    divide_eq (Nat.succ_pos t) hlt (by omega)
  have hzero : (t == 0) = false := beq_eq_false_iff_ne.mpr pos
  simp only [getBlockProof, decodes, hzero, Nat.mod_eq_of_lt hlt, hdivide]
  rw [← hproof]
  exact congrArg some (Nat.mod_eq_of_lt hwrap)

/-- The division is exact, so the work of a block is the expected number of hashes: it is found
without wrap-around, at least one, and no greater for a greater target. -/
theorem blockProof_exact :
    (∀ a b : Nat, a < 2 ^ 256 → b < 2 ^ 256 → b ≠ 0 → divide 256 a b = some (a / b)) ∧
    ∀ (nBits : UInt32) (t : Nat), setCompact nBits.toNat = (t, false, false) → t ≠ 0 →
      t + 1 < 2 ^ 256 ∧ (2 ^ 256 - 1 - t) / (t + 1) + 1 < 2 ^ 256 ∧
      getBlockProof nBits = some (2 ^ 256 / (t + 1)) ∧ 1 ≤ 2 ^ 256 / (t + 1) ∧
      ∀ (easier : UInt32) (t' : Nat), setCompact easier.toNat = (t', false, false) → t ≤ t' →
        ∃ work, getBlockProof easier = some work ∧ work ≤ 2 ^ 256 / (t + 1) := by
  refine ⟨fun a b ha hb pos => divide_eq (Nat.pos_of_ne_zero pos) hb ha, ?_⟩
  intro nBits t decodes pos
  obtain ⟨hlt, hwrap, hproof⟩ := getBlockProof_eq decodes pos
  refine ⟨hlt, hwrap, hproof, Nat.div_pos hlt.le (Nat.succ_pos t), ?_⟩
  intro easier t' decodes' hle
  obtain ⟨-, -, hproof'⟩ := getBlockProof_eq decodes' (by omega)
  exact ⟨_, hproof', Nat.div_le_div_left (by omega) (Nat.succ_pos t)⟩

/-- The limit of the main network and a harder target. -/
theorem blockProof_exact_limit :
    getBlockProof 0x1e0fffff = some 1048577 ∧
      ∃ work, getBlockProof 0x1e0fffff = some work ∧ work ≤ 2 ^ 256 / (0xffff * 2 ^ 208 + 1) := by
  have hlimit : setCompact (0x1e0fffff : UInt32).toNat = (0xfffff * 2 ^ 216, false, false) := by
    decide +kernel
  have hharder := blockProof_exact.2 0x1d00ffff (0xffff * 2 ^ 208) (by decide +kernel) (by decide)
  exact ⟨(blockProof_exact.2 _ _ hlimit (by decide)).2.2.1, hharder.2.2.2.2 _ _ hlimit (by decide)⟩

end KubuCore.Chain
