import KubuCore.Primitives

/-!
# Compressed amounts

`CTxOutCompressor::CompressAmount` takes up to nine trailing zeros off an amount
and mixes their number with the last digit that is left; `DecompressAmount`
puts them back. On whole numbers the two are inverse to each other, and for
amounts in the money range nothing exceeds 64 bits.
-/

namespace KubuCore.Compressor

/-- The loop over trailing zeros, with the rounds that are left: the number without them, and how
many there were. -/
def stripZeros : Nat → Nat → Nat × Nat
  | 0, n => (n, 0)
  | left + 1, n =>
    if n % 10 = 0 then
      let stripped := stripZeros left (n / 10)
      (stripped.1, stripped.2 + 1)
    else (n, 0)

/-- The value of `CompressAmount` before it is cut to 64 bits: sums and products come last, so one
cut is the same as one after each of them. -/
def compressed (n : Nat) : Nat :=
  if n = 0 then 0
  else
    let (n, e) := stripZeros 9 n
    if e < 9 then
      let d := n % 10
      1 + (n / 10 * 9 + d - 1) * 10 + e
    else 1 + (n - 1) * 10 + 9

def compressAmount (nAmount : UInt64) : UInt64 := UInt64.ofNat (compressed nAmount.toNat)

/-- The value of `DecompressAmount` before it is cut to 64 bits. -/
def decompressed (x : Nat) : Nat :=
  if x = 0 then 0
  else
    let x := x - 1
    let e := x % 10
    let x := x / 10
    let n := if e < 9 then x / 9 * 10 + (x % 9 + 1) else x + 1
    (· * 10)^[e] n

def decompressAmount (nAmount : UInt64) : UInt64 := UInt64.ofNat (decompressed nAmount.toNat)

/-! ## Trailing zeros -/

theorem stripZeros_spec (left : Nat) {n : Nat} (pos : 0 < n) :
    n = (stripZeros left n).1 * 10 ^ (stripZeros left n).2 ∧ (stripZeros left n).2 ≤ left ∧
      ((stripZeros left n).2 < left → (stripZeros left n).1 % 10 ≠ 0) := by
  induction left generalizing n with
  | zero => simp [stripZeros]
  | succ left ih =>
    simp only [stripZeros]
    split
    · obtain ⟨hvalue, hle, hlast⟩ := ih (n := n / 10) (by omega)
      rw [pow_succ, ← mul_assoc, ← hvalue]
      omega
    · rename_i hlast
      exact ⟨by simp, Nat.zero_le _, fun _ => hlast⟩

theorem stripZeros_mul {left e n : Nat} (le : e ≤ left) (last : e < left → n % 10 ≠ 0) :
    stripZeros left (n * 10 ^ e) = (n, e) := by
  induction left generalizing e with
  | zero =>
    obtain rfl : e = 0 := by omega
    simp [stripZeros]
  | succ left ih =>
    cases e with
    | zero => simp [stripZeros, last (Nat.succ_pos left)]
    | succ e =>
      have htail := ih (Nat.le_of_succ_le_succ le) fun hlt => last (Nat.succ_lt_succ hlt)
      simp [stripZeros, pow_succ, ← mul_assoc, htail]

/-! ## The two encodings -/

/-- The number that stands for `n` zeros stripped `e` times. -/
def code (n e : Nat) : Nat :=
  if e < 9 then 1 + (n / 10 * 9 + n % 10 - 1) * 10 + e else 1 + (n - 1) * 10 + 9

section

variable {n e : Nat} (pos : 0 < n) (le : e ≤ 9) (last : e < 9 → n % 10 ≠ 0)
include pos le last

theorem compressed_mul : compressed (n * 10 ^ e) = code n e := by
  have hpos : n * 10 ^ e ≠ 0 := by positivity
  simp only [compressed, hpos, if_false, stripZeros_mul le last, code]

theorem decompressed_code : decompressed (code n e) = n * 10 ^ e := by
  have hcode : code n e ≠ 0 ∧ (code n e - 1) % 10 = e ∧
      (if e < 9 then (code n e - 1) / 10 / 9 * 10 + ((code n e - 1) / 10 % 9 + 1)
        else (code n e - 1) / 10 + 1) = n := by
    unfold code
    split
    · omega
    · omega
  simp only [decompressed, hcode.1, if_false, hcode.2.1, hcode.2.2, mul_right_iterate]

end

/-- Every code but zero is that of a number and the zeros behind it. -/
theorem exists_code {x : Nat} (pos : 0 < x) :
    ∃ n e, 0 < n ∧ e ≤ 9 ∧ (e < 9 → n % 10 ≠ 0) ∧ code n e = x := by
  by_cases he : (x - 1) % 10 < 9
  · refine ⟨(x - 1) / 10 / 9 * 10 + ((x - 1) / 10 % 9 + 1), (x - 1) % 10, by omega, by omega,
      by omega, ?_⟩
    simp only [code, he, if_true]
    omega
  · refine ⟨(x - 1) / 10 + 1, 9, by omega, le_rfl, fun h => absurd h (lt_irrefl 9), ?_⟩
    simp only [code, lt_irrefl, if_false]
    omega

theorem decompressed_compressed (n : Nat) : decompressed (compressed n) = n := by
  rcases Nat.eq_zero_or_pos n with rfl | pos
  · rfl
  · obtain ⟨hvalue, hle, hlast⟩ := stripZeros_spec 9 pos
    have hpos : 0 < (stripZeros 9 n).1 := by
      by_contra hzero
      rw [Nat.eq_zero_of_not_pos hzero] at hvalue
      omega
    rw [hvalue, compressed_mul hpos hle hlast, decompressed_code hpos hle hlast]

theorem compressed_decompressed (x : Nat) : compressed (decompressed x) = x := by
  rcases Nat.eq_zero_or_pos x with rfl | pos
  · rfl
  · obtain ⟨n, e, hpos, hle, hlast, rfl⟩ := exists_code pos
    rw [decompressed_code hpos hle hlast, compressed_mul hpos hle hlast]

theorem compressed_le (n : Nat) : compressed n ≤ 10 * n := by
  rcases Nat.eq_zero_or_pos n with rfl | pos
  · rfl
  · obtain ⟨hvalue, hle, hlast⟩ := stripZeros_spec 9 pos
    generalize stripZeros 9 n = stripped at hvalue hle hlast
    obtain ⟨q, e⟩ := stripped
    have hpow : e < 10 ^ e := Nat.lt_pow_self (by decide)
    have hpos : 0 < q := Nat.pos_of_ne_zero fun hzero => by simp [hzero] at hvalue; omega
    have hsum : q + e ≤ n := by nlinarith
    rw [hvalue, compressed_mul hpos hle hlast, code]
    split <;> omega

theorem compressAmount_toNat {nAmount : UInt64} (fits : compressed nAmount.toNat < 2 ^ 64) :
    (compressAmount nAmount).toNat = compressed nAmount.toNat := by
  rw [compressAmount, UInt64.toNat_ofNat', Nat.mod_eq_of_lt fits]

/-- An amount in the money range is compressed within 64 bits and comes back, and so does every code
whose amount has 64 bits. -/
theorem compressAmount_exact (n : UInt64) (money : moneyRange n.toNat) (x : UInt64)
    (fits : decompressed x.toNat < 2 ^ 64) :
    compressed n.toNat < 2 ^ 64 ∧ decompressAmount (compressAmount n) = n ∧
      compressAmount (decompressAmount x) = x := by
  have hn : n.toNat ≤ 80000000000000000 := by
    have hmax := of_decide_eq_true (Bool.and_eq_true_iff.mp money).2
    exact Int.ofNat_le.mp hmax
  have hfits : compressed n.toNat < 2 ^ 64 :=
    lt_of_le_of_lt (compressed_le n.toNat) (by omega)
  refine ⟨hfits, ?_, ?_⟩
  · rw [decompressAmount, compressAmount_toNat hfits, decompressed_compressed, UInt64.ofNat_toNat]
  · rw [compressAmount, decompressAmount, UInt64.toNat_ofNat', Nat.mod_eq_of_lt fits,
      compressed_decompressed, UInt64.ofNat_toNat]

theorem compressAmount_exact_coin :
    compressed 100000000 < 2 ^ 64 ∧ decompressAmount (compressAmount 100000000) = 100000000 ∧
      compressAmount (decompressAmount 9) = 9 :=
  compressAmount_exact 100000000 (by decide) 9 (by decide)

end KubuCore.Compressor
