import Mathlib

/-!
# Variable-length integers

The base-128 numbering in which all digits but the last carry a continuation
bit and stand for one more than they show, highest digit first. Every
non-negative number has one encoding, and reading undoes writing whatever
follows in the stream (`readVarInt_writeVarInt`). A negative number is written
as its lowest seven bits, so it does not come back.
-/

namespace KubuCore.VarInt

/-- The digit `n` has here: the last one written is marked unless digits
follow it. -/
def digit (n : Int) (after : List UInt8) : UInt8 :=
  UInt8.ofNat ((n % 128).toNat + if after = [] then 0 else 128)

/-- Write `n` in front of the digits that follow it, in at most `fuel + 1`
digits. -/
def writeDigits : Nat → Int → List UInt8 → List UInt8
  | 0, n, after => digit n after :: after
  | fuel + 1, n, after =>
    if n ≤ 0x7f then digit n after :: after
    else writeDigits fuel (n / 128 - 1) (digit n after :: after)

/-- Ten digits are enough for 64 bits. -/
def writeVarInt (n : Int) : List UInt8 := writeDigits 9 n []

/-- Read on after digits worth `n`. -/
def readDigits (n : Int) : List UInt8 → Option (Int × List UInt8)
  | [] => none
  | chData :: rest =>
    let next := n * 128 + (chData.toNat % 128 : Nat)
    if 128 ≤ chData.toNat then readDigits (next + 1) rest else some (next, rest)

def readVarInt (stream : List UInt8) : Option (Int × List UInt8) := readDigits 0 stream

/-- Reading after `n` has been written and read: on to the digits that follow,
or done. -/
def readAfter (n : Int) (after rest : List UInt8) : Option (Int × List UInt8) :=
  if after = [] then some (n, rest) else readDigits (n + 1) (after ++ rest)

theorem readDigits_digit {m n : Int} {after rest : List UInt8} (h : m * 128 + n % 128 = n) :
    readDigits m (digit n after :: after ++ rest) = readAfter n after rest := by
  by_cases ha : after = []
  · subst ha
    have hd : (digit n []).toNat = (n % 128).toNat := by
      simp only [digit, if_true, UInt8.toNat_ofNat']
      omega
    have hlt : ¬ 128 ≤ (n % 128).toNat := by omega
    simp only [readDigits, List.cons_append, hd, if_neg hlt]
    congr 2
    omega
  · have hd : (digit n after).toNat = (n % 128).toNat + 128 := by
      simp only [digit, ha, if_false, UInt8.toNat_ofNat']
      omega
    have hle : 128 ≤ (n % 128).toNat + 128 := by omega
    simp only [readDigits, readAfter, List.cons_append, hd, if_pos hle, if_neg ha]
    congr 1
    omega

theorem readDigits_writeDigits {fuel : Nat} {n : Int} (after rest : List UInt8) (h0 : 0 ≤ n)
    (hfuel : n < 128 ^ (fuel + 1)) :
    readDigits 0 (writeDigits fuel n after ++ rest) = readAfter n after rest := by
  induction fuel generalizing n after with
  | zero => exact readDigits_digit (by omega)
  | succ fuel ih =>
    rw [writeDigits]
    split
    · exact readDigits_digit (by omega)
    · -- The digits written before `n` are those of `n / 128 - 1`.
      have hnext : n / 128 - 1 < 128 ^ (fuel + 1) := by omega
      rw [ih (digit n after :: after) (by omega) hnext, readAfter]
      exact readDigits_digit (by omega)

theorem readVarInt_writeVarInt {n : Int} (rest : List UInt8) (h0 : 0 ≤ n) (h : n < 2 ^ 64) :
    readVarInt (writeVarInt n ++ rest) = some (n, rest) :=
  readDigits_writeDigits [] rest h0 (by omega)

/-- Written in front of the digits, `m` less one gives the whole; nothing is in front when `m` is
zero. -/
def WritesTo (m : Int) (digits written : List UInt8) : Prop :=
  if m = 0 then written = digits
  else ∃ fuel, m - 1 < 128 ^ (fuel + 1) ∧ written = writeDigits fuel (m - 1) digits

/-- One digit of the writer, for the number the reader had before that digit. -/
theorem writesTo_digit {m n : Int} {b : UInt8} {after : List UInt8} {fuel : Nat} (h0 : 0 ≤ m)
    (hn : m * 128 + (b.toNat % 128 : Nat) = n) (ha : after = [] ↔ b.toNat < 128)
    (hfuel : n < 128 ^ (fuel + 1)) : WritesTo m (b :: after) (writeDigits fuel n after) := by
  have hdigit : digit n after = b := by
    have hb : b.toNat % 128 + (if after = [] then 0 else 128) = b.toNat := by
      have := b.toNat_lt
      simp only [ha]
      split <;> omega
    rw [digit, show (n % 128).toNat = b.toNat % 128 by omega, hb, UInt8.ofNat_toNat]
  rw [WritesTo]
  cases fuel with
  | zero => rw [if_pos (by omega), writeDigits, hdigit]
  | succ fuel =>
    rw [writeDigits, hdigit]
    split
    · rw [if_pos (by omega)]
    · rw [if_neg (by omega), show n / 128 = m by omega]
      exact ⟨fuel, by omega, rfl⟩

/-- Writing the number that was read gives back the digits read. -/
theorem writesTo_readDigits {m n : Int} {stream rest : List UInt8} {fuel : Nat} (h0 : 0 ≤ m)
    (h : readDigits m stream = some (n, rest)) (hfuel : n < 128 ^ (fuel + 1)) :
    ∃ digits, digits ≠ [] ∧ stream = digits ++ rest ∧ WritesTo m digits (writeDigits fuel n []) := by
  induction stream generalizing m with
  | nil => cases h
  | cons b stream ih =>
    rw [readDigits] at h
    split at h
    · obtain ⟨digits, hne, rfl, hwrites⟩ := ih (by omega) h
      rw [WritesTo, if_neg (by omega), Int.add_sub_cancel] at hwrites
      obtain ⟨fuel', hfuel', hwrites⟩ := hwrites
      refine ⟨b :: digits, by simp, rfl, ?_⟩
      rw [hwrites]
      exact writesTo_digit h0 rfl (iff_of_false hne (by omega)) hfuel'
    · obtain ⟨hn, rfl⟩ := Prod.mk.inj (Option.some.inj h)
      exact ⟨[b], by simp, rfl, writesTo_digit h0 hn (iff_of_true rfl (by omega)) hfuel⟩

theorem readDigits_nonneg {m n : Int} {stream rest : List UInt8} (h0 : 0 ≤ m)
    (h : readDigits m stream = some (n, rest)) : 0 ≤ n := by
  induction stream generalizing m with
  | nil => cases h
  | cons b stream ih =>
    rw [readDigits] at h
    split at h
    · exact ih (by omega) h
    · cases h
      omega

theorem eq_writeVarInt_of_readVarInt {n : Int} {stream rest : List UInt8}
    (h : readVarInt stream = some (n, rest)) (hn : n < 2 ^ 64) : stream = writeVarInt n ++ rest := by
  have hfuel : n < 128 ^ (9 + 1) := by omega
  obtain ⟨digits, -, rfl, hwrites⟩ := writesTo_readDigits (Int.le_refl 0) h hfuel
  rw [writeVarInt, hwrites]

/-- The reader at a type of so many bits: what the shift pushes out is lost. -/
def readWord (bits : Nat) (n : Int) : List UInt8 → Option (Int × List UInt8)
  | [] => none
  | chData :: rest =>
    let next := (n * 128 + (chData.toNat % 128 : Nat)) % 2 ^ bits
    if 128 ≤ chData.toNat then readWord bits ((next + 1) % 2 ^ bits) rest else some (next, rest)

theorem readWord_eq (bits : Nat) (m : Int) (stream : List UInt8) :
    readWord bits (m % 2 ^ bits) stream =
      (readDigits m stream).map fun read => (read.1 % 2 ^ bits, read.2) := by
  induction stream generalizing m with
  | nil => rfl
  | cons b stream ih =>
    have hnext : (m % 2 ^ bits * 128 + (b.toNat % 128 : Nat)) % 2 ^ bits =
        (m * 128 + (b.toNat % 128 : Nat)) % 2 ^ bits := by
      simp only [Int.add_emod, Int.mul_emod, Int.emod_emod]
    rw [readWord, readDigits, hnext]
    split
    · rw [Int.emod_add_emod, ih]
    · rfl

example : writeVarInt 65535 = [0x82, 0xfe, 0x7f] := by decide

end KubuCore.VarInt
