import KubuCore.Base.Crc
import KubuCore.Wallet.Memo

/-!
# The checksum of memos

`ComputeCrc16Ccitt` works a byte at a time on the register of a cyclic
redundancy check, from the highest bit of each byte to the lowest. The checksum
is stored in the same order behind the data, so a whole payload brings the
register to 0, and a burst of at most 16 bits anywhere in it is noticed
(`burst_rejected`).
-/

namespace KubuCore.Wallet

open Crc

def crcPolynomial : BitVec 16 := 0x1021#16

/-- The bits of a byte, highest first. -/
def byteBits (value : UInt8) : List Bool := bitsOf value.toBitVec

def bytesBits (data : Bytes) : List Bool := data.flatMap byteBits

theorem length_byteBits (value : UInt8) : (byteBits value).length = 8 := by
  simp [byteBits, bitsOf]

theorem length_bytesBits (data : Bytes) : (bytesBits data).length = 8 * data.length := by
  simp [bytesBits, length_byteBits, mul_comm]

theorem byteBits_injective {a b : UInt8} (h : byteBits a = byteBits b) : a = b := by
  have hbits : ∀ i < 8, a.toBitVec.getMsbD i = b.toBitVec.getMsbD i := by
    intro i hi
    exact List.map_inj_left.mp h i (List.mem_range.mpr hi)
  exact UInt8.toBitVec_inj.mp (BitVec.eq_of_getMsbD_eq hbits)

theorem bytesBits_injective {a b : Bytes} (h : bytesBits a = bytesBits b) : a = b := by
  have hlen : a.length = b.length := by
    have := congrArg List.length h
    rw [length_bytesBits, length_bytesBits] at this
    omega
  induction a generalizing b with
  | nil => exact (List.eq_nil_of_length_eq_zero hlen.symm).symm
  | cons x a ih =>
    cases b with
    | nil => cases hlen
    | cons y b =>
      obtain ⟨hhead, htail⟩ := List.append_inj h (by rw [length_byteBits, length_byteBits])
      rw [byteBits_injective hhead, ih htail (Nat.succ.inj hlen)]

/-! ## The loop -/

theorem crcShift_eq_step (crc : BitVec 16) : crcShift crc = step crcPolynomial crc false := by
  have hbit : (crc &&& 0x8000#16 ≠ 0#16) ↔ (crc.msb ^^ false) = true := by
    have hpow : (0x8000#16 : BitVec 16) = BitVec.twoPow 16 15 := by decide
    rw [hpow, BitVec.and_twoPow, BitVec.msb_eq_getLsbD_last]
    cases crc.getLsbD 15 <;> simp
  exact if_congr hbit rfl rfl

theorem crcShift_iterate (n : Nat) (crc : BitVec 16) :
    crcShift^[n] crc = run crcPolynomial crc (List.replicate n false) := by
  induction n generalizing crc with
  | zero => rfl
  | succ n ih =>
    rw [Function.iterate_succ_apply, ih, crcShift_eq_step, List.replicate_succ, run_cons]

/-- Eight shifts of a byte at the high end are its eight bits fed to an empty register. -/
theorem run_high_byte (value : UInt8) :
    run crcPolynomial (value.toBitVec.setWidth 16 <<< 8) (List.replicate 8 false) =
      run crcPolynomial 0#16 (byteBits value) := by
  revert value
  decide +kernel

theorem crcByte_eq_run (crc : BitVec 16) (value : UInt8) :
    crcByte crc value = run crcPolynomial crc (byteBits value) := by
  rw [crcByte, crcShift_iterate, run_zeros_xor, run_high_byte, run_eq_xor crc (byteBits value),
    length_byteBits]

theorem foldl_crcByte (data : Bytes) (crc : BitVec 16) :
    data.foldl crcByte crc = run crcPolynomial crc (bytesBits data) := by
  induction data generalizing crc with
  | nil => rfl
  | cons value data ih =>
    rw [List.foldl_cons, ih, crcByte_eq_run]
    rfl

/-! ## Payloads -/

theorem bytesBits_crcBytes (crc : BitVec 16) : bytesBits (crcBytes crc) = bitsOf crc := by
  have hhigh : ∀ i < 8, ((crc >>> 8).setWidth 8).getMsbD i = crc.getMsbD i := by
    intro i hi
    rw [BitVec.getMsbD_eq_getLsbD, BitVec.getMsbD_eq_getLsbD]
    simp [hi, show 8 + (7 - i) = 15 - i by omega, show i < 16 by omega, show 7 - i < 8 by omega]
  have hlow : ∀ i < 8, (crc.setWidth 8).getMsbD i = crc.getMsbD (i + 8) := by
    intro i hi
    simp
  have hsplit : List.range 16 = List.range 8 ++ (List.range 8).map (· + 8) := by decide
  rw [bytesBits, crcBytes, List.flatMap_cons, List.flatMap_cons, List.flatMap_nil,
    bitsOf, hsplit, List.map_append]
  congr 1
  · exact List.map_congr_left fun i hi => hhigh i (List.mem_range.mp hi)
  · exact List.map_congr_left fun i hi => hlow i (List.mem_range.mp hi)

/-- A payload with its checksum brings the register to 0. -/
theorem run_withCrc (payload : Bytes) :
    run crcPolynomial 0xffff#16 (bytesBits (withCrc payload)) = 0#16 := by
  have happend : bytesBits (withCrc payload) =
      bytesBits payload ++ bytesBits (crcBytes (computeCrc16Ccitt payload)) := List.flatMap_append
  rw [happend, run_append, bytesBits_crcBytes, ← foldl_crcByte]
  exact run_self _

theorem run_build {data payload : Bytes} {type : NicknameMemoType}
    (h : buildNicknameMemoPayload data type = .ok payload) :
    run crcPolynomial 0xffff#16 (bytesBits payload) = 0#16 := by
  simp only [buildNicknameMemoPayload, Checked.bind_eq_ok, Checked.pure_eq_ok] at h
  obtain ⟨-, -, rfl⟩ := h
  exact run_withCrc _

/-- Another payload of the same length that differs in a window of 16 bits only is refused. -/
theorem burst_rejected {data payload other : Bytes} {type : NicknameMemoType}
    (h : buildNicknameMemoPayload data type = .ok payload) (hlen : other.length = payload.length)
    (hne : other ≠ payload) (start : Nat)
    (hwindow : ∀ j : Nat, (bytesBits payload)[j]? ≠ (bytesBits other)[j]? →
      start ≤ j ∧ j < start + 16) :
    ∃ reason, decodeNicknameMemoPayload other = .error reason := by
  cases hdecode : decodeNicknameMemoPayload other with
  | error reason => exact ⟨reason, rfl⟩
  | ok decoded =>
    have hother := run_build (decode_eq_ok_iff.mp hdecode).1
    have hbits : (bytesBits payload).length = (bytesBits other).length := by
      rw [length_bytesBits, length_bytesBits, hlen]
    have heq := eq_of_burst (by decide) hbits (run_build h) hother hwindow
    exact absurd (bytesBits_injective heq).symm hne

/-- The memo 42, and the same payload with the first digit changed to a 5. -/
def plainMemo : Bytes := withCrc (memoBody 1 [0x34, 0x32])

def damagedMemo : Bytes := plainMemo.set 8 0x35

theorem burst_rejected_damaged : ∃ reason, decodeNicknameMemoPayload damagedMemo = .error reason := by
  have hbuild : buildNicknameMemoPayload [0x34, 0x32] .numeric = .ok plainMemo := rfl
  refine burst_rejected hbuild (by decide +kernel) (by decide +kernel) 64 fun j hj => ?_
  have hsmall : ∀ j < 96, (bytesBits plainMemo)[j]? ≠ (bytesBits damagedMemo)[j]? →
      64 ≤ j ∧ j < 64 + 16 := by decide +kernel
  by_cases hlt : j < 96
  · exact hsmall j hlt hj
  · have hlen : (bytesBits plainMemo).length = 96 ∧ (bytesBits damagedMemo).length = 96 := by
      decide +kernel
    rw [List.getElem?_eq_none (by omega), List.getElem?_eq_none (by omega)] at hj
    exact absurd rfl hj

end KubuCore.Wallet
