import KubuCore.Nickname.Serialization

/-!
# SipHash

`CSipHasher` takes its input in pieces of bytes or, between words, in words of
eight bytes. `SipHashUint256` is the same hash of 32 bytes, written out.
-/

namespace KubuCore.Net

open Nickname (writeUint256)

structure SipState where
  v0 : UInt64
  v1 : UInt64
  v2 : UInt64
  v3 : UInt64

def rotl (x b : UInt64) : UInt64 := x <<< b ||| x >>> (64 - b)

def sipRound (s : SipState) : SipState :=
  let v0 := s.v0 + s.v1
  let v1 := rotl s.v1 13 ^^^ v0
  let v0 := rotl v0 32
  let v2 := s.v2 + s.v3
  let v3 := rotl s.v3 16 ^^^ v2
  let v0 := v0 + v3
  let v3 := rotl v3 21 ^^^ v0
  let v2 := v2 + v1
  let v1 := rotl v1 17 ^^^ v2
  let v2 := rotl v2 32
  ⟨v0, v1, v2, v3⟩

/-- The rounds for one word. -/
def compress (s : SipState) (data : UInt64) : SipState :=
  let s := sipRound (sipRound { s with v3 := s.v3 ^^^ data })
  { s with v0 := s.v0 ^^^ data }

def sipStart (k0 k1 : UInt64) : SipState :=
  ⟨0x736f6d6570736575 ^^^ k0, 0x646f72616e646f6d ^^^ k1, 0x6c7967656e657261 ^^^ k0,
    0x7465646279746573 ^^^ k1⟩

/-- Between words nothing is left in `tmp`. -/
structure CSipHasher where
  v : SipState
  tmp : UInt64
  count : Nat
  aligned : count % 8 = 0 → tmp = 0

/-- One of the two functions `Write` with its argument. -/
inductive SipWrite where
  | word (data : UInt64)
  | bytes (data : Bytes)

namespace CSipHasher

/-- The body of the loop over bytes, none if the count leaves the range of `int`. -/
def writeByte (h : CSipHasher) (b : UInt8) : Option CSipHasher :=
  let t := h.tmp ||| b.toUInt64 <<< UInt64.ofNat (8 * (h.count % 8))
  if h.count + 1 < 2 ^ 31 then
    if hc : (h.count + 1) % 8 = 0 then some ⟨compress h.v t, 0, h.count + 1, fun _ => rfl⟩
    else some ⟨h.v, t, h.count + 1, fun he => absurd he hc⟩
  else none

/-- `Write`. A word asserts that no byte waits in `tmp`. -/
def write (h : CSipHasher) : SipWrite → Option CSipHasher
  | .word data =>
    if h.count % 8 = 0 ∧ h.count + 8 < 2 ^ 31 then
      some ⟨compress h.v data, h.tmp, h.count + 8, fun he => h.aligned (by omega)⟩
    else none
  | .bytes data => data.foldlM writeByte h

def finalize (h : CSipHasher) : UInt64 :=
  let s := compress h.v (h.tmp ||| UInt64.ofNat h.count <<< 56)
  let s := sipRound (sipRound (sipRound (sipRound { s with v2 := s.v2 ^^^ 0xff })))
  s.v0 ^^^ s.v1 ^^^ s.v2 ^^^ s.v3

/-- The hash of what some calls of `Write` write. -/
def sipHash (k0 k1 : UInt64) (calls : List SipWrite) : Option UInt64 := do
  let h ← calls.foldlM write ⟨sipStart k0 k1, 0, 0, fun _ => rfl⟩
  return h.finalize

end CSipHasher

def getUint64 (data : Bytes) (pos : Nat) : UInt64 :=
  let ptr i := (data.getD (pos * 8 + i) 0).toUInt64
  ptr 0 ||| ptr 1 <<< 8 ||| ptr 2 <<< 16 ||| ptr 3 <<< 24 ||| ptr 4 <<< 32 ||| ptr 5 <<< 40 |||
    ptr 6 <<< 48 ||| ptr 7 <<< 56

def sipHashUint256 (k0 k1 : UInt64) (val : Uint256) : UInt64 :=
  let word := getUint64 (writeUint256 val)
  let s := sipStart k0 k1
  let s := sipRound (sipRound { s with v3 := s.v3 ^^^ word 0 })
  let s := sipRound (sipRound { s with v0 := s.v0 ^^^ word 0, v3 := s.v3 ^^^ word 1 })
  let s := sipRound (sipRound { s with v0 := s.v0 ^^^ word 1, v3 := s.v3 ^^^ word 2 })
  let s := sipRound (sipRound { s with v0 := s.v0 ^^^ word 2, v3 := s.v3 ^^^ word 3 })
  let s := sipRound (sipRound { s with v0 := s.v0 ^^^ word 3, v3 := s.v3 ^^^ (4 : UInt64) <<< 59 })
  let s := { s with v0 := s.v0 ^^^ (4 : UInt64) <<< 59, v2 := s.v2 ^^^ 0xff }
  let s := sipRound (sipRound (sipRound (sipRound s)))
  s.v0 ^^^ s.v1 ^^^ s.v2 ^^^ s.v3

/-- The bytes that a call writes after `count` bytes. A word may stand for the eight bytes that
spell it, if the count is a multiple of 8. -/
def Writes (count : Nat) : SipWrite → Bytes → Prop
  | .bytes data, s => s = data
  | .word data, s => count % 8 = 0 ∧ s.length = 8 ∧ data = getUint64 s 0

/-- Calls that write the bytes of a string, one call after the other. -/
inductive Spells : Nat → List SipWrite → Bytes → Prop
  | nil {count : Nat} : Spells count [] []
  | cons {count : Nat} {call : SipWrite} {calls : List SipWrite} {data rest : Bytes}
      (first : Writes count call data) (later : Spells (count + data.length) calls rest) :
      Spells count (call :: calls) (data ++ rest)

namespace CSipHasher

variable {h : CSipHasher} {data : Bytes}

theorem writeBytes_count (fits : h.count + data.length < 2 ^ 31) :
    ∃ h', data.foldlM writeByte h = some h' ∧ h'.count = h.count + data.length := by
  induction data generalizing h with
  | nil => exact ⟨h, rfl, rfl⟩
  | cons b data ih =>
    rw [List.length_cons] at fits
    obtain ⟨next, hnext, hcount⟩ :
        ∃ next, h.writeByte b = some next ∧ next.count = h.count + 1 := by
      rw [writeByte, if_pos (by omega)]
      split
      · exact ⟨_, rfl, rfl⟩
      · exact ⟨_, rfl, rfl⟩
    obtain ⟨h', hrest, hcount'⟩ := @ih next (by omega)
    refine ⟨h', by rw [List.foldlM_cons, hnext]; exact hrest, ?_⟩
    rw [hcount', List.length_cons]
    omega

theorem writeByte_low {v : SipState} {tmp : UInt64} {count : Nat}
    {aligned : count % 8 = 0 → tmp = 0} {b : UInt8} (low : (count + 1) % 8 ≠ 0)
    (fits : count + 1 < 2 ^ 31) :
    writeByte ⟨v, tmp, count, aligned⟩ b =
      some ⟨v, tmp ||| b.toUInt64 <<< UInt64.ofNat (8 * (count % 8)), count + 1,
        fun he => absurd he low⟩ := by
  rw [writeByte, if_pos fits, dif_neg low]

/-- A call does what its bytes do one by one: eight of them fill a word. -/
theorem write_eq {call : SipWrite} (writes : Writes h.count call data)
    (fits : h.count + data.length < 2 ^ 31) : h.write call = data.foldlM writeByte h := by
  cases call with
  | bytes s => rw [write, show data = s from writes]
  | word w =>
    obtain ⟨start, length, rfl⟩ := writes
    rw [length] at fits
    obtain ⟨v, tmp, count, aligned⟩ := h
    obtain rfl : tmp = 0 := aligned start
    obtain ⟨q, rfl⟩ := Nat.dvd_of_mod_eq_zero start
    rw [write, if_pos ⟨start, fits⟩]
    dsimp only at fits ⊢
    match data, length with
    | [b0, b1, b2, b3, b4, b5, b6, b7], _ =>
      simp (disch := omega) only [List.foldlM_cons, writeByte_low, Option.bind_eq_bind,
        Option.bind_some]
      rw [writeByte, if_pos (by dsimp only; omega)]
      simp [Nat.add_assoc, getUint64]

/-- However the bytes are written, the state is that of writing them one by one. -/
theorem foldlM_write {calls : List SipWrite} {s : Bytes} (spells : Spells h.count calls s)
    (fits : h.count + s.length < 2 ^ 31) :
    ∃ h', calls.foldlM write h = some h' ∧ s.foldlM writeByte h = some h' := by
  generalize hcount : h.count = count at spells
  induction spells generalizing h with
  | nil => exact ⟨h, rfl, rfl⟩
  | @cons _ call calls data rest first later ih =>
    rw [List.length_append] at fits
    obtain ⟨next, hnext, hcount'⟩ := @writeBytes_count h data (by omega)
    obtain ⟨h', hcalls, hrest⟩ := @ih next (by omega) (by omega)
    refine ⟨h', ?_, ?_⟩
    · rw [List.foldlM_cons, write_eq (hcount ▸ first) (by omega), hnext]
      exact hcalls
    · rw [List.foldlM_append, hnext]
      exact hrest

end CSipHasher

open CSipHasher

/-- The word at a place and then the rest. -/
theorem Spells.wordAt {calls : List SipWrite} {data : Bytes} {pos : Nat}
    (fits : (pos + 1) * 8 ≤ data.length)
    (later : Spells ((pos + 1) * 8) calls (data.drop ((pos + 1) * 8))) :
    Spells (pos * 8) (.word (getUint64 data pos) :: calls) (data.drop (pos * 8)) := by
  have hword : ((data.drop (pos * 8)).take 8).length = 8 := by
    rw [List.length_take, List.length_drop]
    omega
  have writes : Writes (pos * 8) (.word (getUint64 data pos)) ((data.drop (pos * 8)).take 8) :=
    ⟨Nat.mul_mod_left pos 8, hword, by simp [getUint64]⟩
  rw [← List.take_append_drop 8 (data.drop (pos * 8))]
  apply Spells.cons writes
  rwa [hword, List.drop_drop, ← Nat.succ_mul]

/-- A byte string has one hash, whatever the calls that write it, and the version for hashes is that
of their 32 bytes. -/
theorem sipHash_agree (k0 k1 : UInt64) :
    (∀ (calls : List SipWrite) (s : Bytes), Spells 0 calls s → s.length < 2 ^ 31 →
      ∃ value, sipHash k0 k1 calls = some value ∧ sipHash k0 k1 [.bytes s] = some value) ∧
    ∀ val, sipHash k0 k1 [.bytes (writeUint256 val)] = some (sipHashUint256 k0 k1 val) := by
  have agree : ∀ (calls : List SipWrite) (s : Bytes), Spells 0 calls s → s.length < 2 ^ 31 →
      ∃ value, sipHash k0 k1 calls = some value ∧ sipHash k0 k1 [.bytes s] = some value := by
    intro calls s spells fits
    obtain ⟨h', hcalls, hs⟩ :=
      @foldlM_write ⟨sipStart k0 k1, 0, 0, fun _ => rfl⟩ calls s spells (by simpa using fits)
    refine ⟨h'.finalize, by rw [sipHash, hcalls]; rfl, ?_⟩
    simp [sipHash, write, hs]
  refine ⟨agree, fun val => ?_⟩
  generalize hbytes : writeUint256 val = bytes
  have length : bytes.length = 32 := by rw [← hbytes, writeUint256, Script.writeLE_length]
  have hend : Spells ((3 + 1) * 8) [] (bytes.drop ((3 + 1) * 8)) := by
    rw [List.drop_of_length_le (by omega)]
    exact .nil
  have spells := Spells.wordAt (by omega) (.wordAt (by omega) (.wordAt (by omega)
    (.wordAt (by omega) hend)))
  obtain ⟨value, hcalls, hvalue⟩ := agree _ bytes spells (by omega)
  have hlast : (0 : UInt64) ||| UInt64.ofNat 32 <<< 56 = (4 : UInt64) <<< 59 := by decide
  rw [hvalue, ← hcalls]
  simp [sipHash, write]
  rw [finalize, hlast, sipHashUint256, hbytes]
  rfl

/-- A word and a byte. -/
theorem sipHash_agree_word :
    ∃ value, sipHash 0 1 [.word 0x0807060504030201, .bytes [9]] = some value ∧
      sipHash 0 1 [.bytes [1, 2, 3, 4, 5, 6, 7, 8, 9]] = some value := by
  have word : Writes 0 (.word 0x0807060504030201) [1, 2, 3, 4, 5, 6, 7, 8] :=
    ⟨rfl, rfl, by decide⟩
  exact (sipHash_agree 0 1).1 _ [1, 2, 3, 4, 5, 6, 7, 8, 9]
    (.cons word (@Spells.cons _ _ _ [9] _ rfl .nil)) (by decide)

end KubuCore.Net
