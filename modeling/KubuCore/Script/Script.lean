import KubuCore.Primitives

/-!
# Serialized scripts

Reading and writing the byte strings of `script/script.h`.
-/

namespace KubuCore.Script

def op0 : UInt8 := 0x00
def opPushData1 : UInt8 := 0x4c
def opPushData2 : UInt8 := 0x4d
def opPushData4 : UInt8 := 0x4e
def op1Negate : UInt8 := 0x4f
def op1 : UInt8 := 0x51
def op16 : UInt8 := 0x60
def opReturn : UInt8 := 0x6a
def opDup : UInt8 := 0x76
def opEqual : UInt8 := 0x87
def opEqualVerify : UInt8 := 0x88
def opHash160 : UInt8 := 0xa9
def opCheckSig : UInt8 := 0xac
def opCheckMultiSig : UInt8 := 0xae
def opSmallInteger : UInt8 := 0xfa
def opPubKeys : UInt8 := 0xfb
def opPubKeyHash : UInt8 := 0xfd
def opPubKey : UInt8 := 0xfe
def opInvalidOpcode : UInt8 := 0xff

def maxScriptSize : Nat := 10000

def readLE : Bytes → Nat
  | [] => 0
  | b :: bs => b.toNat + 256 * readLE bs

/-- `WriteLE16` and `WriteLE32`: the `k` low bytes of `n`, lowest first. -/
def writeLE : Nat → Nat → Bytes
  | 0, _ => []
  | k + 1, n => UInt8.ofNat n :: writeLE k (n / 256)

/-- The part of `GetOp2` that reads an immediate operand of `nSize` bytes. -/
def getOperand (opcode : UInt8) (nSize : Nat) (rest : Bytes) : Option (UInt8 × Bytes × Bytes) :=
  if rest.length < nSize then none
  else some (opcode, rest.take nSize, rest.drop nSize)

/-- `CScript::GetOp`: the opcode at the head of the script, the bytes it
pushes, and what follows it. -/
def getOp (script : CScript) : Option (UInt8 × Bytes × CScript) :=
  match script with
  | [] => none
  | opcode :: rest =>
    if opcode ≤ opPushData4 then
      if opcode < opPushData1 then getOperand opcode opcode.toNat rest
      else
        let width := if opcode = opPushData1 then 1 else if opcode = opPushData2 then 2 else 4
        if rest.length < width then none
        else getOperand opcode (readLE (rest.take width)) (rest.drop width)
    else some (opcode, [], rest)

/-- `CScript() << data` for a byte vector. -/
def pushBytes (b : Bytes) : CScript :=
  if b.length < opPushData1.toNat then UInt8.ofNat b.length :: b
  else if b.length ≤ 0xff then opPushData1 :: UInt8.ofNat b.length :: b
  else if b.length ≤ 0xffff then opPushData2 :: (writeLE 2 b.length ++ b)
  else opPushData4 :: (writeLE 4 b.length ++ b)

def isPayToScriptHash (script : CScript) : Bool :=
  script.length == 23 && script[0]? == some opHash160 && script[1]? == some 0x14 &&
    script[22]? == some opEqual

/-- `CScript::IsWitnessProgram`, with the version and the program. -/
def isWitnessProgram (script : CScript) : Option (Nat × Bytes) :=
  match script with
  | v :: len :: program =>
    if script.length < 4 ∨ 42 < script.length then none
    else if v ≠ op0 ∧ (v < op1 ∨ op16 < v) then none
    else if len.toNat + 2 = script.length then
      some (if v = op0 then 0 else v.toNat - (op1.toNat - 1), program)
    else none
  | _ => none

/-- `CScript::IsPushOnly`. Every step consumes a byte, so the length of the
script is fuel enough. -/
def isPushOnlyFuel : Nat → CScript → Bool
  | _, [] => true
  | 0, _ => false
  | fuel + 1, script =>
    match getOp script with
    | none => false
    | some (opcode, _, rest) => !(op16 < opcode) && isPushOnlyFuel fuel rest

def isPushOnly (script : CScript) : Bool := isPushOnlyFuel script.length script

def isUnspendable (script : CScript) : Bool :=
  script.head? == some opReturn || maxScriptSize < script.length

/-! ## Reading operations -/

theorem readLE_writeLE (k n : Nat) (h : n < 256 ^ k) : readLE (writeLE k n) = n := by
  induction k generalizing n with
  | zero =>
    have : n = 0 := by simpa using h
    simp [writeLE, readLE, this]
  | succ k ih =>
    rw [writeLE, readLE, ih (n / 256) (by omega), UInt8.toNat_ofNat']
    omega

theorem writeLE_length (k n : Nat) : (writeLE k n).length = k := by
  induction k generalizing n with
  | zero => rfl
  | succ k ih => simp [writeLE, ih]

section

variable {opcode : UInt8} {data : Bytes} {script rest : CScript}

/-- An operation is an opcode, at most four bytes of length and its data. Only a push has data. -/
theorem getOp_cases (h : getOp script = some (opcode, data, rest)) :
    ∃ size : Bytes, script = opcode :: (size ++ (data ++ rest)) ∧ size.length ≤ 4 ∧
      (opPushData4 < opcode → size = [] ∧ data = []) := by
  have hoperand : ∀ {b : UInt8} {n : Nat} {bytes : Bytes},
      getOperand b n bytes = some (opcode, data, rest) → b = opcode ∧ bytes = data ++ rest := by
    intro b n bytes h
    rw [getOperand] at h
    split at h
    · cases h
    · cases h
      exact ⟨rfl, (List.take_append_drop n bytes).symm⟩
  cases script with
  | nil => cases h
  | cons b bytes =>
    rw [getOp] at h
    split at h
    · rename_i hlow
      split at h
      · obtain ⟨rfl, rfl⟩ := hoperand h
        exact ⟨[], rfl, by simp, fun high => absurd hlow (UInt8.not_le.mpr high)⟩
      · dsimp only at h
        have hwidth : (if b = opPushData1 then 1 else if b = opPushData2 then 2 else 4) ≤ 4 := by
          split
          · decide
          · split <;> decide
        generalize (if b = opPushData1 then 1 else if b = opPushData2 then 2 else 4) = width
          at h hwidth
        split at h
        · cases h
        · obtain ⟨rfl, hbytes⟩ := hoperand h
          refine ⟨bytes.take width, ?_, (List.length_take_le _ _).trans hwidth,
            fun high => absurd hlow (UInt8.not_le.mpr high)⟩
          rw [← hbytes, List.take_append_drop]
    · cases h
      exact ⟨[], rfl, by simp, fun _ => ⟨rfl, rfl⟩⟩

theorem getOp_suffix (h : getOp script = some (opcode, data, rest)) :
    rest <:+ script ∧ script.length ≤ data.length + rest.length + 5 ∧
      (opPushData4 < opcode → data = []) := by
  obtain ⟨size, rfl, hsize, hhigh⟩ := getOp_cases h
  refine ⟨⟨opcode :: (size ++ data), by simp⟩, ?_, fun high => (hhigh high).2⟩
  simp only [List.length_cons, List.length_append]
  omega

theorem length_getOp (h : getOp script = some (opcode, data, rest)) :
    rest.length < script.length := by
  obtain ⟨size, rfl, -⟩ := getOp_cases h
  simp only [List.length_cons, List.length_append]
  omega

theorem getOp_high (h : getOp script = some (opcode, data, rest)) (high : opPushData4 < opcode) :
    script = opcode :: rest := by
  obtain ⟨size, rfl, -, hhigh⟩ := getOp_cases h
  obtain ⟨rfl, rfl⟩ := hhigh high
  rfl

theorem getOp_op (high : opPushData4 < opcode) :
    getOp (opcode :: rest) = some (opcode, [], rest) := by
  rw [getOp, if_neg (UInt8.not_le.mpr high)]

theorem high_of_number (lo : op1 ≤ opcode) : opPushData4 < opcode :=
  UInt8.lt_of_lt_of_le (by decide) lo

theorem opcode_of_short (short : data.length < opPushData1.toNat) :
    UInt8.ofNat data.length ≤ opPushData4 := by
  have hlen : data.length < 76 := short
  have hto : (UInt8.ofNat data.length).toNat = data.length := Nat.mod_eq_of_lt (by omega)
  rw [UInt8.le_iff_toNat_le, hto]
  exact Nat.le_of_lt (Nat.lt_of_lt_of_le hlen (by decide))

end

/-- Reading back a short push gives the bytes pushed. -/
theorem getOp_pushBytes_append {b : Bytes} (h : b.length < opPushData1.toNat) (rest : CScript) :
    getOp (pushBytes b ++ rest) = some (UInt8.ofNat b.length, b, rest) := by
  have hlen : b.length < 76 := h
  have hto : (UInt8.ofNat b.length).toNat = b.length := Nat.mod_eq_of_lt (by omega)
  have hlt : UInt8.ofNat b.length < opPushData1 := by
    rw [UInt8.lt_iff_toNat_lt, hto]
    exact h
  simp only [pushBytes, h, if_true, List.cons_append, getOp, opcode_of_short h, hlt, getOperand, hto,
    List.length_append]
  rw [if_neg (by omega), List.take_left, List.drop_left]

end KubuCore.Script
