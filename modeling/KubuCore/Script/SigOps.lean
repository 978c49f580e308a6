import KubuCore.Script.SoftForks

/-!
# Counting signature operations

`CScript::GetSigOpCount` reads the number of signature checks off the bytes of
a script. Here the interpreter counts the calls of `CheckSig` it makes, and the
count is compared with what the bytes announce.
-/

namespace KubuCore.Script

open Checked

def opCheckSigVerify : UInt8 := 0xad
def opCheckMultiSigVerify : UInt8 := 0xaf

/-! ## The static count -/

/-- `CScript::DecodeOP_N`, for `OP_0` and `OP_1` to `OP_16`. -/
def decodeOpN (opcode : UInt8) : Nat :=
  if opcode = op0 then 0 else opcode.toNat - (op1.toNat - 1)

/-- What one operation adds to the count, given the one before it. -/
def sigOps (fAccurate : Bool) (lastOpcode opcode : UInt8) : Nat :=
  if opcode = opCheckSig ∨ opcode = opCheckSigVerify then 1
  else if opcode = opCheckMultiSig ∨ opcode = opCheckMultiSigVerify then
    if fAccurate ∧ op1 ≤ lastOpcode ∧ lastOpcode ≤ op16 then decodeOpN lastOpcode
    else maxPubKeysPerMultisig.toNat
  else 0

/-- The loop of `GetSigOpCount`, which stops where no operation can be read. -/
def sigOpCountFuel (fAccurate : Bool) : Nat → UInt8 → CScript → Nat
  | 0, _, _ => 0
  | fuel + 1, lastOpcode, script =>
    match getOp script with
    | none => 0
    | some (opcode, _, rest) =>
      sigOps fAccurate lastOpcode opcode + sigOpCountFuel fAccurate fuel opcode rest

/-- `CScript::GetSigOpCount(bool fAccurate)`. The source counts in `unsigned int`, which a script
below `2 ^ 32 / 20` bytes does not exceed (`getSigOpCount_le_length`). -/
def getSigOpCount (script : CScript) (fAccurate : Bool) : Nat :=
  sigOpCountFuel fAccurate script.length opInvalidOpcode script

/-- The data of the last operation of a script that only pushes. -/
def lastPushFuel : Nat → Bytes → CScript → Option Bytes
  | _, data, [] => some data
  | 0, _, _ :: _ => none
  | fuel + 1, _, script =>
    match getOp script with
    | none => none
    | some (opcode, data, rest) => if op16 < opcode then none else lastPushFuel fuel data rest

/-- `CScript::GetSigOpCount(const CScript& scriptSig)`. -/
def getSigOpCountWith (scriptPubKey scriptSig : CScript) : Nat :=
  if isPayToScriptHash scriptPubKey then
    match lastPushFuel scriptSig.length [] scriptSig with
    | none => 0
    | some data => getSigOpCount data true
  else getSigOpCount scriptPubKey true

/-! ## The counter changes nothing -/

section Erasure

open Metered

variable (ctx : Context)

theorem result_execCheckSig (verify : Bool) (m : Machine) :
    result (execCheckSig ctx verify m) = execCheckSig ctx verify m := by
  unfold execCheckSig
  rcases m.stack with _ | ⟨key, _ | ⟨vchSig, s⟩⟩
  · rfl
  · rfl
  · simp only [result_bind, result_check, result_call, apply_ite result, result_pure,
      check_except, call_except, pure_bind]

theorem result_multiSigLoop (scriptCode : CScript) (verified keys sigs : List Bytes) :
    result (multiSigLoop ctx scriptCode verified keys sigs) =
      multiSigLoop ctx scriptCode verified keys sigs := by
  induction keys generalizing verified sigs with
  | nil => cases sigs <;> rfl
  | cons key keys ih =>
    cases sigs with
    | nil => rfl
    | cons vchSig sigs =>
      simp only [multiSigLoop, result_bind, apply_ite result, ih]
      rfl

theorem result_execCheckMultiSig (verify : Bool) (m : Machine) :
    result (execCheckMultiSig ctx verify m) = execCheckMultiSig ctx verify m := by
  unfold execCheckMultiSig
  cases m.stack with
  | nil => rfl
  | cons keysCount s =>
    simp only [result_bind]
    congr 1
    funext nKeysCount
    congr 1
    funext _
    congr 1
    funext _
    cases s.drop nKeysCount.toNat with
    | nil => rfl
    | cons sigsCount s =>
      simp only [result_bind, result_multiSigLoop]
      congr 1
      funext nSigsCount
      cases s.drop nSigsCount.toNat with
      | nil => rfl
      | cons dummy s =>
        simp only [result_bind, result_check, apply_ite result, result_pure, check_except]

theorem result_execOp (op : Opcode) (fExec : Bool) (rest : CScript) (m : Machine) :
    result (execOp ctx op fExec rest m) = execOp ctx op fExec rest m := by
  cases op with
  | checkSig verify => exact result_execCheckSig ctx verify m
  | checkMultiSig verify => exact result_execCheckMultiSig ctx verify m
  | upgradableNop => exact result_bind _ _
  | els | endIf | verify | toAltStack | fromAltStack | stack _ | hash _ =>
    simp only [execOp]
    split <;> simp
  | _ => rfl

theorem result_stepMachine (opcode : UInt8) (vchPushValue : Bytes) (rest : CScript) (m : Machine) :
    result (stepMachine ctx opcode vchPushValue rest m) =
      stepMachine ctx opcode vchPushValue rest m := by
  simp only [stepMachine, result_bind, result_check, apply_ite result, result_pure, check_except,
    result_execOp]

theorem result_runMachine (fuel : Nat) (script : CScript) (m : Machine) :
    result (runMachine ctx fuel script m) = runMachine ctx fuel script m := by
  induction fuel generalizing script m with
  | zero => cases script <;> rfl
  | succ fuel ih =>
    cases script with
    | nil => rfl
    | cons byte script =>
      simp only [runMachine]
      cases getOp (byte :: script) with
      | none => rfl
      | some read => simp only [result_bind, result_stepMachine, ih]

theorem result_evalScript (script : CScript) (start : Evaluation) :
    result (evalScript ctx script start) = evalScript ctx script start := by
  simp only [evalScript, result_bind, result_check, result_pure, check_except, result_runMachine]

end Erasure

/-! ## Calls and counts -/

section Calls

variable (ctx : Context)

theorem execCheckSig_calls (verify : Bool) (m : Machine) :
    Metered.calls (execCheckSig ctx verify m) ≤ 1 := by
  unfold execCheckSig
  split
  · refine Metered.calls_after fun _ _ => Metered.calls_after fun _ _ =>
      Metered.calls_before (Nat.le_refl 1) fun fSuccess _ => ?_
    refine Nat.le_zero.mp (Metered.calls_after fun _ _ => Metered.calls_ite ?_ (Nat.le_refl 0))
    exact Metered.calls_after fun _ _ => Nat.le_refl 0
  · exact Nat.zero_le 1

/-- Every round of the multisig loop uses up a key. -/
theorem multiSigLoop_calls (scriptCode : CScript) (verified keys sigs : List Bytes) :
    Metered.calls (multiSigLoop ctx scriptCode verified keys sigs) ≤ keys.length := by
  induction keys generalizing verified sigs with
  | nil => cases sigs <;> exact Nat.le_refl 0
  | cons key keys ih =>
    cases sigs with
    | nil => exact Nat.zero_le _
    | cons vchSig sigs =>
      refine Metered.calls_after fun _ _ => Metered.calls_after fun _ _ => ?_
      rw [List.length_cons, Nat.add_comm]
      exact Metered.calls_bind_le (Nat.le_refl 1) fun fOk _ =>
        Metered.calls_ite (Nat.zero_le _) (ih _ _)

/-- A multisig operation makes at most as many calls as the stack says there are keys, and never
more than the limit. -/
theorem execCheckMultiSig_calls (verify : Bool) {m : Machine} {n : Nat}
    (hn : ∀ keysCount s nKeysCount, m.stack = keysCount :: s →
      scriptNum keysCount ctx.flags.minimalData nDefaultMaxNumSize = .ok nKeysCount →
      nKeysCount ≤ maxPubKeysPerMultisig → nKeysCount.toNat ≤ n) :
    Metered.calls (execCheckMultiSig ctx verify m) ≤ n := by
  unfold execCheckMultiSig
  split
  · exact Nat.zero_le n
  · rename_i keysCount s hstack
    refine Metered.calls_after fun nKeysCount hcount => Metered.calls_after fun _ hlimit =>
      Metered.calls_after fun _ _ => ?_
    have hkeys := hn keysCount s nKeysCount hstack hcount ((require_eq_ok _ _ _).mp hlimit).2
    split
    · exact Nat.zero_le n
    · refine Metered.calls_after fun _ _ => Metered.calls_after fun _ _ =>
        Metered.calls_after fun _ _ => Metered.calls_before ?_ fun checked _ => ?_
      · refine (multiSigLoop_calls ctx _ _ _ _).trans ?_
        exact (List.length_take_le _ _).trans hkeys
      · refine Nat.le_zero.mp (Metered.calls_after fun _ _ => ?_)
        split
        · exact Nat.le_refl 0
        · refine Metered.calls_after fun _ _ => Metered.calls_ite ?_ (Nat.le_refl 0)
          exact Metered.calls_after fun _ _ => Nat.le_refl 0

/-! The opcodes that count, and the small numbers before them. -/

variable {opcode lastOpcode : UInt8} {verify : Bool} {m : Machine}

theorem decodeOpcode_checkSig : ∀ {opcode : UInt8} {verify : Bool},
    decodeOpcode opcode = .checkSig verify → opcode = opCheckSig ∨ opcode = opCheckSigVerify := by
  decide +kernel

theorem decodeOpcode_checkMultiSig : ∀ {opcode : UInt8} {verify : Bool},
    decodeOpcode opcode = .checkMultiSig verify →
      opcode = opCheckMultiSig ∨ opcode = opCheckMultiSigVerify := by
  decide +kernel

/-- `OP_1` to `OP_16` push the number that the static count reads. -/
theorem decodeOpcode_small : ∀ {opcode : UInt8}, op1 ≤ opcode → opcode ≤ op16 →
    decodeOpcode opcode = .number (decodeOpN opcode) ∧
      setVch (serialize (decodeOpN opcode)) = decodeOpN opcode := by
  decide +kernel

/-- Where code is executed, a small number that was read last is on top of the stack. -/
def LastOnTop (lastOpcode : UInt8) (m : Machine) : Prop :=
  m.vfExec.all id = true → op1 ≤ lastOpcode → lastOpcode ≤ op16 →
    ∃ s, m.stack = serialize (decodeOpN lastOpcode) :: s

/-- After a step the invariant holds for the opcode it executed. -/
theorem stepMachine_lastOnTop {vchPushValue : Bytes} {rest : CScript} {m' : Machine}
    (h : stepMachine ctx opcode vchPushValue rest m = .ok m') :
    LastOnTop opcode m' := by
  intro hexec hlow hhigh
  have hpush : ¬ opcode ≤ opPushData4 := fun hle => absurd (UInt8.le_trans hlow hle) (by decide)
  have hcount : ¬ op16 < opcode := UInt8.not_lt.mpr hhigh
  simp only [stepMachine, hpush, hcount, and_false, if_false, (decodeOpcode_small hlow hhigh).1] at h
  split at h
  · simp only [eq_ok] at h
    obtain ⟨-, -, -, -, -, -, _, hm, -, -, rfl⟩ := h
    cases hm
    exact ⟨m.stack, rfl⟩
  · rename_i hskip
    simp only [eq_ok] at h
    obtain ⟨-, -, -, -, -, -, _, hm, -, -, rfl⟩ := h
    cases hm
    exact absurd (.inl hexec) hskip

theorem sigOps_checkSig {fAccurate : Bool}
    (h : decodeOpcode opcode = .checkSig verify) : sigOps fAccurate lastOpcode opcode = 1 :=
  if_pos (decodeOpcode_checkSig h)

/-- The static count of a multisig operation bounds the number of keys on the stack. -/
theorem sigOps_checkMultiSig (h : decodeOpcode opcode = .checkMultiSig verify)
    (hexec : m.vfExec.all id = true)
    (last : LastOnTop lastOpcode m) {keysCount : Bytes} {s : List Bytes} {nKeysCount : Int}
    (hstack : m.stack = keysCount :: s) {fRequireMinimal : Bool} {nMaxNumSize : Nat}
    (hnum : scriptNum keysCount fRequireMinimal nMaxNumSize = .ok nKeysCount)
    (hlimit : nKeysCount ≤ maxPubKeysPerMultisig) :
    nKeysCount.toNat ≤ sigOps true lastOpcode opcode := by
  have hop := decodeOpcode_checkMultiSig h
  have hother : ¬ (opcode = opCheckSig ∨ opcode = opCheckSigVerify) := by
    rcases hop with rfl | rfl <;> decide
  rw [sigOps, if_neg hother, if_pos hop]
  split
  · rename_i hsmall
    obtain ⟨-, hlow, hhigh⟩ := hsmall
    obtain ⟨s', hs'⟩ := last hexec hlow hhigh
    rw [hstack] at hs'
    cases hs'
    simp only [scriptNum, eq_ok] at hnum
    obtain ⟨-, -, -, -, hnum⟩ := hnum
    rw [← hnum, (decodeOpcode_small hlow hhigh).2]
    exact Nat.le_refl _
  · exact Int.toNat_le_toNat hlimit

theorem execOp_calls (last : LastOnTop lastOpcode m)
    (hexec : m.vfExec.all id = true ∨ isConditionalOpcode opcode = true) (fExec : Bool)
    (rest : CScript) :
    Metered.calls (execOp ctx (decodeOpcode opcode) fExec rest m) ≤
      sigOps true lastOpcode opcode := by
  cases hop : decodeOpcode opcode with
  | checkSig verify =>
    rw [sigOps_checkSig hop]
    exact execCheckSig_calls ctx verify m
  | checkMultiSig verify =>
    have hall : m.vfExec.all id = true := by
      refine hexec.resolve_right fun hcond => ?_
      rcases decodeOpcode_checkMultiSig hop with rfl | rfl <;> cases hcond
    exact execCheckMultiSig_calls ctx verify fun _ _ _ hstack hnum hlimit =>
      sigOps_checkMultiSig hop hall last hstack hnum hlimit
  | upgradableNop => exact Metered.calls_after fun _ _ => Nat.zero_le _
  | els | endIf | toAltStack | fromAltStack | stack _ | hash _ =>
    simp only [execOp]
    split <;> exact Nat.zero_le _
  | verify =>
    simp only [execOp]
    split
    · exact Nat.zero_le _
    · exact Metered.calls_after fun _ _ => Nat.zero_le _
  | _ => exact Nat.zero_le _

theorem stepMachine_calls (last : LastOnTop lastOpcode m) (opcode : UInt8) (vchPushValue : Bytes)
    (rest : CScript) :
    Metered.calls (stepMachine ctx opcode vchPushValue rest m) ≤ sigOps true lastOpcode opcode := by
  have hlast : LastOnTop lastOpcode
      (if op16 < opcode then { m with nOpCount := m.nOpCount + 1 } else m) := by
    split
    · exact last
    · exact last
  have hexec : (if op16 < opcode then { m with nOpCount := m.nOpCount + 1 } else m).vfExec =
      m.vfExec := by
    split <;> rfl
  refine Metered.calls_after fun _ _ => Metered.calls_after fun _ _ => Metered.calls_after fun _ _ =>
    Metered.calls_ite ?_ ?_
  · exact Metered.calls_after fun _ _ => Metered.calls_before (Nat.zero_le _) fun _ _ =>
      Nat.le_zero.mp (Metered.calls_after fun _ _ => Nat.le_refl 0)
  · split
    · refine Metered.calls_before (execOp_calls ctx hlast (by rwa [hexec]) _ rest) fun _ _ =>
        Nat.le_zero.mp (Metered.calls_after fun _ _ => Nat.le_refl 0)
    · exact Metered.calls_before (Nat.zero_le _) fun _ _ =>
        Nat.le_zero.mp (Metered.calls_after fun _ _ => Nat.le_refl 0)

theorem runMachine_calls (fuel : Nat) {lastOpcode : UInt8} (script : CScript) {m : Machine}
    (last : LastOnTop lastOpcode m) :
    Metered.calls (runMachine ctx fuel script m) ≤ sigOpCountFuel true fuel lastOpcode script := by
  induction fuel generalizing lastOpcode script m with
  | zero => cases script <;> exact Nat.le_refl 0
  | succ fuel ih =>
    cases script with
    | nil => exact Nat.zero_le _
    | cons byte script =>
      simp only [runMachine, sigOpCountFuel]
      cases getOp (byte :: script) with
      | none => exact Nat.le_refl 0
      | some read =>
        refine Metered.calls_bind_le (stepMachine_calls ctx last _ _ _) fun m' hm' => ih _ ?_
        rw [result_stepMachine] at hm'
        exact stepMachine_lastOnTop ctx hm'

/-- A run makes at most as many signature checks as its script announces. -/
theorem evalScript_calls (script : CScript) (start : Evaluation) :
    Metered.calls (evalScript ctx script start) ≤ getSigOpCount script true := by
  refine Metered.calls_after fun _ _ => Metered.calls_before (runMachine_calls ctx _ _ ?_) fun _ _ =>
    Nat.le_zero.mp (Metered.calls_after fun _ _ => Nat.le_refl 0)
  exact fun _ _ hhigh => absurd hhigh (by decide)

end Calls

theorem sigOps_accurate_le (lastOpcode opcode : UInt8) :
    sigOps true lastOpcode opcode ≤ sigOps false lastOpcode opcode := by
  unfold sigOps
  split
  · exact Nat.le_refl 1
  · split
    · split
      · rename_i hsmall
        have hhigh : lastOpcode.toNat ≤ 96 := UInt8.le_iff_toNat_le.mp hsmall.2.2
        have hvalue : decodeOpN lastOpcode ≤ lastOpcode.toNat - 80 := by
          unfold decodeOpN
          split
          · exact Nat.zero_le _
          · exact Nat.le_refl _
        have hmax : maxPubKeysPerMultisig.toNat = 20 := rfl
        rw [if_neg (fun h => Bool.false_ne_true h.1)]
        omega
      · rw [if_neg (fun h => Bool.false_ne_true h.1)]
    · exact Nat.le_refl 0

/-- Reading the number of keys off the script never counts more. -/
theorem getSigOpCount_accurate_le (script : CScript) :
    getSigOpCount script true ≤ getSigOpCount script false := by
  have hloop : ∀ fuel lastOpcode script,
      sigOpCountFuel true fuel lastOpcode script ≤ sigOpCountFuel false fuel lastOpcode script := by
    intro fuel
    induction fuel with
    | zero => exact fun _ _ => Nat.le_refl 0
    | succ fuel ih =>
      intro lastOpcode script
      simp only [sigOpCountFuel]
      cases getOp script with
      | none => exact Nat.le_refl 0
      | some read => exact Nat.add_le_add (sigOps_accurate_le _ _) (ih _ _)
  exact hloop _ _ _

theorem sigOps_le (fAccurate : Bool) (lastOpcode opcode : UInt8) :
    sigOps fAccurate lastOpcode opcode ≤ 20 := by
  have hloose : sigOps false lastOpcode opcode ≤ 20 := by
    simp only [sigOps, Bool.false_eq_true, false_and, if_false, maxPubKeysPerMultisig]
    split_ifs <;> decide
  cases fAccurate with
  | false => exact hloose
  | true => exact (sigOps_accurate_le lastOpcode opcode).trans hloose

/-- No more than 20 checks are counted for a byte. -/
theorem getSigOpCount_le_length (script : CScript) (fAccurate : Bool) :
    getSigOpCount script fAccurate ≤ 20 * script.length := by
  have hloop : ∀ fuel lastOpcode script,
      sigOpCountFuel fAccurate fuel lastOpcode script ≤ 20 * script.length := by
    intro fuel
    induction fuel with
    | zero => exact fun _ _ => Nat.zero_le _
    | succ fuel ih =>
      intro lastOpcode script
      simp only [sigOpCountFuel]
      cases hop : getOp script with
      | none => exact Nat.zero_le _
      | some read =>
        have hlen : read.2.2.length + 1 ≤ script.length := length_getOp hop
        calc sigOps fAccurate lastOpcode read.1 + sigOpCountFuel fAccurate fuel read.1 read.2.2
            ≤ 20 + 20 * read.2.2.length := Nat.add_le_add (sigOps_le _ _ _) (ih _ _)
          _ ≤ 20 * script.length := by omega
  exact hloop _ _ _

/-! ## Redeem scripts -/

section Redeem

variable (ctx : Context)

/-- The top of the stack announces no more checks than `data`. -/
def TopWithin (data : Bytes) (m : Machine) : Prop :=
  ∀ top s, m.stack = top :: s → getSigOpCount top true ≤ getSigOpCount data true

variable {opcode : UInt8} {rest : CScript} {m m' : Machine}

/-- The opcodes up to `OP_16` push their data, or a number that is no script with checks. -/
theorem execOp_push (hdata : ¬ opcode ≤ opPushData4) (hhigh : opcode ≤ op16) {fExec : Bool}
    (h : execOp ctx (decodeOpcode opcode) fExec rest m = .ok m') :
    ∃ top, m' = m.push top ∧ getSigOpCount top true = 0 := by
  have hall : ∀ opcode : UInt8, ¬ opcode ≤ opPushData4 → opcode ≤ op16 →
      decodeOpcode opcode = .bad ∨
        ∃ k ∈ [-1, 1, 2, 3, 4, 5, 6, 7, 8, 9, 10, 11, 12, 13, 14, 15, 16],
          decodeOpcode opcode = .number k ∧ getSigOpCount (serialize k) true = 0 := by
    decide +kernel
  rcases hall opcode hdata hhigh with hbad | ⟨k, -, hnum, hzero⟩
  · rw [hbad] at h
    cases h
  · rw [hnum] at h
    cases h
    exact ⟨serialize k, rfl, hzero⟩

/-- A push outside all conditionals. -/
theorem stepMachine_pushOnly (hhigh : ¬ op16 < opcode) {vchPushValue : Bytes}
    (hexec : m.vfExec = []) (h : stepMachine ctx opcode vchPushValue rest m = .ok m') :
    m'.vfExec = [] ∧ TopWithin vchPushValue m' := by
  simp only [stepMachine, hhigh, if_false, hexec, List.all_nil, true_and, true_or, if_true] at h
  split at h
  · simp only [eq_ok] at h
    obtain ⟨-, -, -, -, -, -, -, -, _, rfl, -, -, rfl⟩ := h
    refine ⟨hexec, fun top s hstack => ?_⟩
    cases hstack
    exact Nat.le_refl _
  · rename_i hdata
    simp only [eq_ok] at h
    obtain ⟨-, -, -, -, -, -, _, hop, -, -, rfl⟩ := h
    obtain ⟨top, rfl, hzero⟩ := execOp_push ctx hdata (UInt8.not_lt.mp hhigh) hop
    refine ⟨hexec, fun top' s hstack => ?_⟩
    cases hstack
    rw [hzero]
    exact Nat.zero_le _

/-- What a script of pushes leaves on top is the last operation's data, or harmless. -/
theorem runMachine_pushOnly (fuel : Nat) {script : CScript} {data : Bytes}
    (hpush : isPushOnlyFuel fuel script = true) (hexec : m.vfExec = []) (htop : TopWithin data m)
    (h : runMachine ctx fuel script m = .ok m') :
    ∃ data', lastPushFuel fuel data script = some data' ∧ TopWithin data' m' := by
  induction fuel generalizing script data m with
  | zero =>
    cases script with
    | nil =>
      cases h
      exact ⟨data, rfl, htop⟩
    | cons byte script => cases hpush
  | succ fuel ih =>
    cases script with
    | nil =>
      cases h
      exact ⟨data, rfl, htop⟩
    | cons byte script =>
      simp only [isPushOnlyFuel, runMachine, lastPushFuel] at hpush h ⊢
      cases hop : getOp (byte :: script) with
      | none =>
        rw [hop] at hpush
        cases hpush
      | some read =>
        simp only [hop, Bool.and_eq_true, Bool.not_eq_true', decide_eq_false_iff_not] at hpush h ⊢
        obtain ⟨next, hstep, h⟩ := bind_eq_ok.mp h
        obtain ⟨hexec', htop'⟩ := stepMachine_pushOnly ctx hpush.1 hexec hstep
        rw [if_neg hpush.1]
        exact ih hpush.2 hexec' htop' h

/-- The count with the input bounds the count of the script the input pushes last. -/
theorem getSigOpCountWith_redeem {scriptSig scriptPubKey : CScript}
    (hhash : isPayToScriptHash scriptPubKey = true) (hpush : isPushOnly scriptSig = true)
    {first : Evaluation} (h : evalScript ctx scriptSig {} = .ok first) {pubKey2 : Bytes}
    {stack : List Bytes} (hstack : first.stack = pubKey2 :: stack) :
    getSigOpCount pubKey2 true ≤ getSigOpCountWith scriptPubKey scriptSig := by
  simp only [evalScript, eq_ok] at h
  obtain ⟨-, -, m, hrun, -, -, rfl⟩ := h
  have hstart : TopWithin [] { stack := [], verified := [], codeHash := scriptSig } :=
    fun top s hs => by cases hs
  obtain ⟨data, hlast, htop⟩ := runMachine_pushOnly ctx scriptSig.length hpush rfl hstart hrun
  rw [getSigOpCountWith, if_pos hhash, hlast]
  exact htop pubKey2 stack hstack

end Redeem

/-- The redeem script of a successful spend is what the input pushed last. -/
theorem verifyScript_redeems {env : Env} {checker : Checker} {flags : Flags}
    {scriptSig scriptPubKey : CScript} {witness verified : List Bytes}
    (h : verifyScript env checker flags scriptSig scriptPubKey witness = .ok verified)
    (hflag : flags.p2sh = true) (hhash : isPayToScriptHash scriptPubKey = true) :
    ∃ first result pubKey2 stack,
      evalScript ⟨env, flags, checker, .base⟩ scriptSig {} = .ok first ∧
      evalScript ⟨env, flags, checker, .base⟩ scriptPubKey first = .ok result ∧
      first.stack = pubKey2 :: stack ∧ isPushOnly scriptSig = true := by
  simp only [verifyScript, eq_ok] at h
  obtain ⟨-, -, first, hfirst, result, hresult, -, -, checked, -, h⟩ := h
  rw [if_pos ⟨hflag, hhash⟩] at h
  obtain ⟨redeemed, hredeemed, -⟩ := bind_eq_ok.mp h
  simp only [verifyRedeemScript, eq_ok] at hredeemed
  obtain ⟨-, hpush, hredeemed⟩ := hredeemed
  cases hstack : first.stack with
  | nil =>
    rw [hstack] at hredeemed
    cases hredeemed
  | cons pubKey2 stack => exact ⟨first, result, pubKey2, stack, hfirst, hresult, hstack, hpush⟩

/-- Counting signature operations bounds the signature checks: those of every run of a script, and
those of the redeem script of every successful spend. -/
theorem sigops_bound_checks (env : Env) (checker : Checker) (flags : Flags) :
    (∀ script start,
      Metered.result (evalScript ⟨env, flags, checker, .base⟩ script start) =
        evalScript ⟨env, flags, checker, .base⟩ script start ∧
      Metered.calls (evalScript ⟨env, flags, checker, .base⟩ script start) ≤
        getSigOpCount script true ∧
      getSigOpCount script true ≤ getSigOpCount script false ∧
      getSigOpCount script false ≤ 20 * script.length) ∧
    ∀ scriptSig scriptPubKey witness verified, flags.p2sh = true →
      isPayToScriptHash scriptPubKey = true →
      verifyScript env checker flags scriptSig scriptPubKey witness = .ok verified →
      ∃ first result pubKey2 stack,
        evalScript ⟨env, flags, checker, .base⟩ scriptSig {} = .ok first ∧
        evalScript ⟨env, flags, checker, .base⟩ scriptPubKey first = .ok result ∧
        first.stack = pubKey2 :: stack ∧
        Metered.calls (evalScript ⟨env, flags, checker, .base⟩ pubKey2 ⟨stack, result.verified⟩) ≤
          getSigOpCountWith scriptPubKey scriptSig := by
  refine ⟨fun script start => ⟨result_evalScript _ script start,
    evalScript_calls _ script start, getSigOpCount_accurate_le script,
    getSigOpCount_le_length script false⟩, ?_⟩
  intro scriptSig scriptPubKey witness verified hflag hhash h
  obtain ⟨first, result, pubKey2, stack, hfirst, hresult, hstack, hpush⟩ :=
    verifyScript_redeems h hflag hhash
  refine ⟨first, result, pubKey2, stack, hfirst, hresult, hstack, ?_⟩
  exact (evalScript_calls _ pubKey2 _).trans
    (getSigOpCountWith_redeem _ hhash hpush hfirst hstack)

/-- A redeem script that checks a signature and expects it to fail. -/
def failingCheck : CScript := [op0, op0, opCheckSig, 0x91]

theorem sigops_bound_checks_redeem :
    (verifyScript blankEnv blankChecker { p2sh := true } (pushBytes failingCheck)
      blankScriptHash []).isOk = true ∧
    ∃ first pubKey2 stack verified,
      evalScript ⟨blankEnv, { p2sh := true }, blankChecker, .base⟩ (pushBytes failingCheck) {} =
        .ok first ∧
      first.stack = pubKey2 :: stack ∧
      Metered.calls (evalScript ⟨blankEnv, { p2sh := true }, blankChecker, .base⟩ pubKey2
        ⟨stack, verified⟩) ≤ 1 := by
  have hok : verifyScript blankEnv blankChecker { p2sh := true } (pushBytes failingCheck)
      blankScriptHash [] = .ok [] := by decide +kernel
  obtain ⟨first, result, pubKey2, stack, hfirst, -, hstack, hcalls⟩ :=
    (sigops_bound_checks blankEnv blankChecker { p2sh := true }).2 (pushBytes failingCheck)
      blankScriptHash [] [] rfl (by decide) hok
  refine ⟨?_, first, pubKey2, stack, result.verified, hfirst, hstack, hcalls⟩
  rfl

end KubuCore.Script
