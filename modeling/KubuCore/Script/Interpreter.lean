import KubuCore.Base.Metered
import KubuCore.Script.Number

/-!
# The script interpreter

`EvalScript` and `VerifyScript` of `script/interpreter.cpp`, for every opcode
and flag. Stacks are lists with the top first. Besides the source's variables
the machine keeps the public keys against which a signature check succeeded.
-/

namespace KubuCore.Script

open Checked

def maxScriptElementSize : Nat := 520
def maxOpsPerScript : Nat := 201
def maxPubKeysPerMultisig : Int := 20
def lockTimeThreshold : Int := 500000000
def sequenceFinal : Nat := 0xffffffff
def sequenceLockTimeDisableFlag : Nat := 0x80000000
def sequenceLockTimeTypeFlag : Nat := 0x400000
def sequenceLockTimeMask : Nat := 0xffff

/-! ## Opcodes -/

/-- Operations that only rearrange or measure the stack. -/
inductive StackOp where
  | drop2 | dup2 | dup3 | over2 | rot2 | swap2 | ifDup | depth | drop | dup | nip | over | rot
  | swap | tuck | size
deriving DecidableEq, Repr

inductive UnaryOp where
  | add1 | sub1 | negate | abs | not | notEqual0
deriving DecidableEq, Repr

inductive BinaryOp where
  | add | sub | boolAnd | boolOr | numEqual | numEqualVerify | numNotEqual | lessThan | greaterThan
  | lessThanOrEqual | greaterThanOrEqual | min | max
deriving DecidableEq, Repr

inductive HashOp where
  | ripemd160 | sha1 | sha256 | hash160 | hash256
deriving DecidableEq, Repr

/-- The cases of the switch in `EvalScript`, with the disabled opcodes. Data
pushes never reach the switch when they are executed. -/
inductive Opcode where
  | number (n : Int)
  | nop
  | checkLockTimeVerify
  | checkSequenceVerify
  | upgradableNop
  | conditional (notIf : Bool)
  | els
  | endIf
  | verify
  | ret
  | toAltStack
  | fromAltStack
  | stack (op : StackOp)
  | pick (roll : Bool)
  | equal (verify : Bool)
  | unary (op : UnaryOp)
  | binary (op : BinaryOp)
  | within
  | hash (op : HashOp)
  | codeSeparator
  | checkSig (verify : Bool)
  | checkMultiSig (verify : Bool)
  | disabled
  | bad
deriving DecidableEq, Repr

def decodeOpcode (opcode : UInt8) : Opcode :=
  match opcode.toNat with
  | 0x4f => .number (-1)
  | 0x51 => .number 1 | 0x52 => .number 2 | 0x53 => .number 3 | 0x54 => .number 4
  | 0x55 => .number 5 | 0x56 => .number 6 | 0x57 => .number 7 | 0x58 => .number 8
  | 0x59 => .number 9 | 0x5a => .number 10 | 0x5b => .number 11 | 0x5c => .number 12
  | 0x5d => .number 13 | 0x5e => .number 14 | 0x5f => .number 15 | 0x60 => .number 16
  | 0x61 => .nop
  | 0x63 => .conditional false
  | 0x64 => .conditional true
  | 0x67 => .els
  | 0x68 => .endIf
  | 0x69 => .verify
  | 0x6a => .ret
  | 0x6b => .toAltStack
  | 0x6c => .fromAltStack
  | 0x6d => .stack .drop2
  | 0x6e => .stack .dup2
  | 0x6f => .stack .dup3
  | 0x70 => .stack .over2
  | 0x71 => .stack .rot2
  | 0x72 => .stack .swap2
  | 0x73 => .stack .ifDup
  | 0x74 => .stack .depth
  | 0x75 => .stack .drop
  | 0x76 => .stack .dup
  | 0x77 => .stack .nip
  | 0x78 => .stack .over
  | 0x79 => .pick false
  | 0x7a => .pick true
  | 0x7b => .stack .rot
  | 0x7c => .stack .swap
  | 0x7d => .stack .tuck
  | 0x7e | 0x7f | 0x80 | 0x81 => .disabled
  | 0x82 => .stack .size
  | 0x83 | 0x84 | 0x85 | 0x86 => .disabled
  | 0x87 => .equal false
  | 0x88 => .equal true
  | 0x8b => .unary .add1
  | 0x8c => .unary .sub1
  | 0x8d | 0x8e => .disabled
  | 0x8f => .unary .negate
  | 0x90 => .unary .abs
  | 0x91 => .unary .not
  | 0x92 => .unary .notEqual0
  | 0x93 => .binary .add
  | 0x94 => .binary .sub
  | 0x95 | 0x96 | 0x97 | 0x98 | 0x99 => .disabled
  | 0x9a => .binary .boolAnd
  | 0x9b => .binary .boolOr
  | 0x9c => .binary .numEqual
  | 0x9d => .binary .numEqualVerify
  | 0x9e => .binary .numNotEqual
  | 0x9f => .binary .lessThan
  | 0xa0 => .binary .greaterThan
  | 0xa1 => .binary .lessThanOrEqual
  | 0xa2 => .binary .greaterThanOrEqual
  | 0xa3 => .binary .min
  | 0xa4 => .binary .max
  | 0xa5 => .within
  | 0xa6 => .hash .ripemd160
  | 0xa7 => .hash .sha1
  | 0xa8 => .hash .sha256
  | 0xa9 => .hash .hash160
  | 0xaa => .hash .hash256
  | 0xab => .codeSeparator
  | 0xac => .checkSig false
  | 0xad => .checkSig true
  | 0xae => .checkMultiSig false
  | 0xaf => .checkMultiSig true
  | 0xb1 => .checkLockTimeVerify
  | 0xb2 => .checkSequenceVerify
  | 0xb0 | 0xb3 | 0xb4 | 0xb5 | 0xb6 | 0xb7 | 0xb8 | 0xb9 => .upgradableNop
  | _ => .bad

/-- `OP_IF` to `OP_ENDIF` are looked at even where nothing is executed. -/
def isConditionalOpcode (opcode : UInt8) : Bool := 0x63 ≤ opcode && opcode ≤ 0x68

/-! ## Operations on the stack -/

def execStackOp : StackOp → List Bytes → Option (List Bytes)
  | .drop2, _ :: _ :: s => some s
  | .dup2, x2 :: x1 :: s => some (x2 :: x1 :: x2 :: x1 :: s)
  | .dup3, x3 :: x2 :: x1 :: s => some (x3 :: x2 :: x1 :: x3 :: x2 :: x1 :: s)
  | .over2, x4 :: x3 :: x2 :: x1 :: s => some (x2 :: x1 :: x4 :: x3 :: x2 :: x1 :: s)
  | .rot2, x6 :: x5 :: x4 :: x3 :: x2 :: x1 :: s => some (x2 :: x1 :: x6 :: x5 :: x4 :: x3 :: s)
  | .swap2, x4 :: x3 :: x2 :: x1 :: s => some (x2 :: x1 :: x4 :: x3 :: s)
  | .ifDup, x :: s => some (if castToBool x then x :: x :: s else x :: s)
  | .depth, s => some (serialize s.length :: s)
  | .drop, _ :: s => some s
  | .dup, x :: s => some (x :: x :: s)
  | .nip, x2 :: _ :: s => some (x2 :: s)
  | .over, x2 :: x1 :: s => some (x1 :: x2 :: x1 :: s)
  | .rot, x3 :: x2 :: x1 :: s => some (x1 :: x3 :: x2 :: s)
  | .swap, x2 :: x1 :: s => some (x1 :: x2 :: s)
  | .tuck, x2 :: x1 :: s => some (x2 :: x1 :: x2 :: s)
  | .size, x :: s => some (serialize x.length :: x :: s)
  | _, _ => none

def boolNum (b : Bool) : Int := if b then 1 else 0

def execUnary : UnaryOp → Int → Int
  | .add1, bn => bn + 1
  | .sub1, bn => bn - 1
  | .negate, bn => -bn
  | .abs, bn => if bn < 0 then -bn else bn
  | .not, bn => boolNum (bn == 0)
  | .notEqual0, bn => boolNum (bn != 0)

def execBinary : BinaryOp → Int → Int → Int
  | .add, bn1, bn2 => bn1 + bn2
  | .sub, bn1, bn2 => bn1 - bn2
  | .boolAnd, bn1, bn2 => boolNum (bn1 != 0 && bn2 != 0)
  | .boolOr, bn1, bn2 => boolNum (bn1 != 0 || bn2 != 0)
  | .numEqual, bn1, bn2 => boolNum (bn1 == bn2)
  | .numEqualVerify, bn1, bn2 => boolNum (bn1 == bn2)
  | .numNotEqual, bn1, bn2 => boolNum (bn1 != bn2)
  | .lessThan, bn1, bn2 => boolNum (bn1 < bn2)
  | .greaterThan, bn1, bn2 => boolNum (bn2 < bn1)
  | .lessThanOrEqual, bn1, bn2 => boolNum (bn1 ≤ bn2)
  | .greaterThanOrEqual, bn1, bn2 => boolNum (bn2 ≤ bn1)
  | .min, bn1, bn2 => if bn1 < bn2 then bn1 else bn2
  | .max, bn1, bn2 => if bn2 < bn1 then bn1 else bn2

def execHash (env : Env) : HashOp → Bytes → Bytes
  | .ripemd160, vch => env.ripemd160 vch
  | .sha1, vch => env.sha1 vch
  | .sha256, vch => env.sha256 vch
  | .hash160, vch => (env.hash160 vch).val
  | .hash256, vch => env.hash256 vch

/-- Drop the leading copies of `b`. -/
def skipCopies (b : CScript) : Nat → CScript → CScript
  | 0, script => script
  | fuel + 1, script =>
    if b.isPrefixOf script then skipCopies b fuel (script.drop b.length) else script

/-- The loop of `FindAndDelete`: copies of `b` are looked for only where an
operation starts. -/
def findAndDeleteFuel (b : CScript) : Nat → CScript → CScript
  | 0, script => script
  | fuel + 1, script =>
    let script := skipCopies b script.length script
    match getOp script with
    | none => script
    | some (_, _, rest) =>
      script.take (script.length - rest.length) ++ findAndDeleteFuel b fuel rest

def findAndDelete (script b : CScript) : CScript :=
  if b = [] then script else findAndDeleteFuel b (script.length + 1) script

/-! ## The machine -/

/-- `BaseSignatureChecker`. -/
structure Checker where
  checkSig : (vchSig vchPubKey : Bytes) → (scriptCode : CScript) → SigVersion → Bool
  checkLockTime : Int → Bool
  checkSequence : Int → Bool

/-- What `EvalScript` is called with and does not change. -/
structure Context where
  env : Env
  flags : Flags
  checker : Checker
  sigversion : SigVersion

/-- The variables of `EvalScript`. `codeHash` is the script from
`pbegincodehash` on; `verified` holds the keys of the successful checks. -/
structure Machine where
  stack : List Bytes
  altstack : List Bytes := []
  vfExec : List Bool := []
  nOpCount : Nat := 0
  codeHash : CScript
  verified : List Bytes

/-- A stack and the keys whose signatures checked on the way to it. -/
structure Evaluation where
  stack : List Bytes := []
  verified : List Bytes := []
deriving DecidableEq, Repr

def Machine.push (m : Machine) (vch : Bytes) : Machine := { m with stack := vch :: m.stack }

/-- Both lock-time opcodes are no-ops unless enabled. -/
def execLockTime (ctx : Context) (enabled : Bool) (check : Int → Except ScriptError Unit)
    (m : Machine) : Except ScriptError Machine :=
  if enabled then
    match m.stack with
    | [] => .error .invalidStackOperation
    | vch :: _ => do
      let n ← scriptNum vch ctx.flags.minimalData 5
      require (0 ≤ n) ScriptError.negativeLockTime
      check n
      pure m
  else do
    require (ctx.flags.discourageUpgradableNops = false) ScriptError.discourageUpgradableNops
    pure m

def execConditional (ctx : Context) (notIf fExec : Bool) (m : Machine) :
    Except ScriptError Machine :=
  if fExec then
    match m.stack with
    | [] => .error .unbalancedConditional
    | vch :: s => do
      require (¬ (ctx.sigversion = .witnessV0 ∧ ctx.flags.minimalIf) ∨ vch = [] ∨ vch = [1])
        ScriptError.minimalIf
      pure { m with stack := s, vfExec := (castToBool vch != notIf) :: m.vfExec }
  else .ok { m with vfExec := false :: m.vfExec }

def execPick (ctx : Context) (roll : Bool) (m : Machine) : Except ScriptError Machine :=
  match m.stack with
  | vch :: x :: s => do
    let n ← scriptNum vch ctx.flags.minimalData nDefaultMaxNumSize
    require (0 ≤ n ∧ n < (x :: s).length) ScriptError.invalidStackOperation
    let picked := (x :: s).getD n.toNat []
    let rest := if roll then (x :: s).eraseIdx n.toNat else x :: s
    pure { m with stack := picked :: rest }
  | _ => .error .invalidStackOperation

def execEqual (verify : Bool) (m : Machine) : Except ScriptError Machine :=
  match m.stack with
  | vch2 :: vch1 :: s =>
    if verify then do
      require (vch1 = vch2) ScriptError.equalVerify
      pure { m with stack := s }
    else .ok { m with stack := ofBool (vch1 == vch2) :: s }
  | _ => .error .invalidStackOperation

def execUnaryOp (ctx : Context) (op : UnaryOp) (m : Machine) : Except ScriptError Machine :=
  match m.stack with
  | vch :: s => do
    let bn ← scriptNum vch ctx.flags.minimalData nDefaultMaxNumSize
    pure { m with stack := serialize (execUnary op bn) :: s }
  | [] => .error .invalidStackOperation

def execBinaryOp (ctx : Context) (op : BinaryOp) (m : Machine) : Except ScriptError Machine :=
  match m.stack with
  | vch2 :: vch1 :: s => do
    let bn1 ← scriptNum vch1 ctx.flags.minimalData nDefaultMaxNumSize
    let bn2 ← scriptNum vch2 ctx.flags.minimalData nDefaultMaxNumSize
    let bn := serialize (execBinary op bn1 bn2)
    if op = .numEqualVerify then do
      require (castToBool bn) ScriptError.numEqualVerify
      pure { m with stack := s }
    else pure { m with stack := bn :: s }
  | _ => .error .invalidStackOperation

def execWithin (ctx : Context) (m : Machine) : Except ScriptError Machine :=
  match m.stack with
  | vch3 :: vch2 :: vch1 :: s => do
    let bn1 ← scriptNum vch1 ctx.flags.minimalData nDefaultMaxNumSize
    let bn2 ← scriptNum vch2 ctx.flags.minimalData nDefaultMaxNumSize
    let bn3 ← scriptNum vch3 ctx.flags.minimalData nDefaultMaxNumSize
    pure { m with stack := ofBool (bn2 ≤ bn1 && bn1 < bn3) :: s }
  | _ => .error .invalidStackOperation

/-- The script a signature commits to: pre-segwit scripts drop the signature. -/
def dropSignature (ctx : Context) (scriptCode : CScript) (vchSig : Bytes) : CScript :=
  if ctx.sigversion = .base then findAndDelete scriptCode (pushBytes vchSig) else scriptCode

/-! The operations from here on are told of the calls of `CheckSig`, and run in any monad. -/

section Calls

variable {μ : Type → Type} [Calls ScriptError μ]

def execCheckSig (ctx : Context) (verify : Bool) (m : Machine) : μ Machine :=
  match m.stack with
  | vchPubKey :: vchSig :: s => do
    let scriptCode := dropSignature ctx m.codeHash vchSig
    check (checkSignatureEncoding ctx.env ctx.flags vchSig)
    check (checkPubKeyEncoding ctx.flags ctx.sigversion vchPubKey)
    let fSuccess ← call (ctx.checker.checkSig vchSig vchPubKey scriptCode ctx.sigversion)
    check (require (fSuccess ∨ ctx.flags.nullFail = false ∨ vchSig = []) .sigNullFail)
    let verified := if fSuccess then vchPubKey :: m.verified else m.verified
    if verify then do
      check (require fSuccess .checkSigVerify)
      pure { m with stack := s, verified }
    else pure { m with stack := ofBool fSuccess :: s, verified }
  | _ => check (.error .invalidStackOperation)

/-- The loop of `OP_CHECKMULTISIG` over the signatures and keys still to be
matched: whether it succeeded, and the keys that checked. -/
def multiSigLoop (ctx : Context) (scriptCode : CScript) (verified : List Bytes) :
    (keys sigs : List Bytes) → μ (Bool × List Bytes)
  | _, [] => pure (true, verified)
  | [], _ :: _ => pure (false, verified)
  | vchPubKey :: keys, vchSig :: sigs => do
    check (checkSignatureEncoding ctx.env ctx.flags vchSig)
    check (checkPubKeyEncoding ctx.flags ctx.sigversion vchPubKey)
    let fOk ← call (ctx.checker.checkSig vchSig vchPubKey scriptCode ctx.sigversion)
    let remaining := if fOk then sigs else vchSig :: sigs
    let verified := if fOk then vchPubKey :: verified else verified
    if keys.length < remaining.length then pure (false, verified)
    else multiSigLoop ctx scriptCode verified keys remaining

def execCheckMultiSig (ctx : Context) (verify : Bool) (m : Machine) : μ Machine :=
  match m.stack with
  | [] => check (.error .invalidStackOperation)
  | keysCount :: s => do
    let nKeysCount ← check (scriptNum keysCount ctx.flags.minimalData nDefaultMaxNumSize)
    check (require (0 ≤ nKeysCount ∧ nKeysCount ≤ maxPubKeysPerMultisig) .pubKeyCount)
    let nOpCount := m.nOpCount + nKeysCount.toNat
    check (require (nOpCount ≤ maxOpsPerScript) .opCount)
    let keys := s.take nKeysCount.toNat
    match s.drop nKeysCount.toNat with
    | [] => check (.error .invalidStackOperation)
    | sigsCount :: s => do
      let nSigsCount ← check (scriptNum sigsCount ctx.flags.minimalData nDefaultMaxNumSize)
      check (require (0 ≤ nSigsCount ∧ nSigsCount ≤ nKeysCount) .sigCount)
      check (require (nSigsCount + 1 ≤ s.length) .invalidStackOperation)
      let sigs := s.take nSigsCount.toNat
      let scriptCode := sigs.foldl (dropSignature ctx) m.codeHash
      let (fSuccess, verified) ← multiSigLoop ctx scriptCode m.verified keys sigs
      check (require (fSuccess ∨ ctx.flags.nullFail = false ∨ ∀ vchSig ∈ sigs, vchSig = [])
        .sigNullFail)
      match s.drop nSigsCount.toNat with
      | [] => check (.error .invalidStackOperation)
      | dummy :: s => do
        check (require (ctx.flags.nullDummy = false ∨ dummy = []) .sigNullDummy)
        let m := { m with nOpCount, verified }
        if verify then do
          check (require fSuccess .checkMultiSigVerify)
          pure { m with stack := s }
        else pure { m with stack := ofBool fSuccess :: s }

/-! ## Evaluation -/

/-- The switch over opcodes; `rest` is the script after this one. -/
def execOp (ctx : Context) (op : Opcode) (fExec : Bool) (rest : CScript) (m : Machine) :
    μ Machine :=
  match op with
  | .number n => pure (m.push (serialize n))
  | .nop => pure m
  | .checkLockTimeVerify =>
    check (execLockTime ctx ctx.flags.checkLockTimeVerify
      (fun nLockTime => require (ctx.checker.checkLockTime nLockTime) .unsatisfiedLockTime) m)
  | .checkSequenceVerify =>
    check (execLockTime ctx ctx.flags.checkSequenceVerify
      (fun nSequence => require (nSequence.toNat &&& sequenceLockTimeDisableFlag ≠ 0 ∨
        ctx.checker.checkSequence nSequence) .unsatisfiedLockTime) m)
  | .upgradableNop => do
    check (require (ctx.flags.discourageUpgradableNops = false) .discourageUpgradableNops)
    pure m
  | .conditional notIf => check (execConditional ctx notIf fExec m)
  | .els =>
    match m.vfExec with
    | [] => check (.error .unbalancedConditional)
    | b :: bs => pure { m with vfExec := (!b) :: bs }
  | .endIf =>
    match m.vfExec with
    | [] => check (.error .unbalancedConditional)
    | _ :: bs => pure { m with vfExec := bs }
  | .verify =>
    match m.stack with
    | [] => check (.error .invalidStackOperation)
    | vch :: s => do
      check (require (castToBool vch) .verify)
      pure { m with stack := s }
  | .ret => check (.error .opReturn)
  | .toAltStack =>
    match m.stack with
    | [] => check (.error .invalidStackOperation)
    | vch :: s => pure { m with stack := s, altstack := vch :: m.altstack }
  | .fromAltStack =>
    match m.altstack with
    | [] => check (.error .invalidAltStackOperation)
    | vch :: s => pure { m with stack := vch :: m.stack, altstack := s }
  | .stack op =>
    match execStackOp op m.stack with
    | none => check (.error .invalidStackOperation)
    | some stack => pure { m with stack }
  | .pick roll => check (execPick ctx roll m)
  | .equal verify => check (execEqual verify m)
  | .unary op => check (execUnaryOp ctx op m)
  | .binary op => check (execBinaryOp ctx op m)
  | .within => check (execWithin ctx m)
  | .hash op =>
    match m.stack with
    | [] => check (.error .invalidStackOperation)
    | vch :: s => pure { m with stack := execHash ctx.env op vch :: s }
  | .codeSeparator => pure { m with codeHash := rest }
  | .checkSig verify => execCheckSig ctx verify m
  | .checkMultiSig verify => execCheckMultiSig ctx verify m
  | .disabled => check (.error .disabledOpcode)
  | .bad => check (.error .badOpcode)

/-- One round of the loop, after the opcode has been read. -/
def stepMachine (ctx : Context) (opcode : UInt8) (vchPushValue : Bytes) (rest : CScript)
    (m : Machine) : μ Machine := do
  let fExec := m.vfExec.all id
  let op := decodeOpcode opcode
  check (require (vchPushValue.length ≤ maxScriptElementSize) .pushSize)
  let m := if op16 < opcode then { m with nOpCount := m.nOpCount + 1 } else m
  check (require (m.nOpCount ≤ maxOpsPerScript ∨ opcode ≤ op16) .opCount)
  check (require (op ≠ .disabled) .disabledOpcode)
  let m ←
    if fExec ∧ opcode ≤ opPushData4 then do
      check (require (ctx.flags.minimalData = false ∨ checkMinimalPush vchPushValue opcode)
        .minimalData)
      pure (m.push vchPushValue)
    else if fExec ∨ isConditionalOpcode opcode then execOp ctx op fExec rest m
    else pure m
  check (require (m.stack.length + m.altstack.length ≤ 1000) .stackSize)
  pure m

/-- The loop of `EvalScript`. Every round reads at least one byte, so the
length of the script is fuel enough. -/
def runMachine (ctx : Context) : Nat → CScript → Machine → μ Machine
  | _, [], m => pure m
  | 0, _ :: _, _ => check (.error .unknownError)
  | fuel + 1, script, m =>
    match getOp script with
    | none => check (.error .badOpcode)
    | some (opcode, vchPushValue, rest) => do
      let m ← stepMachine ctx opcode vchPushValue rest m
      runMachine ctx fuel rest m

def evalScript (ctx : Context) (script : CScript) (start : Evaluation) : μ Evaluation := do
  check (require (script.length ≤ maxScriptSize) .scriptSize)
  let m ← runMachine ctx script.length script
    { stack := start.stack, verified := start.verified, codeHash := script }
  check (require (m.vfExec = []) .unbalancedConditional)
  pure ⟨m.stack, m.verified⟩

end Calls

/-! ## Verification -/

def checkWitnessStack (ctx : Context) (script : CScript) (start : Evaluation) :
    Except ScriptError Evaluation := do
  require (∀ item ∈ start.stack, item.length ≤ maxScriptElementSize) ScriptError.pushSize
  let result ← evalScript { ctx with sigversion := .witnessV0 } script start
  match result.stack with
  | [top] => do
    require (castToBool top) ScriptError.evalFalse
    pure result
  | _ => .error .evalFalse

/-- `VerifyWitnessProgram`. The witness stack is written bottom first. -/
def verifyWitnessProgram (ctx : Context) (witness : List Bytes) (witversion : Nat)
    (program : Bytes) (verified : List Bytes) : Except ScriptError (List Bytes) :=
  if witversion = 0 then
    if program.length = 32 then
      match witness.reverse with
      | [] => .error .witnessProgramWitnessEmpty
      | script :: stack => do
        require (ctx.env.sha256 script = program) ScriptError.witnessProgramMismatch
        let result ← checkWitnessStack ctx script ⟨stack, verified⟩
        pure result.verified
    else if program.length = 20 then do
      require (witness.length = 2) ScriptError.witnessProgramMismatch
      let script := [opDup, opHash160] ++ pushBytes program ++ [opEqualVerify, opCheckSig]
      let result ← checkWitnessStack ctx script ⟨witness.reverse, verified⟩
      pure result.verified
    else .error .witnessProgramWrongLength
  else do
    require (ctx.flags.discourageUpgradableWitnessProgram = false)
      ScriptError.discourageUpgradableWitnessProgram
    pure verified

/-- The top of the stack must be true. -/
def requireTrue (result : Evaluation) : Except ScriptError Unit :=
  match result.stack with
  | [] => .error .evalFalse
  | top :: _ => require (castToBool top) .evalFalse

/-- A witness program in `script`, checked if the witness flag is set: the
verified keys, and whether there was one. -/
def verifyWitness (ctx : Context) (script : CScript) (malleated : Bool) (malleatedError : ScriptError)
    (witness : List Bytes) (verified : List Bytes) : Except ScriptError (Bool × List Bytes) :=
  if ctx.flags.witness then
    match isWitnessProgram script with
    | none => .ok (false, verified)
    | some (witversion, program) => do
      require (malleated = false) malleatedError
      let verified ← verifyWitnessProgram ctx witness witversion program verified
      pure (true, verified)
  else .ok (false, verified)

/-- The P2SH part of `VerifyScript`: run the script that `scriptSig` pushed
last. -/
def verifyRedeemScript (ctx : Context) (scriptSig : CScript) (witness : List Bytes)
    (stackCopy : List Bytes) (verified : List Bytes) :
    Except ScriptError (Evaluation × Bool) := do
  require (isPushOnly scriptSig) ScriptError.sigPushOnly
  match stackCopy with
  | [] => .error .unknownError
  | pubKey2 :: stack => do
    let result ← evalScript ctx pubKey2 ⟨stack, verified⟩
    requireTrue result
    let (hadWitness, verified) ← verifyWitness ctx pubKey2 (scriptSig != pushBytes pubKey2)
      .witnessMalleatedP2SH witness result.verified
    pure (⟨if hadWitness then result.stack.take 1 else result.stack, verified⟩, hadWitness)

/-- `VerifyScript`: the keys whose signatures checked. The asserts on flag
combinations are not modelled. -/
def verifyScript (env : Env) (checker : Checker) (flags : Flags) (scriptSig scriptPubKey : CScript)
    (witness : List Bytes) : Except ScriptError (List Bytes) := do
  let ctx : Context := ⟨env, flags, checker, .base⟩
  require (flags.sigPushOnly = false ∨ isPushOnly scriptSig) ScriptError.sigPushOnly
  let first ← evalScript ctx scriptSig {}
  let result ← evalScript ctx scriptPubKey first
  requireTrue result
  let (hadWitness, verified) ← verifyWitness ctx scriptPubKey (scriptSig != []) .witnessMalleated
    witness result.verified
  let stack := if hadWitness then result.stack.take 1 else result.stack
  let (result, hadWitness) ←
    if flags.p2sh ∧ isPayToScriptHash scriptPubKey then do
      let (result, redeemed) ← verifyRedeemScript ctx scriptSig witness first.stack verified
      pure (result, hadWitness || redeemed)
    else pure (⟨stack, verified⟩, hadWitness)
  require (flags.cleanStack = false ∨ result.stack.length = 1) ScriptError.cleanStack
  require (flags.witness = false ∨ hadWitness ∨ witness = []) ScriptError.witnessUnexpected
  pure result.verified

/-! ## Checking against a transaction -/

def checkSig (env : Env) (txTo : CTransaction) (nIn : Nat) (amount : CAmount)
    (vchSigIn vchPubKey : Bytes) (scriptCode : CScript) (sigversion : SigVersion) : Bool :=
  let pubkey := CPubKey.set vchPubKey
  CPubKey.isValid pubkey &&
    match vchSigIn.getLast? with
    | none => false
    | some nHashType =>
      let sighash := env.signatureHash scriptCode txTo nIn nHashType amount sigversion
      env.ecPubkeyParse pubkey && vchSigIn.dropLast != [] &&
        env.ecdsaVerify pubkey vchSigIn.dropLast sighash

/-- `CheckLockTime`: both times are heights or both are dates, and the
transaction's is not earlier. -/
def checkLockTime (txTo : CTransaction) (nIn : Nat) (nLockTime : Int) : Bool :=
  let txLockTime : Int := txTo.nLockTime
  (txLockTime < lockTimeThreshold) == (nLockTime < lockTimeThreshold) &&
    nLockTime ≤ txLockTime && (txTo.vin[nIn]?.map CTxIn.nSequence) != some sequenceFinal

def checkSequence (txTo : CTransaction) (nIn : Nat) (nSequence : Int) : Bool :=
  let txToSequence := (txTo.vin[nIn]?.map CTxIn.nSequence).getD 0
  let nLockTimeMask := sequenceLockTimeTypeFlag ||| sequenceLockTimeMask
  let txToSequenceMasked := txToSequence &&& nLockTimeMask
  let nSequenceMasked := nSequence.toNat &&& nLockTimeMask
  txTo.nVersion != 0 && txTo.nVersion != 1 && txToSequence &&& sequenceLockTimeDisableFlag == 0 &&
    (txToSequenceMasked < sequenceLockTimeTypeFlag) ==
      (nSequenceMasked < sequenceLockTimeTypeFlag) &&
    nSequenceMasked ≤ txToSequenceMasked

def transactionChecker (env : Env) (txTo : CTransaction) (nIn : Nat) (amount : CAmount) :
    Checker where
  checkSig := checkSig env txTo nIn amount
  checkLockTime := checkLockTime txTo nIn
  checkSequence := checkSequence txTo nIn

end KubuCore.Script
