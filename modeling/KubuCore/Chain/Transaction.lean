import KubuCore.Chain.Coins
import KubuCore.Script.Interpreter

/-!
# Checking transactions

`CheckTransaction`, `CheckTxInputs` and `CheckInputs` of `validation.cpp`. A
rejection carries the score, code and reason that the source leaves in
`CValidationState`.
-/

namespace KubuCore.Chain

open Checked
open Script

/-- The contents of an invalid `CValidationState`. -/
structure Reject where
  nDoS : Nat
  chRejectCode : Nat
  strRejectReason : String
deriving DecidableEq, Repr

def rejectInvalid : Nat := 0x10
def rejectDuplicate : Nat := 0x12
def rejectNonstandard : Nat := 0x40
def rejectInsufficientFee : Nat := 0x42
def rejectHighFee : Nat := 0x100
def rejectAlreadyKnown : Nat := 0x101
def rejectConflict : Nat := 0x102

def maxBlockBaseSize : Nat := 1000000

/-! ## Without context -/

def compactSizeLength (n : Nat) : Nat :=
  if n < 253 then 1 else if n ≤ 0xffff then 3 else if n ≤ 0xffffffff then 5 else 9

def scriptSize (script : CScript) : Nat := compactSizeLength script.length + script.length

/-- The serialized size without witness data. -/
def getSerializeSize (tx : CTransaction) : Nat :=
  4 + compactSizeLength tx.vin.length + (tx.vin.map fun txin => 40 + scriptSize txin.scriptSig).sum +
    compactSizeLength tx.vout.length +
    (tx.vout.map fun txout => 8 + scriptSize txout.scriptPubKey).sum + 4

/-- The output loop of `CheckTransaction` with the total so far. -/
def checkOutputs (nValueOut : CAmount) : List CTxOut → Except Reject Unit
  | [] => .ok ()
  | txout :: rest => do
    require (0 ≤ txout.nValue) (⟨100, rejectInvalid, "bad-txns-vout-negative"⟩ : Reject)
    require (txout.nValue ≤ maxMoney) (⟨100, rejectInvalid, "bad-txns-vout-toolarge"⟩ : Reject)
    let nValueOut := nValueOut + txout.nValue
    require (moneyRange nValueOut)
      (⟨100, rejectInvalid, "bad-txns-txouttotal-toolarge"⟩ : Reject)
    checkOutputs nValueOut rest

/-- `CheckTransaction`, with the check for duplicate inputs. -/
def checkTransaction (tx : CTransaction) : Except Reject Unit := do
  require (tx.vin ≠ []) (⟨10, rejectInvalid, "bad-txns-vin-empty"⟩ : Reject)
  require (tx.vout ≠ []) (⟨10, rejectInvalid, "bad-txns-vout-empty"⟩ : Reject)
  require (getSerializeSize tx ≤ maxBlockBaseSize)
    (⟨100, rejectInvalid, "bad-txns-oversize"⟩ : Reject)
  checkOutputs 0 tx.vout
  require (tx.vin.map CTxIn.prevout).Nodup
    (⟨100, rejectInvalid, "bad-txns-inputs-duplicate"⟩ : Reject)
  if tx.isCoinBase then
    require (tx.vin.all fun txin => 2 ≤ txin.scriptSig.length && txin.scriptSig.length ≤ 100)
      (⟨100, rejectInvalid, "bad-cb-length"⟩ : Reject)
  else
    require (tx.vin.all fun txin => !txin.prevout.isNull)
      (⟨10, rejectInvalid, "bad-txns-prevout-null"⟩ : Reject)

/-! ## Against the spent outputs -/

/-- The input loop of `CheckTxInputs`: the value in. -/
def checkInputValues (consensus : Consensus) (inputs : CoinsView) (nSpendHeight : Int)
    (nValueIn : CAmount) : List CTxIn → Except Reject CAmount
  | [] => .ok nValueIn
  | txin :: rest => do
    let coins := coinsOf inputs txin.prevout.hash
    require (coins.fCoinBase = false ∨
        consensus.nCoinbaseMaturity coins.nHeight ≤ nSpendHeight - coins.nHeight)
      (⟨0, rejectInvalid, "bad-txns-premature-spend-of-coinbase"⟩ : Reject)
    let nValue := (coins.vout.getD txin.prevout.n .null).nValue
    let nValueIn := nValueIn + nValue
    require (moneyRange nValue ∧ moneyRange nValueIn)
      (⟨100, rejectInvalid, "bad-txns-inputvalues-outofrange"⟩ : Reject)
    checkInputValues consensus inputs nSpendHeight nValueIn rest

def checkTxInputs (consensus : Consensus) (inputs : CoinsView) (tx : CTransaction)
    (nSpendHeight : Int) : Except Reject Unit := do
  require (haveInputs inputs tx) (⟨0, 0, ""⟩ : Reject)
  let nValueIn ← checkInputValues consensus inputs nSpendHeight 0 tx.vin
  require (tx.getValueOut ≤ nValueIn) (⟨100, rejectInvalid, "bad-txns-in-belowout"⟩ : Reject)
  let nTxFee := nValueIn - tx.getValueOut
  require (0 ≤ nTxFee) (⟨100, rejectInvalid, "bad-txns-fee-negative"⟩ : Reject)
  require (moneyRange nTxFee) (⟨100, rejectInvalid, "bad-txns-fee-outofrange"⟩ : Reject)

/-! ## Scripts -/

def scriptErrorString : ScriptError → String
  | .evalFalse =>
    "Script evaluated without error but finished with a false/empty top stack element"
  | .verify => "Script failed an OP_VERIFY operation"
  | .equalVerify => "Script failed an OP_EQUALVERIFY operation"
  | .checkMultiSigVerify => "Script failed an OP_CHECKMULTISIGVERIFY operation"
  | .checkSigVerify => "Script failed an OP_CHECKSIGVERIFY operation"
  | .numEqualVerify => "Script failed an OP_NUMEQUALVERIFY operation"
  | .scriptSize => "Script is too big"
  | .pushSize => "Push value size limit exceeded"
  | .opCount => "Operation limit exceeded"
  | .stackSize => "Stack size limit exceeded"
  | .sigCount => "Signature count negative or greater than pubkey count"
  | .pubKeyCount => "Pubkey count negative or limit exceeded"
  | .badOpcode => "Opcode missing or not understood"
  | .disabledOpcode => "Attempted to use a disabled opcode"
  | .invalidStackOperation => "Operation not valid with the current stack size"
  | .invalidAltStackOperation => "Operation not valid with the current altstack size"
  | .opReturn => "OP_RETURN was encountered"
  | .unbalancedConditional => "Invalid OP_IF construction"
  | .negativeLockTime => "Negative locktime"
  | .unsatisfiedLockTime => "Locktime requirement not satisfied"
  | .sigHashType => "Signature hash type missing or not understood"
  | .sigDer => "Non-canonical DER signature"
  | .minimalData => "Data push larger than necessary"
  | .sigPushOnly => "Only non-push operators allowed in signatures"
  | .sigHighS => "Non-canonical signature: S value is unnecessarily high"
  | .sigNullDummy => "Dummy CHECKMULTISIG argument must be zero"
  | .minimalIf => "OP_IF/NOTIF argument must be minimal"
  | .sigNullFail => "Signature must be zero for failed CHECK(MULTI)SIG operation"
  | .discourageUpgradableNops => "NOPx reserved for soft-fork upgrades"
  | .discourageUpgradableWitnessProgram => "Witness version reserved for soft-fork upgrades"
  | .pubKeyType => "Public key is neither compressed or uncompressed"
  | .witnessProgramWrongLength => "Witness program has incorrect length"
  | .witnessProgramWitnessEmpty => "Witness program was passed an empty witness"
  | .witnessProgramMismatch => "Witness program hash mismatch"
  | .witnessMalleated => "Witness requires empty scriptSig"
  | .witnessMalleatedP2SH => "Witness requires only-redeemscript scriptSig"
  | .witnessUnexpected => "Witness provided for non-witness script"
  | .witnessPubKeyType => "Using non-compressed keys in segwit"
  | .unknownError | .cleanStack => "unknown error"

/-- The flags every script must satisfy, in blocks and in the memory pool. -/
def mandatoryScriptVerifyFlags : Flags := { p2sh := true }

def standardScriptVerifyFlags : Flags :=
  { p2sh := true, derSig := true, strictEnc := true, minimalData := true, nullDummy := true
    discourageUpgradableNops := true, cleanStack := true, minimalIf := true, nullFail := true
    checkLockTimeVerify := true, checkSequenceVerify := true, lowS := true, witness := true
    discourageUpgradableWitnessProgram := true, witnessPubKeyType := true }

/-- The flags of `flags` that are mandatory. -/
def mandatoryPart (flags : Flags) : Flags :=
  { flags with
    derSig := false, strictEnc := false, minimalData := false, nullDummy := false
    discourageUpgradableNops := false, cleanStack := false, minimalIf := false, nullFail := false
    checkLockTimeVerify := false, checkSequenceVerify := false, lowS := false, witness := false
    discourageUpgradableWitnessProgram := false, witnessPubKeyType := false }

/-- One `CScriptCheck`: verify input `nIn` against the output it spends. -/
def scriptCheck (env : Env) (flags : Flags) (tx : CTransaction) (nIn : Nat) (txin : CTxIn)
    (txout : CTxOut) : Except ScriptError (List Bytes) :=
  verifyScript env (transactionChecker env tx nIn txout.nValue) flags txin.scriptSig
    txout.scriptPubKey txin.scriptWitness

/-- The script loop of `CheckInputs`. A failure that disappears under the
mandatory flags is not held against the sender. -/
def checkScripts (env : Env) (inputs : CoinsView) (flags : Flags) (tx : CTransaction) :
    Nat → List CTxIn → Except Reject Unit
  | _, [] => .ok ()
  | nIn, txin :: rest =>
    let txout := (coinsOf inputs txin.prevout.hash).vout.getD txin.prevout.n .null
    match scriptCheck env flags tx nIn txin txout with
    | .ok _ => checkScripts env inputs flags tx (nIn + 1) rest
    | .error serror =>
      if mandatoryPart flags ≠ flags ∧
          (scriptCheck env (mandatoryPart flags) tx nIn txin txout).toBool then
        .error ⟨0, rejectNonstandard,
          "non-mandatory-script-verify-flag (" ++ scriptErrorString serror ++ ")"⟩
      else
        .error ⟨100, rejectInvalid,
          "mandatory-script-verify-flag-failed (" ++ scriptErrorString serror ++ ")"⟩

def checkInputs (env : Env) (inputs : CoinsView) (tx : CTransaction) (nSpendHeight : Int)
    (fScriptChecks : Bool) (flags : Flags) : Except Reject Unit :=
  if tx.isCoinBase then .ok ()
  else do
    checkTxInputs env.consensus inputs tx nSpendHeight
    if fScriptChecks then checkScripts env inputs flags tx 0 tx.vin else pure ()

end KubuCore.Chain
