import KubuCore.Base.Checked
import KubuCore.Script.Script

/-!
# Script values

Numbers on the script stack (`CScriptNum`), their truth value, and the
encoding rules for signatures, keys and pushes of `script/interpreter.cpp`.
-/

namespace KubuCore.Script

open Checked

/-- `ScriptError`, without the success value. -/
inductive ScriptError where
  | unknownError
  | evalFalse
  | opReturn
  | scriptSize
  | pushSize
  | opCount
  | stackSize
  | sigCount
  | pubKeyCount
  | verify
  | equalVerify
  | checkMultiSigVerify
  | checkSigVerify
  | numEqualVerify
  | badOpcode
  | disabledOpcode
  | invalidStackOperation
  | invalidAltStackOperation
  | unbalancedConditional
  | negativeLockTime
  | unsatisfiedLockTime
  | sigHashType
  | sigDer
  | minimalData
  | sigPushOnly
  | sigHighS
  | sigNullDummy
  | pubKeyType
  | cleanStack
  | minimalIf
  | sigNullFail
  | discourageUpgradableNops
  | discourageUpgradableWitnessProgram
  | witnessProgramWrongLength
  | witnessProgramWitnessEmpty
  | witnessProgramMismatch
  | witnessMalleated
  | witnessMalleatedP2SH
  | witnessUnexpected
  | witnessPubKeyType
deriving DecidableEq, Repr

/-- The `SCRIPT_VERIFY_*` flags. -/
structure Flags where
  p2sh : Bool := false
  strictEnc : Bool := false
  derSig : Bool := false
  lowS : Bool := false
  nullDummy : Bool := false
  sigPushOnly : Bool := false
  minimalData : Bool := false
  discourageUpgradableNops : Bool := false
  cleanStack : Bool := false
  checkLockTimeVerify : Bool := false
  checkSequenceVerify : Bool := false
  witness : Bool := false
  discourageUpgradableWitnessProgram : Bool := false
  minimalIf : Bool := false
  nullFail : Bool := false
  witnessPubKeyType : Bool := false
deriving DecidableEq, Repr

/-! ## Truth and numbers -/

/-- `CastToBool`: false is zero or negative zero of any length. -/
def castToBool : Bytes → Bool
  | [] => false
  | [b] => b != 0 && b != 0x80
  | b :: rest => b != 0 || castToBool rest

def vchFalse : Bytes := []

def vchTrue : Bytes := [1]

def ofBool (b : Bool) : Bytes := if b then vchTrue else vchFalse

/-- `CScriptNum::set_vch`: little endian with a sign bit. -/
def setVch (vch : Bytes) : Int :=
  match vch.getLast? with
  | none => 0
  | some msb =>
    if msb &&& 0x80 ≠ 0 then -((readLE vch : Int) - 0x80 * 256 ^ (vch.length - 1))
    else readLE vch

/-- The bytes of a magnitude, lowest first. An `int64_t` has at most eight. -/
def magnitude : Nat → Nat → Bytes
  | 0, _ => []
  | fuel + 1, absvalue =>
    if absvalue = 0 then [] else UInt8.ofNat absvalue :: magnitude fuel (absvalue / 256)

def serialize (value : Int) : Bytes :=
  let result := magnitude 8 value.natAbs
  match result.getLast? with
  | none => []
  | some msb =>
    if msb &&& 0x80 ≠ 0 then result ++ [if value < 0 then 0x80 else 0]
    else if value < 0 then result.dropLast ++ [msb ||| 0x80]
    else result

def isMinimalNumber (vch : Bytes) : Bool :=
  match vch.reverse with
  | [] => true
  | [msb] => msb &&& 0x7f != 0
  | msb :: next :: _ => msb &&& 0x7f != 0 || next &&& 0x80 != 0

/-- The constructor of `CScriptNum` from bytes; what it throws is caught by
`EvalScript` and becomes the unknown error. -/
def scriptNum (vch : Bytes) (fRequireMinimal : Bool) (nMaxNumSize : Nat) :
    Except ScriptError Int := do
  require (vch.length ≤ nMaxNumSize) ScriptError.unknownError
  require (fRequireMinimal = false ∨ isMinimalNumber vch) ScriptError.unknownError
  pure (setVch vch)

def nDefaultMaxNumSize : Nat := 4

/-! ## Encodings -/

def isCompressedOrUncompressedPubKey (vchPubKey : Bytes) : Bool :=
  match vchPubKey with
  | [] => false
  | header :: _ =>
    if vchPubKey.length < 33 then false
    else if header = 4 then vchPubKey.length == 65
    else if header = 2 ∨ header = 3 then vchPubKey.length == 33
    else false

def isCompressedPubKey (vchPubKey : Bytes) : Bool :=
  vchPubKey.length == 33 && (vchPubKey.head? == some 2 || vchPubKey.head? == some 3)

/-- An integer of a DER signature: not empty, not negative and not padded. -/
def isDerInteger (bytes : Bytes) : Bool :=
  match bytes with
  | [] => false
  | [b] => b &&& 0x80 == 0
  | b :: next :: _ => b &&& 0x80 == 0 && !(b == 0 && next &&& 0x80 == 0)

/-- `IsValidSignatureEncoding`: `0x30`, a length, `0x02` and R, `0x02` and S,
and the hash type. -/
def isValidSignatureEncoding (sig : Bytes) : Bool :=
  match sig with
  | tag :: total :: tagR :: lenR :: body =>
    let lenS := (sig.drop (5 + lenR.toNat)).headD 0
    9 ≤ sig.length && sig.length ≤ 73 && tag == 0x30 && total.toNat + 3 == sig.length &&
      5 + lenR.toNat < sig.length && lenR.toNat + lenS.toNat + 7 == sig.length &&
      tagR == 0x02 && isDerInteger (body.take lenR.toNat) &&
      (sig.drop (lenR.toNat + 4)).headD 0 == 0x02 &&
      isDerInteger ((sig.drop (lenR.toNat + 6)).take lenS.toNat)
  | _ => false

def isDefinedHashtypeSignature (vchSig : Bytes) : Bool :=
  match vchSig.getLast? with
  | none => false
  | some nHashType =>
    let nHashType := nHashType &&& 0x7f
    1 ≤ nHashType && nHashType ≤ 3

def checkSignatureEncoding (env : Env) (flags : Flags) (vchSig : Bytes) :
    Except ScriptError Unit := do
  if vchSig = [] then pure ()
  else
    require (¬ (flags.derSig ∨ flags.lowS ∨ flags.strictEnc) ∨ isValidSignatureEncoding vchSig)
      ScriptError.sigDer
    require (flags.lowS = false ∨ env.checkLowS vchSig.dropLast) ScriptError.sigHighS
    require (flags.strictEnc = false ∨ isDefinedHashtypeSignature vchSig) ScriptError.sigHashType

def checkPubKeyEncoding (flags : Flags) (sigversion : SigVersion) (vchPubKey : Bytes) :
    Except ScriptError Unit := do
  require (flags.strictEnc = false ∨ isCompressedOrUncompressedPubKey vchPubKey)
    ScriptError.pubKeyType
  require (flags.witnessPubKeyType = false ∨ sigversion ≠ .witnessV0 ∨ isCompressedPubKey vchPubKey)
    ScriptError.witnessPubKeyType

def checkMinimalPush (data : Bytes) (opcode : UInt8) : Bool :=
  match data with
  | [] => opcode == op0
  | [b] =>
    if 1 ≤ b ∧ b ≤ 16 then opcode == op1 + (b - 1)
    else if b = 0x81 then opcode == op1Negate
    else opcode == 1
  | _ =>
    if data.length ≤ 75 then opcode.toNat == data.length
    else if data.length ≤ 255 then opcode == opPushData1
    else if data.length ≤ 65535 then opcode == opPushData2
    else true

end KubuCore.Script
