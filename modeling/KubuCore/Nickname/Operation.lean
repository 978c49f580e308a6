import KubuCore.Nickname.Names
import KubuCore.Script.Script

/-!
# Nickname operations carried by transactions

Decoding of the payload in an `OP_RETURN` output (`nicknameop.cpp`) and the
search for the one operation of a transaction (`validation.cpp`).
-/

namespace KubuCore.Nickname

open Checked
open Script

inductive NicknameOpType where
  | none
  | register
  | update
  | transfer
  | renew
  | release
  | claimBond
deriving DecidableEq, Repr

def nicknameOpTypeToString : NicknameOpType → String
  | .register => "NAME_REGISTER"
  | .update => "NAME_UPDATE"
  | .transfer => "NAME_TRANSFER"
  | .renew => "NAME_RENEW"
  | .release => "NAME_RELEASE"
  | .claimBond => "NAME_CLAIM_BOND"
  | .none => "NONE"

structure NicknameOperation where
  type : NicknameOpType := .none
  nickname : Bytes := []
  ownerPubKey : Bytes := []
  payoutAddress : String := ""
  newOwnerPubKey : Bytes := []
deriving DecidableEq, Repr

/-- The magic bytes `KNA1`. -/
def kubuNicknameMagic : Bytes := [0x4b, 0x4e, 0x41, 0x31]

def destPKH : UInt8 := 1
def destSH : UInt8 := 2

/-! ## Reading a data stream -/

/-- The wide forms of `ReadCompactSize`, which must not fit a shorter form. -/
def readWideSize (width least : Nat) (stream : Bytes) : Option (Nat × Bytes) :=
  if stream.length < width then none
  else
    let nSize := readLE (stream.take width)
    if nSize < least ∨ maxSize < nSize then none else some (nSize, stream.drop width)

def readCompactSize : Bytes → Option (Nat × Bytes)
  | [] => none
  | chSize :: rest =>
    if chSize < 253 then some (chSize.toNat, rest)
    else if chSize = 253 then readWideSize 2 253 rest
    else if chSize = 254 then readWideSize 4 0x10000 rest
    else readWideSize 8 0x100000000 rest

/-- Read a string or byte vector with its length in front. -/
def readVector (stream : Bytes) : Option (Bytes × Bytes) :=
  match readCompactSize stream with
  | none => none
  | some (nSize, rest) =>
    if rest.length < nSize then none else some (rest.take nSize, rest.drop nSize)

def readBytes (stream : Bytes) (maxLen : Nat) : Except String (Bytes × Bytes) :=
  match readVector stream with
  | none => .error "failed to deserialize nickname operation field"
  | some (data, rest) => do
    require (data.length ≤ maxLen) "nickname operation field exceeds limit"
    pure (data, rest)

def decodeDestinationBytes (env : Env) (encoded : Bytes) : Except String String :=
  match encoded with
  | tag :: hash =>
    if h : hash.length = 20 then
      if tag = destPKH then .ok (env.addressToString (.keyID ⟨hash, h⟩))
      else if tag = destSH then .ok (env.addressToString (.scriptID ⟨hash, h⟩))
      else .error "unknown compact destination type"
    else .error "invalid compact destination payload"
  | [] => .error "invalid compact destination payload"

/-! ## Decoding an operation -/

/-- The fields that follow the name, by operation type. -/
def readFields (env : Env) (opType : UInt8) (nickname payload : Bytes) :
    Except String NicknameOperation :=
  if opType = 1 then do
    let (ownerPubKey, payload) ← readBytes payload compressedSize
    require (ownerPubKey.length = compressedSize)
      "register operation requires compressed owner pubkey"
    let (payoutBytes, _) ← readBytes payload 21
    let payoutAddress ← decodeDestinationBytes env payoutBytes
    pure { type := .register, nickname, ownerPubKey, payoutAddress }
  else if opType = 2 then do
    let (payoutBytes, _) ← readBytes payload 21
    let payoutAddress ← decodeDestinationBytes env payoutBytes
    pure { type := .update, nickname, payoutAddress }
  else if opType = 3 then do
    let (newOwnerPubKey, _) ← readBytes payload compressedSize
    require (newOwnerPubKey.length = compressedSize)
      "transfer operation requires compressed new owner pubkey"
    pure { type := .transfer, nickname, newOwnerPubKey }
  else if opType = 4 then .ok { type := .renew, nickname }
  else if opType = 5 then .ok { type := .release, nickname }
  else if opType = 6 then .ok { type := .claimBond, nickname }
  else .error "unknown nickname operation type"

/-- `ExtractNicknameOperation`. Bytes after the last field are ignored. -/
def extractNicknameOperation (env : Env) (script : CScript) : Except String NicknameOperation :=
  match getOp script with
  | none => .error "script is not an OP_RETURN nickname operation"
  | some (opcode, _, rest) =>
    if opcode ≠ opReturn then .error "script is not an OP_RETURN nickname operation"
    else
      match getOp rest with
      | some (_, pushed, []) => do
        require (kubuNicknameMagic.length ≤ pushed.length) "nickname payload is truncated"
        require (pushed.take kubuNicknameMagic.length = kubuNicknameMagic)
          "nickname payload magic mismatch"
        match pushed.drop kubuNicknameMagic.length with
        | [] => .error "nickname payload is malformed"
        | opType :: payload =>
          match readVector payload with
          | none => .error "nickname payload is malformed"
          | some (nickname, payload) => do
            Nicknames.isValidNormalizedNickname nickname
            readFields env opType nickname payload
      | _ => .error "nickname operation must contain a single pushed payload"

/-- Whether an output announces a nickname operation: one push after
`OP_RETURN`, starting with the magic bytes. -/
def hasNicknameMagic (script : CScript) : Bool :=
  match getOp script with
  | none => false
  | some (opcode, _, rest) =>
    opcode == opReturn &&
      match getOp rest with
      | some (_, pushed, []) => pushed.take kubuNicknameMagic.length == kubuNicknameMagic
      | _ => false

/-- `ParseNicknameOpScript`; `none` where the source leaves `hasNicknameOp`
false. -/
def parseNicknameOpScript (env : Env) (script : CScript) :
    Except String (Option NicknameOperation) :=
  if hasNicknameMagic script then
    match extractNicknameOperation env script with
    | .ok operation => .ok (some operation)
    | .error reason =>
      .error (if reason = "" then "failed to decode nickname operation payload" else reason)
  else .ok none

/-- The output loop of `ExtractNicknameOperationFromTx`. -/
def extractFromOutputs (env : Env) (found : Option NicknameOperation) :
    List CTxOut → Except String (Option NicknameOperation)
  | [] => .ok found
  | output :: rest => do
    match ← parseNicknameOpScript env output.scriptPubKey with
    | none => extractFromOutputs env found rest
    | some candidate =>
      require (found = none) "transaction contains multiple nickname operations"
      extractFromOutputs env (some candidate) rest

def extractNicknameOperationFromTx (env : Env) (tx : CTransaction) :
    Except String (Option NicknameOperation) :=
  extractFromOutputs env none tx.vout

/-! ## What a decoded operation satisfies -/

/-- Guarantees of the decoder: the name is valid and the type is one of the
six that can be encoded. -/
structure NicknameOperation.WellFormed (operation : NicknameOperation) : Prop where
  validName : Nicknames.isValidNormalizedNickname operation.nickname = .ok ()
  typed : operation.type ≠ .none

variable {env : Env} {operation : NicknameOperation}

section

variable {opType : UInt8} {nickname payload : Bytes}
  (h : readFields env opType nickname payload = .ok operation)
include h

theorem readFields_spec : operation.nickname = nickname ∧ operation.type ≠ .none := by
  unfold readFields at h
  split_ifs at h
  · simp only [eq_ok] at h
    obtain ⟨_, -, _, -, _, -, _, -, rfl⟩ := h
    exact ⟨rfl, by simp⟩
  · simp only [eq_ok] at h
    obtain ⟨_, -, _, -, rfl⟩ := h
    exact ⟨rfl, by simp⟩
  · simp only [eq_ok] at h
    obtain ⟨_, -, _, -, rfl⟩ := h
    exact ⟨rfl, by simp⟩
  all_goals
    cases h
    exact ⟨rfl, by simp⟩

/-- The payout address was formatted from a destination, where there is one. -/
theorem readFields_payoutAddress :
    operation.payoutAddress = "" ∨
      ∃ destination, operation.payoutAddress = env.addressToString destination := by
  have decoded : ∀ {encoded : Bytes} {address : String},
      decodeDestinationBytes env encoded = .ok address →
      ∃ destination, address = env.addressToString destination := by
    intro encoded address hd
    unfold decodeDestinationBytes at hd
    split at hd
    · split_ifs at hd <;> cases hd <;> exact ⟨_, rfl⟩
    · cases hd
  unfold readFields at h
  split_ifs at h
  · simp only [eq_ok] at h
    obtain ⟨_, -, _, -, _, -, address, haddress, rfl⟩ := h
    exact .inr (decoded haddress)
  · simp only [eq_ok] at h
    obtain ⟨_, -, address, haddress, rfl⟩ := h
    exact .inr (decoded haddress)
  · simp only [eq_ok] at h
    obtain ⟨_, -, _, -, rfl⟩ := h
    exact .inl rfl
  all_goals
    cases h
    exact .inl rfl

end

/-- The operation was decoded from fields that follow a valid name. -/
def FromFields (env : Env) (operation : NicknameOperation) : Prop :=
  ∃ opType nickname payload, Nicknames.isValidNormalizedNickname nickname = .ok () ∧
    readFields env opType nickname payload = .ok operation

theorem extractNicknameOperation_fields {script : CScript}
    (h : extractNicknameOperation env script = .ok operation) : FromFields env operation := by
  unfold extractNicknameOperation at h
  split at h
  · cases h
  · split_ifs at h
    split at h
    · simp only [eq_ok] at h
      obtain ⟨-, -, -, -, h⟩ := h
      split at h
      · cases h
      · split at h
        · cases h
        · obtain ⟨_, valid, fields⟩ := bind_eq_ok.mp h
          exact ⟨_, _, _, valid, fields⟩
    · cases h

theorem parseNicknameOpScript_fields {script : CScript}
    (h : parseNicknameOpScript env script = .ok (some operation)) : FromFields env operation := by
  unfold parseNicknameOpScript at h
  split_ifs at h
  split at h
  · rename_i found
    cases h
    exact extractNicknameOperation_fields found
  · cases h
  · cases h

theorem extractFromOutputs_fields {outputs : List CTxOut} {found result : Option NicknameOperation}
    (hf : ∀ operation, found = some operation → FromFields env operation)
    (h : extractFromOutputs env found outputs = .ok result) :
    ∀ operation, result = some operation → FromFields env operation := by
  induction outputs generalizing found with
  | nil =>
    cases h
    exact hf
  | cons output rest ih =>
    simp only [extractFromOutputs, bind_eq_ok] at h
    obtain ⟨candidate, parsed, h⟩ := h
    cases candidate with
    | none => exact ih hf h
    | some candidate =>
      simp only [eq_ok] at h
      obtain ⟨-, -, h⟩ := h
      refine ih ?_ h
      rintro _ ⟨⟩
      exact parseNicknameOpScript_fields parsed

section

variable {tx : CTransaction} (h : extractNicknameOperationFromTx env tx = .ok (some operation))
include h

theorem extractNicknameOperationFromTx_fields : FromFields env operation :=
  extractFromOutputs_fields (by simp) h operation rfl

/-- The operation of a transaction names a valid nickname. -/
theorem extractNicknameOperationFromTx_wellFormed : operation.WellFormed := by
  obtain ⟨opType, nickname, payload, valid, fields⟩ := extractNicknameOperationFromTx_fields h
  obtain ⟨name, typed⟩ := readFields_spec fields
  exact ⟨name ▸ valid, typed⟩

end

end KubuCore.Nickname
