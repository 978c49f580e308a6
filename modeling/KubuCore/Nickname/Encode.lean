import KubuCore.Nickname.Serialization
import KubuCore.Script.Pushes

/-!
# Encoding nickname operations

`BuildNicknameOpScript` of `nicknameop.cpp`, and that the validator reads back
the operation with its name normalized (`extract_build`).
-/

namespace KubuCore.Nickname

open Checked
open Nicknames
open Script

def NicknameOpType.toByte : NicknameOpType → UInt8
  | .none => 0
  | .register => 1
  | .update => 2
  | .transfer => 3
  | .renew => 4
  | .release => 5
  | .claimBond => 6

def maxOpReturnRelay : Nat := 83

def destinationBytes : CTxDestination → Bytes
  | .keyID hash => destPKH :: hash.val
  | .scriptID hash => destSH :: hash.val

section Encode

-- `CBitcoinAddress`: the destination of a valid address.
variable (parseAddress : String → Option CTxDestination)

def encodeDestinationBytes (address : String) : Except String Bytes :=
  match parseAddress address with
  | some dest => .ok (destinationBytes dest)
  | none => .error "invalid payout address"

/-- The payout field, which only two types of operation have. -/
def payoutBytes (operation : NicknameOperation) : Except String Bytes :=
  if operation.type = .register ∨ operation.type = .update then
    encodeDestinationBytes parseAddress operation.payoutAddress
  else .ok []

/-- The fields that follow the name. -/
def writeFields (operation : NicknameOperation) (payout : Bytes) : Except String Bytes :=
  match operation.type with
  | .register => .ok (writeVector operation.ownerPubKey ++ writeVector payout)
  | .update => .ok (writeVector payout)
  | .transfer => .ok (writeVector operation.newOwnerPubKey)
  | .renew | .release | .claimBond => .ok []
  | .none => .error "unknown nickname operation type"

def buildNicknameOpScript (operation : NicknameOperation) : Except String CScript := do
  let normalized := normalizeNickname operation.nickname
  isValidNormalizedNickname normalized
  let payout ← payoutBytes parseAddress operation
  require ((operation.type = .register → operation.ownerPubKey.length = compressedSize) ∧
    (operation.type = .transfer → operation.newOwnerPubKey.length = compressedSize))
    "nickname operations currently require compressed pubkeys"
  let fields ← writeFields operation payout
  let payload := kubuNicknameMagic ++ operation.type.toByte :: (writeVector normalized ++ fields)
  require (payload.length ≤ maxOpReturnRelay)
    "nickname operation exceeds current OP_RETURN relay limit"
  pure (opReturn :: pushBytes payload)

/-! ## Reading back -/

/-- The operation the validator sees: its name normalized, its address formatted from the
destination, and only the fields its type has. -/
def decodedOperation (env : Env) (operation : NicknameOperation) : NicknameOperation :=
  let nickname := normalizeNickname operation.nickname
  let payoutAddress := ((parseAddress operation.payoutAddress).map env.addressToString).getD ""
  match operation.type with
  | .register =>
    { type := .register, nickname, ownerPubKey := operation.ownerPubKey, payoutAddress }
  | .update => { type := .update, nickname, payoutAddress }
  | .transfer => { type := .transfer, nickname, newOwnerPubKey := operation.newOwnerPubKey }
  | type => { type, nickname }

variable {parseAddress}

theorem destinationBytes_length (dest : CTxDestination) : (destinationBytes dest).length = 21 := by
  cases dest with
  | keyID hash => rw [destinationBytes, List.length_cons, hash.property]
  | scriptID hash => rw [destinationBytes, List.length_cons, hash.property]

theorem decodeDestinationBytes_destinationBytes (env : Env) (dest : CTxDestination) :
    decodeDestinationBytes env (destinationBytes dest) = .ok (env.addressToString dest) := by
  cases dest with
  | keyID hash => rw [destinationBytes, decodeDestinationBytes, dif_pos hash.property, if_pos rfl]
  | scriptID hash =>
    rw [destinationBytes, decodeDestinationBytes, dif_pos hash.property, if_neg (by decide),
      if_pos rfl]

theorem readBytes_writeVector {data : Bytes} {maxLen : Nat} (rest : Bytes)
    (hmax : data.length ≤ maxLen) (hsize : data.length ≤ maxSize) :
    readBytes (writeVector data ++ rest) maxLen = .ok (data, rest) := by
  rw [readBytes, readVector_writeVector rest hsize]
  simp [hmax, pure, Except.pure]

theorem readBytes_destination (dest : CTxDestination) :
    readBytes (writeVector (destinationBytes dest)) 21 = .ok (destinationBytes dest, []) := by
  have hlen := destinationBytes_length dest
  have hread : readBytes (writeVector (destinationBytes dest) ++ []) 21 = _ :=
    readBytes_writeVector [] hlen.le (hlen ▸ by decide)
  rwa [List.append_nil] at hread

variable {operation : NicknameOperation} {payout : Bytes} {env : Env}

theorem payoutBytes_spec (htype : operation.type = .register ∨ operation.type = .update)
    (h : payoutBytes parseAddress operation = .ok payout) :
    ∃ dest, parseAddress operation.payoutAddress = some dest ∧ payout = destinationBytes dest := by
  rw [payoutBytes, if_pos htype, encodeDestinationBytes] at h
  split at h
  · rename_i dest hparse
    cases h
    exact ⟨dest, hparse, rfl⟩
  · cases h

/-- The fields of a type are read back as they were written. -/
theorem readFields_writeFields {fields : Bytes}
    (hpayout : payoutBytes parseAddress operation = .ok payout)
    (howner : operation.type = .register → operation.ownerPubKey.length = compressedSize)
    (hnew : operation.type = .transfer → operation.newOwnerPubKey.length = compressedSize)
    (h : writeFields operation payout = .ok fields) :
    readFields env operation.type.toByte (normalizeNickname operation.nickname) fields =
      .ok (decodedOperation parseAddress env operation) := by
  have hkey : compressedSize ≤ maxSize := by decide
  cases htype : operation.type with
  | none =>
    rw [writeFields, htype] at h
    cases h
  | register =>
    rw [writeFields, htype] at h
    cases h
    obtain ⟨dest, hparse, rfl⟩ := payoutBytes_spec (.inl htype) hpayout
    have hlen := howner htype
    simp only [readFields,
      readBytes_writeVector _ hlen.le (hlen.le.trans hkey), ok_bind, require, if_pos hlen,
      readBytes_destination, decodeDestinationBytes_destinationBytes, decodedOperation, htype,
      hparse]
    rfl
  | update =>
    rw [writeFields, htype] at h
    cases h
    obtain ⟨dest, hparse, rfl⟩ := payoutBytes_spec (.inr htype) hpayout
    simp only [readFields, ok_bind,
      readBytes_destination, decodeDestinationBytes_destinationBytes, decodedOperation, htype,
      hparse]
    rfl
  | transfer =>
    rw [writeFields, htype] at h
    cases h
    have hlen := hnew htype
    have hread : readBytes (writeVector operation.newOwnerPubKey) compressedSize =
        .ok (operation.newOwnerPubKey, []) := by
      have := readBytes_writeVector [] hlen.le (hlen.le.trans hkey)
      rwa [List.append_nil] at this
    simp only [readFields, hread, ok_bind,
      require, if_pos hlen, decodedOperation, htype]
    rfl
  | renew =>
    rw [decodedOperation, htype]
    rfl
  | release =>
    rw [decodedOperation, htype]
    rfl
  | claimBond =>
    rw [decodedOperation, htype]
    rfl

/-- A pushed payload is read up to its fields. -/
theorem extract_push {opcode opType : UInt8} {script : CScript} {nickname fields : Bytes}
    (hpush : getOp script =
      some (opcode, kubuNicknameMagic ++ opType :: (writeVector nickname ++ fields), []))
    (hvalid : isValidNormalizedNickname nickname = .ok ()) :
    extractNicknameOperation env (opReturn :: script) = readFields env opType nickname fields := by
  have hname : nickname.length ≤ maxSize := (valid_length hvalid).2.trans (by decide)
  rw [extractNicknameOperation, getOp_op (by decide)]
  dsimp only
  rw [if_neg (not_not.mpr rfl), hpush]
  dsimp only
  rw [List.take_left, List.drop_left, List.length_append]
  simp only [require, Nat.le_add_right, if_true, ok_bind, readVector_writeVector _ hname, hvalid]

/-- The validator decodes the operation that was encoded, with its name normalized. -/
theorem extract_build {script : CScript}
    (h : buildNicknameOpScript parseAddress operation = .ok script) :
    isValidNormalizedNickname (normalizeNickname operation.nickname) = .ok () ∧
      extractNicknameOperation env script = .ok (decodedOperation parseAddress env operation) := by
  simp only [buildNicknameOpScript, eq_ok] at h
  obtain ⟨⟨⟩, hvalid, payout, hpayout, -, hkeys, fields, hfields, -, hsize, rfl⟩ := h
  refine ⟨hvalid, ?_⟩
  obtain ⟨opcode, hpush, -⟩ := getOp_pushBytes_rest (hsize.trans (by decide)) []
  rw [List.append_nil] at hpush
  rw [extract_push hpush hvalid, readFields_writeFields hpayout hkeys.1 hkeys.2 hfields]

end Encode

end KubuCore.Nickname
