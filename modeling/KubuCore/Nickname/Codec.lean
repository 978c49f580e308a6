import KubuCore.Nickname.Encode

/-!
# The language of nickname scripts

The scripts `ExtractNicknameOperation` accepts, as a grammar
(`extract_accepts_grammar`), and that every script `BuildNicknameOpScript`
makes is in it, is short enough to relay and carries the operation it was made
from (`build_roundTrip`).
-/

namespace KubuCore.Nickname

open Checked
open Nicknames
open Script

/-! ## The grammar -/

/-- `OP_RETURN`, then one operation that ends the script and pushes `pushed`. -/
def ReturnsPush (script : CScript) (pushed : Bytes) : Prop :=
  ∃ opcode rest, script = opReturn :: rest ∧ getOp rest = some (opcode, pushed, [])

/-- A destination in 21 bytes: a tag and a hash. -/
def IsDestination (encoded : Bytes) : Prop :=
  ∃ tag hash, encoded = tag :: hash ∧ (tag = destPKH ∨ tag = destSH) ∧ hash.length = 20

/-- The fields after the name, by the type byte, with any bytes behind them. -/
inductive OperationFields : UInt8 → Bytes → Prop
  | register (key payout trailing : Bytes) : key.length = compressedSize → IsDestination payout →
      OperationFields 1 (writeVector key ++ (writeVector payout ++ trailing))
  | update (payout trailing : Bytes) : IsDestination payout →
      OperationFields 2 (writeVector payout ++ trailing)
  | transfer (key trailing : Bytes) : key.length = compressedSize →
      OperationFields 3 (writeVector key ++ trailing)
  | renew (trailing : Bytes) : OperationFields 4 trailing
  | release (trailing : Bytes) : OperationFields 5 trailing
  | claimBond (trailing : Bytes) : OperationFields 6 trailing

/-- The magic bytes, a type, a valid name with its length in front and the fields of the type. -/
def NicknamePayload (pushed : Bytes) : Prop :=
  ∃ opType nickname fields,
    pushed = kubuNicknameMagic ++ opType :: (writeVector nickname ++ fields) ∧
      isValidNormalizedNickname nickname = .ok () ∧ OperationFields opType fields

variable {script : CScript} {env : Env}

theorem ReturnsPush.unique {pushed other : Bytes} (h : ReturnsPush script pushed)
    (h' : ReturnsPush script other) : pushed = other := by
  obtain ⟨_, rest, rfl, hget⟩ := h
  obtain ⟨_, rest', hrest, hget'⟩ := h'
  obtain rfl : rest = rest' := by simpa using hrest
  rw [hget] at hget'
  simp only [Option.some.injEq, Prod.mk.injEq] at hget'
  exact hget'.2.1

/-! ## Fields -/

variable {nickname encoded data fields : Bytes} {opType : UInt8} {operation : NicknameOperation}

theorem IsDestination.length (h : IsDestination encoded) : encoded.length = 21 := by
  obtain ⟨tag, hash, rfl, -, hlen⟩ := h
  rw [List.length_cons, hlen]

theorem decodeDestinationBytes_iff :
    (∃ address, decodeDestinationBytes env encoded = .ok address) ↔ IsDestination encoded := by
  constructor
  · rintro ⟨address, h⟩
    unfold decodeDestinationBytes at h
    split at h
    · rename_i tag hash
      split_ifs at h with hlen hkey hscript
      · exact ⟨tag, hash, rfl, .inl hkey, hlen⟩
      · exact ⟨tag, hash, rfl, .inr hscript, hlen⟩
    · cases h
  · rintro ⟨tag, hash, rfl, htag, hlen⟩
    rcases htag with rfl | rfl
    · exact ⟨_, decodeDestinationBytes_destinationBytes env (.keyID ⟨hash, hlen⟩)⟩
    · exact ⟨_, decodeDestinationBytes_destinationBytes env (.scriptID ⟨hash, hlen⟩)⟩

theorem readBytes_eq_ok {stream rest : Bytes} {maxLen : Nat}
    (h : readBytes stream maxLen = .ok (data, rest)) : stream = writeVector data ++ rest := by
  unfold readBytes at h
  split at h
  · cases h
  · rename_i read
    simp only [eq_ok] at h
    obtain ⟨-, -, rfl, rfl⟩ := h
    exact (readVector_iff.mp read).2

theorem readBytes_key {key : Bytes} (rest : Bytes) (h : key.length = compressedSize) :
    readBytes (writeVector key ++ rest) compressedSize = .ok (key, rest) :=
  readBytes_writeVector rest h.le (h.le.trans (by decide))

theorem readBytes_payout {payout : Bytes} (rest : Bytes) (h : IsDestination payout) :
    readBytes (writeVector payout ++ rest) 21 = .ok (payout, rest) :=
  readBytes_writeVector rest h.length.le (h.length.le.trans (by decide))

/-- What is read is in the grammar. -/
theorem operationFields_of_readFields (h : readFields env opType nickname fields = .ok operation) :
    OperationFields opType fields := by
  unfold readFields at h
  split_ifs at h with h1 h2 h3 h4 h5 h6
  · simp only [eq_ok] at h
    obtain ⟨⟨key, stream⟩, hkey, -, hlen, ⟨payout, trailing⟩, hpayout, address, haddress, -⟩ := h
    obtain rfl := readBytes_eq_ok hpayout
    rw [h1, readBytes_eq_ok hkey]
    exact .register key payout trailing hlen (decodeDestinationBytes_iff.mp ⟨address, haddress⟩)
  · simp only [eq_ok] at h
    obtain ⟨⟨payout, trailing⟩, hpayout, address, haddress, -⟩ := h
    rw [h2, readBytes_eq_ok hpayout]
    exact .update payout trailing (decodeDestinationBytes_iff.mp ⟨address, haddress⟩)
  · simp only [eq_ok] at h
    obtain ⟨⟨key, trailing⟩, hkey, -, hlen, -⟩ := h
    rw [h3, readBytes_eq_ok hkey]
    exact .transfer key trailing hlen
  · exact h4 ▸ .renew fields
  · exact h5 ▸ .release fields
  · exact h6 ▸ .claimBond fields

/-- What is in the grammar is read. -/
theorem readFields_of_operationFields (nickname : Bytes) (h : OperationFields opType fields) :
    ∃ operation, readFields env opType nickname fields = .ok operation := by
  cases h with
  | register key payout trailing hkey hpayout =>
    obtain ⟨address, haddress⟩ : ∃ address, decodeDestinationBytes env payout = .ok address :=
      decodeDestinationBytes_iff.mpr hpayout
    simp only [readFields, readBytes_key _ hkey, ok_bind, require, if_pos hkey,
      readBytes_payout _ hpayout, haddress]
    exact ⟨_, rfl⟩
  | update payout trailing hpayout =>
    obtain ⟨address, haddress⟩ : ∃ address, decodeDestinationBytes env payout = .ok address :=
      decodeDestinationBytes_iff.mpr hpayout
    simp only [readFields, readBytes_payout _ hpayout, ok_bind, haddress]
    exact ⟨_, rfl⟩
  | transfer key trailing hkey =>
    simp only [readFields, readBytes_key _ hkey, ok_bind,
      require, if_pos hkey]
    exact ⟨_, rfl⟩
  | renew | release | claimBond => exact ⟨_, rfl⟩

/-! ## Scripts -/

/-- The two operations of a script that announces a payload, and what becomes of the payload. -/
theorem extract_eq_ok_iff : extractNicknameOperation env script = .ok operation ↔
      ∃ opType nickname fields,
        ReturnsPush script
          (kubuNicknameMagic ++ opType :: (writeVector nickname ++ fields)) ∧
        isValidNormalizedNickname nickname = .ok () ∧
        readFields env opType nickname fields = .ok operation := by
  constructor
  · intro h
    unfold extractNicknameOperation at h
    split at h
    · cases h
    · rename_i opcode _ rest hfirst
      split_ifs at h with hopcode
      obtain rfl : opcode = opReturn := not_not.mp hopcode
      split at h
      · rename_i second pushed hsecond
        simp only [eq_ok] at h
        obtain ⟨-, -, -, hmagic, h⟩ := h
        split at h
        · cases h
        · rename_i opType payload hdrop
          split at h
          · cases h
          · rename_i nickname fields hname
            obtain ⟨⟨⟩, hvalid, hfields⟩ := bind_eq_ok.mp h
            refine ⟨opType, nickname, fields, ⟨second, rest, getOp_high hfirst (by decide), ?_⟩,
              hvalid, hfields⟩
            have hpushed := List.take_append_drop kubuNicknameMagic.length pushed
            rw [hmagic, hdrop, (readVector_iff.mp hname).2] at hpushed
            rw [hsecond, hpushed]
      · cases h
  · rintro ⟨opType, nickname, fields, ⟨second, rest, rfl, hsecond⟩, hvalid, hfields⟩
    rw [extract_push hsecond hvalid, hfields]

theorem hasNicknameMagic_iff : hasNicknameMagic script = true ↔
      ∃ pushed, ReturnsPush script pushed ∧ kubuNicknameMagic <+: pushed := by
  constructor
  · intro h
    unfold hasNicknameMagic at h
    split at h
    · cases h
    · rename_i opcode _ rest hfirst
      rw [Bool.and_eq_true, beq_iff_eq] at h
      obtain ⟨rfl, h⟩ := h
      split at h
      · rename_i second pushed hsecond
        rw [beq_iff_eq] at h
        exact ⟨pushed, ⟨second, rest, getOp_high hfirst (by decide), hsecond⟩,
          List.prefix_iff_eq_take.mpr h.symm⟩
      · cases h
  · rintro ⟨pushed, ⟨second, rest, rfl, hsecond⟩, hmagic⟩
    rw [hasNicknameMagic, getOp_op (by decide)]
    dsimp only
    rw [hsecond, beq_self_eq_true, Bool.true_and, beq_iff_eq]
    exact (List.prefix_iff_eq_take.mp hmagic).symm

theorem extract_isOk_iff : (∃ operation, extractNicknameOperation env script = .ok operation) ↔
      ∃ pushed, ReturnsPush script pushed ∧ NicknamePayload pushed := by
  constructor
  · rintro ⟨operation, h⟩
    obtain ⟨opType, nickname, fields, hpush, hvalid, hfields⟩ := extract_eq_ok_iff.mp h
    exact ⟨_, hpush, opType, nickname, fields, rfl, hvalid, operationFields_of_readFields hfields⟩
  · rintro ⟨_, hpush, opType, nickname, fields, rfl, hvalid, hfields⟩
    obtain ⟨operation, hread⟩ := readFields_of_operationFields nickname hfields
    exact ⟨operation, extract_eq_ok_iff.mpr ⟨opType, nickname, fields, hpush, hvalid, hread⟩⟩

/-- The decoder accepts the grammar, and an output is malformed when it has the shape and the
magic bytes but not the rest. -/
theorem extract_accepts_grammar (env : Env) (script : CScript) :
    ((∃ operation, extractNicknameOperation env script = .ok operation) ↔
      ∃ pushed, ReturnsPush script pushed ∧ NicknamePayload pushed) ∧
    ((∃ reason, parseNicknameOpScript env script = .error reason) ↔
      ∃ pushed, ReturnsPush script pushed ∧ kubuNicknameMagic <+: pushed ∧
        ¬ NicknamePayload pushed) := by
  refine ⟨extract_isOk_iff, ?_⟩
  by_cases hmagic : hasNicknameMagic script = true
  · obtain ⟨pushed, hpush, hstart⟩ := hasNicknameMagic_iff.mp hmagic
    rw [parseNicknameOpScript, if_pos hmagic]
    cases hextract : extractNicknameOperation env script with
    | ok operation =>
      obtain ⟨other, hother, hpayload⟩ := extract_isOk_iff.mp ⟨operation, hextract⟩
      constructor
      · rintro ⟨_, ⟨⟩⟩
      · rintro ⟨third, hthird, -, hbad⟩
        exact absurd (hthird.unique hother ▸ hpayload) hbad
    | error reason =>
      refine ⟨fun _ => ⟨pushed, hpush, hstart, fun hpayload => ?_⟩, fun _ => ⟨_, rfl⟩⟩
      obtain ⟨operation, hok⟩ := extract_isOk_iff.mpr ⟨pushed, hpush, hpayload⟩
      rw [hextract] at hok
      cases hok
  · rw [parseNicknameOpScript, if_neg hmagic]
    constructor
    · rintro ⟨_, ⟨⟩⟩
    · rintro ⟨pushed, hpush, hstart, -⟩
      exact absurd (hasNicknameMagic_iff.mpr ⟨pushed, hpush, hstart⟩) hmagic

/-! ## What the encoder makes -/

section Build

variable {parseAddress : String → Option CTxDestination} {env : Env}

theorem length_writeVector {data : Bytes} (h : data.length < 253) :
    (writeVector data).length = data.length + 1 := by
  rw [writeVector, writeCompactSize, if_pos h, List.length_append, List.length_singleton, add_comm]

variable {operation : NicknameOperation} {payout : Bytes}

theorem length_writeFields {fields : Bytes}
    (hpayout : payoutBytes parseAddress operation = .ok payout)
    (howner : operation.type = .register → operation.ownerPubKey.length = compressedSize)
    (hnew : operation.type = .transfer → operation.newOwnerPubKey.length = compressedSize)
    (h : writeFields operation payout = .ok fields) : fields.length ≤ 56 := by
  have hdest : operation.type = .register ∨ operation.type = .update → payout.length = 21 := by
    intro htype
    obtain ⟨dest, -, rfl⟩ := payoutBytes_spec htype hpayout
    exact destinationBytes_length dest
  simp only [compressedSize] at howner hnew
  cases htype : operation.type <;> rw [writeFields, htype] at h <;> cases h
  · have howner := howner htype
    have hdest := hdest (.inl htype)
    rw [List.length_append, length_writeVector (by omega), length_writeVector (by omega)]
    omega
  · have hdest := hdest (.inr htype)
    rw [length_writeVector (by omega)]
    omega
  · have hnew := hnew htype
    rw [length_writeVector (by omega)]
    omega
  all_goals simp

/-- The payload of a script the encoder makes. -/
theorem build_payload {script : CScript}
    (h : buildNicknameOpScript parseAddress operation = .ok script) :
    ∃ payload, script = opReturn :: pushBytes payload ∧ 2 ≤ payload.length ∧
      payload.length ≤ 78 := by
  simp only [buildNicknameOpScript, eq_ok] at h
  obtain ⟨⟨⟩, hvalid, payout, hpayout, -, hkeys, fields, hfields, -, -, rfl⟩ := h
  have hname := valid_length hvalid
  have hlen := length_writeFields hpayout hkeys.1 hkeys.2 hfields
  have hmagic : kubuNicknameMagic.length = 4 := rfl
  refine ⟨_, rfl, ?_, ?_⟩
  all_goals
    rw [List.length_append, List.length_cons, List.length_append,
      length_writeVector (by omega)]
    omega

theorem decodedOperation_payoutAddress
    (hround : ∀ dest, parseAddress (env.addressToString dest) = some dest)
    (hpayout : payoutBytes parseAddress operation = .ok payout)
    (htype : operation.type = .register ∨ operation.type = .update) :
    ∃ dest, parseAddress operation.payoutAddress = some dest ∧
      parseAddress (decodedOperation parseAddress env operation).payoutAddress = some dest := by
  obtain ⟨dest, hdest, -⟩ := payoutBytes_spec htype hpayout
  refine ⟨dest, hdest, ?_⟩
  have haddress : (decodedOperation parseAddress env operation).payoutAddress =
      env.addressToString dest := by
    rcases htype with htype | htype
    all_goals simp only [decodedOperation, htype, hdest, Option.map_some, Option.getD_some]
  rw [haddress, hround]

/-- The operation read from a script has the type, the normalized name, the keys and the payout
destination that the type of the encoded operation carries, and nothing else. -/
structure SameOperation (parseAddress : String → Option CTxDestination)
    (operation decoded : NicknameOperation) : Prop where
  type : decoded.type = operation.type
  nickname : decoded.nickname = normalizeNickname operation.nickname
  ownerPubKey : decoded.ownerPubKey =
    if operation.type = .register then operation.ownerPubKey else []
  newOwnerPubKey : decoded.newOwnerPubKey =
    if operation.type = .transfer then operation.newOwnerPubKey else []
  payout : operation.type = .register ∨ operation.type = .update →
    ∃ dest, parseAddress operation.payoutAddress = some dest ∧
      parseAddress decoded.payoutAddress = some dest
  noPayout : ¬ (operation.type = .register ∨ operation.type = .update) → decoded.payoutAddress = ""

theorem sameOperation_decodedOperation
    (hround : ∀ dest, parseAddress (env.addressToString dest) = some dest)
    (hpayout : payoutBytes parseAddress operation = .ok payout) :
    SameOperation parseAddress operation (decodedOperation parseAddress env operation) := by
  refine ⟨?_, ?_, ?_, ?_, decodedOperation_payoutAddress hround hpayout, ?_⟩
  all_goals cases htype : operation.type <;> simp [decodedOperation, htype]

/-- A script the encoder makes is `OP_RETURN` and one minimal push, fits the relay limit, and is
read back as the operation it was made from. -/
theorem build_roundTrip {operation : NicknameOperation} {script : CScript}
    (hround : ∀ dest, parseAddress (env.addressToString dest) = some dest)
    (h : buildNicknameOpScript parseAddress operation = .ok script) :
    (∃ opcode payload, script = opReturn :: pushBytes payload ∧
      getOp (pushBytes payload) = some (opcode, payload, []) ∧ opcode ≤ opPushData4 ∧
      checkMinimalPush payload opcode = true) ∧
    script.length ≤ maxOpReturnRelay ∧
    ∃ decoded, extractNicknameOperation env script = .ok decoded ∧
      parseNicknameOpScript env script = .ok (some decoded) ∧
      SameOperation parseAddress operation decoded := by
  obtain ⟨payload, rfl, hleast, hmost⟩ := build_payload h
  have hshort : payload.length ≤ 0xffff := by omega
  obtain ⟨opcode, hget, hpush, hminimal⟩ := getOp_pushBytes_rest hshort []
  rw [List.append_nil] at hget
  refine ⟨⟨opcode, payload, rfl, hget, hpush, hminimal hleast⟩, ?_, ?_⟩
  · have := length_pushBytes payload hshort
    rw [List.length_cons, maxOpReturnRelay]
    omega
  · have hextract : extractNicknameOperation env (opReturn :: pushBytes payload) =
        .ok (decodedOperation parseAddress env operation) := (extract_build h).2
    refine ⟨_, hextract, ?_, ?_⟩
    · obtain ⟨pushed, hreturns, hpayload⟩ := extract_isOk_iff.mp ⟨_, hextract⟩
      obtain ⟨_, _, _, rfl, -⟩ := hpayload
      have hmagic := hasNicknameMagic_iff.mpr ⟨_, hreturns, List.prefix_append _ _⟩
      rw [parseNicknameOpScript, if_pos hmagic, hextract]
    · simp only [buildNicknameOpScript, bind_eq_ok] at h
      obtain ⟨⟨⟩, -, payout, hpayout, -⟩ := h
      exact sameOperation_decodedOperation hround hpayout

end Build

/-- Addresses that spell out the bytes of a destination, a character for each. -/
def plainAddress (dest : CTxDestination) : String :=
  String.ofList ((destinationBytes dest).map fun b => Char.ofNat b.toNat)

def parsePlainAddress (address : String) : Option CTxDestination :=
  match address.toList.map fun c => UInt8.ofNat c.toNat with
  | tag :: hash =>
    if h : hash.length = 20 then
      if tag = destPKH then some (.keyID ⟨hash, h⟩)
      else if tag = destSH then some (.scriptID ⟨hash, h⟩)
      else none
    else none
  | [] => none

theorem parsePlainAddress_plainAddress (dest : CTxDestination) :
    parsePlainAddress (plainAddress dest) = some dest := by
  have hbyte : ∀ b : UInt8, UInt8.ofNat (Char.ofNat b.toNat).toNat = b := by decide +kernel
  have hbytes : (plainAddress dest).toList.map (fun c => UInt8.ofNat c.toNat) =
      destinationBytes dest := by
    simp [plainAddress, Function.comp_def, hbyte]
  rw [parsePlainAddress, hbytes]
  cases dest with
  | keyID hash => simp [destinationBytes, hash.property]
  | scriptID hash =>
    have hne : ¬ destSH = destPKH := by decide
    simp [destinationBytes, hash.property, hne]

def plainEnv : Env := { blankEnv with addressToString := plainAddress }

/-- The registration of ` @Alice_Kubu`. -/
def plainRegistration : NicknameOperation where
  type := .register
  nickname := [0x20, 0x40, 0x41, 0x6c, 0x69, 0x63, 0x65, 0x5f, 0x4b, 0x75, 0x62, 0x75]
  ownerPubKey := 2 :: List.replicate 32 1
  payoutAddress := plainAddress (.scriptID ⟨List.replicate 20 7, by decide⟩)

theorem build_roundTrip_registration :
    ∃ script, buildNicknameOpScript parsePlainAddress plainRegistration = .ok script ∧
      script.length ≤ maxOpReturnRelay ∧
      ∃ decoded, extractNicknameOperation plainEnv script = .ok decoded ∧
        SameOperation parsePlainAddress plainRegistration decoded := by
  obtain ⟨script, hbuild⟩ := exists_of_isOk
    (x := buildNicknameOpScript parsePlainAddress plainRegistration) (by decide +kernel)
  have hround : ∀ dest, parsePlainAddress (plainEnv.addressToString dest) = some dest :=
    parsePlainAddress_plainAddress
  obtain ⟨-, hsize, decoded, hextract, -, hsame⟩ := build_roundTrip hround hbuild
  exact ⟨script, hbuild, hsize, decoded, hextract, hsame⟩

end KubuCore.Nickname
