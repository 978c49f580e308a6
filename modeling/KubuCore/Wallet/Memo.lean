import KubuCore.Nickname.Names
import KubuCore.Script.Pushes

/-!
# Nickname memos

The memo that may accompany a payment to a nickname: the encoder and decoder of
`wallet/rpcwallet.cpp` and the encoder of `qt/walletmodel.cpp`. The decoder
accepts what the encoder makes and nothing else (`decode_eq_ok_iff`), and the two
encoders agree (`memo_codec`).
-/

namespace KubuCore.Wallet

open Checked
open Script

def memoMagic : Bytes := [0x4b, 0x4d, 0x45, 0x4d, 0x31]
def memoVersion : UInt8 := 1
def memoMaxDataLen : Nat := 48

inductive NicknameMemoType where
  | numeric
  | alnum
  | utf8
deriving DecidableEq, Repr

def NicknameMemoType.toByte : NicknameMemoType → UInt8
  | .numeric => 1
  | .alnum => 2
  | .utf8 => 3

/-- The names `numeric`, `alnum` and `utf8`. -/
def nicknameMemoTypeToString : NicknameMemoType → Bytes
  | .numeric => [0x6e, 0x75, 0x6d, 0x65, 0x72, 0x69, 0x63]
  | .alnum => [0x61, 0x6c, 0x6e, 0x75, 0x6d]
  | .utf8 => [0x75, 0x74, 0x66, 0x38]

def parseNicknameMemoType (typeName : Bytes) : Option NicknameMemoType :=
  let lowered := typeName.map Nicknames.toLower
  if lowered = nicknameMemoTypeToString .numeric then some .numeric
  else if lowered = nicknameMemoTypeToString .alnum then some .alnum
  else if lowered = nicknameMemoTypeToString .utf8 then some .utf8
  else none

/-! ## Checksum -/

/-- One round of the inner loop of `ComputeCrc16Ccitt`. -/
def crcShift (crc : BitVec 16) : BitVec 16 :=
  if crc &&& 0x8000#16 ≠ 0#16 then (crc <<< 1) ^^^ 0x1021#16 else crc <<< 1

def crcByte (crc : BitVec 16) (value : UInt8) : BitVec 16 :=
  crcShift^[8] (crc ^^^ (value.toBitVec.setWidth 16 <<< 8))

def computeCrc16Ccitt (data : Bytes) : BitVec 16 := data.foldl crcByte 0xffff#16

/-- The two bytes of the checksum, the higher first. -/
def crcBytes (crc : BitVec 16) : Bytes :=
  [⟨(crc >>> 8).setWidth 8⟩, ⟨crc.setWidth 8⟩]

def joinCrc (high low : UInt8) : BitVec 16 :=
  (high.toBitVec.setWidth 16 <<< 8) ||| low.toBitVec.setWidth 16

/-! ## Encoder and decoder -/

/-- `std::isalnum` in the C locale. -/
def isAlnum (c : UInt8) : Bool :=
  Nicknames.isAsciiDigit c || Nicknames.isAsciiLowerLetter c || (0x41 ≤ c && c ≤ 0x5a)

def validateNicknameMemoData (type : NicknameMemoType) (data : Bytes) : Except String Unit := do
  require (data ≠ []) "Memo must not be empty"
  require (data.length ≤ memoMaxDataLen) "Memo is too long (max 48 bytes)"
  match type with
  | .numeric =>
    require (data.all Nicknames.isAsciiDigit) "Numeric memo may only contain digits 0-9"
  | .alnum => require (data.all isAlnum) "Alnum memo may only contain ASCII letters and digits"
  | .utf8 => require (data.all (· != 0)) "UTF-8 memo cannot contain NUL bytes"

/-- The payload before its checksum. -/
def memoBody (typeByte : UInt8) (data : Bytes) : Bytes :=
  memoMagic ++ (memoVersion :: typeByte :: UInt8.ofNat data.length :: data)

def withCrc (payload : Bytes) : Bytes := payload ++ crcBytes (computeCrc16Ccitt payload)

def buildNicknameMemoPayload (data : Bytes) (type : NicknameMemoType) : Except String Bytes := do
  validateNicknameMemoData type data
  pure (withCrc (memoBody type.toByte data))

structure NicknameMemoDecoded where
  type : NicknameMemoType
  data : Bytes
  payload : Bytes
deriving DecidableEq, Repr

def memoTypeOfByte (rawType : UInt8) : Except String NicknameMemoType :=
  if rawType = 1 then .ok .numeric
  else if rawType = 2 then .ok .alnum
  else if rawType = 3 then .ok .utf8
  else .error "Memo payload type is unknown"

def decodeNicknameMemoPayload (payload : Bytes) : Except String NicknameMemoDecoded := do
  let headerSize := memoMagic.length + 1 + 1 + 1
  require (headerSize + 2 ≤ payload.length) "Memo payload is too short"
  require (payload.take memoMagic.length = memoMagic) "Memo payload magic mismatch"
  let version := payload.getD memoMagic.length 0
  require (version = memoVersion) "Unsupported memo payload version"
  let rawType := payload.getD (memoMagic.length + 1) 0
  let dataLen := (payload.getD (memoMagic.length + 2) 0).toNat
  require (payload.length = headerSize + dataLen + 2) "Memo payload length is malformed"
  let expectedCrc := computeCrc16Ccitt (payload.take (payload.length - 2))
  let providedCrc :=
    joinCrc (payload.getD (payload.length - 2) 0) (payload.getD (payload.length - 1) 0)
  require (expectedCrc = providedCrc) "Memo payload checksum mismatch"
  let type ← memoTypeOfByte rawType
  let data := (payload.drop headerSize).take dataLen
  validateNicknameMemoData type data
  pure { type, data, payload }

/-! ## Scripts and hexadecimal text -/

/-- `HexDigit`, `none` for -1. -/
def hexDigit (c : UInt8) : Option UInt8 :=
  if 0x30 ≤ c ∧ c ≤ 0x39 then some (c - 0x30)
  else if 0x41 ≤ c ∧ c ≤ 0x46 then some (c - 0x37)
  else if 0x61 ≤ c ∧ c ≤ 0x66 then some (c - 0x57)
  else none

def isHex (str : Bytes) : Bool :=
  decide (0 < str.length) && str.length % 2 == 0 && str.all fun c => (hexDigit c).isSome

def parseHex : Bytes → Bytes
  | [] => []
  | [_] => []
  | c :: d :: rest =>
    if Nicknames.isSpace c then parseHex (d :: rest)
    else
      match hexDigit c, hexDigit d with
      | some high, some low => (high <<< 4 ||| low) :: parseHex rest
      | _, _ => []

def hexmap (n : UInt8) : UInt8 := if n < 10 then 0x30 + n else 0x57 + n

def hexStr (vch : Bytes) : Bytes :=
  vch.flatMap fun (val : UInt8) => [hexmap (val >>> 4), hexmap (val &&& 15)]

def extractNicknameMemoPayloadBytes (inputHex : Bytes) : Except String Bytes := do
  require (isHex inputHex) "Memo input must be hex"
  match parseHex inputHex with
  | [] => .error "Memo input must not be empty"
  | first :: raw =>
    if first ≠ opReturn then pure (first :: raw)
    else
      match getOp (first :: raw) with
      | some (opcode, _, script) =>
        if opcode ≠ opReturn then .error "Invalid OP_RETURN memo script"
        else
          match getOp script with
          | some (_, pushed, []) => pure pushed
          | _ => .error "Invalid OP_RETURN memo script"
      | none => .error "Invalid OP_RETURN memo script"

/-- The script of the RPC encoder, with the canonical name of the type. -/
def buildNicknameMemoScript (data typeName : Bytes) : Except String (CScript × Bytes) :=
  match parseNicknameMemoType typeName with
  | none => .error "Invalid memo_type. Allowed: numeric, alnum, utf8"
  | some type => do
    let payload ← buildNicknameMemoPayload data type
    pure (opReturn :: pushBytes payload, nicknameMemoTypeToString type)

/-- The type byte of the wallet GUI, after its check of the characters. -/
def guiTypeByte (memoUtf8 memoType : Bytes) : Except String UInt8 :=
  if memoType = nicknameMemoTypeToString .numeric then do
    require (memoUtf8.all fun c => !(c < 0x30 || 0x39 < c))
      "Numeric memo may only contain digits 0-9"
    pure 1
  else if memoType = nicknameMemoTypeToString .alnum then do
    require (memoUtf8.all fun c => 0x30 ≤ c && c ≤ 0x39 || 0x61 ≤ c && c ≤ 0x7a ||
      0x41 ≤ c && c ≤ 0x5a) "Alnum memo may only contain ASCII letters and digits"
    pure 2
  else if memoType = nicknameMemoTypeToString .utf8 then pure 3
  else .error "Invalid memo type. Allowed: numeric, alnum, utf8"

/-- `BuildNicknameMemoScript` of the wallet GUI. -/
def guiBuildNicknameMemoScript (memoUtf8 memoTypeIn : Bytes) : Except String (CScript × Bytes) := do
  require (memoUtf8 ≠ []) "Nickname memo must not be empty"
  require (memoUtf8.length ≤ memoMaxDataLen) "Nickname memo is too long (max 48 bytes)"
  require (memoUtf8.all (· != 0)) "Nickname memo cannot contain NUL bytes"
  let lowered := memoTypeIn.map Nicknames.toLower
  let memoType := if lowered = [] then nicknameMemoTypeToString .utf8 else lowered
  let memoTypeByte ← guiTypeByte memoUtf8 memoType
  pure (opReturn :: pushBytes (withCrc (memoBody memoTypeByte memoUtf8)), memoType)

/-! ## Decoding undoes encoding -/

theorem joinCrc_crcBytes (crc : BitVec 16) :
    joinCrc ⟨(crc >>> 8).setWidth 8⟩ ⟨crc.setWidth 8⟩ = crc := by
  apply BitVec.eq_of_getLsbD_eq
  intro i hi
  by_cases hlow : i < 8
  · simp [joinCrc, hi, hlow]
  · have hhigh : i - 8 < 8 := by omega
    have hsum : 8 + (i - 8) = i := by omega
    simp [joinCrc, hi, hlow, hhigh, hsum]

theorem crcBytes_joinCrc (high low : UInt8) : crcBytes (joinCrc high low) = [high, low] := by
  have hhigh : ((joinCrc high low) >>> 8).setWidth 8 = high.toBitVec := by
    apply BitVec.eq_of_getLsbD_eq
    intro i hi
    simp [joinCrc, hi, show 8 + i < 16 by omega]
  have hlow : (joinCrc high low).setWidth 8 = low.toBitVec := by
    apply BitVec.eq_of_getLsbD_eq
    simp [joinCrc]
  rw [crcBytes, hhigh, hlow]

variable {data payload typeName : Bytes} {type : NicknameMemoType}

variable {rawType : UInt8} {decoded : NicknameMemoDecoded} {result : CScript × Bytes}

theorem memoTypeOfByte_eq_ok : memoTypeOfByte rawType = .ok type ↔ rawType = type.toByte := by
  rw [memoTypeOfByte]
  constructor
  · intro h
    split_ifs at h with h1 h2 h3
    · cases h
      exact h1
    · cases h
      exact h2
    · cases h
      exact h3
  · rintro rfl
    cases type <;> rfl

/-- A payload that is long enough, cut into its fields. -/
theorem payload_fields (hlen : 10 ≤ payload.length) (hmagic : payload.take 5 = memoMagic) :
    ∃ version rawType len data high low,
      payload = (memoMagic ++ (version :: rawType :: len :: data)) ++ [high, low] := by
  have hsplit := List.take_append_drop 5 payload
  rw [hmagic] at hsplit
  have hrest : (payload.drop 5).length = payload.length - 5 := List.length_drop
  match hdrop : payload.drop 5, hrest with
  | [], hrest | [_], hrest | [_, _], hrest => simp at hrest; omega
  | version :: rawType :: len :: body, hrest =>
    have hbody : 2 ≤ body.length := by
      simp only [List.length_cons] at hrest
      omega
    obtain ⟨low, high, rdata, hrev⟩ : ∃ low high rdata, body.reverse = low :: high :: rdata := by
      have hreverse : body.reverse.length = body.length := List.length_reverse
      match hrev : body.reverse, hreverse with
      | [], hlen | [_], hlen => simp at hlen; omega
      | low :: high :: rdata, _ => exact ⟨low, high, rdata, rfl⟩
    have hbody' : body = rdata.reverse ++ [high, low] := by
      rw [← List.reverse_reverse body, hrev]
      simp
    refine ⟨version, rawType, len, rdata.reverse, high, low, ?_⟩
    rw [← hsplit, hdrop, hbody']
    simp

/-- What the decoder checks of the fields. -/
theorem decode_fields_iff {version len high low : UInt8} :
    decodeNicknameMemoPayload
        ((memoMagic ++ (version :: rawType :: len :: data)) ++ [high, low]) = .ok decoded ↔
      version = memoVersion ∧ data.length = len.toNat ∧
        computeCrc16Ccitt (memoMagic ++ (version :: rawType :: len :: data)) = joinCrc high low ∧
        rawType = decoded.type.toByte ∧ validateNicknameMemoData decoded.type data = .ok () ∧
        decoded.data = data ∧
        decoded.payload = (memoMagic ++ (version :: rawType :: len :: data)) ++ [high, low] := by
  generalize hpayload : (memoMagic ++ (version :: rawType :: len :: data)) ++ [high, low] = payload
  have hlength : payload.length = data.length + 10 := by
    rw [← hpayload]
    simp [memoMagic]
  have htake : payload.take 5 = memoMagic := by
    rw [← hpayload]
    rfl
  have hversion : payload.getD 5 0 = version := by
    rw [← hpayload]
    rfl
  have hrawType : payload.getD 6 0 = rawType := by
    rw [← hpayload]
    rfl
  have hlen : payload.getD 7 0 = len := by
    rw [← hpayload]
    rfl
  have hbody : payload.take (data.length + 8) =
      memoMagic ++ (version :: rawType :: len :: data) := by
    rw [← hpayload]
    exact List.take_left' (by simp [memoMagic])
  have hhigh : payload.getD (data.length + 8) 0 = high := by
    rw [← hpayload, List.getD_eq_getElem?_getD]
    simp [memoMagic]
  have hlow : payload.getD (data.length + 9) 0 = low := by
    rw [← hpayload, List.getD_eq_getElem?_getD]
    simp [memoMagic]
  have hdata : (payload.drop 8).take data.length = data := by
    rw [← hpayload]
    exact List.take_left
  simp only [decodeNicknameMemoPayload, eq_ok, show memoMagic.length = 5 from rfl, htake, hversion,
    hrawType, hlen, hlength, show data.length + 10 - 2 = data.length + 8 from rfl,
    show data.length + 10 - 1 = data.length + 9 from rfl, hbody, hhigh, hlow, memoTypeOfByte_eq_ok]
  constructor
  · rintro ⟨-, -, -, -, -, hv, -, hsize, -, hcrc, type, htype, ⟨⟩, hvalid, rfl⟩
    have hsize : data.length = len.toNat := by omega
    rw [← hsize, hdata] at hvalid
    exact ⟨hv, hsize, hcrc, htype, hvalid, by rw [← hsize, hdata], rfl⟩
  · rintro ⟨hv, hsize, hcrc, htype, hvalid, hd, hp⟩
    refine ⟨(), by omega, (), trivial, (), hv, (), by omega, (), hcrc, decoded.type, htype, (), ?_,
      ?_⟩
    · rw [← hsize, hdata]
      exact hvalid
    · rw [← hsize, hdata, ← hd, ← hp]

/-- The characters a memo of a type may have. -/
def NicknameMemoType.accepts : NicknameMemoType → UInt8 → Bool
  | .numeric => Nicknames.isAsciiDigit
  | .alnum => isAlnum
  | .utf8 => (· != 0)

theorem validate_eq_ok : validateNicknameMemoData type data = .ok () ↔
      data ≠ [] ∧ data.length ≤ memoMaxDataLen ∧ data.all type.accepts = true := by
  cases type <;>
    simp only [validateNicknameMemoData, eq_ok, exists_const, NicknameMemoType.accepts]

theorem validate_length (h : validateNicknameMemoData type data = .ok ()) : data.length ≤ 48 :=
  (validate_eq_ok.mp h).2.1

/-- The decoder accepts the payloads of the encoder, with what they were made from. -/
theorem decode_eq_ok_iff :
    decodeNicknameMemoPayload payload = .ok decoded ↔
      buildNicknameMemoPayload decoded.data decoded.type = .ok payload ∧
        decoded.payload = payload := by
  simp only [buildNicknameMemoPayload, eq_ok]
  constructor
  · intro h
    have hcopy := h
    simp only [decodeNicknameMemoPayload, eq_ok] at hcopy
    obtain ⟨-, hlen, -, hmagic, -⟩ := hcopy
    obtain ⟨version, rawType, len, data, high, low, rfl⟩ := payload_fields hlen hmagic
    obtain ⟨rfl, hsize, hcrc, rfl, hvalid, hdata, hpayload⟩ := decode_fields_iff.mp h
    refine ⟨⟨(), hdata ▸ hvalid, ?_⟩, hpayload⟩
    have hlenByte : UInt8.ofNat data.length = len := by rw [hsize, UInt8.ofNat_toNat]
    rw [withCrc, memoBody, hdata, hlenByte, hcrc, crcBytes_joinCrc]
  · rintro ⟨⟨⟨⟩, hvalid, rfl⟩, hpayload⟩
    have hlen := validate_length hvalid
    refine decode_fields_iff.mpr ⟨rfl, ?_, (joinCrc_crcBytes _).symm, rfl, hvalid, rfl, hpayload⟩
    rw [UInt8.toNat_ofNat']
    omega

/-! ## Text -/

/-- `str` is hexadecimal text of `bytes`, in either case. -/
def HexOf (str bytes : Bytes) : Prop := isHex str = true ∧ parseHex str = bytes

theorem hexDigit_hexmap (val : UInt8) :
    hexDigit (hexmap (val >>> 4)) = some (val >>> 4) ∧
      hexDigit (hexmap (val &&& 15)) = some (val &&& 15) ∧
      ((val >>> 4) <<< 4 ||| (val &&& 15)) = val ∧
      Nicknames.isSpace (hexmap (val >>> 4)) = false := by
  revert val
  decide +kernel

theorem parseHex_hexStr (bytes : Bytes) : parseHex (hexStr bytes) = bytes := by
  induction bytes with
  | nil => rfl
  | cons val bytes ih =>
    obtain ⟨hhigh, hlow, hval, hspace⟩ := hexDigit_hexmap val
    have hcons : hexStr (val :: bytes) =
        hexmap (val >>> 4) :: hexmap (val &&& 15) :: hexStr bytes := rfl
    rw [hcons, parseHex, hspace, if_neg (by decide), hhigh, hlow]
    dsimp only
    rw [hval, ih]

theorem hexOf_hexStr {bytes : Bytes} (h : bytes ≠ []) : HexOf (hexStr bytes) bytes := by
  have hlen : (hexStr bytes).length = 2 * bytes.length := by
    rw [hexStr]
    simp [mul_comm]
  have hdigits : (hexStr bytes).all (fun c => (hexDigit c).isSome) = true := by
    rw [hexStr, List.all_flatMap, List.all_eq_true]
    intro val _
    obtain ⟨hhigh, hlow, -⟩ := hexDigit_hexmap val
    simp [hhigh, hlow]
  have hpos := List.length_pos_iff.mpr h
  refine ⟨?_, parseHex_hexStr bytes⟩
  rw [isHex, hdigits]
  simp
  omega

theorem build_head (h : buildNicknameMemoPayload data type = .ok payload) :
    (∃ rest, payload = 0x4b :: rest) ∧ payload.length ≤ 58 := by
  simp only [buildNicknameMemoPayload, eq_ok] at h
  obtain ⟨⟨⟩, hvalid, rfl⟩ := h
  have hlen := validate_length hvalid
  refine ⟨⟨_, rfl⟩, ?_⟩
  simp only [withCrc, memoBody, memoMagic, crcBytes, List.length_append, List.length_cons,
    List.length_nil]
  omega

/-- The text of a payload, or of the script that carries it, gives the payload back. -/
theorem extract_of_hexOf (h : buildNicknameMemoPayload data type = .ok payload) {str : Bytes}
    (hstr : HexOf str payload ∨ HexOf str (opReturn :: pushBytes payload)) :
    extractNicknameMemoPayloadBytes str = .ok payload := by
  obtain ⟨⟨rest, hhead⟩, hlen⟩ := build_head h
  rcases hstr with ⟨hhex, hparse⟩ | ⟨hhex, hparse⟩
  · rw [extractNicknameMemoPayloadBytes, hparse, hhead]
    simp only [hhex]
    rfl
  · obtain ⟨opcode, hpush, -⟩ := getOp_pushBytes_rest (show payload.length ≤ 0xffff by omega) []
    rw [List.append_nil] at hpush
    have hfirst : getOp (opReturn :: pushBytes payload) = some (opReturn, [], pushBytes payload) :=
      getOp_op (by decide)
    rw [extractNicknameMemoPayloadBytes, hparse]
    simp only [hhex, hfirst, hpush]
    rfl

/-! ## The two encoders -/

theorem all_imp {p q : UInt8 → Bool} (himp : ∀ c, p c = true → q c = true)
    (h : data.all p = true) : data.all q = true :=
  List.all_eq_true.mpr fun c hc => himp c (List.all_eq_true.mp h c hc)

/-- What the GUI checks of the characters is what the RPC checks, for each name of a type. -/
theorem guiTypeByte_eq_ok {memoType : Bytes} {typeByte : UInt8} :
    guiTypeByte data memoType = .ok typeByte ∧ data.all (· != 0) = true ↔
      ∃ type, memoType = nicknameMemoTypeToString type ∧ typeByte = type.toByte ∧
        data.all type.accepts = true := by
  have hnumeric : ∀ c : UInt8, (!(decide (c < 0x30) || decide (0x39 < c))) =
      Nicknames.isAsciiDigit c := by decide +kernel
  have hdigit0 : ∀ c : UInt8, Nicknames.isAsciiDigit c = true → (c != 0) = true := by decide +kernel
  have halnum0 : ∀ c : UInt8, isAlnum c = true → (c != 0) = true := by decide +kernel
  simp only [guiTypeByte, hnumeric]
  constructor
  · rintro ⟨h, hnul⟩
    split_ifs at h with h1 h2 h3
    · simp only [eq_ok] at h
      obtain ⟨-, hchars, rfl⟩ := h
      exact ⟨.numeric, h1, rfl, hchars⟩
    · simp only [eq_ok] at h
      obtain ⟨-, hchars, rfl⟩ := h
      exact ⟨.alnum, h2, rfl, hchars⟩
    · cases h
      exact ⟨.utf8, h3, rfl, hnul⟩
  · rintro ⟨type, rfl, rfl, h⟩
    cases type with
    | numeric =>
      refine ⟨?_, all_imp hdigit0 h⟩
      rw [if_pos rfl]
      simp only [eq_ok]
      exact ⟨(), h, rfl⟩
    | alnum =>
      refine ⟨?_, all_imp halnum0 h⟩
      rw [if_neg (by decide), if_pos rfl]
      simp only [eq_ok]
      exact ⟨(), h, rfl⟩
    | utf8 =>
      refine ⟨?_, h⟩
      rfl

theorem parseNicknameMemoType_eq_some : parseNicknameMemoType typeName = some type ↔
      typeName.map Nicknames.toLower = nicknameMemoTypeToString type := by
  simp only [parseNicknameMemoType]
  constructor
  · intro h
    split_ifs at h with h1 h2 h3
    · cases h
      exact h1
    · cases h
      exact h2
    · cases h
      exact h3
  · intro h
    rw [h]
    cases type <;> rfl

theorem buildNicknameMemoScript_eq_ok :
    buildNicknameMemoScript data typeName = .ok result ↔
      ∃ type, typeName.map Nicknames.toLower = nicknameMemoTypeToString type ∧
        validateNicknameMemoData type data = .ok () ∧
        result = (opReturn :: pushBytes (withCrc (memoBody type.toByte data)),
          nicknameMemoTypeToString type) := by
  unfold buildNicknameMemoScript
  cases hparse : parseNicknameMemoType typeName with
  | none =>
    constructor
    · rintro ⟨⟩
    · rintro ⟨type, hname, -⟩
      rw [parseNicknameMemoType_eq_some.mpr hname] at hparse
      cases hparse
  | some type =>
    simp only [buildNicknameMemoPayload, eq_ok]
    constructor
    · rintro ⟨_, ⟨⟨⟩, hvalid, rfl⟩, rfl⟩
      exact ⟨type, parseNicknameMemoType_eq_some.mp hparse, hvalid, rfl⟩
    · rintro ⟨other, hname, hvalid, rfl⟩
      obtain rfl : type = other := by
        rw [parseNicknameMemoType_eq_some.mpr hname] at hparse
        exact (Option.some.inj hparse).symm
      exact ⟨_, ⟨(), hvalid, rfl⟩, rfl⟩

/-- With a name for the type the two encoders accept the same input and make the same script. -/
theorem gui_eq_ok_iff (hname : typeName ≠ []) :
    guiBuildNicknameMemoScript data typeName = .ok result ↔
      buildNicknameMemoScript data typeName = .ok result := by
  have hlowered : typeName.map Nicknames.toLower ≠ [] := by simpa using hname
  simp only [guiBuildNicknameMemoScript, buildNicknameMemoScript_eq_ok, eq_ok, validate_eq_ok,
    if_neg hlowered]
  constructor
  · rintro ⟨-, hne, -, hlen, -, hnul, typeByte, hbyte, rfl⟩
    obtain ⟨type, htype, rfl, hchars⟩ := guiTypeByte_eq_ok.mp ⟨hbyte, hnul⟩
    exact ⟨type, htype, ⟨hne, hlen, hchars⟩, by rw [htype]⟩
  · rintro ⟨type, htype, ⟨hne, hlen, hchars⟩, rfl⟩
    obtain ⟨hbyte, hnul⟩ := guiTypeByte_eq_ok.mpr ⟨type, htype, rfl, hchars⟩
    exact ⟨(), hne, (), hlen, (), hnul, type.toByte, hbyte, by rw [htype]⟩

/-- Decoding the text of an encoded memo gives the memo back, every payload that decodes was
encoded from what it decodes to, and the two encoders agree on every input with a type name. -/
theorem memo_codec :
    (∀ data type payload, buildNicknameMemoPayload data type = .ok payload →
      (∀ str, HexOf str payload ∨ HexOf str (opReturn :: pushBytes payload) →
        extractNicknameMemoPayloadBytes str >>= decodeNicknameMemoPayload =
          .ok ⟨type, data, payload⟩) ∧
      HexOf (hexStr payload) payload ∧
      HexOf (hexStr (opReturn :: pushBytes payload)) (opReturn :: pushBytes payload)) ∧
    (∀ payload decoded, decodeNicknameMemoPayload payload = .ok decoded →
      buildNicknameMemoPayload decoded.data decoded.type = .ok payload) ∧
    ∀ data typeName, typeName ≠ [] →
      (∃ result, guiBuildNicknameMemoScript data typeName = .ok result ∧
        buildNicknameMemoScript data typeName = .ok result) ∨
      ((guiBuildNicknameMemoScript data typeName).isOk = false ∧
        (buildNicknameMemoScript data typeName).isOk = false) := by
  refine ⟨fun data type payload h => ⟨fun str hstr => ?_, ?_, hexOf_hexStr (by simp)⟩,
    fun payload decoded h => (decode_eq_ok_iff.mp h).1, fun data typeName hname => ?_⟩
  · rw [extract_of_hexOf h hstr]
    exact decode_eq_ok_iff.mpr ⟨h, rfl⟩
  · obtain ⟨⟨rest, rfl⟩, -⟩ := build_head h
    exact hexOf_hexStr (by simp)
  · have hiff : ∀ result, guiBuildNicknameMemoScript data typeName = .ok result ↔
        buildNicknameMemoScript data typeName = .ok result := fun _ => gui_eq_ok_iff hname
    cases hrpc : buildNicknameMemoScript data typeName with
    | ok result => exact .inl ⟨result, (hiff result).mpr hrpc, rfl⟩
    | error reason =>
      refine .inr ⟨?_, rfl⟩
      cases hgui : guiBuildNicknameMemoScript data typeName with
      | error _ => rfl
      | ok result =>
        rw [(hiff result).mp hgui] at hrpc
        cases hrpc

/-- The numeric memo 42, read back from its payload. -/
theorem memo_codec_numeric :
    ∃ payload, buildNicknameMemoPayload [0x34, 0x32] .numeric = .ok payload ∧
      extractNicknameMemoPayloadBytes (hexStr payload) >>= decodeNicknameMemoPayload =
        .ok ⟨.numeric, [0x34, 0x32], payload⟩ := by
  refine ⟨_, rfl, ?_⟩
  obtain ⟨hback, hhex, -⟩ := memo_codec.1 [0x34, 0x32] .numeric _ rfl
  exact hback _ (.inl hhex)

end KubuCore.Wallet
