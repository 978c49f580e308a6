import KubuCore.Base.Stream
import KubuCore.Nickname.Database
import KubuCore.Nickname.Serialization

/-!
# Stored records in a stream

`NicknameInfo` and `NicknameUndoEntry` as they stand in a stream with more
behind them, with the two `try` blocks of the reader and where each leaves the
stream. A complete record comes back from any position, so a vector of undo
entries does; a record that ends before the later fields comes back with their
defaults (`record_roundTrip`). A row of the database is such a record.
-/

namespace KubuCore.Nickname

open Checked Script
open KubuCore.Stream
open VarInt

/-- The fields of `NicknameInfo` as they are stored, with every string as its bytes. -/
structure StoredInfo where
  nickname : Bytes := []
  ownerPubKey : Bytes := []
  payoutAddress : Bytes := []
  registrationHeight : Int := 0
  activeUntilHeight : Int := 0
  graceUntilHeight : Int := 0
  bondAmount : CAmount := 0
  bondTxid : Uint256 := 0
  bondVout : Nat := maxUint32
  lastUpdateTxid : Uint256 := 0
  released : Bool := false
  bondClaimed : Bool := false
deriving DecidableEq, Repr

structure StoredUndoEntry where
  nickname : Bytes := []
  existedBefore : Bool := false
  previousInfo : StoredInfo := {}
deriving DecidableEq, Repr

/-! ## Writing -/

/-- The fields every version of the record has. -/
def writeLeading (info : StoredInfo) : Bytes :=
  writeVector info.nickname ++ (writeVector info.ownerPubKey ++ (writeVector info.payoutAddress ++
    (writeVarInt info.registrationHeight ++ (writeVarInt info.activeUntilHeight ++
      (writeVarInt info.graceUntilHeight ++ writeAmount info.bondAmount)))))

def writeBond (info : StoredInfo) : Bytes :=
  writeUint256 info.bondTxid ++ writeVarInt info.bondVout

def writeLast (info : StoredInfo) : Bytes :=
  writeUint256 info.lastUpdateTxid ++ (writeBool info.released ++ writeBool info.bondClaimed)

def writeInfo (info : StoredInfo) : Bytes :=
  writeLeading info ++ (writeBond info ++ writeLast info)

def writeUndoEntry (entry : StoredUndoEntry) : Bytes :=
  writeVector entry.nickname ++ (writeBool entry.existedBefore ++ writeInfo entry.previousInfo)

def writeUndoEntries (entries : List StoredUndoEntry) : Bytes :=
  writeCompactSize entries.length ++ entries.flatMap writeUndoEntry

/-! ## Reading -/

def readLeading (stream : Bytes) : Option (StoredInfo × Bytes) := do
  let (nickname, stream) ← readVector stream
  let (ownerPubKey, stream) ← readVector stream
  let (payoutAddress, stream) ← readVector stream
  let (registrationHeight, stream) ← readVarInt stream
  let (activeUntilHeight, stream) ← readVarInt stream
  let (graceUntilHeight, stream) ← readVarInt stream
  let (bondAmount, stream) ← readAmount stream
  let info : StoredInfo :=
    { nickname, ownerPubKey, payoutAddress, registrationHeight, activeUntilHeight
      graceUntilHeight, bondAmount }
  pure (info, stream)

/-- The first `try` block. A hash that is cut short is not taken off the stream; a `VARINT` is,
byte by byte, up to the end. -/
def tryBond (stream : Bytes) : (Uint256 × Nat) × Bytes :=
  match readUint256 stream with
  | none => ((0, maxUint32), stream)
  | some (bondTxid, stream) =>
    match readVarInt stream with
    | none => ((0, maxUint32), [])
    | some (bondVout, stream) => ((bondTxid, bondVout.toNat), stream)

/-- The second `try` block. A flag that cannot be read is missing because the stream has ended. -/
def tryLast (stream : Bytes) : (Uint256 × Bool × Bool) × Bytes :=
  match readUint256 stream with
  | none => ((0, false, false), stream)
  | some (lastUpdateTxid, stream) =>
    match readBool stream with
    | none => ((0, false, false), [])
    | some (released, stream) =>
      match readBool stream with
      | none => ((0, false, false), [])
      | some (bondClaimed, stream) => ((lastUpdateTxid, released, bondClaimed), stream)

def readInfo (stream : Bytes) : Option (StoredInfo × Bytes) := do
  let (info, stream) ← readLeading stream
  let ((bondTxid, bondVout), stream) := tryBond stream
  let ((lastUpdateTxid, released, bondClaimed), stream) := tryLast stream
  pure ({ info with bondTxid, bondVout, lastUpdateTxid, released, bondClaimed }, stream)

def readUndoEntry (stream : Bytes) : Option (StoredUndoEntry × Bytes) := do
  let (nickname, stream) ← readVector stream
  let (existedBefore, stream) ← readBool stream
  let (previousInfo, stream) ← readInfo stream
  pure (⟨nickname, existedBefore, previousInfo⟩, stream)

/-- Reading a vector of entries, in rounds of `step` of them. -/
def readUndoEntries (step : Nat) (stream : Bytes) :
    Except String (List StoredUndoEntry × Bytes) := do
  let (nSize, stream) ← orFail "ReadCompactSize()" (readCompactSize stream)
  readRounds (fun stream => orFail "CDataStream::read(): end of data" (readUndoEntry stream))
    step nSize nSize [] stream

/-! ## Reading back -/

/-- The values the fields of a record can have: strings that a reader accepts, heights that are not
negative, and the ranges of the machine types. -/
structure StoredFits (info : StoredInfo) : Prop where
  nickname : info.nickname.length ≤ maxSize
  ownerPubKey : info.ownerPubKey.length ≤ maxSize
  payoutAddress : info.payoutAddress.length ≤ maxSize
  registration : 0 ≤ info.registrationHeight ∧ info.registrationHeight < 2 ^ 31
  active : 0 ≤ info.activeUntilHeight ∧ info.activeUntilHeight < 2 ^ 31
  grace : 0 ≤ info.graceUntilHeight ∧ info.graceUntilHeight < 2 ^ 31
  bondAmount : -2 ^ 63 ≤ info.bondAmount ∧ info.bondAmount < 2 ^ 63
  bondVout : info.bondVout ≤ maxUint32

theorem readHeight_writeHeight {height : Int} (rest : Bytes) (h : 0 ≤ height ∧ height < 2 ^ 31) :
    readVarInt (writeVarInt height ++ rest) = some (height, rest) :=
  readVarInt_writeVarInt rest h.1 (by omega)

/-- The leading fields, with the defaults of the others. -/
def StoredInfo.leading (info : StoredInfo) : StoredInfo :=
  { info with
    bondTxid := 0
    bondVout := maxUint32
    lastUpdateTxid := 0
    released := false
    bondClaimed := false }

variable {info : StoredInfo}

theorem readLeading_writeLeading (h : StoredFits info) (rest : Bytes) :
    readLeading (writeLeading info ++ rest) = some (info.leading, rest) := by
  simp only [readLeading, writeLeading, List.append_assoc, readVector_writeVector _ h.nickname,
    readVector_writeVector _ h.ownerPubKey, readVector_writeVector _ h.payoutAddress,
    readHeight_writeHeight _ h.registration, readHeight_writeHeight _ h.active,
    readHeight_writeHeight _ h.grace, readAmount_writeAmount _ h.bondAmount, Option.bind_eq_bind,
    Option.bind_some]
  rfl

theorem tryBond_writeBond (h : StoredFits info) (rest : Bytes) :
    tryBond (writeBond info ++ rest) = ((info.bondTxid, info.bondVout), rest) := by
  have hvout : (info.bondVout : Int) < 2 ^ 64 := by
    have := h.bondVout
    simp only [maxUint32] at this
    omega
  simp only [tryBond, writeBond, List.append_assoc, readUint256_writeUint256,
    readVarInt_writeVarInt _ (Int.natCast_nonneg _) hvout, Int.toNat_natCast]

theorem tryLast_writeLast (info : StoredInfo) (rest : Bytes) :
    tryLast (writeLast info ++ rest) =
      ((info.lastUpdateTxid, info.released, info.bondClaimed), rest) := by
  simp only [tryLast, writeLast, List.append_assoc, readUint256_writeUint256, readBool_writeBool]

/-- A complete record is read back and the stream continues behind it. -/
theorem readInfo_writeInfo (h : StoredFits info) (rest : Bytes) :
    readInfo (writeInfo info ++ rest) = some (info, rest) := by
  rw [readInfo, writeInfo, List.append_assoc, List.append_assoc, readLeading_writeLeading h]
  simp only [Option.bind_eq_bind, Option.bind_some, tryBond_writeBond h, tryLast_writeLast]
  rfl

/-- A record that ends after the bond amount. -/
theorem readInfo_writeLeading (h : StoredFits info) :
    readInfo (writeLeading info) = some (info.leading, []) := by
  have hread := readLeading_writeLeading h []
  rw [List.append_nil] at hread
  rw [readInfo, hread]
  rfl

/-- A record that ends after the bond outpoint. -/
theorem readInfo_writeBond (h : StoredFits info) : readInfo (writeLeading info ++ writeBond info) =
      some ({ info with lastUpdateTxid := 0, released := false, bondClaimed := false }, []) := by
  have hbond := tryBond_writeBond h []
  rw [List.append_nil] at hbond
  rw [readInfo, readLeading_writeLeading h]
  simp only [Option.bind_eq_bind, Option.bind_some, hbond]
  rfl

/-! ## Rows -/

/-- A record with its payout address as bytes. -/
def NicknameInfo.stored (info : NicknameInfo) : StoredInfo :=
  { info with payoutAddress := info.payoutAddress.toUTF8.data.toList }

/-- The record of stored bytes, if the payout address is text. -/
def StoredInfo.restored (info : StoredInfo) : Option NicknameInfo :=
  (String.fromUTF8? ⟨info.payoutAddress.toArray⟩).map fun payoutAddress =>
    { info with payoutAddress }

/-- `NicknameInfo::SerializationOp`, writing. -/
def serialize (info : NicknameInfo) : Bytes := writeInfo info.stored

/-- `NicknameInfo::SerializationOp`, reading. -/
def deserialize (stream : Bytes) : Option NicknameInfo := do
  let (info, _) ← readInfo stream
  info.restored

theorem restored_stored (info : NicknameInfo) : info.stored.restored = some info := by
  have htext : String.fromUTF8? ⟨info.payoutAddress.toUTF8.data.toList.toArray⟩ =
      some info.payoutAddress := by
    simp only [String.fromUTF8?, Option.dite_none_right_eq_some]
    exact ⟨info.payoutAddress.isValidUTF8, rfl⟩
  rw [StoredInfo.restored, NicknameInfo.stored, htext]
  rfl

/-- A row reads back unchanged. -/
theorem deserialize_serialize {info : NicknameInfo} (h : StoredFits info.stored) :
    deserialize (serialize info) = some info := by
  have hread := readInfo_writeInfo h []
  rw [List.append_nil] at hread
  rw [deserialize, serialize, hread]
  exact restored_stored info

/-! ## Undo entries -/

theorem readUndoEntry_writeUndoEntry {entry : StoredUndoEntry}
    (hname : entry.nickname.length ≤ maxSize) (h : StoredFits entry.previousInfo) (rest : Bytes) :
    readUndoEntry (writeUndoEntry entry ++ rest) = some (entry, rest) := by
  simp only [readUndoEntry, writeUndoEntry, List.append_assoc, readVector_writeVector _ hname,
    readBool_writeBool, readInfo_writeInfo h, Option.bind_eq_bind, Option.bind_some,
    Option.pure_def]

/-- A vector of entries, however many rounds it takes to read it. -/
theorem readUndoEntries_writeUndoEntries {step : Nat} {entries : List StoredUndoEntry}
    (hstep : 0 < step) (hsize : entries.length ≤ maxSize)
    (h : ∀ entry ∈ entries, entry.nickname.length ≤ maxSize ∧ StoredFits entry.previousInfo)
    (rest : Bytes) :
    readUndoEntries step (writeUndoEntries entries ++ rest) = .ok (entries, rest) := by
  rw [readUndoEntries, writeUndoEntries, List.append_assoc,
    readCompactSize_writeCompactSize _ hsize]
  refine (readRounds_all hstep).mpr (readMany_write (fun entry hentry rest => ?_) rest)
  obtain ⟨hname, hfits⟩ := h entry hentry
  rw [orFail_eq_ok, readUndoEntry_writeUndoEntry hname hfits]

/-- Records and vectors of undo entries come back unchanged wherever they stand, and a record that
ends before the later fields comes back with their defaults. -/
theorem record_roundTrip :
    (∀ info, StoredFits info → ∀ rest, readInfo (writeInfo info ++ rest) = some (info, rest)) ∧
    (∀ step, 0 < step → ∀ entries : List StoredUndoEntry, entries.length ≤ maxSize →
      (∀ entry ∈ entries, entry.nickname.length ≤ maxSize ∧ StoredFits entry.previousInfo) →
      ∀ rest, readUndoEntries step (writeUndoEntries entries ++ rest) = .ok (entries, rest)) ∧
    ∀ info, StoredFits info →
      readInfo (writeLeading info) =
        some ({ info with
          bondTxid := 0, bondVout := maxUint32
          lastUpdateTxid := 0, released := false, bondClaimed := false }, []) ∧
      readInfo (writeLeading info ++ writeBond info) =
        some ({ info with lastUpdateTxid := 0, released := false, bondClaimed := false }, []) :=
  ⟨fun _ h => readInfo_writeInfo h,
    fun _ hstep _ hsize h => readUndoEntries_writeUndoEntries hstep hsize h,
    fun _ h => ⟨readInfo_writeLeading h, readInfo_writeBond h⟩⟩

/-- A released name, with a bond amount that is not one. -/
def releasedInfo : StoredInfo where
  nickname := [0x62, 0x6f, 0x62, 0x5f, 0x31]
  payoutAddress := [0xff]
  registrationHeight := 7
  activeUntilHeight := 2147483647
  bondAmount := -1
  bondTxid := 5
  bondVout := 3
  lastUpdateTxid := 6
  released := true

theorem releasedInfo_fits : StoredFits releasedInfo := by
  refine ⟨?_, ?_, ?_, ?_, ?_, ?_, ?_, ?_⟩ <;> decide

theorem record_roundTrip_released :
    readInfo (writeInfo releasedInfo ++ [1, 2, 3]) = some (releasedInfo, [1, 2, 3]) ∧
      readUndoEntries 1 (writeUndoEntries
          [⟨[0x62], true, releasedInfo⟩, ⟨[], false, releasedInfo⟩] ++ []) =
        .ok ([⟨[0x62], true, releasedInfo⟩, ⟨[], false, releasedInfo⟩], []) := by
  refine ⟨record_roundTrip.1 releasedInfo releasedInfo_fits _,
    record_roundTrip.2.1 1 (by decide) _ (by decide) ?_ _⟩
  intro entry hentry
  rcases List.mem_pair.mp hentry with rfl | rfl
  · exact ⟨by decide, releasedInfo_fits⟩
  · exact ⟨by decide, releasedInfo_fits⟩

theorem readCompactSize_too_large (rest : Bytes) :
    readCompactSize (writeCompactSize (maxSize + 1) ++ rest) = none := by
  have hwrite : writeCompactSize (maxSize + 1) = [254, 1, 0, 0, 2] := by decide
  rw [hwrite]
  simp [readCompactSize, readWideSize, readLE, maxSize]

/-- A vector with one entry more than a reader accepts does not come back. -/
theorem record_roundTrip_too_many :
    ∃ entries : List StoredUndoEntry,
      (∀ entry ∈ entries, entry.nickname.length ≤ maxSize ∧ StoredFits entry.previousInfo) ∧
      ∀ step, readUndoEntries step (writeUndoEntries entries) = .error "ReadCompactSize()" := by
  refine ⟨List.replicate (maxSize + 1) {}, fun entry hentry => ?_, fun step => ?_⟩
  · obtain rfl := List.eq_of_mem_replicate hentry
    exact ⟨by decide, by refine ⟨?_, ?_, ?_, ?_, ?_, ?_, ?_, ?_⟩ <;> decide⟩
  · rw [readUndoEntries, writeUndoEntries, List.length_replicate, readCompactSize_too_large]
    rfl

end KubuCore.Nickname
