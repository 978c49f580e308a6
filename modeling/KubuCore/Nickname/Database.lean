import KubuCore.Base.Rows
import KubuCore.Nickname.Names

/-!
# The nickname database

The tables of `nicknamedb.cpp` as one typed row store, and its batch writers.
A batch is computed from the rows as they were before it, and applied in the
order in which the source queues its operations. Rows hold values, not their
serialization; a write to the store is taken to succeed.
-/

namespace KubuCore.Nickname

open Rows

structure NicknameInfo where
  nickname : Bytes := []
  ownerPubKey : Bytes := []
  payoutAddress : String := ""
  registrationHeight : Int := 0
  activeUntilHeight : Int := 0
  graceUntilHeight : Int := 0
  bondAmount : CAmount := 0
  bondTxid : Uint256 := 0
  bondVout : Nat := maxUint32
  lastUpdateTxid : Uint256 := 0
  released : Bool := false
  bondClaimed : Bool := false
deriving DecidableEq, Repr

def NicknameInfo.getStatus (info : NicknameInfo) (currentHeight : Int) : Nicknames.Status :=
  Nicknames.getStatus currentHeight info.activeUntilHeight info.graceUntilHeight info.released
    info.bondClaimed

def NicknameInfo.hasBondOutpoint (info : NicknameInfo) : Bool :=
  !info.bondClaimed && info.bondTxid != 0 && info.bondVout != maxUint32

def NicknameInfo.getBondOutpoint (info : NicknameInfo) : COutPoint :=
  if info.hasBondOutpoint then ⟨info.bondTxid, info.bondVout⟩ else .null

structure NicknameUndoEntry where
  nickname : Bytes := []
  existedBefore : Bool := false
  previousInfo : NicknameInfo := {}
deriving DecidableEq, Repr

structure NicknameBondIndexUndoEntry where
  outpoint : COutPoint
  existedBefore : Bool := false
  previousNickname : Bytes := []
deriving DecidableEq, Repr

structure NicknamePricingState where
  lastProcessedHeight : Int := -1
  rollingRegistrations : Int := 0
  multiplierPermille : Int := Nicknames.defaultPricingMultiplierPermille
deriving DecidableEq, Repr

structure NicknamePricingUndoEntry where
  existedBefore : Bool := false
  previousState : NicknamePricingState := {}
deriving DecidableEq, Repr

/-! ## Keys -/

/-- The keys of the tables: `n`, `u`, `b`, `o`, the two entries of `m`, `p`,
`q` and `r`. -/
inductive DbKey where
  | nickname (name : Bytes)
  | undo (blockHash : Uint256)
  | bondOutpoint (outpoint : COutPoint)
  | ownerKeyID (keyID : Uint160) (name : Bytes)
  | ownerIndexReady
  | pricingState
  | pricingUndo (blockHash : Uint256)
  | bondIndexUndo (blockHash : Uint256)
  | regCount (height : Int)
deriving DecidableEq

/-- Keys are ordered by table and then by content; the two tables that are
iterated, names and owners, follow the order of their serialization. -/
def DbKey.code : DbKey → List Nat
  | .nickname name => 0x6e :: name.length :: name.map UInt8.toNat
  | .undo blockHash => [0x75, blockHash.toNat]
  | .bondOutpoint outpoint => [0x62, outpoint.hash.toNat, outpoint.n]
  | .ownerKeyID keyID name =>
    0x6f :: (keyID.val.map UInt8.toNat ++ name.length :: name.map UInt8.toNat)
  | .ownerIndexReady => [0x6d, 0]
  | .pricingState => [0x6d, 1]
  | .pricingUndo blockHash => [0x70, blockHash.toNat]
  | .bondIndexUndo blockHash => [0x71, blockHash.toNat]
  | .regCount height => [0x72, if 0 ≤ height then 1 else 0, height.natAbs]

theorem map_toNat_injective {a b : Bytes} (h : a.map UInt8.toNat = b.map UInt8.toNat) : a = b :=
  List.map_injective_iff.mpr (fun _ _ => UInt8.toNat_inj.mp) h

theorem DbKey.code_injective {a b : DbKey} (h : a.code = b.code) : a = b := by
  cases a <;> cases b <;> simp only [DbKey.code, List.cons.injEq, and_true] at h <;>
    first
    | (exfalso; omega)
    | skip
  case nickname.nickname => exact congrArg _ (map_toNat_injective h.2.2)
  case undo.undo => exact congrArg _ (BitVec.eq_of_toNat_eq h.2)
  case bondOutpoint.bondOutpoint a b =>
    cases a
    cases b
    simp_all [BitVec.toNat_eq]
  case ownerKeyID.ownerKeyID k m k' m' =>
    obtain ⟨-, h⟩ := h
    obtain ⟨hk, hm⟩ := List.append_inj h (by simp [k.property, k'.property])
    have hk' : k = k' := Subtype.ext (map_toNat_injective hk)
    have hm' : m = m' := map_toNat_injective (List.cons.inj hm).2
    rw [hk', hm']
  case pricingUndo.pricingUndo => exact congrArg _ (BitVec.eq_of_toNat_eq h.2)
  case bondIndexUndo.bondIndexUndo => exact congrArg _ (BitVec.eq_of_toNat_eq h.2)
  case regCount.regCount a b =>
    have : a = b := by
      obtain ⟨-, hs, hn⟩ := h
      split_ifs at hs <;> omega
    rw [this]
  all_goals rfl

instance : Ord DbKey := ⟨compareOn DbKey.code⟩

instance : Std.TransOrd DbKey := inferInstanceAs (Std.TransCmp (compareOn DbKey.code))

instance : Std.LawfulEqOrd DbKey where
  eq_of_compare {a b} h :=
    DbKey.code_injective (Std.LawfulEqOrd.eq_of_compare (show compare a.code b.code = .eq from h))

/-- What a row holds, by table. -/
abbrev Row : DbKey → Type
  | .nickname _ => NicknameInfo
  | .undo _ => List NicknameUndoEntry
  | .bondOutpoint _ => Bytes
  | .ownerKeyID _ _ => Bool
  | .ownerIndexReady => Bool
  | .pricingState => NicknamePricingState
  | .pricingUndo _ => NicknamePricingUndoEntry
  | .bondIndexUndo _ => List NicknameBondIndexUndoEntry
  | .regCount _ => Nat

abbrev NicknameStateDB := Store Row

abbrev DbBatch := List (RowOp Row)

/-! ## Reading -/

def normalizeKeyName (nickname : Bytes) : Bytes := Nicknames.normalizeNickname nickname

def readNickname (db : NicknameStateDB) (nickname : Bytes) : Option NicknameInfo :=
  db.get? (.nickname (normalizeKeyName nickname))

def readNicknameUndo (db : NicknameStateDB) (blockHash : Uint256) :
    Option (List NicknameUndoEntry) :=
  db.get? (.undo blockHash)

def readNicknameBondIndexUndo (db : NicknameStateDB) (blockHash : Uint256) :
    Option (List NicknameBondIndexUndoEntry) :=
  db.get? (.bondIndexUndo blockHash)

def readNicknameByBondOutpoint (db : NicknameStateDB) (outpoint : COutPoint) : Option Bytes :=
  db.get? (.bondOutpoint outpoint)

/-- `ReadNicknamePricingState`: whether the row exists, and the state read. -/
def readNicknamePricingState (db : NicknameStateDB) : Bool × NicknamePricingState :=
  match db.get? .pricingState with
  | none => (false, {})
  | some state =>
    (true, { state with
      multiplierPermille := Nicknames.clampPricingMultiplierPermille state.multiplierPermille
      rollingRegistrations :=
        if state.rollingRegistrations < 0 then 0 else state.rollingRegistrations })

def readPricingMultiplierPermille (db : NicknameStateDB) : Int :=
  (readNicknamePricingState db).2.multiplierPermille

def readRegistrationCountAtHeight (db : NicknameStateDB) (height : Int) : Int :=
  if height < 0 then 0 else ((db.get? (.regCount height)).getD 0 : Nat)

def rebuildRollingRegistrations (db : NicknameStateDB) (tipHeight : Int) : Int :=
  if tipHeight < 0 then 0
  else
    let start := max 0 (tipHeight - Nicknames.pricingWindowBlocks + 1)
    ((List.range (tipHeight - start + 1).toNat).map fun (i : Nat) =>
      readRegistrationCountAtHeight db (start + i)).sum

def computeNextPricingState (db : NicknameStateDB) (previousState : NicknamePricingState)
    (blockHeight : Int) (registeredCount : Nat) : NicknamePricingState :=
  let rolling :=
    if previousState.lastProcessedHeight + 1 ≠ blockHeight then
      rebuildRollingRegistrations db (blockHeight - 1)
    else previousState.rollingRegistrations
  let droppedCount :=
    readRegistrationCountAtHeight db (blockHeight - Nicknames.pricingWindowBlocks)
  let rolling := max 0 (rolling - droppedCount + registeredCount)
  let multiplier :=
    if 0 < blockHeight ∧ blockHeight % Nicknames.pricingEpochBlocks = 0 then
      Nicknames.computeNextPricingMultiplierPermille previousState.multiplierPermille rolling
    else previousState.multiplierPermille
  { lastProcessedHeight := blockHeight
    rollingRegistrations := rolling
    multiplierPermille := Nicknames.clampPricingMultiplierPermille multiplier }

/-! ## Index rows -/

def tryGetOwnerKeyID (env : Env) (info : NicknameInfo) : Option Uint160 :=
  if info.ownerPubKey.length = compressedSize then some (env.hash160 info.ownerPubKey) else none

def eraseNicknameOwnerIndexEntry (env : Env) (info : NicknameInfo) (normalizedNickname : Bytes) :
    DbBatch :=
  match tryGetOwnerKeyID env info with
  | some keyID => [.erase (.ownerKeyID keyID normalizedNickname)]
  | none => []

def eraseNicknameBondIndexEntry (info : NicknameInfo) : DbBatch :=
  if info.hasBondOutpoint then [.erase (.bondOutpoint info.getBondOutpoint)] else []

def writeNicknameIndexEntries (env : Env) (info : NicknameInfo) (normalizedNickname : Bytes) :
    DbBatch :=
  (if info.hasBondOutpoint then
    [.write (.bondOutpoint info.getBondOutpoint) normalizedNickname] else []) ++
  match tryGetOwnerKeyID env info with
  | some keyID => [.write (.ownerKeyID keyID normalizedNickname) true]
  | none => []

/-- Erase the index rows of the record stored under a name. -/
def eraseIndexEntries (env : Env) (db : NicknameStateDB) (normalizedNickname : Bytes) : DbBatch :=
  match db.get? (.nickname normalizedNickname) with
  | some currentInfo =>
    eraseNicknameBondIndexEntry currentInfo ++
      eraseNicknameOwnerIndexEntry env currentInfo normalizedNickname
  | none => []

/-- The owner-index keys met by the iterator of `EnsureOwnerIndexReady`. -/
def ownerIndexKeys (db : NicknameStateDB) : List (Uint160 × Bytes) :=
  db.keys.filterMap fun
    | .ownerKeyID keyID name => some (keyID, name)
    | _ => none

/-- The nickname rows met by an iterator over the name table. -/
def nicknameRows (db : NicknameStateDB) : List (Bytes × NicknameInfo) :=
  db.toList.filterMap fun
    | ⟨.nickname name, info⟩ => some (name, info)
    | _ => none

/-- The owner row of a nickname row. -/
def writeOwnerIndexEntry (env : Env) (row : Bytes × NicknameInfo) : DbBatch :=
  match tryGetOwnerKeyID env row.2 with
  | some keyID => [.write (.ownerKeyID keyID row.1) true]
  | none => []

def ensureOwnerIndexReady (env : Env) (db : NicknameStateDB) : NicknameStateDB :=
  if db.get? .ownerIndexReady = some true then db
  else
    writeBatch db
      (((ownerIndexKeys db).map fun key => .erase (.ownerKeyID key.1 key.2)) ++
        (nicknameRows db).flatMap (writeOwnerIndexEntry env) ++
        [.write .ownerIndexReady true])

/-! ## Writing a block -/

def upsertOps (env : Env) (db : NicknameStateDB) (info : NicknameInfo) : DbBatch :=
  let nickname := normalizeKeyName info.nickname
  let normalizedInfo := { info with nickname }
  eraseIndexEntries env db nickname ++ [.write (.nickname nickname) normalizedInfo] ++
    writeNicknameIndexEntries env normalizedInfo nickname

def eraseOps (env : Env) (db : NicknameStateDB) (nickname : Bytes) : DbBatch :=
  eraseIndexEntries env db (normalizeKeyName nickname) ++
    [.erase (.nickname (normalizeKeyName nickname))]

/-- The entry `rememberBondIndexUndo` makes for an outpoint. -/
def bondIndexUndoEntry (db : NicknameStateDB) (outpoint : COutPoint) :
    NicknameBondIndexUndoEntry :=
  match readNicknameByBondOutpoint db outpoint with
  | some previousNickname => { outpoint, existedBefore := true, previousNickname }
  | none => { outpoint }

/-- `bondIndexUndoMap`: one entry for each outpoint remembered, the first time
it is. -/
def bondIndexUndoMap (db : NicknameStateDB) (outpoints : List COutPoint) :
    Std.ExtTreeMap COutPoint NicknameBondIndexUndoEntry :=
  outpoints.foldl (fun undoMap outpoint =>
    undoMap.insertIfNew outpoint (bondIndexUndoEntry db outpoint)) ∅

structure NicknameBlockUpdates where
  upserts : List NicknameInfo := []
  erases : List Bytes := []
  bondIndexUpserts : List (COutPoint × Bytes) := []
  bondIndexErases : List COutPoint := []
  undoEntries : List NicknameUndoEntry := []
  blockHeight : Int := 0
  registeredCount : Nat := 0
deriving DecidableEq

/-- The pricing rows of a block: the undo entry, the count and the next state. -/
def pricingOps (db : NicknameStateDB) (blockHash : Uint256) (blockHeight : Int)
    (registeredCount : Nat) : DbBatch :=
  let previous := readNicknamePricingState db
  [.write (.pricingUndo blockHash)
      { existedBefore := previous.1, previousState := if previous.1 then previous.2 else {} },
    .write (.regCount blockHeight) registeredCount,
    .write .pricingState (computeNextPricingState db previous.2 blockHeight registeredCount)]

def writeNicknameBatch (env : Env) (db : NicknameStateDB) (blockHash : Uint256)
    (updates : NicknameBlockUpdates) : NicknameStateDB :=
  let remembered := updates.bondIndexErases ++ updates.bondIndexUpserts.map Prod.fst
  let undoMap := bondIndexUndoMap db remembered
  writeBatch db
    (updates.upserts.flatMap (upsertOps env db) ++
      updates.erases.flatMap (eraseOps env db) ++
      [.write (.undo blockHash) updates.undoEntries] ++
      updates.bondIndexErases.map (fun outpoint => .erase (.bondOutpoint outpoint)) ++
      updates.bondIndexUpserts.map (fun item =>
        .write (.bondOutpoint item.1) (normalizeKeyName item.2)) ++
      [.write (.bondIndexUndo blockHash) (undoMap.toList.map Prod.snd)] ++
      pricingOps db blockHash updates.blockHeight updates.registeredCount)

/-! ## Undoing a block -/

def restoreOps (env : Env) (undo : NicknameUndoEntry) : DbBatch :=
  let nickname := normalizeKeyName undo.nickname
  if undo.existedBefore then
    let restored := { undo.previousInfo with nickname }
    .write (.nickname nickname) restored :: writeNicknameIndexEntries env restored nickname
  else [.erase (.nickname nickname)]

def restoreBondIndexOp (undo : NicknameBondIndexUndoEntry) : RowOp Row :=
  if undo.existedBefore then .write (.bondOutpoint undo.outpoint) undo.previousNickname
  else .erase (.bondOutpoint undo.outpoint)

def restoreBondIndexOps (db : NicknameStateDB) (blockHash : Uint256) : DbBatch :=
  match readNicknameBondIndexUndo db blockHash with
  | some entries => entries.map restoreBondIndexOp ++ [.erase (.bondIndexUndo blockHash)]
  | none => []

def restorePricingOps (db : NicknameStateDB) (blockHash : Uint256) : DbBatch :=
  match db.get? (.pricingUndo blockHash) with
  | some entry =>
    [if entry.existedBefore then .write .pricingState entry.previousState
      else .erase .pricingState,
      .erase (.pricingUndo blockHash)]
  | none => []

def applyNicknameUndo (env : Env) (db : NicknameStateDB) (blockHash : Uint256) (blockHeight : Int)
    (undoEntries : List NicknameUndoEntry) : NicknameStateDB :=
  writeBatch db
    (undoEntries.flatMap (fun undo => eraseIndexEntries env db (normalizeKeyName undo.nickname)) ++
      undoEntries.reverse.flatMap (restoreOps env) ++
      [.erase (.undo blockHash), .erase (.regCount blockHeight)] ++
      restoreBondIndexOps db blockHash ++
      restorePricingOps db blockHash)

end KubuCore.Nickname
