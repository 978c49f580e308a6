import KubuCore.Chain.Coins
import KubuCore.Nickname.Database
import KubuCore.Nickname.Operation
import KubuCore.Script.Standard

/-!
# Checking the nickname operations of a block

`BuildNicknameBlockUpdates` of `validation.cpp`: one pass over the
transactions of a block, with working copies of the records it touches and an
in-memory index of their bond outputs.
-/

namespace KubuCore.Nickname

open Checked
open Chain
open Script
open Nicknames

/-! ## Owner authorization -/

def ownerP2PK (pubKey : CPubKey) : CScript := getScriptForRawPubKey pubKey

def ownerP2PKH (env : Env) (pubKey : CPubKey) : CScript :=
  getScriptForDestination (.keyID (CPubKey.getID env pubKey))

def ownerP2WPKH (env : Env) (pubKey : CPubKey) : CScript :=
  getScriptForWitness env (ownerP2PKH env pubKey)

def ownerP2SHP2WPKH (env : Env) (pubKey : CPubKey) : CScript :=
  getScriptForDestination (.scriptID (env.hash160 (ownerP2WPKH env pubKey)))

/-- One of the four output scripts accepted as the owner's. -/
def isOwnerScript (env : Env) (pubKey : CPubKey) (scriptPubKey : CScript) : Bool :=
  scriptPubKey == ownerP2PK pubKey || scriptPubKey == ownerP2PKH env pubKey ||
    scriptPubKey == ownerP2WPKH env pubKey || scriptPubKey == ownerP2SHP2WPKH env pubKey

/-- The checks both authorization functions make on the owner key. -/
def checkOwnerPubKey (env : Env) (ownerPubKeyBytes : Bytes) : Except String CPubKey := do
  require (ownerPubKeyBytes.length = compressedSize) "owner pubkey must be compressed"
  let ownerPubKey := CPubKey.set ownerPubKeyBytes
  require (CPubKey.isFullyValid env ownerPubKey ∧ CPubKey.isCompressed ownerPubKey)
    "owner pubkey is invalid"
  pure ownerPubKey

/-- `TxHasOwnerAuthorizationInput`: some spent output has an owner script. -/
def txHasOwnerAuthorizationInput (env : Env) (tx : CTransaction) (txundo : Option CTxUndo)
    (ownerPubKeyBytes : Bytes) : Except String Unit :=
  match txundo with
  | none => .error "missing undo context for owner authorization"
  | some vprevout => do
    let ownerPubKey ← checkOwnerPubKey env ownerPubKeyBytes
    require (vprevout.length = tx.vin.length) "owner authorization context mismatch"
    require (vprevout.any fun prevout => isOwnerScript env ownerPubKey prevout.txout.scriptPubKey)
      "transaction does not spend an output controlled by nickname owner"

/-! ## Fee and bond output -/

def getRequiredNicknameFee (operation : NicknameOperation) (pricingMultiplierPermille : Int) :
    CAmount :=
  match operation.type with
  | .register =>
    (getPricing operation.nickname.length pricingMultiplierPermille).registrationFee
  | _ => 0

def insufficientFee (operation : NicknameOperation) (requiredFee txFee : CAmount) : String :=
  "insufficient fee for " ++ nicknameOpTypeToString operation.type ++ ": required=" ++
    formatMoney requiredFee ++ " actual=" ++ formatMoney txFee

/-- The output loop of `FindUniqueBondOutput`, at index `i` with the index
found so far. -/
def findBondOutput (expectedScriptPubKey : CScript) (expectedAmount : CAmount) :
    Nat → Option Nat → List CTxOut → Except String Nat
  | _, some found, [] => .ok found
  | _, none, [] => .error "transaction is missing required nickname bond output"
  | i, found, output :: rest =>
    if output.nValue ≠ expectedAmount ∨ output.scriptPubKey ≠ expectedScriptPubKey then
      findBondOutput expectedScriptPubKey expectedAmount (i + 1) found rest
    else do
      require (found = none) "transaction contains multiple matching nickname bond outputs"
      findBondOutput expectedScriptPubKey expectedAmount (i + 1) (some i) rest

def findUniqueBondOutput (tx : CTransaction) (expectedScriptPubKey : CScript)
    (expectedAmount : CAmount) : Except String Nat :=
  findBondOutput expectedScriptPubKey expectedAmount 0 none tx.vout

/-! ## Working state -/

structure NicknameWorkingState where
  loaded : Bool := false
  existedBefore : Bool := false
  existsNow : Bool := false
  dirty : Bool := false
  before : NicknameInfo := {}
  current : NicknameInfo := {}
deriving DecidableEq, Repr

/-- The local variables of `BuildNicknameBlockUpdates` that its loop changes. -/
structure BlockScan where
  states : Std.ExtTreeMap Bytes NicknameWorkingState := ∅
  nicknameBondOutpoints : Std.ExtTreeMap Bytes COutPoint := ∅
  bondOutpointOwners : Std.ExtTreeMap COutPoint Bytes := ∅
  bondIndexUpserts : List (COutPoint × Bytes) := []
  bondIndexErases : List COutPoint := []
  registeredCount : Nat := 0

/-- Forget the bond cached for a name. -/
def BlockScan.unindexBondOutpoint (scan : BlockScan) (nickname : Bytes) : BlockScan :=
  match scan.nicknameBondOutpoints[nickname]? with
  | some prev =>
    { scan with
      bondOutpointOwners := scan.bondOutpointOwners.erase prev
      nicknameBondOutpoints := scan.nicknameBondOutpoints.erase nickname }
  | none => scan

/-- `indexBondOutpoint`: replace the cached bond of a name by the bond of its
working record. -/
def BlockScan.indexBondOutpoint (scan : BlockScan) (nickname : Bytes)
    (state : NicknameWorkingState) : BlockScan :=
  let scan := scan.unindexBondOutpoint nickname
  if state.existsNow ∧ state.current.hasBondOutpoint then
    let outpoint := state.current.getBondOutpoint
    { scan with
      nicknameBondOutpoints := scan.nicknameBondOutpoints.insertIfNew nickname outpoint
      bondOutpointOwners := scan.bondOutpointOwners.insertIfNew outpoint nickname }
  else scan

def BlockScan.setState (scan : BlockScan) (nickname : Bytes) (state : NicknameWorkingState) :
    BlockScan :=
  { scan with states := scan.states.insert nickname state }

/-- The working state of a name as it is read from the database. -/
def readState (db : NicknameStateDB) (nickname : Bytes) : NicknameWorkingState :=
  match readNickname db nickname with
  | some stored =>
    { loaded := true, existsNow := true, existedBefore := true, before := stored, current := stored }
  | none => { loaded := true }

/-- `loadState`: the working state of a name, read on first use. -/
def loadState (db : NicknameStateDB) (scan : BlockScan) (nickname : Bytes) :
    BlockScan × NicknameWorkingState :=
  let state := scan.states[nickname]?.getD {}
  if state.loaded then (scan, state)
  else
    let state := readState db nickname
    ((scan.setState nickname state).indexBondOutpoint nickname state, state)

/-- `lookupBondNicknameByOutpoint`: the name whose bond an outpoint is. A hit
in the database loads the record of the name it gives. -/
def lookupBondNicknameByOutpoint (db : NicknameStateDB) (scan : BlockScan) (outpoint : COutPoint) :
    BlockScan × Option Bytes :=
  match scan.bondOutpointOwners[outpoint]? with
  | some nickname => (scan, some nickname)
  | none =>
    match readNicknameByBondOutpoint db outpoint with
    | some indexedNickname => ((loadState db scan indexedNickname).1, some indexedNickname)
    | none => (scan, none)

abbrev SpentBonds := List (Bytes × COutPoint)

/-- Add a spent bond under its name; one name may lose only one bond. -/
def addSpentBond (spent : SpentBonds) (nickname : Bytes) (outpoint : COutPoint) :
    Except String SpentBonds :=
  match spent.lookup nickname with
  | none => .ok (spent ++ [(nickname, outpoint)])
  | some other => do
    require (other = outpoint) "transaction spends multiple nickname bond outpoints"
    pure spent

/-- The input loop: the bonds a transaction spends. -/
def collectSpentBonds (db : NicknameStateDB) (scan : BlockScan) (spent : SpentBonds) :
    List CTxIn → Except String (BlockScan × SpentBonds)
  | [] => .ok (scan, spent)
  | txin :: rest =>
    match lookupBondNicknameByOutpoint db scan txin.prevout with
    | (scan, none) => collectSpentBonds db scan spent rest
    | (scan, some nickname) => do
      let spent ← addSpentBond spent nickname txin.prevout
      collectSpentBonds db scan spent rest

/-! ## Operations -/

/-- What the operation switch reads. -/
structure BlockOp where
  tx : CTransaction
  txundo : Option CTxUndo
  operation : NicknameOperation
  blockHeight : Int
  pricingMultiplierPermille : Int
  spentBondOutpoints : SpentBonds
  current : NicknameWorkingState

def BlockOp.status (op : BlockOp) : Status :=
  if op.current.existsNow then op.current.current.getStatus op.blockHeight else .expiredAvailable

/-- The transaction spends a bond of the operation's name and no other bond. -/
def BlockOp.spendsOperationBond (op : BlockOp) : Bool :=
  (op.spentBondOutpoints.lookup op.operation.nickname).isSome

/-! The records the operations leave behind. -/

def registerRecord (env : Env) (blockHeight : Int) (tx : CTransaction)
    (operation : NicknameOperation) (bondAmount : CAmount) (bondVout : Nat) : NicknameInfo :=
  { nickname := operation.nickname
    ownerPubKey := operation.ownerPubKey
    payoutAddress := operation.payoutAddress
    registrationHeight := blockHeight
    activeUntilHeight := blockHeight + env.activeBlocks
    graceUntilHeight := blockHeight + env.activeBlocks + env.graceBlocks
    bondAmount
    bondTxid := env.txHash tx
    bondVout
    lastUpdateTxid := env.txHash tx
    released := false
    bondClaimed := false }

def updateRecord (env : Env) (tx : CTransaction) (operation : NicknameOperation)
    (info : NicknameInfo) : NicknameInfo :=
  { info with payoutAddress := operation.payoutAddress, lastUpdateTxid := env.txHash tx }

def transferRecord (env : Env) (tx : CTransaction) (operation : NicknameOperation)
    (info : NicknameInfo) (newBondVout : Nat) : NicknameInfo :=
  { info with
    ownerPubKey := operation.newOwnerPubKey
    bondTxid := env.txHash tx
    bondVout := newBondVout
    bondClaimed := false
    lastUpdateTxid := env.txHash tx }

def renewRecord (env : Env) (blockHeight : Int) (tx : CTransaction) (info : NicknameInfo)
    (renewedBondAmount : CAmount) (renewedBondVout : Nat) : NicknameInfo :=
  let renewBaseHeight := max info.activeUntilHeight blockHeight
  { info with
    activeUntilHeight := renewBaseHeight + env.activeBlocks
    graceUntilHeight := renewBaseHeight + env.activeBlocks + env.graceBlocks
    bondAmount := renewedBondAmount
    bondTxid := env.txHash tx
    bondVout := renewedBondVout
    bondClaimed := false
    released := false
    lastUpdateTxid := env.txHash tx }

def releaseRecord (env : Env) (tx : CTransaction) (info : NicknameInfo) : NicknameInfo :=
  { info with released := true, bondClaimed := false, lastUpdateTxid := env.txHash tx }

def claimRecord (env : Env) (tx : CTransaction) (info : NicknameInfo) : NicknameInfo :=
  { info with
    bondClaimed := true
    bondTxid := 0
    bondVout := maxUint32
    lastUpdateTxid := env.txHash tx }

def availableForRegistration (status : Status) : Bool :=
  status == .expiredAvailable || status == .released || status == .bondClaimable

def applyRegister (env : Env) (op : BlockOp) : Except String NicknameInfo := do
  require (op.spentBondOutpoints = []) "register transaction cannot spend nickname bond outpoint"
  txHasOwnerAuthorizationInput env op.tx op.txundo op.operation.ownerPubKey
  require (op.current.existsNow = false ∨ availableForRegistration op.status)
    "nickname is not available for registration"
  let pricing := getPricing op.operation.nickname.length op.pricingMultiplierPermille
  let ownerPubKey := CPubKey.set op.operation.ownerPubKey
  require (CPubKey.isFullyValid env ownerPubKey ∧ CPubKey.isCompressed ownerPubKey)
    "register owner pubkey is invalid"
  let bondVout ← findUniqueBondOutput op.tx (getScriptForRawPubKey ownerPubKey) pricing.bondAmount
  pure (registerRecord env op.blockHeight op.tx op.operation pricing.bondAmount bondVout)

def applyUpdate (env : Env) (op : BlockOp) : Except String NicknameInfo := do
  require (op.spentBondOutpoints = []) "update transaction cannot spend nickname bond outpoint"
  require op.current.existsNow "nickname does not exist"
  require (isMutableNicknameStatus op.status) "nickname is not mutable in current status"
  txHasOwnerAuthorizationInput env op.tx op.txundo op.current.current.ownerPubKey
  pure (updateRecord env op.tx op.operation op.current.current)

def applyTransfer (env : Env) (op : BlockOp) : Except String NicknameInfo := do
  let info := op.current.current
  require (op.spendsOperationBond ∧ op.spentBondOutpoints.length = 1)
    "transfer transaction must spend current nickname bond outpoint"
  require op.current.existsNow "nickname does not exist"
  require (isMutableNicknameStatus op.status) "nickname is not mutable in current status"
  txHasOwnerAuthorizationInput env op.tx op.txundo info.ownerPubKey
  require info.hasBondOutpoint "nickname does not have an active bond outpoint"
  require (op.spentBondOutpoints.lookup op.operation.nickname = some info.getBondOutpoint)
    "transfer transaction must spend the indexed nickname bond outpoint"
  let newOwnerPubKey := CPubKey.set op.operation.newOwnerPubKey
  require (CPubKey.isFullyValid env newOwnerPubKey ∧ CPubKey.isCompressed newOwnerPubKey)
    "transfer new owner pubkey is invalid"
  let newBondVout ←
    findUniqueBondOutput op.tx (getScriptForRawPubKey newOwnerPubKey) info.bondAmount
  pure (transferRecord env op.tx op.operation info newBondVout)

def applyRenew (env : Env) (op : BlockOp) : Except String NicknameInfo := do
  let info := op.current.current
  require (op.spendsOperationBond ∧ op.spentBondOutpoints.length = 1)
    "renew transaction must spend current nickname bond outpoint"
  require op.current.existsNow "nickname does not exist"
  require (isMutableNicknameStatus op.status) "nickname is not renewable in current status"
  txHasOwnerAuthorizationInput env op.tx op.txundo info.ownerPubKey
  require info.hasBondOutpoint "nickname does not have an active bond outpoint"
  require (op.spentBondOutpoints.lookup op.operation.nickname = some info.getBondOutpoint)
    "renew transaction must spend the indexed nickname bond outpoint"
  let ownerPubKey := CPubKey.set info.ownerPubKey
  require (CPubKey.isFullyValid env ownerPubKey ∧ CPubKey.isCompressed ownerPubKey)
    "renew owner pubkey is invalid"
  let renewalBondIncrease :=
    getRenewalBondIncrease op.operation.nickname.length op.pricingMultiplierPermille
  require (0 ≤ renewalBondIncrease ∧ info.bondAmount ≤ maxMoney - renewalBondIncrease)
    "renew bond amount overflow"
  let renewedBondAmount := info.bondAmount + renewalBondIncrease
  let renewedBondVout ←
    findUniqueBondOutput op.tx (getScriptForRawPubKey ownerPubKey) renewedBondAmount
  pure (renewRecord env op.blockHeight op.tx info renewedBondAmount renewedBondVout)

def applyRelease (env : Env) (op : BlockOp) : Except String NicknameInfo := do
  require (op.spentBondOutpoints = []) "release transaction cannot spend nickname bond outpoint"
  require op.current.existsNow "nickname does not exist"
  require (isMutableNicknameStatus op.status) "nickname is not releasable in current status"
  txHasOwnerAuthorizationInput env op.tx op.txundo op.current.current.ownerPubKey
  pure (releaseRecord env op.tx op.current.current)

/-- `CLAIM_BOND`: the record after claiming its own bond, or the outpoint of a
bond that an earlier registration of the name left behind. -/
def applyClaimBond (env : Env) (op : BlockOp) : Except String (NicknameInfo ⊕ COutPoint) := do
  let info := op.current.current
  require (op.spendsOperationBond ∧ op.spentBondOutpoints.length = 1)
    "claim transaction must spend indexed nickname bond outpoint"
  require op.current.existsNow "nickname does not exist"
  let claimedOutpoint := (op.spentBondOutpoints.lookup op.operation.nickname).getD .null
  if info.hasBondOutpoint ∧ claimedOutpoint = info.getBondOutpoint then do
    require (op.status = .bondClaimable) "nickname bond is not claimable"
    txHasOwnerAuthorizationInput env op.tx op.txundo info.ownerPubKey
    pure (.inl (claimRecord env op.tx info))
  else pure (.inr claimedOutpoint)

/-- The bond a registration leaves behind. -/
def BlockOp.retiredBond (op : BlockOp) : List (COutPoint × Bytes) :=
  if op.current.existsNow ∧ op.current.current.hasBondOutpoint ∧
      (op.status = .released ∨ op.status = .bondClaimable) then
    [(op.current.current.getBondOutpoint, op.operation.nickname)]
  else []

/-- Make `info` the working record of the operation's name. -/
def BlockScan.storeRecord (scan : BlockScan) (op : BlockOp) (info : NicknameInfo) :
    BlockScan × NicknameWorkingState :=
  let state := { op.current with current := info, existsNow := true, dirty := true }
  (scan.setState op.operation.nickname state, state)

/-- The same, and index the record's bond. -/
def BlockScan.storeRecordAndBond (scan : BlockScan) (op : BlockOp) (info : NicknameInfo) :
    BlockScan :=
  let (scan, state) := scan.storeRecord op info
  scan.indexBondOutpoint op.operation.nickname state

def processOperation (env : Env) (scan : BlockScan) (op : BlockOp) : Except String BlockScan :=
  match op.operation.type with
  | .register => do
    let next ← applyRegister env op
    let scan := scan.storeRecordAndBond op next
    pure { scan with
      bondIndexUpserts := scan.bondIndexUpserts ++ op.retiredBond
      registeredCount := scan.registeredCount + 1 }
  | .update => do
    let next ← applyUpdate env op
    pure (scan.storeRecord op next).1
  | .transfer => do
    let next ← applyTransfer env op
    pure (scan.storeRecordAndBond op next)
  | .renew => do
    let next ← applyRenew env op
    pure (scan.storeRecordAndBond op next)
  | .release => do
    let next ← applyRelease env op
    pure (scan.storeRecord op next).1
  | .claimBond => do
    match ← applyClaimBond env op with
    | .inl next => pure (scan.storeRecordAndBond op next)
    | .inr claimedOutpoint =>
      pure { scan with bondIndexErases := scan.bondIndexErases ++ [claimedOutpoint] }
  | .none => .error "invalid nickname operation type"

/-! ## The block -/

/-- A transaction with its undo data, absent for the coinbase, and its fee. -/
structure BlockItem where
  tx : CTransaction
  txundo : Option CTxUndo
  fee : CAmount

/-- The body of the transaction loop. -/
def processTx (env : Env) (db : NicknameStateDB) (blockHeight pricingMultiplierPermille : Int)
    (scan : BlockScan) (item : BlockItem) : Except String BlockScan := do
  let tx := item.tx
  let found ← extractNicknameOperationFromTx env tx
  let (scan, spent) ← collectSpentBonds db scan [] tx.vin
  match found with
  | none => do
    require (spent = [])
      "nickname bond outpoint may only be spent by transfer, renew, or claim transaction"
    pure scan
  | some operation => do
    require (tx.isCoinBase = false) "coinbase transaction cannot contain nickname operations"
    let requiredFee := getRequiredNicknameFee operation pricingMultiplierPermille
    require (requiredFee ≤ item.fee) (insufficientFee operation requiredFee item.fee)
    let (scan, current) := loadState db scan operation.nickname
    require (spent.length ≤ 1)
      "nickname operation transaction cannot spend bond outpoints for multiple nicknames"
    require (spent = [] ∨ (spent.lookup operation.nickname).isSome)
      "nickname operation transaction spends bond outpoint for a different nickname"
    processOperation env scan
      { tx, txundo := item.txundo, operation, blockHeight, pricingMultiplierPermille
        spentBondOutpoints := spent, current }

def blockItems (block : CBlock) (blockUndo : CBlockUndo) (txFees : List CAmount) :
    List BlockItem :=
  List.zipWith3 BlockItem.mk block.vtx (none :: blockUndo.map some) txFees

/-- The undo entry of a dirty working state. -/
def undoEntryOf (nickname : Bytes) (state : NicknameWorkingState) : NicknameUndoEntry :=
  { nickname
    existedBefore := state.existedBefore
    previousInfo := if state.existedBefore then state.before else {} }

/-- The closing loop over the working states. -/
def BlockScan.toUpdates (scan : BlockScan) (blockHeight : Int) : NicknameBlockUpdates :=
  let dirty := scan.states.toList.filter fun entry => entry.2.dirty
  { upserts := (dirty.filter fun entry => entry.2.existsNow).map fun entry => entry.2.current
    erases := (dirty.filter fun entry => !entry.2.existsNow).map fun entry => entry.1
    bondIndexUpserts := scan.bondIndexUpserts
    bondIndexErases := scan.bondIndexErases
    undoEntries := dirty.map fun entry => undoEntryOf entry.1 entry.2
    blockHeight
    registeredCount := scan.registeredCount }

def buildNicknameBlockUpdates (env : Env) (db : NicknameStateDB) (block : CBlock)
    (blockUndo : CBlockUndo) (txFees : List CAmount) (blockHeight : Int) :
    Except String NicknameBlockUpdates := do
  require (block.vtx = [] ∨ blockUndo.length + 1 = block.vtx.length)
    "nickname processing undo mismatch"
  require (txFees.length = block.vtx.length) "nickname processing fee context mismatch"
  let scan ← (blockItems block blockUndo txFees).foldlM
    (processTx env db blockHeight (readPricingMultiplierPermille db)) {}
  pure (scan.toUpdates blockHeight)

end KubuCore.Nickname
