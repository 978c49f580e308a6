import KubuCore.Mempool.Pool
import KubuCore.Nickname.Block

/-!
# Checking a nickname operation for the pool

`CheckNicknameOperationForMempool` of `validation.cpp`. It reads the database of
the tip, the coins of the inputs and the transactions that are pending.
-/

namespace KubuCore.Mempool

open Chain
open Checked
open Nickname
open Nicknames
open Script

/-- `TxHasOwnerAuthorizationInputFromView`: some input spends an output with an
owner script. -/
def txHasOwnerAuthorizationInputFromView (env : Env) (tx : CTransaction) (view : CoinsView)
    (ownerPubKeyBytes : Bytes) : Except String Unit := do
  let ownerPubKey ← checkOwnerPubKey env ownerPubKeyBytes
  require (tx.vin.any fun txin =>
      (coinAt view txin.prevout).any fun txout => isOwnerScript env ownerPubKey txout.scriptPubKey)
    "transaction does not spend an output controlled by nickname owner"

/-- The input loop: only bonds of the database index count. -/
def collectIndexedBonds (db : NicknameStateDB) (spent : SpentBonds) :
    List CTxIn → Except String SpentBonds
  | [] => .ok spent
  | txin :: rest =>
    match readNicknameByBondOutpoint db txin.prevout with
    | none => collectIndexedBonds db spent rest
    | some nickname => do
      let spent ← addSpentBond spent nickname txin.prevout
      collectIndexedBonds db spent rest

/-! ## Pending operations -/

/-- The operation of a transaction, if it has one that can be read. -/
def operationOf (env : Env) (tx : CTransaction) : Option NicknameOperation :=
  match extractNicknameOperationFromTx env tx with
  | .ok found => found
  | .error _ => none

def conflictsByInput (tx mempoolTx : CTransaction) : Bool :=
  mempoolTx.vin.any fun mempoolIn => (tx.vin.map CTxIn.prevout).contains mempoolIn.prevout

/-- The bytes of a name as text. -/
def textOf (bytes : Bytes) : String := String.ofList (bytes.map fun b => Char.ofNat b.toNat)

/-- The scan of the pool: a pending operation on the same name must be one that
this transaction replaces. -/
def checkPending (env : Env) (tx : CTransaction) (operation : NicknameOperation) :
    List CTransaction → Except String Unit
  | [] => .ok ()
  | mempoolTx :: rest =>
    if env.txHash mempoolTx = env.txHash tx then checkPending env tx operation rest
    else
      match operationOf env mempoolTx with
      | none => checkPending env tx operation rest
      | some mempoolOperation => do
        require (mempoolOperation.nickname ≠ operation.nickname ∨ conflictsByInput tx mempoolTx)
          ("mempool already has pending nickname operation for '" ++ textOf operation.nickname ++
            "' (" ++ (env.txHash mempoolTx).toHex ++ ")")
        checkPending env tx operation rest

def CTxMemPool.transactions (pool : CTxMemPool) : List CTransaction :=
  pool.mapTx.toList.map fun item => item.2.tx

/-! ## Operations -/

/-- What the operation switch reads. The record is empty if there is none. -/
structure MempoolOp where
  tx : CTransaction
  view : CoinsView
  operation : NicknameOperation
  spendHeight : Int
  pricingMultiplierPermille : Int
  spentBondOutpoints : SpentBonds
  isStored : Bool
  current : NicknameInfo

def MempoolOp.status (op : MempoolOp) : Status :=
  if op.isStored then op.current.getStatus op.spendHeight else .expiredAvailable

def MempoolOp.spendsOperationBond (op : MempoolOp) : Bool :=
  (op.spentBondOutpoints.lookup op.operation.nickname).isSome

def checkRegister (env : Env) (op : MempoolOp) : Except String Unit := do
  require (op.spentBondOutpoints = []) "register transaction cannot spend nickname bond outpoint"
  txHasOwnerAuthorizationInputFromView env op.tx op.view op.operation.ownerPubKey
  require (op.isStored = false ∨ availableForRegistration op.status)
    "nickname is not available for registration"
  let pricing := getPricing op.operation.nickname.length op.pricingMultiplierPermille
  let ownerPubKey := CPubKey.set op.operation.ownerPubKey
  require (CPubKey.isFullyValid env ownerPubKey ∧ CPubKey.isCompressed ownerPubKey)
    "register owner pubkey is invalid"
  let _ ← findUniqueBondOutput op.tx (getScriptForRawPubKey ownerPubKey) pricing.bondAmount
  pure ()

/-- The checks of `UPDATE` and `RELEASE`, which differ in their texts. -/
def checkOwned (env : Env) (op : MempoolOp) (spendsBond notMutable : String) :
    Except String Unit := do
  require (op.spentBondOutpoints = []) spendsBond
  require op.isStored "nickname does not exist"
  require (isMutableNicknameStatus op.status) notMutable
  txHasOwnerAuthorizationInputFromView env op.tx op.view op.current.ownerPubKey

def checkUpdate (env : Env) (op : MempoolOp) : Except String Unit :=
  checkOwned env op "update transaction cannot spend nickname bond outpoint"
    "nickname is not mutable in current status"

def checkRelease (env : Env) (op : MempoolOp) : Except String Unit :=
  checkOwned env op "release transaction cannot spend nickname bond outpoint"
    "nickname is not releasable in current status"

/-- The checks of `TRANSFER` and `RENEW` up to the new bond. -/
def checkMovesBond (env : Env) (op : MempoolOp) (noBond notMutable notIndexed : String) :
    Except String Unit := do
  require (op.spendsOperationBond ∧ op.spentBondOutpoints.length = 1) noBond
  require op.isStored "nickname does not exist"
  require (isMutableNicknameStatus op.status) notMutable
  txHasOwnerAuthorizationInputFromView env op.tx op.view op.current.ownerPubKey
  require op.current.hasBondOutpoint "nickname does not have an active bond outpoint"
  require (op.spentBondOutpoints.lookup op.operation.nickname = some op.current.getBondOutpoint)
    notIndexed

def checkTransfer (env : Env) (op : MempoolOp) : Except String Unit := do
  checkMovesBond env op "transfer transaction must spend current nickname bond outpoint"
    "nickname is not mutable in current status"
    "transfer transaction must spend the indexed nickname bond outpoint"
  let newOwnerPubKey := CPubKey.set op.operation.newOwnerPubKey
  require (CPubKey.isFullyValid env newOwnerPubKey ∧ CPubKey.isCompressed newOwnerPubKey)
    "transfer new owner pubkey is invalid"
  let _ ← findUniqueBondOutput op.tx (getScriptForRawPubKey newOwnerPubKey) op.current.bondAmount
  pure ()

def checkRenew (env : Env) (op : MempoolOp) : Except String Unit := do
  checkMovesBond env op "renew transaction must spend current nickname bond outpoint"
    "nickname is not renewable in current status"
    "renew transaction must spend the indexed nickname bond outpoint"
  let ownerPubKey := CPubKey.set op.current.ownerPubKey
  require (CPubKey.isFullyValid env ownerPubKey ∧ CPubKey.isCompressed ownerPubKey)
    "renew owner pubkey is invalid"
  let renewalBondIncrease :=
    getRenewalBondIncrease op.operation.nickname.length op.pricingMultiplierPermille
  require (0 ≤ renewalBondIncrease ∧ op.current.bondAmount ≤ maxMoney - renewalBondIncrease)
    "renew bond amount overflow"
  let _ ← findUniqueBondOutput op.tx (getScriptForRawPubKey ownerPubKey)
    (op.current.bondAmount + renewalBondIncrease)
  pure ()

/-- `CLAIM_BOND`: here the record need not exist. -/
def checkClaimBond (env : Env) (op : MempoolOp) : Except String Unit := do
  require (op.spendsOperationBond ∧ op.spentBondOutpoints.length = 1)
    "claim transaction must spend current nickname bond outpoint"
  if op.isStored ∧ op.current.hasBondOutpoint ∧
      op.spentBondOutpoints.lookup op.operation.nickname = some op.current.getBondOutpoint then do
    require (op.status = .bondClaimable) "nickname bond is not claimable"
    txHasOwnerAuthorizationInputFromView env op.tx op.view op.current.ownerPubKey
  else pure ()

def checkOperation (env : Env) (op : MempoolOp) : Except String Unit :=
  match op.operation.type with
  | .register => checkRegister env op
  | .update => checkUpdate env op
  | .transfer => checkTransfer env op
  | .renew => checkRenew env op
  | .release => checkRelease env op
  | .claimBond => checkClaimBond env op
  | .none => .error "invalid nickname operation type"

/-- `CheckNicknameOperationForMempool`, with the database open. -/
def checkNicknameOperationForMempool (env : Env) (db : NicknameStateDB) (pool : CTxMemPool)
    (tx : CTransaction) (view : CoinsView) (spendHeight : Int) (txFee : CAmount) :
    Except String Unit := do
  let pricingMultiplierPermille := readPricingMultiplierPermille db
  let found ← extractNicknameOperationFromTx env tx
  let spent ← collectIndexedBonds db [] tx.vin
  match found with
  | none =>
    require (spent = [])
      "nickname bond outpoint may only be spent by transfer, renew, or claim transaction"
  | some operation => do
    require (tx.isCoinBase = false) "coinbase transaction cannot contain nickname operations"
    let requiredFee := getRequiredNicknameFee operation pricingMultiplierPermille
    require (requiredFee ≤ txFee) (insufficientFee operation requiredFee txFee)
    checkPending env tx operation pool.transactions
    let stored := readNickname db operation.nickname
    require (spent.length ≤ 1)
      "nickname operation transaction cannot spend bond outpoints for multiple nicknames"
    require (spent = [] ∨ (spent.lookup operation.nickname).isSome)
      "nickname operation transaction spends bond outpoint for a different nickname"
    checkOperation env
      { tx, view, operation, spendHeight, pricingMultiplierPermille
        spentBondOutpoints := spent, isStored := stored.isSome, current := stored.getD {} }

end KubuCore.Mempool
