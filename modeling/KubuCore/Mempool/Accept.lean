import KubuCore.Base.Int64
import KubuCore.Chain.Connect
import KubuCore.Mempool.Check

/-!
# Accepting a transaction to the pool

`AcceptToMemoryPoolWorker` of `validation.cpp`. Standardness, lock times, the
count of signature operations, relay fees and the choice of what a full pool
drops are not computed here: an `AcceptContext` gives their outcome for one call,
and every result quantifies over it.

The modified fees here are the `int64_t` of the source: a fee delta is any such
number, so that a sum of them wraps around.
-/

namespace KubuCore.Mempool

open Chain
open Checked
open Script

/-- What one call reads besides the tip, the pool and the transaction. -/
structure AcceptContext where
  fPrematureWitness : Bool := false
  isStandardTx : CTransaction → Except String Unit := fun _ => .ok ()
  checkFinalTx : CTransaction → Bool := fun _ => true
  fEnableReplacement : Bool := true
  checkSequenceLocks : CTransaction → Bool := fun _ => true
  areInputsStandard : CTransaction → CoinsView → Bool := fun _ _ => true
  isWitnessStandard : CTransaction → CoinsView → Bool := fun _ _ => true
  getTransactionSigOpCost : CTransaction → CoinsView → Int := fun _ _ => 0
  getTxSize : CTransaction → Int := fun tx => getSerializeSize tx
  nAcceptTime : Int := 0
  /-- `GetMinFee` of the pool, for the size of the transaction. -/
  mempoolRejectFee : CAmount := 0
  /-- The transaction pays too little and has no priority for the next block. -/
  lacksPriority : CAmount → Bool := fun _ => false
  /-- The rate limit on free transactions is used up. -/
  rateLimited : CAmount → Bool := fun _ => false
  nAbsurdFee : CAmount := 0
  limits : AncestorLimits := {}
  /-- `incrementalRelayFee` for the size of the transaction. -/
  incrementalRelayFee : CAmount := 0
  scriptVerifyFlags : Flags := standardScriptVerifyFlags
  fOverrideMempoolLimit : Bool := false
  /-- Entries older than this time expire. -/
  expiry : Int := 0
  /-- What `TrimToSize` picks, in this order. -/
  trimmed : List Uint256 := []

def maxStandardTxSigOpsCost : Int := 16000

def mempoolHeight : Int := 0x7FFFFFFF

def CTransaction.hasWitness (tx : CTransaction) : Bool :=
  tx.vin.any fun txin => txin.scriptWitness ≠ []

/-! ## Conflicts -/

/-- A transaction opts out of replacement by the sequence numbers of all its
inputs. -/
def signalsReplacement (tx : CTransaction) : Bool :=
  tx.vin.any fun txin => txin.nSequence < maxUint32 - 1

/-- The transactions of the pool that spend an input of the new one. -/
def collectConflicts (fEnableReplacement : Bool) (pool : CTxMemPool) (setConflicts : SetEntries) :
    List CTxIn → Except Reject SetEntries
  | [] => .ok setConflicts
  | txin :: rest =>
    match pool.mapNextTx[txin.prevout]? with
    | none => collectConflicts fEnableReplacement pool setConflicts rest
    | some conflicting =>
      if conflicting ∈ setConflicts then
        collectConflicts fEnableReplacement pool setConflicts rest
      else do
        require (fEnableReplacement ∧
            pool.mapTx[conflicting]?.any fun entry => signalsReplacement entry.tx)
          (⟨0, rejectConflict, "txn-mempool-conflict"⟩ : Reject)
        collectConflicts fEnableReplacement pool (setConflicts.insert conflicting) rest

/-- `CFeeRate`: the fee for a thousand bytes. -/
def feeRate (nFeePaid : CAmount) (nSize : Int) : CAmount :=
  if 0 < nSize then (wrapInt64 (nFeePaid * 1000)).tdiv nSize else 0

/-- What the loop over the direct conflicts gathers. -/
structure Replaced where
  setIterConflicting : SetEntries := ∅
  setConflictsParents : Std.ExtTreeSet Uint256 := ∅
  nConflictingCount : Int := 0

def insufficientReplacementFee : Reject := ⟨0, rejectInsufficientFee, "insufficient fee"⟩

def replaceOne (pool : CTxMemPool) (newFeeRate : CAmount) (replaced : Replaced)
    (hashConflicting : Uint256) : Except Reject Replaced :=
  match pool.mapTx[hashConflicting]? with
  | none => .ok replaced
  | some mi => do
    require (feeRate (wrapInt64 mi.getModifiedFee) mi.nTxSize < newFeeRate)
      insufficientReplacementFee
    pure
      { setIterConflicting := replaced.setIterConflicting.insert hashConflicting
        setConflictsParents := mi.tx.vin.foldl
          (fun parents (txin : CTxIn) => parents.insert txin.prevout.hash)
          replaced.setConflictsParents
        nConflictingCount := replaced.nConflictingCount + mi.nCountWithDescendants }

def maxDescendantsToVisit : Int := 100

/-- The checks on a replacement: the set of all entries that it evicts. -/
def checkReplacement (ctx : AcceptContext) (pool : CTxMemPool) (tx : CTransaction)
    (nModifiedFees : CAmount) (nSize : Int) (setConflicts : SetEntries) :
    Except Reject SetEntries := do
  let replaced ← setConflicts.toList.foldlM (replaceOne pool (feeRate nModifiedFees nSize)) {}
  require (replaced.nConflictingCount ≤ maxDescendantsToVisit)
    (⟨0, rejectNonstandard, "too many potential replacements"⟩ : Reject)
  let allConflicting := pool.calculateAllDescendants replaced.setIterConflicting
  -- The loop adds modulo `2 ^ 64`.
  let nConflictingFees := wrapInt64 (pool.sumOf allConflicting EntryData.getModifiedFee)
  require (tx.vin.all fun txin =>
      replaced.setConflictsParents.contains txin.prevout.hash || !pool.existsTx txin.prevout.hash)
    (⟨0, rejectNonstandard, "replacement-adds-unconfirmed"⟩ : Reject)
  require (nConflictingFees ≤ nModifiedFees) insufficientReplacementFee
  let nDeltaFees := wrapInt64 (nModifiedFees - nConflictingFees)
  require (ctx.incrementalRelayFee ≤ nDeltaFees) insufficientReplacementFee
  pure allConflicting

/-- The entries that must go; a transaction without conflicts is no replacement. -/
def checkConflicts (ctx : AcceptContext) (pool : CTxMemPool) (tx : CTransaction)
    (nModifiedFees : CAmount) (nSize : Int) (setConflicts : SetEntries) :
    Except Reject SetEntries :=
  if setConflicts.isEmpty then .ok ∅
  else checkReplacement ctx pool tx nModifiedFees nSize setConflicts

/-! ## The checks -/

/-- `CCoinsViewMemPool`: the coins of the tip with the outputs of the pool. -/
def coinsViewMemPool (coins : CoinsView) (pool : CTxMemPool) : CoinsView :=
  pool.mapTx.toList.foldl
    (fun view item => storeCoins view item.1 (CCoins.fromTx item.2.tx mempoolHeight)) coins

/-- The checks that come before the inputs are looked up: the conflicts. -/
def checkAlone (env : Env) (ctx : AcceptContext) (pool : CTxMemPool) (tx : CTransaction) :
    Except Reject SetEntries := do
  checkTransaction tx
  require (tx.isCoinBase = false) (⟨100, rejectInvalid, "coinbase"⟩ : Reject)
  -- The witness deployment is never active.
  require (ctx.fPrematureWitness ∨ CTransaction.hasWitness tx = false)
    (⟨0, rejectNonstandard, "no-witness-yet"⟩ : Reject)
  (ctx.isStandardTx tx).mapError fun reason => ⟨0, rejectNonstandard, reason⟩
  require (ctx.checkFinalTx tx) (⟨0, rejectNonstandard, "non-final"⟩ : Reject)
  require (pool.existsTx (env.txHash tx) = false)
    (⟨0, rejectAlreadyKnown, "txn-already-in-mempool"⟩ : Reject)
  collectConflicts ctx.fEnableReplacement pool ∅ tx.vin

/-- The checks on the inputs up to the nickname check. An input whose
transaction is unknown ends the call without a reason. -/
def checkCoins (env : Env) (ctx : AcceptContext) (view : CoinsView) (tx : CTransaction) :
    Except Reject Unit := do
  require (view[env.txHash tx]? = none) (⟨0, rejectAlreadyKnown, "txn-already-known"⟩ : Reject)
  require (tx.vin.all fun txin => view[txin.prevout.hash]?.isSome) (⟨0, 0, ""⟩ : Reject)
  require (haveInputs view tx) (⟨0, rejectDuplicate, "bad-txns-inputs-spent"⟩ : Reject)
  require (ctx.checkSequenceLocks tx) (⟨0, rejectNonstandard, "non-BIP68-final"⟩ : Reject)
  require (ctx.areInputsStandard tx view)
    (⟨0, rejectNonstandard, "bad-txns-nonstandard-inputs"⟩ : Reject)
  require (CTransaction.hasWitness tx = false ∨ ctx.isWitnessStandard tx view)
    (⟨0, rejectNonstandard, "bad-witness-nonstandard"⟩ : Reject)

/-- The fee checks after the nickname check. -/
def checkFees (ctx : AcceptContext) (nFees nModifiedFees : CAmount) : Except Reject Unit := do
  require (¬ (0 < ctx.mempoolRejectFee ∧ nModifiedFees < ctx.mempoolRejectFee))
    (⟨0, rejectInsufficientFee, "mempool min fee not met"⟩ : Reject)
  require (ctx.lacksPriority nModifiedFees = false)
    (⟨0, rejectInsufficientFee, "insufficient priority"⟩ : Reject)
  require (ctx.rateLimited nModifiedFees = false)
    (⟨0, rejectInsufficientFee, "rate limited free transaction"⟩ : Reject)
  require (¬ (ctx.nAbsurdFee ≠ 0 ∧ ctx.nAbsurdFee < nFees))
    (⟨0, rejectHighFee, "absurdly-high-fee"⟩ : Reject)

/-- What the checks hand on. -/
structure Accepted where
  entry : CTxMemPoolEntry
  setAncestors : SetEntries
  allConflicting : SetEntries

/-- The entry of a transaction whose inputs are found. -/
def entryOf (ctx : AcceptContext) (view : CoinsView) (tx : CTransaction) : CTxMemPoolEntry :=
  CTxMemPoolEntry.new tx (getValueIn view tx - tx.getValueOut) ctx.nAcceptTime (ctx.getTxSize tx)
    (ctx.getTransactionSigOpCost tx view)
    (tx.vin.any fun txin => (coinsOf view txin.prevout.hash).fCoinBase)

/-- The checks after the nickname check. -/
def checkPolicy (env : Env) (ctx : AcceptContext) (state : ChainState) (pool : CTxMemPool)
    (tx : CTransaction) (view : CoinsView) (setConflicts : SetEntries) :
    Except Reject Accepted := do
  let entry := entryOf ctx view tx
  let nModifiedFees := wrapInt64 (entry.nFee + pool.mapDeltas[env.txHash tx]?.getD 0)
  require (entry.sigOpCost ≤ maxStandardTxSigOpsCost)
    (⟨0, rejectNonstandard, "bad-txns-too-many-sigops"⟩ : Reject)
  checkFees ctx entry.nFee nModifiedFees
  let setAncestors ← (pool.calculateMemPoolAncestors ctx.limits tx entry.nTxSize).mapError
    fun _ => (⟨0, rejectNonstandard, "too-long-mempool-chain"⟩ : Reject)
  require (setAncestors.toList.all fun hashAncestor => !setConflicts.contains hashAncestor)
    (⟨10, rejectInvalid, "bad-txns-spends-conflicting-tx"⟩ : Reject)
  let allConflicting ← checkConflicts ctx pool tx nModifiedFees entry.nTxSize setConflicts
  let nSpendHeight := state.ledger.height + 1
  checkInputs env view tx nSpendHeight true ctx.scriptVerifyFlags
  checkInputs env view tx nSpendHeight true mandatoryScriptVerifyFlags
  pure { entry, setAncestors, allConflicting }

/-- All checks of `AcceptToMemoryPoolWorker`. -/
def checkAccept (env : Env) (ctx : AcceptContext) (state : ChainState) (pool : CTxMemPool)
    (tx : CTransaction) : Except Reject Accepted := do
  let setConflicts ← checkAlone env ctx pool tx
  let view := coinsViewMemPool state.coins pool
  checkCoins env ctx view tx
  (checkNicknameOperationForMempool env state.ledger.db pool tx view (state.ledger.height + 1)
      (getValueIn view tx - tx.getValueOut)).mapError
    fun _ => (⟨100, rejectInvalid, "bad-nickname-op"⟩ : Reject)
  checkPolicy env ctx state pool tx view setConflicts

/-! ## Storing the transaction -/

def CTxMemPool.limitMempoolSize (pool : CTxMemPool) (expiry : Int) (trimmed : List Uint256) :
    CTxMemPool :=
  trimmed.foldl CTxMemPool.trimOne (pool.expire expiry)

/-- Replace the conflicts of an accepted transaction by it. -/
def CTxMemPool.store (pool : CTxMemPool) (hash : Uint256) (accepted : Accepted) : CTxMemPool :=
  (pool.removeStaged accepted.allConflicting false).addUnchecked hash accepted.entry
    accepted.setAncestors

/-- `AcceptToMemoryPoolWorker`: the verdict and the pool. A transaction that a
full pool drops again is rejected after the pool has changed. -/
def acceptToMemoryPool (env : Env) (ctx : AcceptContext) (state : ChainState) (pool : CTxMemPool)
    (tx : CTransaction) : Except Reject Unit × CTxMemPool :=
  match checkAccept env ctx state pool tx with
  | .error reject => (.error reject, pool)
  | .ok accepted =>
    let pool := pool.store (env.txHash tx) accepted
    if ctx.fOverrideMempoolLimit then (.ok (), pool)
    else
      let pool := pool.limitMempoolSize ctx.expiry ctx.trimmed
      (require (pool.existsTx (env.txHash tx))
        (⟨0, rejectInsufficientFee, "mempool full"⟩ : Reject), pool)

end KubuCore.Mempool
