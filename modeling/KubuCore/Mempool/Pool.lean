import KubuCore.Base.Worklist
import KubuCore.Chain.Transaction

/-!
# The memory pool

`CTxMemPool` of `txmempool.cpp`: the entries with their totals over ancestors
and descendants, the map of spent outpoints, and the links between parents and
children. An iterator of the source is the id of its transaction here.

The totals are unbounded integers. Memory accounting, fee estimation and the
priority part of the deltas are left out.
-/

namespace KubuCore.Mempool

open Chain
open Checked
open Sets
open Worklist
open Std

/-! ## Entries -/

/-- What an entry holds besides its totals. -/
structure EntryData where
  tx : CTransaction
  nFee : CAmount
  nTime : Int
  /-- `GetTxSize`: the virtual size. -/
  nTxSize : Int
  sigOpCost : Int
  spendsCoinbase : Bool
  feeDelta : CAmount

structure CTxMemPoolEntry extends EntryData where
  nCountWithDescendants : Int
  nSizeWithDescendants : Int
  nModFeesWithDescendants : CAmount
  nCountWithAncestors : Int
  nSizeWithAncestors : Int
  nModFeesWithAncestors : CAmount
  nSigOpCostWithAncestors : Int

/-- The constructor. -/
def CTxMemPoolEntry.new (tx : CTransaction) (nFee : CAmount) (nTime nTxSize sigOpCost : Int)
    (spendsCoinbase : Bool) : CTxMemPoolEntry where
  tx
  nFee
  nTime
  nTxSize
  sigOpCost
  spendsCoinbase
  feeDelta := 0
  nCountWithDescendants := 1
  nSizeWithDescendants := nTxSize
  nModFeesWithDescendants := nFee
  nCountWithAncestors := 1
  nSizeWithAncestors := nTxSize
  nModFeesWithAncestors := nFee
  nSigOpCostWithAncestors := sigOpCost

def EntryData.getModifiedFee (e : EntryData) : CAmount := e.nFee + e.feeDelta

def CTxMemPoolEntry.updateFeeDelta (newFeeDelta : CAmount) (e : CTxMemPoolEntry) :
    CTxMemPoolEntry :=
  { e with
    nModFeesWithDescendants := e.nModFeesWithDescendants + (newFeeDelta - e.feeDelta)
    nModFeesWithAncestors := e.nModFeesWithAncestors + (newFeeDelta - e.feeDelta)
    feeDelta := newFeeDelta }

def CTxMemPoolEntry.updateDescendantState (modifySize : Int) (modifyFee : CAmount)
    (modifyCount : Int) (e : CTxMemPoolEntry) : CTxMemPoolEntry :=
  { e with
    nSizeWithDescendants := e.nSizeWithDescendants + modifySize
    nModFeesWithDescendants := e.nModFeesWithDescendants + modifyFee
    nCountWithDescendants := e.nCountWithDescendants + modifyCount }

def CTxMemPoolEntry.updateAncestorState (modifySize : Int) (modifyFee : CAmount)
    (modifyCount modifySigOps : Int) (e : CTxMemPoolEntry) : CTxMemPoolEntry :=
  { e with
    nSizeWithAncestors := e.nSizeWithAncestors + modifySize
    nModFeesWithAncestors := e.nModFeesWithAncestors + modifyFee
    nCountWithAncestors := e.nCountWithAncestors + modifyCount
    nSigOpCostWithAncestors := e.nSigOpCostWithAncestors + modifySigOps }

/-! ## The pool -/

/-- A set of entries, ordered by their ids. -/
abbrev SetEntries := ExtTreeSet Uint256

structure TxLinks where
  parents : SetEntries := ∅
  children : SetEntries := ∅

structure CTxMemPool where
  mapTx : ExtTreeMap Uint256 CTxMemPoolEntry := ∅
  /-- The transaction that spends an outpoint. -/
  mapNextTx : ExtTreeMap COutPoint Uint256 := ∅
  mapLinks : ExtTreeMap Uint256 TxLinks := ∅
  mapDeltas : ExtTreeMap Uint256 CAmount := ∅

namespace CTxMemPool

variable (pool : CTxMemPool)

def existsTx (hash : Uint256) : Bool := pool.mapTx.contains hash

def getMemPoolParents (entry : Uint256) : SetEntries := (pool.mapLinks[entry]?.getD {}).parents

def getMemPoolChildren (entry : Uint256) : SetEntries := (pool.mapLinks[entry]?.getD {}).children

/-- Apply an update to every entry of a set. -/
def modifyAll (entries : SetEntries) (update : CTxMemPoolEntry → CTxMemPoolEntry) : CTxMemPool :=
  { pool with mapTx := entries.toList.foldl (fun mapTx it => mapTx.modify it update) pool.mapTx }

def modify (it : Uint256) (update : CTxMemPoolEntry → CTxMemPoolEntry) : CTxMemPool :=
  { pool with mapTx := pool.mapTx.modify it update }

def updateChild (entry child : Uint256) (add : Bool) : CTxMemPool :=
  let update (links : TxLinks) : TxLinks :=
    { links with
      children := if add then links.children.insert child else links.children.erase child }
  { pool with mapLinks := pool.mapLinks.modify entry update }

def updateParent (entry parent : Uint256) (add : Bool) : CTxMemPool :=
  let update (links : TxLinks) : TxLinks :=
    { links with
      parents := if add then links.parents.insert parent else links.parents.erase parent }
  { pool with mapLinks := pool.mapLinks.modify entry update }

/-! ## Ancestors and descendants -/

/-- `CalculateDescendants`: the entry and its descendants, on top of a set that
is already closed. -/
def calculateDescendants (setDescendants : SetEntries) (entryit : Uint256) : SetEntries :=
  let stage := if entryit ∈ setDescendants then ∅ else (∅ : SetEntries).insert entryit
  collect pool.getMemPoolChildren pool.mapTx.size stage setDescendants

/-- The descendants of all entries of a set, with the entries themselves. -/
def calculateAllDescendants (entries : SetEntries) : SetEntries :=
  entries.toList.foldl pool.calculateDescendants ∅

end CTxMemPool

/-- The limits on a package; no limit is the largest value of the type. -/
structure AncestorLimits where
  limitAncestorCount : Option Nat := none
  limitAncestorSize : Option Nat := none
  limitDescendantCount : Option Nat := none
  limitDescendantSize : Option Nat := none

/-- Comparison with a limit. -/
def exceeds (value : Int) (limit : Option Nat) : Bool := limit.any fun limit => (limit : Int) < value

def limitText (limit : Option Nat) : String := toString (limit.getD (2 ^ 64 - 1))

namespace CTxMemPool

variable (pool : CTxMemPool)

/-- Stage a parent unless it is an ancestor already. -/
def stageParent (limits : AncestorLimits) (setAncestors parentHashes : SetEntries)
    (phash : Uint256) : Except String SetEntries := do
  let parentHashes := if phash ∈ setAncestors then parentHashes else parentHashes.insert phash
  require (¬ exceeds (parentHashes.size + setAncestors.size + 1) limits.limitAncestorCount)
    ("too many unconfirmed ancestors [limit: " ++ limitText limits.limitAncestorCount ++ "]")
  pure parentHashes

/-- The loop of `CalculateMemPoolAncestors`. -/
def ancestorLoop (limits : AncestorLimits) (entrySize : Int) :
    Nat → SetEntries → SetEntries → Int → Except String SetEntries
  | 0, _, setAncestors, _ => .ok setAncestors
  | fuel + 1, parentHashes, setAncestors, totalSizeWithAncestors =>
    match first? parentHashes with
    | none => .ok setAncestors
    | some stageit => do
      let setAncestors := setAncestors.insert stageit
      let staged := pool.mapTx[stageit]?
      let totalSizeWithAncestors :=
        totalSizeWithAncestors + (staged.map fun e => e.nTxSize).getD 0
      let sizeWithDescendants := (staged.map CTxMemPoolEntry.nSizeWithDescendants).getD 0
      let countWithDescendants := (staged.map CTxMemPoolEntry.nCountWithDescendants).getD 0
      require (¬ exceeds (sizeWithDescendants + entrySize) limits.limitDescendantSize)
        ("exceeds descendant size limit for tx " ++ stageit.toHex ++ " [limit: " ++
          limitText limits.limitDescendantSize ++ "]")
      require (¬ exceeds (countWithDescendants + 1) limits.limitDescendantCount)
        ("too many descendants for tx " ++ stageit.toHex ++ " [limit: " ++
          limitText limits.limitDescendantCount ++ "]")
      require (¬ exceeds totalSizeWithAncestors limits.limitAncestorSize)
        ("exceeds ancestor size limit [limit: " ++ limitText limits.limitAncestorSize ++ "]")
      let parentHashes ← (pool.getMemPoolParents stageit).toList.foldlM
        (stageParent limits setAncestors) (parentHashes.erase stageit)
      ancestorLoop limits entrySize fuel parentHashes setAncestors totalSizeWithAncestors

/-- The parents of a transaction that are in the pool. -/
def searchParents (limits : AncestorLimits) (parentHashes : SetEntries) :
    List CTxIn → Except String SetEntries
  | [] => .ok parentHashes
  | txin :: rest =>
    if pool.existsTx txin.prevout.hash then do
      let parentHashes := parentHashes.insert txin.prevout.hash
      require (¬ exceeds (parentHashes.size + 1) limits.limitAncestorCount)
        ("too many unconfirmed parents [limit: " ++ limitText limits.limitAncestorCount ++ "]")
      searchParents limits parentHashes rest
    else searchParents limits parentHashes rest

/-- `CalculateMemPoolAncestors` of a transaction that need not be in the pool. -/
def calculateMemPoolAncestors (limits : AncestorLimits) (tx : CTransaction) (entrySize : Int) :
    Except String SetEntries := do
  let parentHashes ← pool.searchParents limits ∅ tx.vin
  pool.ancestorLoop limits entrySize pool.mapTx.size parentHashes ∅ entrySize

/-- `CalculateMemPoolAncestors` of an entry through its links, without limits. -/
def linkedAncestors (it : Uint256) : SetEntries :=
  let entrySize := (pool.mapTx[it]?.map fun e => e.nTxSize).getD 0
  match pool.ancestorLoop {} entrySize pool.mapTx.size (pool.getMemPoolParents it) ∅ entrySize with
  | .ok setAncestors => setAncestors
  | .error _ => ∅

/-! ## Adding -/

/-- `UpdateAncestorsOf`: add an entry to the descendants of its ancestors, or
take it away. -/
def updateAncestorsOf (add : Bool) (it : Uint256) (setAncestors : SetEntries) : CTxMemPool :=
  let pool := (pool.getMemPoolParents it).toList.foldl
    (fun pool piter => pool.updateChild piter it add) pool
  let updateCount : Int := if add then 1 else -1
  let updateSize := updateCount * (pool.mapTx[it]?.map fun e => e.nTxSize).getD 0
  let updateFee := updateCount * (pool.mapTx[it]?.map fun e => e.getModifiedFee).getD 0
  pool.modifyAll setAncestors
    (CTxMemPoolEntry.updateDescendantState updateSize updateFee updateCount)

/-- The sum of a value over the entries of a set. -/
def sumOf (entries : SetEntries) (value : EntryData → Int) : Int :=
  (entries.toList.map fun it => (pool.mapTx[it]?.map fun e => value e.toEntryData).getD 0).sum

def updateEntryForAncestors (it : Uint256) (setAncestors : SetEntries) : CTxMemPool :=
  pool.modify it (CTxMemPoolEntry.updateAncestorState
    (pool.sumOf setAncestors EntryData.nTxSize)
    (pool.sumOf setAncestors EntryData.getModifiedFee) setAncestors.size
    (pool.sumOf setAncestors EntryData.sigOpCost))

/-- The parents of a new entry, linked from it. -/
def linkParents (hash : Uint256) (tx : CTransaction) : CTxMemPool :=
  let setParentTransactions := (tx.vin.map fun txin => txin.prevout.hash).foldl
    (fun parents phash => parents.insert phash) (∅ : SetEntries)
  setParentTransactions.toList.foldl
    (fun pool phash => if pool.existsTx phash then pool.updateParent hash phash true else pool) pool

def addUnchecked (hash : Uint256) (entry : CTxMemPoolEntry) (setAncestors : SetEntries) :
    CTxMemPool :=
  let pool := { pool with
    mapTx := pool.mapTx.insertIfNew hash entry
    mapLinks := pool.mapLinks.insertIfNew hash {} }
  let pool := match pool.mapDeltas[hash]? with
    | some deltas =>
      if deltas ≠ 0 then pool.modify hash (CTxMemPoolEntry.updateFeeDelta deltas) else pool
    | none => pool
  let pool := { pool with
    mapNextTx := entry.tx.vin.foldl
      (fun map (txin : CTxIn) => map.insertIfNew txin.prevout hash) pool.mapNextTx }
  let pool := pool.linkParents hash entry.tx
  let pool := pool.updateAncestorsOf true hash setAncestors
  pool.updateEntryForAncestors hash setAncestors

/-! ## Removing -/

/-- Take an entry away from the ancestor totals of its descendants. -/
def updateDescendantsForRemoval (removeIt : Uint256) : CTxMemPool :=
  let setDescendants := (pool.calculateDescendants ∅ removeIt).erase removeIt
  match pool.mapTx[removeIt]? with
  | some entry =>
    pool.modifyAll setDescendants
      (CTxMemPoolEntry.updateAncestorState (-entry.nTxSize) (-entry.getModifiedFee) (-1)
        (-entry.sigOpCost))
  | none => pool

def updateChildrenForRemoval (it : Uint256) : CTxMemPool :=
  (pool.getMemPoolChildren it).toList.foldl
    (fun pool updateIt => pool.updateParent updateIt it false) pool

def updateForRemoveFromMempool (entriesToRemove : SetEntries) (updateDescendants : Bool) :
    CTxMemPool :=
  let pool := if updateDescendants then
      entriesToRemove.toList.foldl updateDescendantsForRemoval pool
    else pool
  -- The ancestors are those of the links, which the loop does not change upwards.
  let pool := entriesToRemove.toList.foldl
    (fun pool removeIt => pool.updateAncestorsOf false removeIt (pool.linkedAncestors removeIt))
    pool
  entriesToRemove.toList.foldl updateChildrenForRemoval pool

def removeUnchecked (it : Uint256) : CTxMemPool :=
  match pool.mapTx[it]? with
  | some entry =>
    { pool with
      mapNextTx := entry.tx.vin.foldl (fun map (txin : CTxIn) => map.erase txin.prevout)
        pool.mapNextTx
      mapLinks := pool.mapLinks.erase it
      mapTx := pool.mapTx.erase it }
  | none => pool

def removeStaged (stage : SetEntries) (updateDescendants : Bool) : CTxMemPool :=
  stage.toList.foldl removeUnchecked (pool.updateForRemoveFromMempool stage updateDescendants)

/-- The transactions in the pool that spend outputs of a transaction which is not. -/
def spendersOf (hash : Uint256) (vout : List CTxOut) : SetEntries :=
  (List.range vout.length).foldl
    (fun txToRemove i =>
      match pool.mapNextTx[COutPoint.mk hash i]? with
      | some next => txToRemove.insert next
      | none => txToRemove) ∅

/-- `removeRecursive` of a transaction with this id and these outputs. -/
def removeRecursive (hash : Uint256) (vout : List CTxOut) : CTxMemPool :=
  let txToRemove :=
    if pool.existsTx hash then (∅ : SetEntries).insert hash else pool.spendersOf hash vout
  pool.removeStaged (pool.calculateAllDescendants txToRemove) false

def clearPrioritisation (hash : Uint256) : CTxMemPool :=
  { pool with mapDeltas := pool.mapDeltas.erase hash }

/-- One input of `removeConflicts`. -/
def removeConflict (hash : Uint256) (pool : CTxMemPool) (txin : CTxIn) : CTxMemPool :=
  match pool.mapNextTx[txin.prevout]? with
  | some conflict =>
    if conflict ≠ hash then
      let vout := (pool.mapTx[conflict]?.map fun entry => entry.tx.vout).getD []
      (pool.clearPrioritisation conflict).removeRecursive conflict vout
    else pool
  | none => pool

def removeConflicts (hash : Uint256) (tx : CTransaction) : CTxMemPool :=
  tx.vin.foldl (removeConflict hash) pool

/-- The body of the loop of `removeForBlock`. -/
def removeForTx (env : Env) (pool : CTxMemPool) (tx : CTransaction) : CTxMemPool :=
  let hash := env.txHash tx
  let pool :=
    if pool.existsTx hash then pool.removeStaged ((∅ : SetEntries).insert hash) true else pool
  (pool.removeConflicts hash tx).clearPrioritisation hash

def removeForBlock (env : Env) (vtx : List CTransaction) : CTxMemPool :=
  vtx.foldl (removeForTx env) pool

def expire (time : Int) : CTxMemPool :=
  let toremove := (pool.mapTx.toList.filter fun item => item.2.nTime < time).foldl
    (fun toremove item => toremove.insert item.1) (∅ : SetEntries)
  pool.removeStaged (pool.calculateAllDescendants toremove) false

/-- One round of `TrimToSize`, with the entry of the lowest score given. -/
def trimOne (it : Uint256) : CTxMemPool :=
  if pool.existsTx it then pool.removeStaged (pool.calculateDescendants ∅ it) false else pool

end CTxMemPool

end KubuCore.Mempool
