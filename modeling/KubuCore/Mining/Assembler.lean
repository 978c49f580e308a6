import KubuCore.Base.Loops
import KubuCore.Mempool.Links
import KubuCore.Wallet.Create

/-!
# The block assembler

`BlockAssembler` of `miner.cpp`: the limits, the selection by priority and the
selection by the fee rate of a transaction with its ancestors. The pool does not
change while a block is assembled. Loops that contain an assertion are rounds of
`Loops.run`.

The weight, the serialized size, the lock time check and the coin age priority
of a transaction are given. So is the order of the pool by ancestor score, and
the comparisons that the source makes with floating point numbers.
-/

namespace KubuCore.Mining

open Loops
open Mempool

/-! ## Limits -/

def maxBlockWeight : Nat := 4000000

def maxBlockSerializedSize : Nat := 4000000

def maxBlockSigOpsCost : Int := 80000

def witnessScaleFactor : Nat := 4

def defaultBlockMaxSize : Nat := 750000

def defaultBlockPrioritySize : Int := 27000

def defaultBlockMaxWeight : Nat := 3000000

/-- The node's settings; a setting may be missing. -/
structure MinerArgs where
  blockmaxweight : Option Int := none
  blockmaxsize : Option Int := none
  blockprioritysize : Option Int := none

/-- A setting as an `unsigned int`. -/
def toUnsigned (n : Int) : Nat := (n % 2 ^ 32).toNat

namespace MinerArgs

variable (args : MinerArgs)

/-- `nBlockMaxWeight` and `nBlockMaxSize` before they are clamped. -/
def rawLimits : Nat × Nat :=
  match args.blockmaxweight, args.blockmaxsize with
  | none, none => (defaultBlockMaxWeight, defaultBlockMaxSize)
  | some weight, none => (toUnsigned weight, maxBlockSerializedSize)
  | none, some size => (toUnsigned (toUnsigned size * witnessScaleFactor), toUnsigned size)
  | some weight, some size => (toUnsigned weight, toUnsigned size)

def nBlockMaxWeight : Nat := max 4000 (min (maxBlockWeight - 4000) args.rawLimits.1)

def nBlockMaxSize : Nat := max 1000 (min (maxBlockSerializedSize - 1000) args.rawLimits.2)

def fNeedSizeAccounting : Bool := args.nBlockMaxSize < maxBlockSerializedSize - 1000

def nBlockPrioritySize : Nat :=
  min args.nBlockMaxSize (toUnsigned (args.blockprioritysize.getD defaultBlockPrioritySize))

end MinerArgs

/-! ## What the assembler reads -/

/-- `CTxMemPoolModifiedEntry` without its iterator. -/
structure ModifiedEntry where
  nSizeWithAncestors : Int
  nModFeesWithAncestors : CAmount
  nSigOpCostWithAncestors : Int
deriving DecidableEq, Repr

/-- What the assembler reads of a transaction besides its entry. -/
structure TxFacts where
  /-- `GetTxWeight`. -/
  weight : Nat
  /-- `GetSerializeSize` for the network. -/
  serializeSize : Nat
  hasWitness : Bool
  /-- `IsFinalTx` for the new block. -/
  isFinal : Bool
  /-- `AllowFree` of the priority. -/
  allowFree : Bool

structure MinerContext where
  pool : CTxMemPool
  args : MinerArgs
  /-- The satoshis for a thousand bytes of `blockMinFeeRate`. -/
  blockMinFeeRate : CAmount
  fIncludeWitness : Bool
  facts : Uint256 → TxFacts
  /-- The entries in the order of the index `ancestor_score`. -/
  ancestorScore : List Uint256
  /-- `CompareModifiedEntry`. -/
  compareModifiedEntry : Uint256 × ModifiedEntry → Uint256 × ModifiedEntry → Bool
  /-- The first transaction leaves the heap of priorities before the second. -/
  priorityBefore : Uint256 → Uint256 → Bool

variable (ctx : MinerContext)

/-- `CTxMemPoolModifiedEntry`'s constructor. -/
def modifiedEntry (it : Uint256) : ModifiedEntry where
  nSizeWithAncestors := (ctx.pool.mapTx[it]?.map CTxMemPoolEntry.nSizeWithAncestors).getD 0
  nModFeesWithAncestors := (ctx.pool.mapTx[it]?.map CTxMemPoolEntry.nModFeesWithAncestors).getD 0
  nSigOpCostWithAncestors :=
    (ctx.pool.mapTx[it]?.map CTxMemPoolEntry.nSigOpCostWithAncestors).getD 0

def getTxSize (it : Uint256) : Int := ctx.pool.valueAt EntryData.nTxSize it

def getEntryFee (it : Uint256) : CAmount := ctx.pool.valueAt EntryData.nFee it

def getModifiedFee (it : Uint256) : CAmount := ctx.pool.valueAt EntryData.getModifiedFee it

def getSigOpCost (it : Uint256) : Int := ctx.pool.valueAt EntryData.sigOpCost it

def getCountWithAncestors (it : Uint256) : Int :=
  (ctx.pool.mapTx[it]?.map CTxMemPoolEntry.nCountWithAncestors).getD 0

/-! ## The block -/

/-- The state of `BlockAssembler`, after `resetBlock`. The coinbase, which is
filled in at the end, is not among the transactions. -/
structure BlockAssembler where
  vtx : List Uint256 := []
  vTxFees : List CAmount := []
  vTxSigOpsCost : List Int := []
  nBlockSize : Nat := 1000
  nBlockWeight : Nat := 4000
  nBlockSigOpsCost : Int := 400
  nBlockTx : Nat := 0
  nFees : CAmount := 0
  inBlock : SetEntries := ∅
  lastFewTxs : Nat := 0
  blockFinished : Bool := false

/-- `AddToBlock`, where `fNeedSizeAccounting` is what the phase set it to. -/
def addToBlock (fNeedSizeAccounting : Bool) (block : BlockAssembler) (iter : Uint256) :
    BlockAssembler :=
  { block with
    vtx := block.vtx ++ [iter]
    vTxFees := block.vTxFees ++ [getEntryFee ctx iter]
    vTxSigOpsCost := block.vTxSigOpsCost ++ [getSigOpCost ctx iter]
    nBlockSize :=
      if fNeedSizeAccounting then block.nBlockSize + (ctx.facts iter).serializeSize
      else block.nBlockSize
    nBlockWeight := block.nBlockWeight + (ctx.facts iter).weight
    nBlockTx := block.nBlockTx + 1
    nBlockSigOpsCost := block.nBlockSigOpsCost + getSigOpCost ctx iter
    nFees := block.nFees + getEntryFee ctx iter
    inBlock := block.inBlock.insert iter }

def isStillDependent (block : BlockAssembler) (iter : Uint256) : Bool :=
  (ctx.pool.getMemPoolParents iter).toList.any fun parent => !block.inBlock.contains parent

/-- The first element of a list that no other one comes before. -/
def firstOf {α : Type} (before : α → α → Bool) : List α → Option α
  | [] => none
  | x :: xs =>
    match firstOf before xs with
    | none => some x
    | some y => if before y x then some y else some x

/-! ## Selection by priority -/

/-- `TestForBlock`, which runs while the size is accounted for. -/
def testForBlock (block : BlockAssembler) (iter : Uint256) : Bool × BlockAssembler :=
  let facts := ctx.facts iter
  if ctx.args.nBlockMaxWeight ≤ block.nBlockWeight + facts.weight then
    if ctx.args.nBlockMaxWeight - 400 < block.nBlockWeight ∨ 50 < block.lastFewTxs then
      (false, { block with blockFinished := true })
    else if ctx.args.nBlockMaxWeight - 4000 < block.nBlockWeight then
      (false, { block with lastFewTxs := block.lastFewTxs + 1 })
    else (false, block)
  else if ctx.args.nBlockMaxSize ≤ block.nBlockSize + facts.serializeSize then
    if ctx.args.nBlockMaxSize - 100 < block.nBlockSize ∨ 50 < block.lastFewTxs then
      (false, { block with blockFinished := true })
    else if ctx.args.nBlockMaxSize - 1000 < block.nBlockSize then
      (false, { block with lastFewTxs := block.lastFewTxs + 1 })
    else (false, block)
  else if maxBlockSigOpsCost ≤ block.nBlockSigOpsCost + getSigOpCost ctx iter then
    if maxBlockSigOpsCost - 8 < block.nBlockSigOpsCost then
      (false, { block with blockFinished := true })
    else (false, block)
  else (facts.isFinal, block)

/-- The priority of a transaction does not change, so that the queue and the map
of waiting transactions hold the transactions only. -/
structure PriorityState where
  block : BlockAssembler
  vecPriority : List Uint256
  waitPriMap : SetEntries

/-- A child that was waiting is queued again. -/
def requeue (s : PriorityState) (child : Uint256) : PriorityState :=
  if child ∈ s.waitPriMap then
    { s with vecPriority := child :: s.vecPriority, waitPriMap := s.waitPriMap.erase child }
  else s

/-- A transaction that was taken from the queue and depends on nothing any more. -/
def tryPriority (s : PriorityState) (iter : Uint256) : Round PriorityState :=
  let tested := testForBlock ctx s.block iter
  if tested.1 then
    let block := addToBlock ctx true tested.2 iter
    if ctx.args.nBlockPrioritySize ≤ block.nBlockSize ∨ (ctx.facts iter).allowFree = false then
      .finished { s with block }
    else
      .next ((ctx.pool.getMemPoolChildren iter).toList.foldl requeue { s with block })
  else .next { s with block := tested.2 }

def priorityRound (s : PriorityState) : Round PriorityState :=
  if s.block.blockFinished then .finished s
  else
    match firstOf ctx.priorityBefore s.vecPriority with
    | none => .finished s
    | some iter =>
      let s := { s with vecPriority := s.vecPriority.erase iter }
      if iter ∈ s.block.inBlock then .aborted
      else if !ctx.fIncludeWitness && (ctx.facts iter).hasWitness then .next s
      else if isStillDependent ctx s.block iter then
        .next { s with waitPriMap := s.waitPriMap.insert iter }
      else tryPriority ctx s iter

/-- A bound on the rounds of the loop. -/
def priorityRounds : Nat := (ctx.pool.mapTx.size + 1) * (ctx.pool.mapTx.size + 1)

def addPriorityTxs (block : BlockAssembler) : Option BlockAssembler :=
  if ctx.args.nBlockPrioritySize = 0 then some block
  else
    (run (priorityRound ctx) (priorityRounds ctx)
      { block, vecPriority := ctx.pool.mapTx.keys, waitPriMap := ∅ }).map PriorityState.block

/-! ## Selection by ancestor fee rate -/

abbrev ModifiedTxs := Std.ExtTreeMap Uint256 ModifiedEntry

def onlyUnconfirmed (block : BlockAssembler) (testSet : SetEntries) : SetEntries :=
  testSet.filter fun iit => !block.inBlock.contains iit

def testPackage (block : BlockAssembler) (packageSize packageSigOpsCost : Int) : Bool :=
  !decide ((ctx.args.nBlockMaxWeight : Int) ≤ block.nBlockWeight + witnessScaleFactor * packageSize)
    && !decide (maxBlockSigOpsCost ≤ block.nBlockSigOpsCost + packageSigOpsCost)

/-- The loop of `TestPackageTransactions`. -/
def testTransactions (nPotentialBlockSize : Nat) : List Uint256 → Bool
  | [] => true
  | it :: rest =>
    let facts := ctx.facts it
    if facts.isFinal = false then false
    else if !ctx.fIncludeWitness && facts.hasWitness then false
    else if ctx.args.fNeedSizeAccounting then
      if ctx.args.nBlockMaxSize ≤ nPotentialBlockSize + facts.serializeSize then false
      else testTransactions (nPotentialBlockSize + facts.serializeSize) rest
    else testTransactions nPotentialBlockSize rest

def testPackageTransactions (block : BlockAssembler) (package : SetEntries) : Bool :=
  testTransactions ctx block.nBlockSize package.toList

/-- `update_for_parent_inclusion`, which takes away the fee without its delta. -/
def updateForParentInclusion (iter : Uint256) (e : ModifiedEntry) : ModifiedEntry where
  nModFeesWithAncestors := e.nModFeesWithAncestors - getEntryFee ctx iter
  nSizeWithAncestors := e.nSizeWithAncestors - getTxSize ctx iter
  nSigOpCostWithAncestors := e.nSigOpCostWithAncestors - getSigOpCost ctx iter

/-- The new entry of a descendant of `it`. -/
def entryWithout (it desc : Uint256) : ModifiedEntry where
  nSizeWithAncestors := (modifiedEntry ctx desc).nSizeWithAncestors - getTxSize ctx it
  nModFeesWithAncestors := (modifiedEntry ctx desc).nModFeesWithAncestors - getModifiedFee ctx it
  nSigOpCostWithAncestors := (modifiedEntry ctx desc).nSigOpCostWithAncestors - getSigOpCost ctx it

/-- The entry of a descendant after `it` was added to the block. -/
def entryAfter (it desc : Uint256) (mit : Option ModifiedEntry) : ModifiedEntry :=
  match mit with
  | none => entryWithout ctx it desc
  | some e => updateForParentInclusion ctx it e

/-- The outer loop of `UpdatePackagesForAdded`. -/
def updateDescendants (alreadyAdded : SetEntries) (mapModifiedTx : ModifiedTxs) (it : Uint256) :
    ModifiedTxs :=
  (ctx.pool.calculateDescendants ∅ it).toList.foldl
    (fun mapModifiedTx desc =>
      if desc ∈ alreadyAdded then mapModifiedTx
      else mapModifiedTx.insert desc (entryAfter ctx it desc mapModifiedTx[desc]?))
    mapModifiedTx

def updatePackagesForAdded (alreadyAdded : SetEntries) (mapModifiedTx : ModifiedTxs) :
    ModifiedTxs :=
  alreadyAdded.toList.foldl (updateDescendants ctx alreadyAdded) mapModifiedTx

/-- `SortForBlock`: by the number of ancestors, then by id; a set is ordered by
ids. -/
def sortForBlock (package : SetEntries) : List Uint256 :=
  package.toList.insertionSort fun a b => getCountWithAncestors ctx a ≤ getCountWithAncestors ctx b

structure PackageState where
  block : BlockAssembler
  mapModifiedTx : ModifiedTxs
  failedTx : SetEntries := ∅
  /-- What is left of the index from `mi` on. -/
  mi : List Uint256
  nConsecutiveFailed : Nat := 0

def skipMapTxEntry (s : PackageState) (it : Uint256) : Bool :=
  s.mapModifiedTx.contains it || s.block.inBlock.contains it || s.failedTx.contains it

/-- The transaction to evaluate, with the totals of its package. -/
structure Candidate where
  iter : Uint256
  entry : ModifiedEntry
  fUsingModified : Bool
  mi : List Uint256

inductive Choice where
  | finished
  | skip (mi : List Uint256)
  | candidate (c : Candidate)

/-- The next entry of the index, or the best one of the modified entries. -/
def choose (s : PackageState) : Choice :=
  let modit := firstOf ctx.compareModifiedEntry s.mapModifiedTx.toList
  match s.mi with
  | [] =>
    match modit with
    | none => .finished
    | some (iter, entry) => .candidate ⟨iter, entry, true, []⟩
  | it :: rest =>
    if skipMapTxEntry s it then .skip rest
    else
      match modit with
      | none => .candidate ⟨it, modifiedEntry ctx it, false, rest⟩
      | some (iter, entry) =>
        if ctx.compareModifiedEntry (iter, entry) (it, modifiedEntry ctx it) then
          .candidate ⟨iter, entry, true, it :: rest⟩
        else .candidate ⟨it, modifiedEntry ctx it, false, rest⟩

/-- A modified entry that failed is dropped and remembered. -/
def dropFailed (s : PackageState) (c : Candidate) : PackageState :=
  if c.fUsingModified then
    { s with
      mapModifiedTx := s.mapModifiedTx.erase c.iter
      failedTx := s.failedTx.insert c.iter
      mi := c.mi }
  else { s with mi := c.mi }

/-- The transaction with its ancestors that are not in the block. -/
def packageOf (s : PackageState) (iter : Uint256) : SetEntries :=
  (onlyUnconfirmed s.block (ctx.pool.linkedAncestors iter)).insert iter

def addPackage (s : PackageState) (c : Candidate) : PackageState :=
  let ancestors := packageOf ctx s c.iter
  let sortedEntries := sortForBlock ctx ancestors
  { s with
    block := sortedEntries.foldl (addToBlock ctx ctx.args.fNeedSizeAccounting) s.block
    mapModifiedTx := updatePackagesForAdded ctx ancestors
      (sortedEntries.foldl (fun mapModifiedTx it => mapModifiedTx.erase it) s.mapModifiedTx)
    mi := c.mi
    nConsecutiveFailed := 0 }

def maxConsecutiveFailures : Nat := 1000

def evaluate (s : PackageState) (c : Candidate) : Round PackageState :=
  if c.iter ∈ s.block.inBlock then .aborted
  else if c.entry.nModFeesWithAncestors <
      Wallet.getFee ctx.blockMinFeeRate c.entry.nSizeWithAncestors.toNat then .finished s
  else if testPackage ctx s.block c.entry.nSizeWithAncestors c.entry.nSigOpCostWithAncestors = false
  then
    let failed := { dropFailed s c with nConsecutiveFailed := s.nConsecutiveFailed + 1 }
    if maxConsecutiveFailures < failed.nConsecutiveFailed ∧
        ctx.args.nBlockMaxWeight - 4000 < s.block.nBlockWeight then .finished failed
    else .next failed
  else if testPackageTransactions ctx s.block (packageOf ctx s c.iter) = false then
    .next (dropFailed s c)
  else .next (addPackage ctx s c)

def packageRound (s : PackageState) : Round PackageState :=
  match choose ctx s with
  | .finished => .finished s
  | .skip mi => .next { s with mi }
  | .candidate c => evaluate ctx s c

/-- The state before the loop of `addPackageTxs`. -/
def packageStart (block : BlockAssembler) : PackageState where
  block
  mapModifiedTx := updatePackagesForAdded ctx block.inBlock ∅
  mi := ctx.ancestorScore

/-- A bound on the rounds of the loop. -/
def packageRounds : Nat := (ctx.pool.mapTx.size + 1) * (2 * ctx.pool.mapTx.size + 2)

def addPackageTxs (block : BlockAssembler) : Option BlockAssembler :=
  (run (packageRound ctx) (packageRounds ctx) (packageStart ctx block)).map PackageState.block

/-- The selection of `CreateNewBlock`. -/
def selectTransactions : Option BlockAssembler := do
  let block ← addPriorityTxs ctx {}
  addPackageTxs ctx block

end KubuCore.Mining
