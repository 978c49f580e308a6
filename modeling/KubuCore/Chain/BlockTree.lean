import KubuCore.Base.RootedTree

/-!
# The block index

The block tree of `validation.cpp`: headers and blocks that arrive, the
candidates for the best chain, and the flags of failed blocks, through
`AcceptBlockHeader`, `AcceptBlock`, `ActivateBestChain`, `InvalidateBlock` and
`ResetBlockFailureFlags`. A block is named by its hash, which fixes its parent;
the active chain is given by its tip.
-/

namespace KubuCore.BlockTree

/-- The headers there are. The work of a block is more than its parent's. -/
structure HeaderTree (B : Type) extends RootedTree B where
  genesis : B
  parent_genesis : parent genesis = none
  nChainWork : B → Nat
  work_parent : ∀ {b p}, parent b = some p → nChainWork p < nChainWork b
  /-- The number of transactions, which `CheckBlock` makes positive. -/
  nTx : B → Nat
  nTx_pos : ∀ b, 0 < nTx b

def blockValidTree : Nat := 2
def blockValidTransactions : Nat := 3
def blockValidScripts : Nat := 5

/-- The fields of a `CBlockIndex` that change: `nStatus` is its level of validity, whether the
data is stored, and the two flags of failure. -/
structure BlockStatus where
  validity : Nat := 0
  haveData : Bool := false
  failedValid : Bool := false
  failedChild : Bool := false
  nChainTx : Nat := 0
  nSequenceId : Nat := 0
deriving DecidableEq, Repr

/-- `nStatus & BLOCK_FAILED_MASK`. -/
def BlockStatus.failed (status : BlockStatus) : Bool := status.failedValid || status.failedChild

def BlockStatus.isValid (status : BlockStatus) (nUpTo : Nat) : Bool :=
  !status.failed && nUpTo ≤ status.validity

def BlockStatus.raiseValidity (status : BlockStatus) (nUpTo : Nat) : BlockStatus :=
  if status.failed then status else { status with validity := max status.validity nUpTo }

def BlockStatus.clearFailed (status : BlockStatus) : BlockStatus :=
  { status with failedValid := false, failedChild := false }

def BlockStatus.markValid (status : BlockStatus) : BlockStatus := { status with failedValid := true }

def BlockStatus.markChild (status : BlockStatus) : BlockStatus := { status with failedChild := true }

/-- The block index and the sets kept beside it. -/
structure BlockManager (B : Type) where
  mapBlockIndex : List B
  status : B → BlockStatus
  tip : Option B
  setBlockIndexCandidates : List B
  mapBlocksUnlinked : List (B × B)
  gFailedBlocks : List B
  nBlockSequenceId : Nat

section Index

variable {B : Type} [DecidableEq B] (tree : HeaderTree B)

namespace BlockManager

def setStatus (state : BlockManager B) (b : B) (f : BlockStatus → BlockStatus) : BlockManager B :=
  { state with status := Function.update state.status b (f (state.status b)) }

/-- Change the status of the blocks of a list. -/
def setStatuses (state : BlockManager B) (blocks : List B) (f : BlockStatus → BlockStatus) :
    BlockManager B :=
  blocks.foldl (fun state b => state.setStatus b f) state

def insertCandidate (state : BlockManager B) (b : B) : BlockManager B :=
  { state with setBlockIndexCandidates := state.setBlockIndexCandidates.insert b }

def eraseCandidates (state : BlockManager B) (blocks : List B) : BlockManager B :=
  { state with
    setBlockIndexCandidates := state.setBlockIndexCandidates.filter fun b => !blocks.contains b }

def insertFailed (state : BlockManager B) (b : B) : BlockManager B :=
  { state with gFailedBlocks := state.gFailedBlocks.insert b }

end BlockManager

/-- A fresh index that holds the genesis block, connected. -/
def genesisState : BlockManager B where
  mapBlockIndex := [tree.genesis]
  status := fun b => if b = tree.genesis then
    { validity := blockValidScripts, haveData := true, nChainTx := tree.nTx b } else {}
  tip := some tree.genesis
  setBlockIndexCandidates := [tree.genesis]
  mapBlocksUnlinked := []
  gFailedBlocks := []
  nBlockSequenceId := 1

/-- `CBlockIndexWorkComparator`: less work, or the same work and received later. The address of
the entry decides only between blocks loaded from disk. -/
def worse (state : BlockManager B) (a b : B) : Bool :=
  tree.nChainWork a < tree.nChainWork b ||
    (tree.nChainWork a == tree.nChainWork b &&
      (state.status b).nSequenceId < (state.status a).nSequenceId)

/-- `chainActive.Contains`. -/
def inActiveChain (state : BlockManager B) (b : B) : Bool :=
  state.tip.any fun tip => tree.ancestorAt tip (tree.depth b) == some b

/-- Not worse than the tip. -/
def notWorseThanTip (state : BlockManager B) (b : B) : Bool :=
  state.tip.all fun tip => !worse tree state b tip

/-! ## Headers and blocks -/

inductive HeaderResult (B : Type) where
  | accepted (state : BlockManager B)
  | rejected (reason : String) (state : BlockManager B)
  /-- The assertion on a member of `gFailedBlocks` fails and the node stops. -/
  | aborted

/-- The blocks from `b` up to, and without, its ancestor `a`. -/
def pathBelow (a b : B) : List B := (tree.path b).takeWhile fun c => c != a

def addToBlockIndex (state : BlockManager B) (b : B) : BlockManager B :=
  if state.mapBlockIndex.contains b then state
  else
    { state.setStatus b fun _ => ({} : BlockStatus).raiseValidity blockValidTree with
      mapBlockIndex := b :: state.mapBlockIndex }

/-- The search of `gFailedBlocks` for an ancestor of the parent of a new header. The source goes
through a set ordered by the addresses of its elements, here a list stands for that order. -/
def checkFailedBlocks (state : BlockManager B) (pindexPrev b : B) : HeaderResult B :=
  if (state.status pindexPrev).isValid blockValidScripts then
    .accepted (addToBlockIndex state b)
  else
    match state.gFailedBlocks.find? fun failedit =>
        tree.ancestorAt pindexPrev (tree.depth failedit) == some failedit with
    | none => .accepted (addToBlockIndex state b)
    | some failedit =>
      if (state.status failedit).failedValid then
        .rejected "bad-prevblk"
          (state.setStatuses (pathBelow tree failedit pindexPrev) BlockStatus.markChild)
      else .aborted

/-- `AcceptBlockHeader`. The checks of the header itself are an argument. -/
def acceptBlockHeader (headerOk : Except String Unit) (state : BlockManager B) (b : B) :
    HeaderResult B :=
  if b = tree.genesis then .accepted (addToBlockIndex state b)
  else if state.mapBlockIndex.contains b then
    if (state.status b).failed then .rejected "duplicate" state else .accepted state
  else
    match tree.parent b with
    | none => .rejected "bad-prevblk" state
    | some pindexPrev =>
      if !state.mapBlockIndex.contains pindexPrev then .rejected "bad-prevblk" state
      else if (state.status pindexPrev).failed then .rejected "bad-prevblk" state
      else
        match headerOk with
        | .error reason => .rejected reason state
        | .ok () => checkFailedBlocks tree state pindexPrev b

/-- A block with the transactions of its chain counted and the next sequence number. -/
def numbered (state : BlockManager B) (b : B) : BlockManager B :=
  let parentTx := ((tree.parent b).map fun p => (state.status p).nChainTx).getD 0
  { state.setStatus b fun status =>
      { status with nChainTx := parentTx + tree.nTx b, nSequenceId := state.nBlockSequenceId } with
    nBlockSequenceId := state.nBlockSequenceId + 1 }

/-- One block of the queue of `ReceivedBlockTransactions`. -/
def linkBlock (state : BlockManager B) (b : B) : BlockManager B :=
  let state := numbered tree state b
  let state := if notWorseThanTip tree state b then state.insertCandidate b else state
  { state with mapBlocksUnlinked := state.mapBlocksUnlinked.filter fun item => item.1 != b }

/-- The queue of blocks that can now be connected; every entry of `mapBlocksUnlinked` enters it
at most once. -/
def linkBlocks (state : BlockManager B) : Nat → List B → BlockManager B
  | _, [] => state
  | 0, _ :: _ => state
  | fuel + 1, b :: queue =>
    let waiting := (state.mapBlocksUnlinked.filter fun item => item.1 == b).map Prod.snd
    linkBlocks (linkBlock tree state b) fuel (queue ++ waiting)

def receivedBlockTransactions (state : BlockManager B) (b : B) : BlockManager B :=
  let state := state.setStatus b fun status =>
    { status with nChainTx := 0, haveData := true }.raiseValidity blockValidTransactions
  if (tree.parent b).all fun p => (state.status p).nChainTx != 0 then
    linkBlocks tree state (state.mapBlocksUnlinked.length + 1) [b]
  else
    match tree.parent b with
    | some p =>
      if (state.status p).isValid blockValidTree then
        { state with mapBlocksUnlinked := state.mapBlocksUnlinked ++ [(p, b)] }
      else state
    | none => state

/-- The verdict of `CheckBlock` and `ContextualCheckBlock`. -/
inductive BlockCheck where
  | ok
  | invalid
  /-- Invalid, but the data may have been corrupted on the way. -/
  | corrupt
deriving DecidableEq

def minBlocksToKeep : Nat := 288

/-- Whether `AcceptBlock` looks at the data of a block. -/
def wantsBlock (state : BlockManager B) (fRequested : Bool) (b : B) : Bool :=
  !(state.status b).haveData &&
    (fRequested || (state.tip.all fun tip => tree.nChainWork tip < tree.nChainWork b &&
      tree.depth b ≤ tree.depth tip + minBlocksToKeep))

def acceptBlock (headerOk : Except String Unit) (check : BlockCheck) (fRequested : Bool)
    (state : BlockManager B) (b : B) : HeaderResult B :=
  match acceptBlockHeader tree headerOk state b with
  | .accepted state =>
    if !wantsBlock tree state fRequested b then .accepted state
    else
      match check with
      | .ok => .accepted (receivedBlockTransactions tree state b)
      | .invalid =>
        .rejected "invalid" (state.setStatus b BlockStatus.markValid)
      | .corrupt => .rejected "corrupt" state
  | result => result

/-! ## The best chain -/

/-- The last candidate in the order of the comparator. -/
def bestCandidate (state : BlockManager B) : Option B :=
  state.setBlockIndexCandidates.foldl (fun best b =>
    match best with
    | none => some b
    | some c => if worse tree state c b then some b else some c) none

/-- The blocks of a candidate that are not in the active chain. -/
def pendingPath (state : BlockManager B) (b : B) : List B :=
  (tree.path b).takeWhile fun c => !inActiveChain tree state c

/-- A candidate whose chain has a failed block or misses data is dropped, with the blocks above
the obstacle. -/
def dropCandidate (state : BlockManager B) (pindexNew pindexTest : B) : BlockManager B :=
  let above := pathBelow tree pindexTest pindexNew
  let state :=
    if (state.status pindexTest).failed then
      state.setStatuses above BlockStatus.markChild
    else
      { state with
        mapBlocksUnlinked := state.mapBlocksUnlinked ++
          above.filterMap fun b => (tree.parent b).map fun p => (p, b) }
  state.eraseCandidates (pindexTest :: above)

/-- `FindMostWorkChain`. Every round drops a candidate, so their number is fuel enough. -/
def findMostWorkChain : Nat → BlockManager B → Option B × BlockManager B
  | 0, state => (none, state)
  | fuel + 1, state =>
    match bestCandidate tree state with
    | none => (none, state)
    | some pindexNew =>
      match (pendingPath tree state pindexNew).find? fun c =>
          (state.status c).failed || !(state.status c).haveData with
      | none => (some pindexNew, state)
      | some pindexTest => findMostWorkChain fuel (dropCandidate tree state pindexNew pindexTest)

def pruneBlockIndexCandidates (state : BlockManager B) : BlockManager B :=
  { state with
    setBlockIndexCandidates := state.setBlockIndexCandidates.filter (notWorseThanTip tree state) }

/-- The verdict of `ConnectTip`. -/
abbrev ConnectVerdict := BlockCheck

def invalidBlockFound (state : BlockManager B) (b : B) : BlockManager B :=
  ((state.setStatus b BlockStatus.markValid).insertFailed b).eraseCandidates [b]

def connectTip (state : BlockManager B) (b : B) : BlockManager B :=
  { state.setStatus b fun status => status.raiseValidity blockValidScripts with tip := some b }

/-- Connect blocks until one is invalid or the tip has more work than the old one. The second
component says whether an invalid block was found. -/
def connectBlocks (verdict : B → ConnectVerdict) (oldTip : Option B) (state : BlockManager B) :
    List B → BlockManager B × Bool
  | [] => (state, false)
  | b :: rest =>
    match verdict b with
    | .ok =>
      let state := pruneBlockIndexCandidates tree (connectTip state b)
      if oldTip.all fun tip => tree.nChainWork tip < tree.nChainWork b then (state, false)
      else connectBlocks verdict oldTip state rest
    | .invalid => (invalidBlockFound state b, true)
    | .corrupt => (state, true)

/-- `ActivateBestChainStep`: back to the fork, then towards the candidate. -/
def activateBestChainStep (verdict : B → ConnectVerdict) (state : BlockManager B)
    (pindexMostWork : B) : BlockManager B × Bool :=
  let fork := (tree.path pindexMostWork).find? fun c => inActiveChain tree state c
  let toConnect := ((tree.path pindexMostWork).takeWhile fun c => some c != fork).reverse
  connectBlocks tree verdict state.tip { state with tip := fork } toConnect

/-- The candidate of a round: the one the last round worked towards, or a new one. -/
def roundCandidate (pindexMostWork : Option B) (state : BlockManager B) :
    Option B × BlockManager B :=
  match pindexMostWork with
  | some b => (some b, state)
  | none => findMostWorkChain tree (state.setBlockIndexCandidates.length + 1) state

/-- The rounds of `ActivateBestChain`, at most as many as the first number says; `none` is a loop
that goes on. -/
def activateRounds (verdict : Nat → B → ConnectVerdict) :
    Nat → Nat → Option B → BlockManager B → Option (BlockManager B)
  | 0, _, _, _ => none
  | rounds + 1, k, pindexMostWork, state =>
    match roundCandidate tree pindexMostWork state with
    | (none, state) => some state
    | (some b, state) =>
      if state.tip = some b then some state
      else
        let (state, fInvalidFound) := activateBestChainStep tree (verdict k) state b
        let pindexMostWork := if fInvalidFound then none else some b
        if state.tip = pindexMostWork then some state
        else activateRounds verdict rounds (k + 1) pindexMostWork state

def activateBestChain (verdict : Nat → B → ConnectVerdict) (rounds : Nat)
    (state : BlockManager B) : Option (BlockManager B) :=
  activateRounds tree verdict rounds 0 none state

/-! ## Operator commands -/

/-- A block that may be the new tip after an invalidation is a candidate again. -/
def reconsiderCandidate (state : BlockManager B) (b : B) : BlockManager B :=
  if (state.status b).isValid blockValidTransactions && (state.status b).nChainTx != 0 &&
      notWorseThanTip tree state b then
    { state.insertCandidate b with gFailedBlocks := state.gFailedBlocks.filter fun c => c != b }
  else state

def invalidateBlock (state : BlockManager B) (b : B) : BlockManager B :=
  let fIndexWasInChain := inActiveChain tree state b
  let walk := if fIndexWasInChain then (state.tip.map (pathBelow tree b)).getD [] else []
  let state := if fIndexWasInChain then { state with tip := tree.parent b } else state
  let state := (state.setStatuses walk BlockStatus.markChild).eraseCandidates walk
  let state := ((state.setStatus b BlockStatus.markValid).eraseCandidates [b]).insertFailed b
  state.mapBlockIndex.foldl (reconsiderCandidate tree) state

/-- The flags of one block of the index are cleared if it is `pindex` or descends from it. -/
def resetDescendant (pindex : B) (state : BlockManager B) (b : B) : BlockManager B :=
  if !(state.status b).isValid blockValidTransactions &&
      tree.ancestorAt b (tree.depth pindex) == some pindex then
    let state := state.setStatus b BlockStatus.clearFailed
    if (state.status b).isValid blockValidTransactions && (state.status b).nChainTx != 0 &&
        state.tip.any fun tip => worse tree state tip b then state.insertCandidate b
    else state
  else state

def resetBlockFailureFlags (state : BlockManager B) (pindex : B) : BlockManager B :=
  let state := state.mapBlockIndex.foldl (resetDescendant tree pindex) state
  state.setStatuses (tree.path pindex) BlockStatus.clearFailed

end Index

/-! ## A fork -/

/-- Two lines of blocks on block 1, the even and the odd ones. -/
def forkParent : Nat → Option Nat
  | 0 => none
  | 1 => some 0
  | 2 => some 1
  | n + 3 => some (n + 1)

def forkDepth (n : Nat) : Nat := if n = 0 then 0 else n / 2 + 1

theorem forkDepth_parent {n p : Nat} (h : forkParent n = some p) :
    forkDepth n = forkDepth p + 1 := by
  match n, h with
  | 1, h => cases h; rfl
  | 2, h => cases h; rfl
  | n + 3, h =>
    cases h
    simp only [forkDepth, Nat.add_eq_zero_iff, OfNat.ofNat_ne_zero, one_ne_zero, and_false, if_false]
    omega

/-- Blocks of the same depth have the same work. -/
def forkTree : HeaderTree Nat where
  parent := forkParent
  depth := forkDepth
  depth_parent := forkDepth_parent
  genesis := 0
  parent_genesis := rfl
  nChainWork := forkDepth
  work_parent h := by rw [forkDepth_parent h]; exact Nat.lt_succ_self _
  nTx _ := 1
  nTx_pos _ := Nat.one_pos

end KubuCore.BlockTree
