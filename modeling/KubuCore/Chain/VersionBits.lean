import KubuCore.Base.Median
import KubuCore.Primitives

/-!
# Deployment states

`GetStateFor` and `GetStateSinceHeightFor` of `versionbits.cpp`, which keep a
cache of the states they compute. A pointer to a block index entry is the list of
the headers from that block back to the genesis block; the null pointer is the
empty list, and `GetAncestor` gives a suffix.
-/

namespace KubuCore.VersionBits

open Median

inductive ThresholdState where
  | defined
  | started
  | lockedIn
  | active
  | failed
deriving DecidableEq, Repr

/-- What the deployment logic reads of a header, with the hash that tells blocks
apart. -/
structure CBlockHeader where
  hash : Uint256
  nVersion : BitVec 32
  nTime : Int
deriving DecidableEq, Repr

abbrev CBlockIndex := List CBlockHeader

namespace CBlockIndex

def nHeight (pindex : CBlockIndex) : Int := pindex.length - 1

def getAncestor (pindex : CBlockIndex) (height : Int) : CBlockIndex :=
  if height > nHeight pindex ∨ height < 0 then [] else pindex.drop (nHeight pindex - height).toNat

def nMedianTimeSpan : Nat := 11

def getMedianTimePast (pindex : CBlockIndex) : Int :=
  median ((pindex.map CBlockHeader.nTime).take nMedianTimeSpan)

end CBlockIndex

open CBlockIndex

/-- The parameters of an `AbstractThresholdConditionChecker`. -/
structure Deployment where
  nPeriod : Nat
  positive : 0 < nPeriod
  nThreshold : Int
  nTimeStart : Int
  nTimeTimeout : Int
  condition : CBlockIndex → Bool

/-! ## Signalling by version bits -/

def versionBitsTopBits : BitVec 32 := 0x20000000
def versionBitsTopMask : BitVec 32 := 0xE0000000

/-- `Condition` of `VersionBitsConditionChecker`. -/
def versionBitsCondition (bit : Nat) : CBlockIndex → Bool
  | [] => false
  | block :: _ =>
    block.nVersion &&& versionBitsTopMask == versionBitsTopBits &&
      block.nVersion &&& (1#32 <<< bit) != 0

/-! ## The cached computation -/

/-- `ThresholdConditionCache`; the latest entry of a key counts. -/
abbrev ThresholdConditionCache := List (CBlockIndex × ThresholdState)

variable (d : Deployment)

/-- The blocks that signal among the last `n`. -/
def countSignals : Nat → CBlockIndex → Int
  | 0, _ => 0
  | n + 1, pindexCount =>
    (if d.condition pindexCount then 1 else 0) + countSignals n pindexCount.tail

/-- The state of the period after the one that ends with a block. -/
def stateNext (state : ThresholdState) (pindexPrev : CBlockIndex) : ThresholdState :=
  match state with
  | .defined =>
    if d.nTimeTimeout ≤ getMedianTimePast pindexPrev then .failed
    else if d.nTimeStart ≤ getMedianTimePast pindexPrev then .started
    else .defined
  | .started =>
    if d.nTimeTimeout ≤ getMedianTimePast pindexPrev then .failed
    else if d.nThreshold ≤ countSignals d d.nPeriod pindexPrev then .lockedIn
    else .started
  | .lockedIn => .active
  | .failed => .failed
  | .active => .active

/-- The last block of the period before the one a block's child is in. -/
def periodParent (pindexPrev : CBlockIndex) : CBlockIndex :=
  if pindexPrev = [] then []
  else getAncestor pindexPrev (nHeight pindexPrev - (nHeight pindexPrev + 1) % d.nPeriod)

def previousPeriod (pindexPrev : CBlockIndex) : CBlockIndex :=
  getAncestor pindexPrev (nHeight pindexPrev - d.nPeriod)

/-- The walk back to a block whose state is known, with a bound on its steps. -/
def walkBack (cache : ThresholdConditionCache) :
    Nat → CBlockIndex → List CBlockIndex →
      ThresholdConditionCache × CBlockIndex × List CBlockIndex
  | 0, pindexPrev, vToCompute => (cache, pindexPrev, vToCompute)
  | fuel + 1, pindexPrev, vToCompute =>
    if (cache.lookup pindexPrev).isSome then (cache, pindexPrev, vToCompute)
    else if pindexPrev = [] ∨ getMedianTimePast pindexPrev < d.nTimeStart then
      ((pindexPrev, .defined) :: cache, pindexPrev, vToCompute)
    else walkBack cache fuel (previousPeriod d pindexPrev) (pindexPrev :: vToCompute)

/-- The walk forward over the blocks to compute. -/
def walkForward (cache : ThresholdConditionCache) (state : ThresholdState) :
    List CBlockIndex → ThresholdConditionCache × ThresholdState
  | [] => (cache, state)
  | pindexPrev :: vToCompute =>
    let next := stateNext d state pindexPrev
    walkForward ((pindexPrev, next) :: cache) next vToCompute

def getStateFor (cache : ThresholdConditionCache) (pindexPrev : CBlockIndex) :
    ThresholdConditionCache × ThresholdState :=
  let pindexPrev := periodParent d pindexPrev
  let (cache, pindexPrev, vToCompute) := walkBack d cache (pindexPrev.length + 1) pindexPrev []
  walkForward d cache ((cache.lookup pindexPrev).getD .defined) vToCompute

/-- The loop of `GetStateSinceHeightFor`, with a bound on its rounds. -/
def sinceLoop (initialState : ThresholdState) :
    Nat → ThresholdConditionCache → CBlockIndex → ThresholdConditionCache × CBlockIndex
  | 0, cache, pindexPrev => (cache, pindexPrev)
  | fuel + 1, cache, pindexPrev =>
    let previousPeriodParent := previousPeriod d pindexPrev
    if previousPeriodParent = [] then (cache, pindexPrev)
    else
      let (cache, state) := getStateFor d cache previousPeriodParent
      if state = initialState then sinceLoop initialState fuel cache previousPeriodParent
      else (cache, pindexPrev)

def getStateSinceHeightFor (cache : ThresholdConditionCache) (pindexPrev : CBlockIndex) :
    ThresholdConditionCache × Int :=
  let (cache, initialState) := getStateFor d cache pindexPrev
  if initialState = .defined then (cache, 0)
  else
    let pindexPrev := periodParent d pindexPrev
    let (cache, pindexPrev) := sinceLoop d initialState pindexPrev.length cache pindexPrev
    (cache, nHeight pindexPrev + 1)

/-! ## The definition -/

/-- The state of period `k` of a chain, from the genesis block on. -/
def periodState (chain : CBlockIndex) : Nat → ThresholdState
  | 0 => .defined
  | k + 1 => stateNext d (periodState chain k) (chain.drop (chain.length - (k + 1) * d.nPeriod))

/-- The state of the block that follows a chain. -/
def bip9State (chain : CBlockIndex) : ThresholdState :=
  periodState d chain (chain.length / d.nPeriod)

/-- Period `j` is the first of the run of periods with the state of period `k`. -/
structure RunStart (chain : CBlockIndex) (k j : Nat) : Prop where
  le : j ≤ k
  same : ∀ i, j ≤ i → i ≤ k → periodState d chain i = periodState d chain k
  first : ∀ i, i + 1 = j → periodState d chain i ≠ periodState d chain k

end KubuCore.VersionBits
