import KubuCore.Chain.VersionBitsCache

/-!
# Relative lock times

`CalculateSequenceLocks`, `EvaluateSequenceLocks`, `TestLockPointValidity` and
`CheckSequenceLocks` of `validation.cpp`. A transaction of the pool keeps the lock points
of an earlier check. They stay good on every chain with the highest block that an input was
confirmed in: inputs confirmed then are where they were, and the others had no lock.
-/

namespace KubuCore.SequenceLocks

open VersionBits
open CBlockIndex

/-- The chain a check is made on, with the transactions of its blocks and the pool. A
transaction is in one block of the chain or in the pool, not in both or in two. -/
structure ChainView (tree : HeaderTree) (vtx : CBlockHeader → List Uint256) where
  tip : CBlockIndex
  nonempty : tip ≠ []
  inTree : tree.blocks tip
  inMempool : Uint256 → Bool
  /-- All outputs are spent. -/
  isPruned : Uint256 → Bool
  apart : ∀ txid, inMempool txid = true → ∀ block ∈ tip, txid ∉ vtx block
  unique : ∀ txid block rest block' rest', block :: rest <:+ tip → block' :: rest' <:+ tip →
    txid ∈ vtx block → txid ∈ vtx block' → rest = rest'

structure LockPoints where
  height : Int
  time : Int
  maxInputBlock : CBlockIndex

section Model

variable {tree : HeaderTree} {vtx : CBlockHeader → List Uint256}

/-- The height of the block with a transaction. -/
def coinHeight (vtx : CBlockHeader → List Uint256) : CBlockIndex → Uint256 → Option Int
  | [], _ => none
  | block :: rest, txid => if txid ∈ vtx block then some rest.length else coinHeight vtx rest txid

/-- The height of an input for the check: that of the next block for a transaction of the
pool. -/
def prevHeight (view : ChainView tree vtx) (txid : Uint256) : Option Int :=
  if view.inMempool txid then some (nHeight view.tip + 1)
  else if view.isPruned txid then none
  else coinHeight vtx view.tip txid

def sequenceLocktimeDisabled (txin : CTxIn) : Bool := txin.nSequence.testBit 31

def sequenceLocktimeType (txin : CTxIn) : Bool := txin.nSequence.testBit 22

def sequenceLocktimeValue (txin : CTxIn) : Nat := txin.nSequence % 2 ^ 16

/-- The median time past of the block before an input's block. -/
def coinTime (tip : CBlockIndex) (nCoinHeight : Int) : Int :=
  getMedianTimePast (getAncestor tip (max (nCoinHeight - 1) 0))

/-- The body of the loop of `CalculateSequenceLocks`. -/
def addLock (tip : CBlockIndex) (lockPair : Int × Int) (input : CTxIn × Int) : Int × Int :=
  if sequenceLocktimeDisabled input.1 then lockPair
  else if sequenceLocktimeType input.1 then
    (lockPair.1, max lockPair.2
      (coinTime tip input.2 + (sequenceLocktimeValue input.1 <<< 9 : Nat) - 1))
  else (max lockPair.1 (input.2 + sequenceLocktimeValue input.1 - 1), lockPair.2)

/-- Whether relative lock times hold for a transaction; `flags` is the flag for them. -/
def enforceBIP68 (tx : CTransaction) (flags : Bool) : Bool := 2 ≤ tx.nVersion % 2 ^ 32 && flags

def calculateSequenceLocks (tx : CTransaction) (flags : Bool) (tip : CBlockIndex)
    (inputs : List (CTxIn × Int)) : Int × Int :=
  if enforceBIP68 tx flags then inputs.foldl (addLock tip) (-1, -1) else (-1, -1)

/-- The heights that `CalculateSequenceLocks` leaves in its argument. -/
def relevantHeights (tx : CTransaction) (flags : Bool) (inputs : List (CTxIn × Int)) : List Int :=
  inputs.map fun input =>
    if enforceBIP68 tx flags && sequenceLocktimeDisabled input.1 then 0 else input.2

/-- `EvaluateSequenceLocks` for the block after the tip. -/
def evaluateSequenceLocks (tip : CBlockIndex) (lockPair : Int × Int) : Bool :=
  lockPair.1 < nHeight tip + 1 && lockPair.2 < getMedianTimePast tip

def testLockPointValidity (tip : CBlockIndex) (lp : LockPoints) : Bool :=
  lp.maxInputBlock = [] || lp.maxInputBlock.isSuffixOf tip

/-- The inputs with their heights, if none is missing. -/
def inputHeights (view : ChainView tree vtx) (tx : CTransaction) : Option (List (CTxIn × Int)) :=
  tx.vin.mapM fun txin => (prevHeight view txin.prevout.hash).map fun height => (txin, height)

/-- The highest of the confirmed heights. -/
def maxInputHeight (tip : CBlockIndex) (heights : List Int) : Int :=
  (heights.filter fun height => height ≠ nHeight tip + 1).foldl max 0

/-- `CheckSequenceLocks` that computes the lock points; no result for a missing input. -/
def checkSequenceLocks (view : ChainView tree vtx) (tx : CTransaction) (flags : Bool) :
    Option (Bool × LockPoints) := do
  let inputs ← inputHeights view tx
  let lockPair := calculateSequenceLocks tx flags view.tip inputs
  let heights := relevantHeights tx flags inputs
  pure (evaluateSequenceLocks view.tip lockPair,
    { height := lockPair.1, time := lockPair.2
      maxInputBlock := getAncestor view.tip (maxInputHeight view.tip heights) })

/-- `CheckSequenceLocks` that uses existing lock points. -/
def checkCached (view : ChainView tree vtx) (lp : LockPoints) : Bool :=
  evaluateSequenceLocks view.tip (lp.height, lp.time)

end Model

/-! ## Blocks of a chain -/

section Chain

variable {vtx : CBlockHeader → List Uint256} {tip s : CBlockIndex}

theorem getAncestor_suffix {k : Int} (h : s <:+ tip) (nonneg : 0 ≤ k) (le : k ≤ nHeight s) :
    getAncestor tip k = getAncestor s k := by
  have hlength := h.length_le
  have hs : s = tip.drop (tip.length - s.length) := List.suffix_iff_eq_drop.mp h
  simp only [nHeight] at le
  rw [getAncestor, getAncestor, if_neg (by simp only [nHeight]; omega),
    if_neg (by simp only [nHeight]; omega)]
  conv_rhs => rw [hs, List.drop_drop]
  congr 1
  simp only [nHeight, List.length_drop]
  omega

theorem getAncestor_length {k : Int} (nonneg : 0 ≤ k) (le : k ≤ nHeight tip) :
    ((getAncestor tip k).length : Int) = k + 1 ∧ getAncestor tip k <:+ tip := by
  simp only [nHeight] at le
  rw [getAncestor, if_neg (by simp only [nHeight]; omega)]
  refine ⟨?_, List.drop_suffix _ _⟩
  simp only [List.length_drop, nHeight]
  omega

theorem coinHeight_eq_some {txid : Uint256} {height : Int}
    (h : coinHeight vtx tip txid = some height) :
    ∃ block rest, block :: rest <:+ tip ∧ txid ∈ vtx block ∧ height = rest.length := by
  induction tip with
  | nil => cases h
  | cons block rest ih =>
    rw [coinHeight] at h
    split at h
    · rename_i hmem
      cases h
      exact ⟨block, rest, List.suffix_rfl, hmem, rfl⟩
    · obtain ⟨block', rest', hsuffix, hmem, hheight⟩ := ih h
      exact ⟨block', rest', hsuffix.trans (List.suffix_cons _ _), hmem, hheight⟩

end Chain

/-! ## The locks of all inputs -/

section Locks

variable {tip : CBlockIndex} {maxHeight maxTime : Int}

/-- The lock of one input is below the bounds. -/
def LockBelow (tip : CBlockIndex) (maxHeight maxTime : Int) (input : CTxIn × Int) : Prop :=
  sequenceLocktimeDisabled input.1 = false →
    if sequenceLocktimeType input.1 then
      coinTime tip input.2 + (sequenceLocktimeValue input.1 <<< 9 : Nat) - 1 < maxTime
    else input.2 + sequenceLocktimeValue input.1 - 1 < maxHeight

theorem foldl_addLock_below (inputs : List (CTxIn × Int)) (lockPair : Int × Int) :
    ((inputs.foldl (addLock tip) lockPair).1 < maxHeight ∧
      (inputs.foldl (addLock tip) lockPair).2 < maxTime) ↔
      (lockPair.1 < maxHeight ∧ lockPair.2 < maxTime) ∧
        ∀ input ∈ inputs, LockBelow tip maxHeight maxTime input := by
  induction inputs generalizing lockPair with
  | nil => simp
  | cons input inputs ih =>
    rw [List.foldl_cons, ih, List.forall_mem_cons]
    rw [addLock, LockBelow]
    cases sequenceLocktimeDisabled input.1
    · cases sequenceLocktimeType input.1
      · simp only [Bool.false_eq_true, if_false, max_lt_iff]
        tauto
      · simp only [Bool.false_eq_true, if_false, if_true, max_lt_iff]
        tauto
    · simp

end Locks

/-! ## Cached lock points -/

section Cached

variable {tree : HeaderTree} {vtx : CBlockHeader → List Uint256} {view later : ChainView tree vtx}

theorem le_foldl_max (heights : List Int) (start : Int) :
    start ≤ heights.foldl max start ∧ ∀ height ∈ heights, height ≤ heights.foldl max start := by
  induction heights generalizing start with
  | nil => simp
  | cons head heights ih =>
    obtain ⟨hstart, hrest⟩ := ih (max start head)
    refine ⟨le_trans (le_max_left _ _) hstart, ?_⟩
    exact List.forall_mem_cons.mpr ⟨le_trans (le_max_right _ _) hstart, hrest⟩

theorem foldl_max_le {heights : List Int} {start bound : Int} (hstart : start ≤ bound)
    (h : ∀ height ∈ heights, height ≤ bound) : heights.foldl max start ≤ bound := by
  induction heights generalizing start with
  | nil => exact hstart
  | cons head heights ih =>
    rw [List.forall_mem_cons] at h
    exact ih (max_le hstart h.1) h.2

variable {txid : Uint256} {height : Int} {vin : List CTxIn}

/-- An input is in the pool or in a block of the chain. -/
theorem prevHeight_cases (h : prevHeight view txid = some height) :
    (view.inMempool txid = true ∧ height = nHeight view.tip + 1) ∨
      ∃ block rest, block :: rest <:+ view.tip ∧ txid ∈ vtx block ∧ height = rest.length := by
  rw [prevHeight] at h
  split_ifs at h with hpool
  · cases h
    exact .inl ⟨hpool, rfl⟩
  · exact .inr (coinHeight_eq_some h)

theorem prevHeight_bounds
    (h : prevHeight view txid = some height) : 0 ≤ height ∧ height ≤ nHeight view.tip + 1 := by
  rcases prevHeight_cases h with ⟨-, rfl⟩ | ⟨block, rest, hsuffix, -, rfl⟩
  · simp only [nHeight]
    omega
  · have := hsuffix.length_le
    simp only [List.length_cons] at this
    simp only [nHeight]
    omega

variable {block : CBlockHeader} {rest : CBlockIndex} {inputs : List (CTxIn × Int)} {txin : CTxIn}

/-- A transaction in a block of the chain that still has its outputs. -/
theorem prevHeight_of_confirmed (hsuffix : block :: rest <:+ view.tip) (hmem : txid ∈ vtx block)
    {height : Int}
    (h : prevHeight view txid = some height) : height = rest.length := by
  rcases prevHeight_cases h with ⟨hpool, -⟩ | ⟨block', rest', hsuffix', hmem', rfl⟩
  · exact absurd hmem (view.apart txid hpool block (hsuffix.subset List.mem_cons_self))
  · rw [view.unique txid block rest block' rest' hsuffix hsuffix' hmem hmem']

theorem coinTime_le (le : height ≤ nHeight view.tip + 1) :
    coinTime view.tip height ≤ getMedianTimePast view.tip := by
  have hpos := List.length_pos_iff.mpr view.nonempty
  have hle : max (height - 1) 0 ≤ nHeight view.tip := by
    simp only [nHeight] at le ⊢
    omega
  obtain ⟨hlength, hsuffix⟩ := getAncestor_length (le_max_right _ _) hle
  have hdrop := List.suffix_iff_eq_drop.mp hsuffix
  rw [coinTime, hdrop]
  refine tree.median_drop_le view.inTree _ fun hnil => ?_
  rw [hdrop, hnil, List.length_nil] at hlength
  omega

/-- The inputs come with the heights of their transactions. -/
theorem inputHeights_spec
    (h : (vin.mapM fun txin => (prevHeight view txin.prevout.hash).map fun height =>
      (txin, height)) = some inputs) :
    (∀ txin ∈ vin, ∃ height, (txin, height) ∈ inputs) ∧
      ∀ input ∈ inputs, input.1 ∈ vin ∧ prevHeight view input.1.prevout.hash = some input.2 := by
  induction vin generalizing inputs with
  | nil =>
    cases h
    simp
  | cons first vin ih =>
    simp only [List.mapM_cons, Option.bind_eq_bind, Option.bind_eq_some_iff, Option.map_eq_some_iff,
      Option.pure_def, Option.some.injEq] at h
    obtain ⟨-, ⟨found, hfound, rfl⟩, rest, hrest, rfl⟩ := h
    obtain ⟨heach, hinput⟩ := ih hrest
    simp only [List.forall_mem_cons]
    refine ⟨⟨⟨found, List.mem_cons_self⟩, fun txin hmem => ?_⟩,
      ⟨List.mem_cons_self, hfound⟩, fun input hmem => ?_⟩
    · obtain ⟨height, hheight⟩ := heach txin hmem
      exact ⟨height, List.mem_cons_of_mem _ hheight⟩
    · exact ⟨List.mem_cons_of_mem _ (hinput input hmem).1, (hinput input hmem).2⟩

theorem inputHeights_isSome (h : ∀ txin ∈ vin, (prevHeight view txin.prevout.hash).isSome) :
    ∃ inputs, (vin.mapM fun txin => (prevHeight view txin.prevout.hash).map fun height =>
      (txin, height)) = some inputs := by
  induction vin with
  | nil => exact ⟨[], rfl⟩
  | cons first vin ih =>
    rw [List.forall_mem_cons] at h
    obtain ⟨height, hheight⟩ := Option.isSome_iff_exists.mp h.1
    obtain ⟨rest, hrest⟩ := ih h.2
    exact ⟨(first, height) :: rest, by rw [List.mapM_cons, hheight, hrest]; rfl⟩

/-- The highest block with an input, from the heights of the inputs. -/
theorem maxInputBlock_spec (tx : CTransaction) (flags : Bool) {inputs : List (CTxIn × Int)}
    (bounds : ∀ input ∈ inputs, 0 ≤ input.2 ∧ input.2 ≤ nHeight view.tip + 1) :
    let m := maxInputHeight view.tip (relevantHeights tx flags inputs)
    0 ≤ m ∧ m ≤ nHeight view.tip ∧ ∀ input ∈ inputs, sequenceLocktimeDisabled input.1 = false →
      input.2 ≠ nHeight view.tip + 1 → input.2 ≤ m := by
  have hpos := List.length_pos_iff.mpr view.nonempty
  have hmax := le_foldl_max ((relevantHeights tx flags inputs).filter fun height =>
    height ≠ nHeight view.tip + 1) 0
  refine ⟨hmax.1, foldl_max_le (by simp only [nHeight]; omega) ?_, ?_⟩
  · intro height hmem
    rw [List.mem_filter, relevantHeights, List.mem_map] at hmem
    obtain ⟨⟨input, hinput, rfl⟩, hne⟩ := hmem
    have := (bounds input hinput).2
    simp only [decide_eq_true_eq] at hne
    split at hne
    · rw [if_pos ‹_›]
      simp only [nHeight]
      omega
    · rw [if_neg ‹_›]
      omega
  · intro input hinput henabled hne
    refine hmax.2 input.2 ?_
    rw [List.mem_filter, relevantHeights, List.mem_map]
    exact ⟨⟨input, hinput, by simp [henabled]⟩, by simpa using hne⟩

/-- An unconfirmed input that passed the check has no lock, so it passes at any height. -/
theorem LockBelow.of_mempool
    (first : LockBelow view.tip (nHeight view.tip + 1) (getMedianTimePast view.tip)
      (txin, nHeight view.tip + 1)) {height : Int} (le : height ≤ nHeight later.tip + 1) :
    LockBelow later.tip (nHeight later.tip + 1) (getMedianTimePast later.tip) (txin, height) := by
  intro henabled
  have hfirst := first henabled
  have htip : coinTime view.tip (nHeight view.tip + 1) = getMedianTimePast view.tip := by
    have hpos := List.length_pos_iff.mpr view.nonempty
    have hmax : max (nHeight view.tip + 1 - 1) 0 = nHeight view.tip := by
      simp only [nHeight]
      omega
    have hself : getAncestor view.tip (nHeight view.tip) = view.tip := by
      rw [getAncestor, if_neg (by simp only [nHeight]; omega), sub_self]
      rfl
    rw [coinTime, hmax, hself]
  dsimp only at hfirst ⊢
  split at hfirst
  · rw [if_pos ‹_›]
    have := coinTime_le le
    omega
  · rw [if_neg ‹_›]
    omega

/-- A confirmed input has the same lock on every chain with its block. -/
theorem LockBelow.of_confirmed (hview : block :: rest <:+ view.tip)
    (hlater : block :: rest <:+ later.tip)
    {maxHeight maxTime : Int} (cached : LockBelow view.tip maxHeight maxTime (txin, rest.length)) :
    LockBelow later.tip maxHeight maxTime (txin, rest.length) := by
  have hle : max ((rest.length : Int) - 1) 0 ≤ nHeight (block :: rest) := by
    simp only [nHeight, List.length_cons]
    omega
  have htime : coinTime later.tip rest.length = coinTime view.tip rest.length := by
    rw [coinTime, coinTime, getAncestor_suffix hview (le_max_right _ _) hle,
      getAncestor_suffix hlater (le_max_right _ _) hle]
  intro henabled
  have := cached henabled
  rw [htime]
  exact this

/-- Lock points of a check that succeeded are never too permissive later: as long as they
count as valid and the inputs exist, whatever they allow a new computation allows. -/
theorem cached_lock_points_sound {tx : CTransaction} {flags : Bool} {lp : LockPoints}
    (first : checkSequenceLocks view tx flags = some (true, lp))
    (valid : testLockPointValidity later.tip lp = true)
    (exist : ∀ txin ∈ tx.vin, (prevHeight later txin.prevout.hash).isSome)
    (cached : checkCached later lp = true) :
    ∃ lp', checkSequenceLocks later tx flags = some (true, lp') := by
  simp only [checkSequenceLocks, Option.bind_eq_bind, Option.bind_eq_some_iff, Option.pure_def,
    Option.some.injEq, Prod.mk.injEq] at first
  obtain ⟨inputs, hinputs, hfirst, rfl⟩ := first
  obtain ⟨inputs', hinputs'⟩ := inputHeights_isSome exist
  suffices allowed : evaluateSequenceLocks later.tip
      (calculateSequenceLocks tx flags later.tip inputs') = true by
    refine ⟨{ height := (calculateSequenceLocks tx flags later.tip inputs').1
              time := (calculateSequenceLocks tx flags later.tip inputs').2
              maxInputBlock := getAncestor later.tip
                (maxInputHeight later.tip (relevantHeights tx flags inputs')) }, ?_⟩
    rw [checkSequenceLocks, inputHeights, hinputs', ← allowed]
    rfl
  rw [checkCached] at cached
  by_cases henforce : enforceBIP68 tx flags = true
  · simp only [calculateSequenceLocks, if_pos henforce, evaluateSequenceLocks, Bool.and_eq_true,
      decide_eq_true_eq] at hfirst cached ⊢
    rw [foldl_addLock_below] at hfirst cached ⊢
    refine ⟨cached.1, ?_⟩
    rintro ⟨txin, height⟩ hinput
    obtain ⟨hmem, hheight⟩ := (inputHeights_spec hinputs').2 _ hinput
    obtain ⟨heach, hprev⟩ := inputHeights_spec hinputs
    -- The same input at the time of the first check.
    have hbounds : ∀ input ∈ inputs, 0 ≤ input.2 ∧ input.2 ≤ nHeight view.tip + 1 :=
      fun input h => prevHeight_bounds (hprev input h).2
    obtain ⟨hmnonneg, hmle, hmax⟩ := maxInputBlock_spec tx flags hbounds
    obtain ⟨old, hold⟩ := heach txin hmem
    intro henabled
    rcases prevHeight_cases (hprev _ hold).2 with ⟨-, rfl⟩ | ⟨block, rest, hsuffix, htx, rfl⟩
    · exact LockBelow.of_mempool (hfirst.2 _ hold) (prevHeight_bounds hheight).2 henabled
    · obtain ⟨hlength, hancestor⟩ := getAncestor_length hmnonneg hmle
      have hrest := hsuffix.length_le
      simp only [List.length_cons] at hrest
      have hbelow := hmax _ hold henabled (by simp only [nHeight]; omega)
      have hblock : block :: rest <:+ later.tip := by
        refine List.IsSuffix.trans (List.suffix_of_suffix_length_le hsuffix hancestor ?_) ?_
        · simp only [List.length_cons]
          omega
        · simp only [testLockPointValidity, Bool.or_eq_true, decide_eq_true_eq,
            List.isSuffixOf_iff_suffix] at valid
          refine valid.resolve_left fun hnil => ?_
          rw [hnil] at hlength
          simp only [List.length_nil] at hlength
          omega
      rw [prevHeight_of_confirmed hblock htx hheight]
      exact LockBelow.of_confirmed hsuffix hblock (cached.2 _ hold) henabled
  · simp only [calculateSequenceLocks, if_neg henforce] at cached ⊢
    exact cached

end Cached

/-! ## A chain of three blocks -/

def blockAt (height : Nat) : CBlockHeader := ⟨BitVec.ofNat 256 height, 0, height⟩

/-- The block of height 1 has transaction 7. -/
def lineVtx (block : CBlockHeader) : List Uint256 := if block.nTime = 1 then [7] else []

theorem suffix_line {block : CBlockHeader} {rest : CBlockIndex}
    (h : block :: rest <:+ [blockAt 2, blockAt 1, blockAt 0]) :
    (block = blockAt 2 ∧ rest = [blockAt 1, blockAt 0]) ∨
      (block = blockAt 1 ∧ rest = [blockAt 0]) ∨ (block = blockAt 0 ∧ rest = []) := by
  simpa [List.suffix_cons_iff] using h

def lineTree : HeaderTree where
  blocks p := p <:+ [blockAt 2, blockAt 1, blockAt 0]
  closed block rest h := (List.suffix_cons block rest).trans h
  times block rest h hne := by
    rcases suffix_line h with ⟨rfl, rfl⟩ | ⟨rfl, rfl⟩ | ⟨rfl, rfl⟩
    · decide +kernel
    · decide +kernel
    · exact absurd rfl hne

/-- The chain up to one of its blocks, with an empty pool. -/
def lineView (tip : CBlockIndex) (nonempty : tip ≠ [])
    (inTree : tip <:+ [blockAt 2, blockAt 1, blockAt 0]) : ChainView lineTree lineVtx where
  tip
  nonempty
  inTree
  inMempool _ := false
  isPruned _ := false
  apart _ h := nomatch h
  unique txid block rest block' rest' h h' hmem hmem' := by
    have only : ∀ block rest, block :: rest <:+ tip → txid ∈ lineVtx block →
        rest = [blockAt 0] := by
      intro block rest h hmem
      rcases suffix_line (h.trans inTree) with ⟨rfl, rfl⟩ | ⟨rfl, rfl⟩ | ⟨rfl, rfl⟩
      · simp [lineVtx, blockAt] at hmem
      · rfl
      · simp [lineVtx, blockAt] at hmem
    rw [only block rest h hmem, only block' rest' h' hmem']

/-- A transaction that waits for one block after its input. -/
def waitingTx : CTransaction where
  nVersion := 2
  vin := [{ prevout := ⟨7, 0⟩, scriptSig := [], nSequence := 1, scriptWitness := [] }]
  vout := []
  nLockTime := 0

theorem cached_lock_points_sound_line :
    ∃ (view later : ChainView lineTree lineVtx) (lp lp' : LockPoints),
      checkSequenceLocks view waitingTx true = some (true, lp) ∧
      testLockPointValidity later.tip lp = true ∧ checkCached later lp = true ∧
      checkSequenceLocks later waitingTx true = some (true, lp') := by
  have hfirst : checkSequenceLocks (lineView [blockAt 1, blockAt 0] (by simp)
      ((List.suffix_cons _ _))) waitingTx true =
      some (true, ⟨1, -1, [blockAt 1, blockAt 0]⟩) := by
    rfl
  have hvalid : testLockPointValidity [blockAt 2, blockAt 1, blockAt 0]
      ⟨1, -1, [blockAt 1, blockAt 0]⟩ = true := by decide +kernel
  obtain ⟨lp', hlater⟩ := @cached_lock_points_sound lineTree lineVtx _
    (lineView [blockAt 2, blockAt 1, blockAt 0] (by simp) List.suffix_rfl) _ _ _ hfirst hvalid
    (by decide +kernel) (by decide +kernel)
  exact ⟨_, _, _, lp', hfirst, hvalid, by decide +kernel, hlater⟩

end KubuCore.SequenceLocks
