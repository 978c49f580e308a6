import KubuCore.Base.Int64
import KubuCore.Primitives

/-!
# Coin selection

`SelectCoins`, `SelectCoinsMinConf` and `ApproximateBestSubset` of `wallet.cpp`.
The random numbers they draw are parameters. A selection is right when its value
is the sum of the coins in it and reaches the target, which it does unless the
target with the minimal change is too large for 64 bits. Sums of coins are
integers here: results are stated for coins that are worth less than that.
-/

namespace KubuCore.Wallet

open Std

/-- An output that `AvailableCoins` offers. -/
structure COutput where
  outpoint : COutPoint
  nValue : CAmount
  nDepth : Int := 1
  fSpendable : Bool := true
  isFromMe : Bool := true
  /-- The larger of the two package counts of a transaction in the pool. -/
  chainLength : Option Nat := none
deriving DecidableEq, Repr

/-- `TransactionWithinChainLimit`. -/
def COutput.withinChainLimit (output : COutput) (chainLimit : Nat) : Bool :=
  output.chainLength.all fun count => count < chainLimit

inductive FeeRatePreset where
  | minimum
  | low
  | moderate
  | high
  | veryHigh
  | maximum
deriving DecidableEq, Repr

structure CCoinControl where
  destChange : Option CTxDestination := none
  fAllowOtherInputs : Bool := false
  nMinimumTotalFee : CAmount := 0
  fOverrideFeeRate : Bool := false
  /-- The fee for a thousand bytes. -/
  nFeeRate : CAmount := 0
  nPriority : FeeRatePreset := .minimum
  setSelected : ExtTreeSet COutPoint := ∅

def CCoinControl.hasSelected (coinControl : CCoinControl) : Bool := !coinControl.setSelected.isEmpty

/-- What selection reads of the wallet. -/
structure SelectParams where
  /-- `GetMinChange`. -/
  minChange : CAmount
  minChange_nonneg : 0 ≤ minChange
  bSpendZeroConfChange : Bool := true
  nMaxChainLength : Nat := 25
  fRejectLongChains : Bool := false
  /-- The value of an output of `mapWallet`. -/
  walletValue : COutPoint → Option CAmount

/-- The random choices of one attempt. -/
structure Randomness where
  shuffle : List COutput → List COutput
  perm : ∀ coins, (shuffle coins).Perm coins
  /-- The bit for a coin in a repetition of the first or the second approximation. -/
  rand32 : Bool → Nat → Nat → Bool

/-! ## Subset sum -/

/-- The value of the coins with a flag. -/
def flaggedValue (vValue : List COutput) (flags : List Bool) : CAmount :=
  (List.zipWith (fun (coin : COutput) flag => if flag then coin.nValue else 0) vValue flags).sum

/-- The local variables of a repetition. -/
structure Trial where
  nTotal : CAmount
  vfIncluded : List Bool
  fReachedTarget : Bool
  nBest : CAmount
  vfBest : List Bool

/-- The body of the loop over the coins. -/
def tryCoin (vValue : List COutput) (nTargetValue : CAmount) (takes : Nat → List Bool → Bool)
    (trial : Trial) (i : Nat) : Trial :=
  if takes i trial.vfIncluded then
    let value := (vValue[i]?.map COutput.nValue).getD 0
    let nTotal := trial.nTotal + value
    let vfIncluded := trial.vfIncluded.set i true
    if nTargetValue ≤ nTotal then
      { nTotal := nTotal - value
        vfIncluded := vfIncluded.set i false
        fReachedTarget := true
        nBest := if nTotal < trial.nBest then nTotal else trial.nBest
        vfBest := if nTotal < trial.nBest then vfIncluded else trial.vfBest }
    else { trial with nTotal, vfIncluded }
  else trial

/-- One repetition: a random pass, and one over the coins left out unless the target
was reached. -/
def approximateOnce (vValue : List COutput) (nTargetValue : CAmount) (rand : Nat → Bool)
    (best : CAmount × List Bool) : CAmount × List Bool :=
  let indices := List.range vValue.length
  let trial : Trial := ⟨0, List.replicate vValue.length false, false, best.1, best.2⟩
  let trial := indices.foldl (tryCoin vValue nTargetValue fun i _ => rand i) trial
  let trial := if trial.fReachedTarget then trial
    else indices.foldl (tryCoin vValue nTargetValue fun i included => !included.getD i true) trial
  (trial.nBest, trial.vfBest)

def approximateLoop (vValue : List COutput) (nTargetValue : CAmount) (rand : Nat → Nat → Bool) :
    Nat → Nat → CAmount × List Bool → CAmount × List Bool
  | 0, _, best => best
  | iterations + 1, nRep, best =>
    if best.1 = nTargetValue then best
    else approximateLoop vValue nTargetValue rand iterations (nRep + 1)
      (approximateOnce vValue nTargetValue (rand nRep) best)

def approximateBestSubset (vValue : List COutput) (nTotalLower nTargetValue : CAmount)
    (rand : Nat → Nat → Bool) : CAmount × List Bool :=
  approximateLoop vValue nTargetValue rand 1000 0
    (nTotalLower, List.replicate vValue.length true)

/-! ## Selection -/

/-- What the loop over the coins gathers. -/
structure Scan where
  vValue : List COutput := []
  nTotalLower : CAmount := 0
  coinLowestLarger : Option COutput := none

/-- `nTargetValue + GetMinChange()`. -/
def changeTarget (minChange nTargetValue : CAmount) : CAmount := wrapInt64 (nTargetValue + minChange)

/-- The coins an attempt may use. -/
def eligible (nConfMine nConfTheirs : Int) (nMaxAncestors : Nat) (output : COutput) : Bool :=
  output.fSpendable && (if output.isFromMe then nConfMine else nConfTheirs) ≤ output.nDepth &&
    output.withinChainLimit nMaxAncestors

/-- The loop over the coins: a coin of the exact value ends it. -/
def scanCoins (minChange nTargetValue : CAmount) (scan : Scan) : List COutput → COutput ⊕ Scan
  | [] => .inr scan
  | output :: rest =>
    let n := output.nValue
    if n = nTargetValue then .inl output
    else if n < changeTarget minChange nTargetValue then
      scanCoins minChange nTargetValue
        { scan with vValue := scan.vValue ++ [output], nTotalLower := scan.nTotalLower + n } rest
    else if n < (scan.coinLowestLarger.map COutput.nValue).getD (2 ^ 63 - 1) then
      scanCoins minChange nTargetValue { scan with coinLowestLarger := some output } rest
    else scanCoins minChange nTargetValue scan rest

/-- The coins with a flag. -/
def flaggedCoins (vValue : List COutput) (flags : List Bool) : List COutput :=
  ((vValue.zip flags).filter fun item => item.2).map Prod.fst

/-- The choice after the loop. -/
def chooseCoins (minChange nTargetValue : CAmount) (random : Randomness) (scan : Scan) :
    Option (List COutput × CAmount) :=
  if scan.nTotalLower = nTargetValue then some (scan.vValue, scan.nTotalLower)
  else if scan.nTotalLower < nTargetValue then
    scan.coinLowestLarger.map fun coin => ([coin], coin.nValue)
  else
    let vValue := scan.vValue.insertionSort fun a b => b.nValue ≤ a.nValue
    let best := approximateBestSubset vValue scan.nTotalLower nTargetValue (random.rand32 false)
    let best :=
      if best.1 ≠ nTargetValue ∧ changeTarget minChange nTargetValue ≤ scan.nTotalLower then
        approximateBestSubset vValue scan.nTotalLower (changeTarget minChange nTargetValue)
          (random.rand32 true)
      else best
    match scan.coinLowestLarger with
    | some coin =>
      if (best.1 ≠ nTargetValue ∧ best.1 < changeTarget minChange nTargetValue) ∨
          coin.nValue ≤ best.1 then
        some ([coin], coin.nValue)
      else some (flaggedCoins vValue best.2, flaggedValue vValue best.2)
    | none => some (flaggedCoins vValue best.2, flaggedValue vValue best.2)

/-- What is selected when the loop over the coins has ended. -/
def afterScan (minChange nTargetValue : CAmount) (random : Randomness) :
    COutput ⊕ Scan → Option (List COutput × CAmount)
  | .inl coin => some ([coin], coin.nValue)
  | .inr scan => chooseCoins minChange nTargetValue random scan

def selectCoinsMinConf (params : SelectParams) (nTargetValue : CAmount)
    (nConfMine nConfTheirs : Int) (nMaxAncestors : Nat) (vCoins : List COutput)
    (random : Randomness) : Option (List COutput × CAmount) :=
  let coins := (random.shuffle vCoins).filter (eligible nConfMine nConfTheirs nMaxAncestors)
  afterScan params.minChange nTargetValue random (scanCoins params.minChange nTargetValue {} coins)

/-- The attempts of `SelectCoins`, each with its confirmations and chain limit. -/
def attempts (params : SelectParams) : List (Int × Int × Nat) :=
  [(1, 6, 0), (1, 1, 0)] ++
    (if params.bSpendZeroConfChange then
      [(0, 1, 2), (0, 1, min 4 (params.nMaxChainLength / 3)), (0, 1, params.nMaxChainLength / 2),
        (0, 1, params.nMaxChainLength)] ++
        (if params.fRejectLongChains then [] else [(0, 1, 2 ^ 64 - 1)])
    else [])

/-- The first attempt that succeeds. -/
def firstAttempt (params : SelectParams) (nTargetValue : CAmount) (vCoins : List COutput)
    (random : Nat → Randomness) : Nat → List (Int × Int × Nat) → Option (List COutput × CAmount)
  | _, [] => none
  | k, (nConfMine, nConfTheirs, nMaxAncestors) :: rest =>
    match selectCoinsMinConf params nTargetValue nConfMine nConfTheirs nMaxAncestors vCoins
        (random k) with
    | some result => some result
    | none => firstAttempt params nTargetValue vCoins random (k + 1) rest

/-- The outputs chosen as inputs, with their values. -/
abbrev SetCoins := List (COutPoint × CAmount)

def SetCoins.value (coins : SetCoins) : CAmount := (coins.map Prod.snd).sum

def COutput.input (output : COutput) : COutPoint × CAmount := (output.outpoint, output.nValue)

/-- The preset inputs; an output the wallet does not know ends the selection. -/
def presetCoins (params : SelectParams) : List COutPoint → Option SetCoins
  | [] => some []
  | outpoint :: rest => do
    let nValue ← params.walletValue outpoint
    let coins ← presetCoins params rest
    pure ((outpoint, nValue) :: coins)

def selectCoins (params : SelectParams) (random : Nat → Randomness)
    (coinControl : Option CCoinControl) (vAvailableCoins : List COutput) (nTargetValue : CAmount) :
    Option (SetCoins × CAmount) :=
  if coinControl.any fun control => control.hasSelected && !control.fAllowOtherInputs then
    let coins : SetCoins := (vAvailableCoins.filter COutput.fSpendable).map COutput.input
    if nTargetValue ≤ coins.value then some (coins, coins.value) else none
  else do
    let selected := (coinControl.map CCoinControl.setSelected).getD ∅
    let preset ← presetCoins params selected.toList
    let vCoins := vAvailableCoins.filter fun output => !selected.contains output.outpoint
    if nTargetValue ≤ preset.value then some (preset, preset.value)
    else do
      let (coins, nValueRet) ← firstAttempt params (nTargetValue - preset.value) vCoins random 0
        (attempts params)
      pure (coins.map COutput.input ++ preset, nValueRet + preset.value)

/-! ## What a subset is worth -/

theorem flaggedValue_set {vValue : List COutput} {flags : List Bool} {i : Nat}
    (length : flags.length = vValue.length) (free : flags[i]? = some false) :
    flaggedValue vValue (flags.set i true) =
      flaggedValue vValue flags + (vValue[i]?.map COutput.nValue).getD 0 := by
  induction vValue generalizing flags i with
  | nil =>
    rw [List.length_nil, List.length_eq_zero_iff] at length
    rw [length] at free
    cases free
  | cons coin vValue ih =>
    cases flags with
    | nil => cases free
    | cons flag flags =>
      cases i with
      | zero =>
        cases free
        simp [flaggedValue, add_comm]
      | succ i =>
        have := @ih flags i (by simpa using length) (by simpa using free)
        simp only [flaggedValue] at this
        simp [flaggedValue, this, add_assoc]

section

variable (vValue : List COutput)

theorem flaggedValue_replicate (flag : Bool) :
    flaggedValue vValue (List.replicate vValue.length flag) =
      if flag then (vValue.map COutput.nValue).sum else 0 := by
  induction vValue with
  | nil => cases flag <;> rfl
  | cons coin vValue ih =>
    simp only [flaggedValue] at ih
    cases flag <;> simp [flaggedValue, List.replicate_succ, ih]

theorem flaggedCoins_value (flags : List Bool) :
    ((flaggedCoins vValue flags).map COutput.nValue).sum = flaggedValue vValue flags := by
  induction vValue generalizing flags with
  | nil => rfl
  | cons coin vValue ih =>
    cases flags with
    | nil => rfl
    | cons flag flags =>
      have := ih flags
      simp only [flaggedCoins, List.map_map] at this
      cases flag <;> simp [flaggedCoins, flaggedValue, this]

theorem flaggedCoins_sublist (flags : List Bool) : (flaggedCoins vValue flags).Sublist vValue := by
  induction vValue generalizing flags with
  | nil => exact List.Sublist.refl _
  | cons coin vValue ih =>
    cases flags with
    | nil => exact List.nil_sublist _
    | cons flag flags =>
      cases flag with
      | false => exact (ih flags).cons coin
      | true => exact (ih flags).cons_cons coin

end

/-! ## The approximation -/

/-- The totals of a repetition are those of its flags. -/
structure TrialOk (vValue : List COutput) (nTargetValue : CAmount) (trial : Trial) : Prop where
  total : trial.nTotal = flaggedValue vValue trial.vfIncluded
  length : trial.vfIncluded.length = vValue.length
  best : trial.nBest = flaggedValue vValue trial.vfBest
  enough : nTargetValue ≤ trial.nBest

section Approximation

variable {vValue : List COutput} {nTargetValue : CAmount} {trial : Trial}

theorem TrialOk.tryCoin (ok : TrialOk vValue nTargetValue trial)
    {takes : Nat → List Bool → Bool} {i : Nat}
    (free : takes i trial.vfIncluded = true → trial.vfIncluded[i]? = some false) :
    TrialOk vValue nTargetValue (tryCoin vValue nTargetValue takes trial i) := by
  rw [Wallet.tryCoin]
  split
  · rename_i htakes
    have hfree := free htakes
    have hvalue := flaggedValue_set ok.length hfree
    have hback : (trial.vfIncluded.set i true).set i false = trial.vfIncluded := by
      rw [List.set_set]
      refine List.ext_getElem? fun j => ?_
      rw [List.getElem?_set]
      split
      · rename_i he
        subst he
        rw [hfree, if_pos (List.getElem?_eq_some_iff.mp hfree).1]
      · rfl
    dsimp only
    split
    · rename_i hreached
      refine ⟨?_, ?_, ?_, ?_⟩
      · simp only [hback]
        rw [← ok.total]
        ring
      · simp only [hback]
        exact ok.length
      · dsimp only
        split
        · rw [hvalue, ok.total]
        · exact ok.best
      · dsimp only
        split
        · exact hreached
        · exact ok.enough
    · exact ⟨by rw [hvalue, ← ok.total], by rw [List.length_set, ok.length], ok.best, ok.enough⟩
  · exact ok

theorem tryCoin_other (takes : Nat → List Bool → Bool) (trial : Trial) {i j : Nat} (h : i ≠ j) :
    (tryCoin vValue nTargetValue takes trial i).vfIncluded[j]? = trial.vfIncluded[j]? := by
  rw [tryCoin]
  split
  · dsimp only
    split <;> simp [h]
  · rfl

/-- The random pass visits each coin once, and none is included before. -/
theorem TrialOk.randomPass (ok : TrialOk vValue nTargetValue trial) (rand : Nat → Bool)
    {indices : List Nat} (nodup : indices.Nodup)
    (free : ∀ i ∈ indices, trial.vfIncluded[i]? = some false) :
    TrialOk vValue nTargetValue
      (indices.foldl (Wallet.tryCoin vValue nTargetValue fun i _ => rand i) trial) := by
  induction indices generalizing trial with
  | nil => exact ok
  | cons i indices ih =>
    rw [List.nodup_cons] at nodup
    refine ih (ok.tryCoin fun _ => free i List.mem_cons_self) nodup.2 ?_
    intro j hj
    have hne : i ≠ j := by
      rintro rfl
      exact nodup.1 hj
    rw [tryCoin_other _ _ hne]
    exact free j (List.mem_cons_of_mem _ hj)

theorem TrialOk.restPass (ok : TrialOk vValue nTargetValue trial) (indices : List Nat) :
    TrialOk vValue nTargetValue
      (indices.foldl (Wallet.tryCoin vValue nTargetValue fun i included => !included.getD i true)
        trial) := by
  induction indices generalizing trial with
  | nil => exact ok
  | cons i indices ih =>
    refine ih (ok.tryCoin ?_)
    intro htakes
    cases hflag : trial.vfIncluded[i]? with
    | none => simp [hflag] at htakes
    | some flag => simpa [hflag] using htakes

/-- The best subset so far reaches the target. -/
def BestOk (vValue : List COutput) (nTargetValue : CAmount) (best : CAmount × List Bool) : Prop :=
  best.1 = flaggedValue vValue best.2 ∧ nTargetValue ≤ best.1

section

variable {best : CAmount × List Bool} (ok : BestOk vValue nTargetValue best)
include ok

theorem BestOk.once (rand : Nat → Bool) :
    BestOk vValue nTargetValue (approximateOnce vValue nTargetValue rand best) := by
  have start : TrialOk vValue nTargetValue
      ⟨0, List.replicate vValue.length false, false, best.1, best.2⟩ :=
    ⟨(flaggedValue_replicate vValue false).symm, List.length_replicate, ok.1, ok.2⟩
  have first := start.randomPass rand List.nodup_range (by
    intro i hi
    rw [List.getElem?_replicate, if_pos (List.mem_range.mp hi)])
  rw [approximateOnce]
  split
  · exact ⟨first.best, first.enough⟩
  · have second := first.restPass (List.range vValue.length)
    exact ⟨second.best, second.enough⟩

theorem BestOk.loop (rand : Nat → Nat → Bool) (iterations nRep : Nat) :
    BestOk vValue nTargetValue
      (approximateLoop vValue nTargetValue rand iterations nRep best) := by
  induction iterations generalizing nRep best with
  | zero => exact ok
  | succ iterations ih =>
    rw [approximateLoop]
    split
    · exact ok
    · exact ih (ok.once (rand nRep)) (nRep + 1)

end

theorem approximateBestSubset_ok {nTotalLower : CAmount}
    (total : nTotalLower = (vValue.map COutput.nValue).sum) (enough : nTargetValue ≤ nTotalLower)
    (rand : Nat → Nat → Bool) :
    BestOk vValue nTargetValue (approximateBestSubset vValue nTotalLower nTargetValue rand) :=
  BestOk.loop ⟨by rw [flaggedValue_replicate, if_pos rfl, total], enough⟩ rand 1000 0

end Approximation

/-! ## What is selected -/

/-- A selection among some coins, right if the target is met where it should be. -/
structure Selects (vCoins : List COutput) (nTargetValue : CAmount) (safe : Prop)
    (result : List COutput × CAmount) : Prop where
  value : result.2 = (result.1.map COutput.nValue).sum
  enough : safe → nTargetValue ≤ result.2
  among : result.1.Subperm vCoins

/-- The coins seen so far are all of the given ones, in two groups. -/
structure ScanOk (vCoins : List COutput) (least : CAmount) (scan : Scan) : Prop where
  total : scan.nTotalLower = (scan.vValue.map COutput.nValue).sum
  lower : scan.vValue.Sublist vCoins
  larger : ∀ coin, scan.coinLowestLarger = some coin → coin ∈ vCoins ∧ least ≤ coin.nValue

/-- How the loop over the coins ends. -/
def ScanEnds (seen coins : List COutput) (nTargetValue least : CAmount) : COutput ⊕ Scan → Prop
  | .inl coin => coin ∈ coins ∧ coin.nValue = nTargetValue
  | .inr scan => ScanOk (seen ++ coins) least scan

section Selection

variable {minChange nTargetValue least : CAmount}

variable {result : List COutput × CAmount} {seen coins : List COutput} {scan : Scan}
  {random : Randomness} {coinControl : Option CCoinControl}

theorem ScanEnds.cons {output : COutput} {ending : COutput ⊕ Scan}
    (h : ScanEnds (seen ++ [output]) coins nTargetValue least ending) :
    ScanEnds seen (output :: coins) nTargetValue least ending := by
  cases ending with
  | inl coin => exact ⟨List.mem_cons_of_mem _ h.1, h.2⟩
  | inr scan =>
    rw [ScanEnds, List.append_assoc] at h
    exact h

theorem scanCoins_spec (ok : ScanOk seen (changeTarget minChange nTargetValue) scan) :
    ScanEnds seen coins nTargetValue (changeTarget minChange nTargetValue)
      (scanCoins minChange nTargetValue scan coins) := by
  induction coins generalizing seen scan with
  | nil =>
    rw [scanCoins, ScanEnds, List.append_nil]
    exact ok
  | cons output coins ih =>
    have skipped : scan.vValue.Sublist (seen ++ [output]) :=
      ok.lower.trans (List.sublist_append_left _ _)
    have larger : ∀ coin, scan.coinLowestLarger = some coin →
        coin ∈ seen ++ [output] ∧ changeTarget minChange nTargetValue ≤ coin.nValue :=
      fun coin h => ⟨List.mem_append_left _ (ok.larger coin h).1, (ok.larger coin h).2⟩
    rw [scanCoins]
    split_ifs with hexact hlower hlargest
    · exact ⟨List.mem_cons_self, hexact⟩
    · refine ScanEnds.cons (ih ?_)
      refine ⟨?_, ?_, larger⟩
      · rw [List.map_append, ok.total]
        simp
      · exact ok.lower.append (List.Sublist.refl _)
    · refine ScanEnds.cons (ih ?_)
      refine ⟨ok.total, skipped, ?_⟩
      rintro coin ⟨⟩
      exact ⟨List.mem_append_right _ List.mem_cons_self, Int.not_lt.mp hlower⟩
    · exact (ih ⟨ok.total, skipped, larger⟩).cons

variable {vCoins vAvailableCoins : List COutput} {params : SelectParams}

theorem selects_single {safe : Prop} {coin : COutput} (hmem : coin ∈ vCoins)
    (enough : safe → nTargetValue ≤ coin.nValue) :
    Selects vCoins nTargetValue safe ([coin], coin.nValue) :=
  ⟨by simp, enough, List.singleton_subperm_iff.mpr hmem⟩

theorem selects_flagged {safe : Prop} {vValue : List COutput} (perm : vValue.Subperm vCoins)
    {flags : List Bool} (enough : safe → nTargetValue ≤ flaggedValue vValue flags) :
    Selects vCoins nTargetValue safe (flaggedCoins vValue flags, flaggedValue vValue flags) :=
  ⟨(flaggedCoins_value vValue flags).symm, enough,
    (flaggedCoins_sublist vValue flags).subperm.trans perm⟩

/-- What the last stage returns: all the smaller coins, the smallest larger coin, or a subset of
the smaller coins, which leaves change unless nothing available does. -/
inductive ChoiceOf (minChange nTargetValue : CAmount) (scan : Scan) : List COutput × CAmount → Prop
  | all (exact : scan.nTotalLower = nTargetValue) :
    ChoiceOf minChange nTargetValue scan (scan.vValue, scan.nTotalLower)
  | larger {coin : COutput} (found : scan.coinLowestLarger = some coin) :
    ChoiceOf minChange nTargetValue scan ([coin], coin.nValue)
  | subset {vValue : List COutput} {flags : List Bool} (perm : vValue.Perm scan.vValue)
    (value : flaggedValue vValue flags = nTargetValue ∨
      changeTarget minChange nTargetValue ≤ flaggedValue vValue flags ∨
      nTargetValue ≤ flaggedValue vValue flags ∧
        scan.nTotalLower < changeTarget minChange nTargetValue ∧ scan.coinLowestLarger = none) :
    ChoiceOf minChange nTargetValue scan (flaggedCoins vValue flags, flaggedValue vValue flags)

theorem chooseCoins_cases (total : scan.nTotalLower = (scan.vValue.map COutput.nValue).sum)
    (h : chooseCoins minChange nTargetValue random scan = some result) :
    ChoiceOf minChange nTargetValue scan result := by
  rw [chooseCoins] at h
  split_ifs at h with hequal hbelow
  · cases h
    exact .all hequal
  · obtain ⟨coin, hcoin, rfl⟩ := Option.map_eq_some_iff.mp h
    exact .larger hcoin
  · dsimp only at h
    have hperm := scan.vValue.perm_insertionSort fun a b => b.nValue ≤ a.nValue
    generalize scan.vValue.insertionSort (fun a b => b.nValue ≤ a.nValue) = vValue at h hperm
    have htotal : scan.nTotalLower = (vValue.map COutput.nValue).sum := by
      rw [total, (hperm.map _).sum_eq]
    have hfirst := approximateBestSubset_ok htotal (Int.not_lt.mp hbelow) (random.rand32 false)
    generalize approximateBestSubset vValue scan.nTotalLower nTargetValue (random.rand32 false) =
      first at h hfirst
    -- The better of the two approximations: exact, with change, or all there is.
    have hbest : ∃ best : CAmount × List Bool, (if first.1 ≠ nTargetValue ∧
          changeTarget minChange nTargetValue ≤ scan.nTotalLower then
          approximateBestSubset vValue scan.nTotalLower (changeTarget minChange nTargetValue)
            (random.rand32 true)
        else first) = best ∧ best.1 = flaggedValue vValue best.2 ∧
        (best.1 = nTargetValue ∨ changeTarget minChange nTargetValue ≤ best.1 ∨
          nTargetValue ≤ best.1 ∧ scan.nTotalLower < changeTarget minChange nTargetValue) := by
      refine ⟨_, rfl, ?_⟩
      split_ifs with hmore
      · have := approximateBestSubset_ok htotal hmore.2 (random.rand32 true)
        exact ⟨this.1, .inr (.inl this.2)⟩
      · refine ⟨hfirst.1, ?_⟩
        by_cases hexact : first.1 = nTargetValue
        · exact .inl hexact
        · exact .inr (.inr ⟨hfirst.2, Int.not_le.mp fun hle => hmore ⟨hexact, hle⟩⟩)
    obtain ⟨best, heq, hvalue, hcase⟩ := hbest
    rw [heq] at h
    cases hlarger : scan.coinLowestLarger with
    | none =>
      rw [hlarger] at h
      cases h
      rw [hvalue] at hcase
      exact .subset hperm (by simpa [hlarger] using hcase)
    | some coin =>
      rw [hlarger] at h
      dsimp only at h
      split_ifs at h with hcoin
      · cases h
        exact .larger hlarger
      · cases h
        push Not at hcoin
        rw [hvalue] at hcoin
        refine .subset hperm ?_
        by_cases hexact : flaggedValue vValue best.2 = nTargetValue
        · exact .inl hexact
        · exact .inr (.inl (hcoin.1 hexact))

/-- The target is met where the target with the minimal change is no less than it. -/
theorem chooseCoins_spec {vCoins : List COutput} {scan : Scan}
    (ok : ScanOk vCoins (changeTarget minChange nTargetValue) scan) {random : Randomness}
    {result : List COutput × CAmount}
    (h : chooseCoins minChange nTargetValue random scan = some result) :
    Selects vCoins nTargetValue (nTargetValue ≤ changeTarget minChange nTargetValue) result := by
  cases chooseCoins_cases ok.total h with
  | all exact => exact ⟨ok.total, fun _ => Int.le_of_eq exact.symm, ok.lower.subperm⟩
  | @larger coin found =>
    obtain ⟨hmem, hvalue⟩ := ok.larger coin found
    exact selects_single hmem fun safe => Int.le_trans safe hvalue
  | @subset vValue flags perm value =>
    refine selects_flagged (perm.subperm.trans ok.lower.subperm) fun safe => ?_
    rcases value with hexact | hchange | ⟨henough, -⟩
    · exact Int.le_of_eq hexact.symm
    · exact Int.le_trans safe hchange
    · exact henough

theorem selectCoinsMinConf_spec {nConfMine nConfTheirs : Int} {nMaxAncestors : Nat}
    (h : selectCoinsMinConf params nTargetValue nConfMine nConfTheirs nMaxAncestors vCoins random =
      some result) :
    Selects (vCoins.filter COutput.fSpendable) nTargetValue
      (nTargetValue ≤ changeTarget params.minChange nTargetValue) result := by
  -- The eligible coins are spendable ones, in another order.
  have hsub : ((random.shuffle vCoins).filter
      (eligible nConfMine nConfTheirs nMaxAncestors)).Subperm (vCoins.filter COutput.fSpendable) := by
    have hfilter : ((random.shuffle vCoins).filter
        (eligible nConfMine nConfTheirs nMaxAncestors)).Sublist
        ((random.shuffle vCoins).filter COutput.fSpendable) :=
      List.monotone_filter_right _ fun coin hcoin => by
        simp only [eligible, Bool.and_eq_true] at hcoin
        exact hcoin.1.1
    exact hfilter.subperm.trans ((random.perm vCoins).filter _).subperm
  have hstart : ScanOk [] (changeTarget params.minChange nTargetValue) {} :=
    ⟨rfl, List.Sublist.refl _, fun coin hc => by cases hc⟩
  have hscan : ScanEnds [] ((random.shuffle vCoins).filter
      (eligible nConfMine nConfTheirs nMaxAncestors)) nTargetValue _ _ := scanCoins_spec hstart
  rw [selectCoinsMinConf] at h
  cases hends : scanCoins params.minChange nTargetValue {} ((random.shuffle vCoins).filter
      (eligible nConfMine nConfTheirs nMaxAncestors)) with
  | inl coin =>
    rw [hends] at h hscan
    cases h
    exact selects_single (hsub.subset hscan.1) fun _ => Int.le_of_eq hscan.2.symm
  | inr scan =>
    rw [hends] at h hscan
    have := chooseCoins_spec hscan h
    exact ⟨this.value, this.enough, this.among.trans hsub⟩

theorem firstAttempt_spec {random : Nat → Randomness} {k : Nat} {tries : List (Int × Int × Nat)}
    (h : firstAttempt params nTargetValue vCoins random k tries = some result) :
    Selects (vCoins.filter COutput.fSpendable) nTargetValue
      (nTargetValue ≤ changeTarget params.minChange nTargetValue) result := by
  induction tries generalizing k with
  | nil => cases h
  | cons attempt tries ih =>
    rw [firstAttempt] at h
    split at h
    · rename_i hsome
      cases h
      exact selectCoinsMinConf_spec hsome
    · exact ih h

theorem presetCoins_spec {outpoints : List COutPoint} {coins : SetCoins}
    (h : presetCoins params outpoints = some coins) :
    coins.map Prod.fst = outpoints ∧
      ∀ input ∈ coins, params.walletValue input.1 = some input.2 := by
  induction outpoints generalizing coins with
  | nil =>
    cases h
    exact ⟨rfl, by simp⟩
  | cons outpoint outpoints ih =>
    simp only [presetCoins, bind, Option.bind_eq_some_iff, pure, Option.some.injEq] at h
    obtain ⟨nValue, hvalue, rest, hrest, rfl⟩ := h
    obtain ⟨hfst, hvalues⟩ := ih hrest
    exact ⟨by rw [List.map_cons, hfst], List.forall_mem_cons.mpr ⟨hvalue, hvalues⟩⟩

/-- The input spends a coin that is available, or one that coin control has selected. -/
def OnOffer (walletValue : COutPoint → Option CAmount) (coinControl : Option CCoinControl)
    (vAvailableCoins : List COutput) (input : COutPoint × CAmount) : Prop :=
  (∃ output ∈ vAvailableCoins, output.fSpendable = true ∧ output.input = input) ∨
    ∃ control, coinControl = some control ∧ input.1 ∈ control.setSelected ∧
      walletValue input.1 = some input.2

/-- The coins that are on offer are worth at most this much, whichever are taken. -/
def Worth (walletValue : COutPoint → Option CAmount) (coinControl : Option CCoinControl)
    (vAvailableCoins : List COutput) (most : CAmount) : Prop :=
  ∀ coins : SetCoins, (∀ input ∈ coins, OnOffer walletValue coinControl vAvailableCoins input) →
    (coins.map Prod.fst).Nodup → 0 ≤ coins.value ∧ coins.value ≤ most

/-- What `SelectCoins` promises for a target. -/
structure SelectsInputs (params : SelectParams) (coinControl : Option CCoinControl)
    (vAvailableCoins : List COutput) (nTargetValue : CAmount) (result : SetCoins × CAmount) :
    Prop where
  value : result.2 = result.1.value
  enough : ∀ most, Worth params.walletValue coinControl vAvailableCoins most →
    nTargetValue + params.minChange < 2 ^ 63 → nTargetValue ≤ result.2
  among : ∀ input ∈ result.1, OnOffer params.walletValue coinControl vAvailableCoins input
  nodup : (vAvailableCoins.map COutput.outpoint).Nodup → (result.1.map Prod.fst).Nodup
  preset : ∀ control, coinControl = some control → control.fAllowOtherInputs = true →
    ∀ outpoint ∈ control.setSelected, outpoint ∈ result.1.map Prod.fst

theorem SetCoins.value_append (coins others : SetCoins) :
    SetCoins.value (coins ++ others) = coins.value + others.value := by
  rw [SetCoins.value, List.map_append, List.sum_append]
  rfl

theorem SetCoins.value_input (coins : List COutput) :
    SetCoins.value (coins.map COutput.input) = (coins.map COutput.nValue).sum := by
  rw [SetCoins.value, List.map_map]
  rfl

theorem map_fst_input (coins : List COutput) :
    (coins.map COutput.input).map Prod.fst = coins.map COutput.outpoint := by
  rw [List.map_map]
  rfl

/-- An amount that is positive is met, as long as it fits in 64 bits with the minimal change. -/
theorem le_changeTarget (params : SelectParams) (pos : 0 < nTargetValue)
    (fits : nTargetValue + params.minChange < 2 ^ 63) :
    nTargetValue ≤ changeTarget params.minChange nTargetValue := by
  have hnonneg := params.minChange_nonneg
  rw [changeTarget, wrapInt64_eq ⟨by linarith, fits⟩]
  linarith

theorem preset_nodup {preset : SetCoins} {selected : ExtTreeSet COutPoint}
    (hpreset : presetCoins params selected.toList = some preset) :
    (preset.map Prod.fst).Nodup := by
  rw [(presetCoins_spec hpreset).1]
  refine selected.distinct_toList.imp ?_
  rintro a b hne rfl
  exact hne ReflCmp.compare_self

section Attempt

variable {preset : SetCoins} {selected : ExtTreeSet COutPoint}
  (hselected : selected = (coinControl.map CCoinControl.setSelected).getD ∅)
  (hpreset : presetCoins params selected.toList = some preset)
include hselected hpreset

theorem preset_onOffer : ∀ input ∈ preset,
    OnOffer params.walletValue coinControl vAvailableCoins input := by
  intro input hmem
  obtain ⟨hfst, hvalues⟩ := presetCoins_spec hpreset
  have hin := hfst ▸ List.mem_map_of_mem hmem
  rw [ExtTreeSet.mem_toList, hselected] at hin
  cases coinControl with
  | none => exact absurd hin ExtTreeSet.not_mem_empty
  | some control => exact .inr ⟨control, rfl, hin, hvalues input hmem⟩

/-- The preset coins followed by the coins of an attempt. -/
theorem selectsInputs_attempt {chosen : List COutput × CAmount} {safe : Prop}
    (hsafe : 0 ≤ preset.value → nTargetValue + params.minChange < 2 ^ 63 → safe)
    (h : Selects ((vAvailableCoins.filter fun output => !selected.contains output.outpoint).filter
      COutput.fSpendable) (nTargetValue - preset.value) safe chosen) :
    SelectsInputs params coinControl vAvailableCoins nTargetValue
      (chosen.1.map COutput.input ++ preset, chosen.2 + preset.value) := by
  have hoffer : ∀ input ∈ preset, OnOffer params.walletValue coinControl vAvailableCoins input :=
    preset_onOffer hselected hpreset
  have hdistinct := preset_nodup hpreset
  obtain ⟨hfst, -⟩ := presetCoins_spec hpreset
  have hchosen : ∀ output ∈ chosen.1, output ∈ vAvailableCoins ∧ output.outpoint ∉ selected ∧
      output.fSpendable = true := by
    intro output hmem
    have := h.among.subset hmem
    simp only [List.mem_filter, Bool.not_eq_true', ← Bool.not_eq_true] at this
    exact ⟨this.1.1, this.1.2, this.2⟩
  refine ⟨?_, ?_, ?_, ?_, ?_⟩
  · rw [SetCoins.value_append, SetCoins.value_input, h.value]
  · intro most worth fits
    have := h.enough (hsafe (worth preset hoffer hdistinct).1 fits)
    linarith
  · intro input hmem
    rcases List.mem_append.mp hmem with hmem | hmem
    · obtain ⟨output, hout, rfl⟩ := List.mem_map.mp hmem
      obtain ⟨havailable, -, hspendable⟩ := hchosen output hout
      exact .inl ⟨output, havailable, hspendable, rfl⟩
    · exact hoffer input hmem
  · intro hnodup
    rw [List.map_append, map_fst_input]
    refine List.nodup_append.mpr ⟨?_, hdistinct, ?_⟩
    · obtain ⟨coins, hperm, hsub⟩ := h.among.trans
        (List.filter_sublist.trans List.filter_sublist).subperm
      exact (hperm.map _).nodup_iff.mp (hnodup.sublist (hsub.map _))
    · rintro outpoint hmem _ hother rfl
      obtain ⟨output, hout, rfl⟩ := List.mem_map.mp hmem
      exact (hchosen output hout).2.1 (ExtTreeSet.mem_toList.mp (hfst ▸ hother))
  · rintro control rfl - outpoint hmem
    rw [List.map_append, hfst]
    exact List.mem_append_right _ (ExtTreeSet.mem_toList.mpr (hselected ▸ hmem))

end Attempt

theorem selectCoins_spec {random : Nat → Randomness} {result : SetCoins × CAmount}
    (h : selectCoins params random coinControl vAvailableCoins nTargetValue = some result) :
    SelectsInputs params coinControl vAvailableCoins nTargetValue result := by
  rw [selectCoins] at h
  split at h
  · rename_i hany
    dsimp only at h
    split at h
    · rename_i henough
      cases h
      refine ⟨rfl, fun _ _ _ => henough, fun input hmem => .inl ?_, ?_, ?_⟩
      · obtain ⟨output, hmem, hinput⟩ := List.mem_map.mp hmem
        rw [List.mem_filter] at hmem
        exact ⟨output, hmem.1, hmem.2, hinput⟩
      · intro hnodup
        rw [map_fst_input]
        exact hnodup.sublist (List.filter_sublist.map _)
      · rintro control rfl hallow
        simp [hallow] at hany
    · cases h
  · simp only [bind, Option.bind_eq_some_iff] at h
    obtain ⟨preset, hpreset, h⟩ := h
    split at h
    · rename_i henough
      cases h
      -- The preset coins are enough: an attempt that adds no coin.
      have hnone : ∀ coins, Selects coins (nTargetValue - preset.value) True ([], 0) :=
        fun coins => ⟨rfl, fun _ => sub_nonpos.mpr henough, List.nil_subperm⟩
      have hinputs : SelectsInputs params coinControl vAvailableCoins nTargetValue _ :=
        selectsInputs_attempt rfl hpreset (fun _ _ => trivial) (hnone _)
      rw [zero_add] at hinputs
      exact hinputs
    · rename_i hmore
      simp only [Option.bind_eq_some_iff, pure, Option.some.injEq, Prod.exists] at h
      obtain ⟨coins, nValueRet, hattempt, rfl⟩ := h
      refine selectsInputs_attempt rfl hpreset (fun hnonneg fits => ?_) (firstAttempt_spec hattempt)
      exact le_changeTarget params (sub_pos.mpr (Int.not_le.mp hmore)) (by linarith)

end Selection

end KubuCore.Wallet
