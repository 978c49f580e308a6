import KubuCore.Wallet.Select

/-!
# One attempt to select coins

`SelectCoinsMinConf` succeeds exactly if the eligible coins are worth the target,
whatever the random choices are, and leaves either no change or enough of it as
far as the coins allow. This holds just when the target with the minimal change
fits in 64 bits, or there are no coins: a sum that wraps makes every coin look
large enough.
-/

namespace KubuCore.Wallet

/-- The smallest of the coins that are worth at least this much. -/
def SmallestFrom (coins : List COutput) (least : CAmount) (coin : COutput) : Prop :=
  coin ∈ coins ∧ least ≤ coin.nValue ∧
    ∀ other ∈ coins, least ≤ other.nValue → coin.nValue ≤ other.nValue

/-- What is left over: nothing, at least the minimal change, or the rest of all coins
when even they do not reach it. -/
inductive LeavesChange (coins : List COutput) (nTargetValue minChange : CAmount)
    (result : List COutput × CAmount) : Prop where
  | exact (h : result.2 = nTargetValue)
  | subset (small : ∀ coin ∈ result.1, coin.nValue < nTargetValue + minChange)
      (change : nTargetValue + minChange ≤ result.2)
  | single (coin : COutput) (h : result = ([coin], coin.nValue))
      (smallest : SmallestFrom coins (nTargetValue + minChange) coin)
  | short (h : ∀ subset : List COutput, subset.Subperm coins →
      (subset.map COutput.nValue).sum < nTargetValue + minChange)

/-- The loop over the coins has split them at the target with the minimal change. -/
structure ScanSplit (seen : List COutput) (least : CAmount) (scan : Scan) : Prop where
  lower : scan.vValue = seen.filter fun coin => coin.nValue < least
  smallest : ∀ coin, scan.coinLowestLarger = some coin → SmallestFrom seen least coin
  none : scan.coinLowestLarger = none → ∀ coin ∈ seen, coin.nValue < least

/-- How the loop ends, with the coins it has passed. -/
def SplitEnds (coins : List COutput) (least : CAmount) : COutput ⊕ Scan → Prop
  | .inl _ => True
  | .inr scan => ScanSplit coins least scan

section Scan

variable {minChange nTargetValue : CAmount}

theorem SmallestFrom.snoc {seen : List COutput} {least : CAmount} {coin output : COutput}
    (h : SmallestFrom seen least coin)
    (new : least ≤ output.nValue → coin.nValue ≤ output.nValue) :
    SmallestFrom (seen ++ [output]) least coin := by
  obtain ⟨hmem, hleast, hmin⟩ := h
  exact ⟨List.mem_append_left _ hmem, hleast, List.forall_mem_append.mpr
    ⟨hmin, List.forall_mem_singleton.mpr new⟩⟩

section

variable {seen : List COutput} {least : CAmount} {scan : Scan} (split : ScanSplit seen least scan)
include split

theorem ScanSplit.small {output : COutput} (h : output.nValue < least) (nTotalLower : CAmount) :
    ScanSplit (seen ++ [output]) least
      { scan with vValue := scan.vValue ++ [output], nTotalLower } := by
  refine ⟨?_, ?_, ?_⟩
  · rw [split.lower]
    simp [h]
  · intro coin hcoin
    exact (split.smallest coin hcoin).snoc fun hlarge => absurd h (Int.not_lt.mpr hlarge)
  · intro hnone
    exact List.forall_mem_append.mpr ⟨split.none hnone, List.forall_mem_singleton.mpr h⟩

/-- A coin of at least the bound replaces the smallest one if it is smaller. -/
theorem ScanSplit.large {output smallest : COutput} (h : least ≤ output.nValue)
    (new : SmallestFrom (seen ++ [output]) least smallest) :
    ScanSplit (seen ++ [output]) least { scan with coinLowestLarger := some smallest } := by
  refine ⟨?_, ?_, ?_⟩
  · rw [split.lower]
    simp [h]
  · rintro coin ⟨⟩
    exact new
  · rintro ⟨⟩

end

theorem scanCoins_split {seen coins : List COutput} {scan : Scan}
    (range : ∀ coin ∈ coins, coin.nValue < 2 ^ 63 - 1)
    (split : ScanSplit seen (changeTarget minChange nTargetValue) scan) :
    SplitEnds (seen ++ coins) (changeTarget minChange nTargetValue)
      (scanCoins minChange nTargetValue scan coins) := by
  induction coins generalizing seen scan with
  | nil =>
    rw [List.append_nil]
    exact split
  | cons output coins ih =>
    have hrange := range output List.mem_cons_self
    have happend : seen ++ output :: coins = (seen ++ [output]) ++ coins := by simp
    have next : ∀ {scan' : Scan},
        ScanSplit (seen ++ [output]) (changeTarget minChange nTargetValue) scan' →
        SplitEnds (seen ++ output :: coins) (changeTarget minChange nTargetValue)
          (scanCoins minChange nTargetValue scan' coins) := by
      intro scan' h
      rw [happend]
      exact ih (fun coin hcoin => range coin (List.mem_cons_of_mem _ hcoin)) h
    rw [scanCoins]
    split_ifs with hexact hlower hlarger
    · exact trivial
    · exact next (split.small hlower _)
    · refine next (split.large (Int.not_lt.mp hlower) ?_)
      refine ⟨List.mem_append_right _ List.mem_cons_self, Int.not_lt.mp hlower, ?_⟩
      intro other hother hlarge
      rcases List.mem_append.mp hother with hother | hother
      · cases hcoin : scan.coinLowestLarger with
        | none => exact absurd (split.none hcoin other hother) (Int.not_lt.mpr hlarge)
        | some coin =>
          rw [hcoin] at hlarger
          exact le_trans (le_of_lt hlarger) ((split.smallest coin hcoin).2.2 other hother hlarge)
      · rw [List.mem_singleton.mp hother]
    · cases hcoin : scan.coinLowestLarger with
      | none =>
        rw [hcoin] at hlarger
        exact absurd hrange hlarger
      | some coin =>
        rw [hcoin] at hlarger
        have hnew := (split.smallest coin hcoin).snoc fun _ => Int.not_lt.mp hlarger
        have hsame : { scan with coinLowestLarger := some coin } = scan := by rw [← hcoin]
        exact next (hsame ▸ split.large (Int.not_lt.mp hlower) hnew)

end Scan

/-! ## The choice after the loop -/

section Choice

variable {minChange nTargetValue : CAmount} {coins : List COutput} {scan : Scan}

theorem sum_le_of_subperm {coins subset : List COutput} (nonneg : ∀ coin ∈ coins, 0 ≤ coin.nValue)
    (h : subset.Subperm coins) :
    (subset.map COutput.nValue).sum ≤ (coins.map COutput.nValue).sum := by
  obtain ⟨sub, hperm, hsub⟩ := h
  rw [← (hperm.map COutput.nValue).sum_eq]
  refine List.Sublist.sum_le_sum (hsub.map _) ?_
  intro value hvalue
  obtain ⟨coin, hcoin, rfl⟩ := List.mem_map.mp hvalue
  exact nonneg coin hcoin

section

variable {least : CAmount} (split : ScanSplit coins least scan)
include split

theorem lower_eq_of_none (hnone : scan.coinLowestLarger = none) : scan.vValue = coins := by
  rw [split.lower, List.filter_eq_self]
  intro coin hcoin
  exact decide_eq_true (split.none hnone coin hcoin)

theorem small_of_flagged {vValue : List COutput} (perm : vValue.Perm scan.vValue)
    {flags : List Bool} : ∀ coin ∈ flaggedCoins vValue flags, coin.nValue < least := by
  intro coin hcoin
  have hmem := perm.mem_iff.mp ((flaggedCoins_sublist _ flags).subset hcoin)
  rw [split.lower, List.mem_filter] at hmem
  exact of_decide_eq_true hmem.2

/-- Nothing is found only if all coins together fall short. -/
theorem chooseCoins_none {random : Randomness}
    (total : scan.nTotalLower = (scan.vValue.map COutput.nValue).sum)
    (h : chooseCoins minChange nTargetValue random scan = none) :
    (coins.map COutput.nValue).sum < nTargetValue := by
  rw [chooseCoins] at h
  split_ifs at h with hequal hbelow
  · rw [Option.map_eq_none_iff] at h
    rw [← lower_eq_of_none split h, ← total]
    exact hbelow
  · dsimp only at h
    split at h
    · split_ifs at h
    · cases h

/-- Below a bound that is negative there are no coins, so one of them is taken. -/
theorem chooseCoins_negative {random : Randomness} (nonneg : ∀ coin ∈ coins, 0 ≤ coin.nValue)
    (negative : least < 0) (some : coins ≠ []) (pos : 0 < nTargetValue)
    (total : scan.nTotalLower = (scan.vValue.map COutput.nValue).sum) :
    (chooseCoins minChange nTargetValue random scan).isSome := by
  have hlower : scan.vValue = [] := by
    rw [split.lower, List.filter_eq_nil_iff]
    intro coin hcoin
    have := nonneg coin hcoin
    simp only [decide_eq_true_eq]
    linarith
  obtain ⟨coin, hcoin⟩ : ∃ coin, scan.coinLowestLarger = .some coin := by
    obtain ⟨first, hfirst⟩ := List.exists_mem_of_ne_nil coins some
    by_contra! hnone
    have := split.none (Option.eq_none_iff_forall_ne_some.mpr hnone) first hfirst
    have := nonneg first hfirst
    linarith
  rw [hlower, List.map_nil, List.sum_nil] at total
  rw [chooseCoins, total, if_neg pos.ne, if_pos pos, hcoin]
  rfl

end

theorem chooseCoins_change {random : Randomness} (nonneg : ∀ coin ∈ coins, 0 ≤ coin.nValue)
    (exact : changeTarget minChange nTargetValue = nTargetValue + minChange)
    (split : ScanSplit coins (changeTarget minChange nTargetValue) scan)
    (total : scan.nTotalLower = (scan.vValue.map COutput.nValue).sum)
    {result : List COutput × CAmount}
    (h : chooseCoins minChange nTargetValue random scan = some result) :
    LeavesChange coins nTargetValue minChange result := by
  have hcases := chooseCoins_cases total h
  cases hcases with
  | all exact => exact .exact exact
  | @larger coin found => exact .single coin rfl (exact ▸ split.smallest coin found)
  | subset perm value =>
    rw [exact] at split value
    rcases value with hexact | hchange | ⟨-, hshort, hnone⟩
    · exact .exact hexact
    · exact .subset (small_of_flagged split perm) hchange
    · refine .short fun subset hsubset => lt_of_le_of_lt (sum_le_of_subperm nonneg hsubset) ?_
      rwa [← lower_eq_of_none split hnone, ← total]

end Choice

/-! ## The attempt -/

/-- A right selection among the eligible coins. -/
structure Chosen (coins : List COutput) (nTargetValue minChange : CAmount)
    (result : List COutput × CAmount) : Prop where
  value : result.2 = (result.1.map COutput.nValue).sum
  enough : nTargetValue ≤ result.2
  among : result.1.Subperm coins
  distinct : (coins.map COutput.outpoint).Nodup → (result.1.map COutput.outpoint).Nodup
  change : LeavesChange coins nTargetValue minChange result

variable {coins coins' : List COutput} {nTargetValue : CAmount} {result : List COutput × CAmount}

theorem distinct_of_subperm (h : result.1.Subperm coins)
    (nodup : (coins.map COutput.outpoint).Nodup) : (result.1.map COutput.outpoint).Nodup := by
  obtain ⟨sub, hperm, hsub⟩ := h
  exact (hperm.map _).nodup_iff.mp (nodup.sublist (hsub.map _))

theorem SmallestFrom.perm {least : CAmount} {coin : COutput} (h : SmallestFrom coins least coin)
    (perm : coins.Perm coins') :
    SmallestFrom coins' least coin :=
  ⟨perm.mem_iff.mp h.1, h.2.1, fun other hother => h.2.2 other (perm.mem_iff.mpr hother)⟩

theorem LeavesChange.perm {minChange : CAmount}
    (h : LeavesChange coins nTargetValue minChange result)
    (perm : coins.Perm coins') : LeavesChange coins' nTargetValue minChange result := by
  cases h with
  | exact h => exact .exact h
  | subset small change => exact .subset small change
  | single coin h smallest => exact .single coin h (smallest.perm perm)
  | short h => exact .short fun subset hsubset => h subset (hsubset.trans perm.symm.subperm)

section Attempt

/-- How the loop over some coins ended. -/
structure Scanned (minChange nTargetValue : CAmount) (coins : List COutput)
    (ending : COutput ⊕ Scan) : Prop where
  nonneg : ∀ coin ∈ coins, 0 ≤ coin.nValue
  ends : ScanEnds [] coins nTargetValue (changeTarget minChange nTargetValue) ending
  split : SplitEnds coins (changeTarget minChange nTargetValue) ending

theorem scanned (minChange nTargetValue : CAmount)
    (range : ∀ coin ∈ coins, moneyRange coin.nValue = true) :
    Scanned minChange nTargetValue coins (scanCoins minChange nTargetValue {} coins) := by
  have hrange : ∀ coin ∈ coins, 0 ≤ coin.nValue ∧ coin.nValue < 2 ^ 63 - 1 := by
    intro coin hcoin
    have := range coin hcoin
    simp only [moneyRange, maxMoney, KubuCore.coin, Bool.and_eq_true, decide_eq_true_eq] at this
    exact ⟨this.1, lt_of_le_of_lt (of_decide_eq_true this.2) (by norm_num)⟩
  refine ⟨fun coin hcoin => (hrange coin hcoin).1, ?_, ?_⟩
  · exact scanCoins_spec ⟨rfl, List.Sublist.refl _, fun coin hc => by cases hc⟩
  · have hsplit : SplitEnds ([] ++ coins) _ (scanCoins minChange nTargetValue {} coins) :=
      scanCoins_split (fun coin hcoin => (hrange coin hcoin).2)
        ⟨rfl, fun coin hc => (by cases hc), fun _ coin hc => (by cases hc)⟩
    exact hsplit

/-- What an attempt on the coins should do. -/
def Right (coins : List COutput) (nTargetValue minChange : CAmount)
    (selected : Option (List COutput × CAmount)) : Prop :=
  (selected.isSome ↔ nTargetValue ≤ (coins.map COutput.nValue).sum) ∧
    ∀ result, selected = some result → Chosen coins nTargetValue minChange result

variable {minChange : CAmount} {random : Randomness} {ending : COutput ⊕ Scan}
  (a : Scanned minChange nTargetValue coins ending)
include a

/-- Where the target with the minimal change fits, the attempt does it. -/
theorem Scanned.right (nonneg : 0 ≤ minChange) (low : -2 ^ 63 ≤ nTargetValue)
    (fits : nTargetValue + minChange < 2 ^ 63) :
    Right coins nTargetValue minChange (afterScan minChange nTargetValue random ending) := by
  have exact : changeTarget minChange nTargetValue = nTargetValue + minChange :=
    wrapInt64_eq ⟨by linarith, fits⟩
  suffices h : (afterScan minChange nTargetValue random ending = none →
      (coins.map COutput.nValue).sum < nTargetValue) ∧
      ∀ result, afterScan minChange nTargetValue random ending = some result →
        Chosen coins nTargetValue minChange result by
    refine ⟨⟨fun hsome => ?_, fun henough => ?_⟩, h.2⟩
    · obtain ⟨result, hresult⟩ := Option.isSome_iff_exists.mp hsome
      have := h.2 result hresult
      exact le_trans this.enough (this.value ▸ sum_le_of_subperm a.nonneg this.among)
    · by_contra hnone
      rw [Option.not_isSome_iff_eq_none] at hnone
      exact absurd (h.1 hnone) (Int.not_lt.mpr henough)
  obtain ⟨hcoins, ends, split⟩ := a
  have chosen : ∀ {result : List COutput × CAmount},
      Selects coins nTargetValue (nTargetValue ≤ changeTarget minChange nTargetValue) result →
      LeavesChange coins nTargetValue minChange result →
      Chosen coins nTargetValue minChange result := fun h leaves =>
    ⟨h.value, h.enough (by linarith), h.among, distinct_of_subperm h.among, leaves⟩
  cases ending with
  | inl coin =>
    refine ⟨fun h => (by cases h), ?_⟩
    rintro result ⟨⟩
    exact chosen (selects_single ends.1 fun _ => le_of_eq ends.2.symm) (.exact ends.2)
  | inr scan =>
    refine ⟨fun h => chooseCoins_none split ends.total h, fun result hresult => ?_⟩
    exact chosen (chooseCoins_spec ends hresult)
      (chooseCoins_change hcoins exact split ends.total hresult)

/-- Where it wraps, the attempt takes a coin if there is one. -/
theorem Scanned.wrapped (negative : changeTarget minChange nTargetValue < 0)
    (pos : 0 < nTargetValue) :
    (afterScan minChange nTargetValue random ending).isSome ↔ coins ≠ [] := by
  obtain ⟨nonneg, ends, split⟩ := a
  cases ending with
  | inl coin => exact iff_of_true rfl (List.ne_nil_of_mem ends.1)
  | inr scan =>
    refine ⟨?_, fun some => chooseCoins_negative split nonneg negative some pos ends.total⟩
    rintro hsome rfl
    have hnone : scan.coinLowestLarger = none :=
      Option.eq_none_iff_forall_ne_some.mpr fun coin hcoin =>
        List.not_mem_nil (split.smallest coin hcoin).1
    have htotal := ends.total
    rw [lower_eq_of_none split hnone, List.map_nil, List.sum_nil] at htotal
    simp [afterScan, chooseCoins, htotal, hnone, pos, pos.ne] at hsome

end Attempt

theorem Right.perm {minChange : CAmount} {selected : Option (List COutput × CAmount)}
    (h : Right coins nTargetValue minChange selected) (perm : coins.Perm coins') :
    Right coins' nTargetValue minChange selected := by
  refine ⟨(perm.map COutput.nValue).sum_eq ▸ h.1, fun result hresult => ?_⟩
  obtain ⟨value, enough, among, -, change⟩ := h.2 result hresult
  have among := among.trans perm.subperm
  exact ⟨value, enough, among, distinct_of_subperm among, change.perm perm⟩

/-- For coins that fit in 64 bits with the minimal change, an attempt is right just when the target
does too or there are none: it succeeds exactly if the eligible coins suffice, and then its selection
is one of them that leaves no change or enough. -/
theorem selectCoinsMinConf_iff (params : SelectParams) (nTargetValue : CAmount)
    (nConfMine nConfTheirs : Int) (nMaxAncestors : Nat) (random : Randomness)
    {vCoins : List COutput} (range : ∀ coin ∈ vCoins, moneyRange coin.nValue = true)
    (target : InInt64 nTargetValue)
    (worth : ((vCoins.filter (eligible nConfMine nConfTheirs nMaxAncestors)).map
      COutput.nValue).sum + params.minChange < 2 ^ 63) :
    let coins := vCoins.filter (eligible nConfMine nConfTheirs nMaxAncestors)
    let selected := selectCoinsMinConf params nTargetValue nConfMine nConfTheirs nMaxAncestors
      vCoins random
    ((selected.isSome ↔ nTargetValue ≤ (coins.map COutput.nValue).sum) ∧
        ∀ result, selected = some result → Chosen coins nTargetValue params.minChange result) ↔
      nTargetValue + params.minChange < 2 ^ 63 ∨ coins = [] := by
  intro coins selected
  have hperm : ((random.shuffle vCoins).filter
      (eligible nConfMine nConfTheirs nMaxAncestors)).Perm coins := (random.perm vCoins).filter _
  -- It is enough to look at the coins in the order they were shuffled into.
  have hscanned := scanned params.minChange nTargetValue fun coin hcoin =>
    range coin (List.mem_filter.mp (hperm.mem_iff.mp hcoin)).1
  have hnonneg := params.minChange_nonneg
  by_cases fits : nTargetValue + params.minChange < 2 ^ 63
  · exact iff_of_true ((hscanned.right hnonneg target.1 fits).perm hperm) (.inl fits)
  have hsum : 0 ≤ (coins.map COutput.nValue).sum := by
    rw [← (hperm.map COutput.nValue).sum_eq]
    exact List.sum_nonneg (List.forall_mem_map.mpr hscanned.nonneg)
  have short : (coins.map COutput.nValue).sum < nTargetValue := by
    have : (coins.map COutput.nValue).sum + params.minChange < 2 ^ 63 := worth
    linarith
  have htaken : selected.isSome ↔ coins ≠ [] := by
    rw [ne_eq, ← List.length_eq_zero_iff, ← hperm.length_eq, List.length_eq_zero_iff]
    have high := target.2
    refine hscanned.wrapped (wrapInt64_neg (not_lt.mp fits) ?_) (by linarith)
    linarith
  constructor
  · rintro ⟨hiff, -⟩
    by_contra! hsome
    exact absurd (hiff.mp (htaken.mpr hsome.2)) (not_le.mpr short)
  · rintro (h | hnone)
    · exact absurd h fits
    · have hnot : ¬ selected.isSome := fun h => htaken.mp h hnone
      refine ⟨iff_of_false hnot (not_le.mpr short), fun result hresult => absurd ?_ hnot⟩
      rw [hresult]
      rfl

/-- A deep coin, a shallow one and one that is not spendable. -/
def threeCoins : List COutput :=
  [{ outpoint := ⟨1, 0⟩, nValue := 5, nDepth := 6 },
    { outpoint := ⟨2, 0⟩, nValue := 4, nDepth := 1, isFromMe := false },
    { outpoint := ⟨3, 0⟩, nValue := 9, nDepth := 9, fSpendable := false }]

theorem selectCoinsMinConf_iff_threeCoins :
    selectCoinsMinConf ⟨2, by decide, true, 25, false, fun _ => none⟩ 7 1 1 0 threeCoins
        ⟨id, List.Perm.refl, fun _ _ i => i == 0⟩ = some (threeCoins.take 2, 9) ∧
      Chosen (threeCoins.take 2) 7 2 (threeCoins.take 2, 9) := by
  have hselected : selectCoinsMinConf ⟨2, by decide, true, 25, false, fun _ => none⟩ 7 1 1 0
      threeCoins ⟨id, List.Perm.refl, fun _ _ i => i == 0⟩ = some (threeCoins.take 2, 9) := by
    decide +kernel
  have range : ∀ coin ∈ threeCoins, moneyRange coin.nValue = true := by decide
  exact ⟨hselected, ((selectCoinsMinConf_iff ⟨2, by decide, true, 25, false, fun _ => none⟩ 7 1 1 0
    ⟨id, List.Perm.refl, fun _ _ i => i == 0⟩ range (by decide) (by decide)).mpr
      (.inl (by decide))).2 _ hselected⟩

/-- One coin of 5 is taken for the largest amount there is. -/
theorem selectCoinsMinConf_wraps :
    selectCoinsMinConf ⟨2, by decide, true, 25, false, fun _ => none⟩ (2 ^ 63 - 1) 1 1 0
        (threeCoins.take 1) ⟨id, List.Perm.refl, fun _ _ i => i == 0⟩ =
      some (threeCoins.take 1, 5) := by
  decide +kernel

end KubuCore.Wallet
