import KubuCore.Wallet.Create

/-!
# Payments balance

A payment that `CreateTransaction` builds spends what it pays and its fee, and
pays the fee its size needs, just when the amounts asked for leave room in 64
bits for the fee and the minimal change: the total is not checked once the last
amount is added. The loop ends because the fee of the passes grows and is bounded.
-/

namespace KubuCore.Wallet

open Checked Script

/-! ## What the fees are worth -/

theorem getFee_pos {rate : CAmount} (hrate : 0 < rate) {nSize : Nat} (hsize : 0 < nSize) :
    0 < getFee rate nSize := by
  have hnonneg : 0 ≤ (rate * nSize).tdiv 1000 :=
    Int.tdiv_nonneg (mul_nonneg hrate.le (Int.natCast_nonneg _)) (by decide)
  unfold getFee
  dsimp only
  split_ifs with hzero
  · decide
  · have : (rate * nSize).tdiv 1000 ≠ 0 := fun h => hzero ⟨h, hsize.ne'⟩
    exact lt_of_le_of_ne hnonneg this.symm

/-- A size is an `unsigned int`, so the fee of a rate is bounded. -/
theorem getFee_le {rate : CAmount} {nSize : Nat} (hsize : nSize < 2 ^ 32) :
    getFee rate nSize ≤ 1 + |rate| * 2 ^ 32 := by
  have hdiv : (rate * nSize).tdiv 1000 ≤ |rate| * 2 ^ 32 := by
    calc (rate * nSize).tdiv 1000 ≤ |(rate * nSize).tdiv 1000| := le_abs_self _
      _ ≤ |rate * nSize| := by
        rw [Int.abs_eq_natAbs, Int.abs_eq_natAbs, Int.natAbs_tdiv]
        exact_mod_cast Nat.div_le_self _ _
      _ = |rate| * nSize := by rw [abs_mul, Nat.abs_cast]
      _ ≤ |rate| * 2 ^ 32 := by
        gcongr
        exact_mod_cast hsize.le
  unfold getFee
  dsimp only
  split_ifs <;> linarith

theorem presetFee_le (wallet : CWallet) (coinControl : Option CCoinControl) (vout : List CTxOut)
    (nBytes : Nat) : presetFee wallet coinControl vout nBytes ≤ wallet.maxTxFee := by
  unfold presetFee
  split
  · exact min_le_right _ _
  · exact min_le_right _ _

/-- A bound on the fee a pass may ask for. -/
def feeBound (wallet : CWallet) : Option CCoinControl → CAmount
  | none => wallet.maxTxFee
  | some control =>
    max (max wallet.maxTxFee control.nMinimumTotalFee) (1 + |control.nFeeRate| * 2 ^ 32)

/-- The largest total that fits in 64 bits with the fee and the minimal change. -/
def room (wallet : CWallet) (coinControl : Option CCoinControl) : CAmount :=
  2 ^ 63 - 1 - wallet.getMinChange - max 0 (feeBound wallet coinControl)

theorem feeNeeded_le (wallet : CWallet) (coinControl : Option CCoinControl) (vout : List CTxOut)
    {nBytes : Nat} (hsize : nBytes < 2 ^ 32) :
    feeNeeded wallet coinControl vout nBytes ≤ feeBound wallet coinControl := by
  have hpreset := presetFee_le wallet coinControl vout nBytes
  unfold feeNeeded feeBound
  cases coinControl with
  | none => exact hpreset
  | some control =>
    dsimp only
    split_ifs
    · exact le_max_of_le_right (getFee_le hsize)
    · exact le_max_of_le_left (le_max_right _ _)
    · exact le_max_of_le_left (le_max_of_le_left hpreset)

variable {vout vout' : List CTxOut} {wallet : CWallet} {vecSend : List CRecipient} {draft : Draft}
  {choices : PassChoices} {dustLimit nFeeRet lost : CAmount} {position : Nat}
  {nChangePosRequest : Int} {coinControl : Option CCoinControl} {txout : CTxOut}

theorem getKubuDustFee_eq_zero
    (h : ∀ txout ∈ vout, isDust txout dustLimit = false) : getKubuDustFee vout dustLimit = 0 := by
  rw [getKubuDustFee, List.map_congr_left (g := fun _ => 0)]
  · simp
  · intro txout hmem
    rw [h txout hmem]
    rfl

/-- The fee depends on the outputs only through those that are dust. -/
theorem feeNeeded_congr (h : ∀ txout ∈ vout, isDust txout wallet.discardThreshold = false)
    (h' : ∀ txout ∈ vout', isDust txout wallet.discardThreshold = false)
    (coinControl : Option CCoinControl) (nBytes : Nat) :
    feeNeeded wallet coinControl vout nBytes = feeNeeded wallet coinControl vout' nBytes := by
  have hrequired : getRequiredFee wallet vout nBytes = getRequiredFee wallet vout' nBytes := by
    rw [getRequiredFee, getRequiredFee, getKubuDustFee_eq_zero h, getKubuDustFee_eq_zero h']
  have hpreset : presetFee wallet coinControl vout nBytes =
      presetFee wallet coinControl vout' nBytes := by
    simp only [presetFee, getMinimumFee, getKubuPriorityFee, boundedFee, hrequired]
  simp only [feeNeeded, hpreset]

/-- A fee that meets the relay fee is at least the minimum of coin control. -/
theorem minimum_le_feeNeeded (hrelay : 0 < wallet.minRelayTxFeeRate) {control : CCoinControl}
    (hoverride : control.fOverrideFeeRate = false) {vout : List CTxOut}
    {nBytes : Nat} (hsize : 0 < nBytes)
    (h : getFee wallet.minRelayTxFeeRate nBytes ≤ feeNeeded wallet (some control) vout nBytes) :
    control.nMinimumTotalFee ≤ feeNeeded wallet (some control) vout nBytes := by
  have hpos := getFee_pos hrelay hsize
  simp only [feeNeeded, hoverride, Bool.false_eq_true, if_false] at h ⊢
  split_ifs at h ⊢ with hraise
  · exact le_refl _
  · by_contra hlow
    exact hraise ⟨lt_of_lt_of_le hpos h, lt_of_not_ge hlow⟩

/-! ## What a pass does -/

/-- An output pays a recipient: one that does not pay the fee gets its amount. -/
def Pays (recipient : CRecipient) (txout : CTxOut) : Prop :=
  txout.scriptPubKey = recipient.scriptPubKey ∧
    (recipient.fSubtractFeeFromAmount = false → txout.nValue = recipient.nAmount)

def outValue (vout : List CTxOut) : CAmount := (vout.map CTxOut.nValue).sum

@[simp] theorem outValue_cons (txout : CTxOut) (vout : List CTxOut) :
    outValue (txout :: vout) = txout.nValue + outValue vout := by
  simp [outValue]

@[simp] theorem totalAmount_cons (recipient : CRecipient) (vecSend : List CRecipient) :
    totalAmount (recipient :: vecSend) = recipient.nAmount + totalAmount vecSend := by
  simp [totalAmount]

theorem subtractCount_cons (recipient : CRecipient) (vecSend : List CRecipient) :
    subtractCount (recipient :: vecSend) =
      subtractCount vecSend + (if recipient.fSubtractFeeFromAmount then 1 else 0) := by
  rw [subtractCount, List.countP_cons]
  rfl

def NoDust (wallet : CWallet) (vout : List CTxOut) : Prop :=
  ∀ txout ∈ vout, isDust txout wallet.discardThreshold = false

/-- Outputs for the recipients, worth `lost` less than the amounts asked for. -/
structure PaysAll (wallet : CWallet) (vecSend : List CRecipient) (lost : CAmount)
    (vout : List CTxOut) : Prop where
  pays : List.Forall₂ Pays vecSend vout
  noDust : NoDust wallet vout
  value : outValue vout = totalAmount vecSend - lost

theorem PaysAll.cons (h : PaysAll wallet vecSend lost vout) {recipient : CRecipient}
    {txout : CTxOut} (hpays : Pays recipient txout)
    (hdust : isDust txout wallet.discardThreshold = false) :
    PaysAll wallet (recipient :: vecSend) (recipient.nAmount - txout.nValue + lost)
      (txout :: vout) := by
  refine ⟨.cons hpays h.pays, ?_, ?_⟩
  · exact List.forall_mem_cons.mpr ⟨hdust, h.noDust⟩
  · rw [outValue_cons, totalAmount_cons, h.value]
    ring

theorem payeeOut_pays (nFeeRet : CAmount) (n : Nat) (fFirst : Bool) (recipient : CRecipient) :
    Pays recipient (payeeOut nFeeRet n fFirst recipient) := by
  refine ⟨rfl, fun hsubtract => ?_⟩
  simp only [payeeOut, hsubtract, Bool.false_eq_true, if_false]

/-- What the payers among the recipients pay: a share each, and the first the remainder. -/
def feeShares (nFeeRet : CAmount) (n : Nat) (fFirst : Bool) (payers : Nat) : CAmount :=
  payers * nFeeRet.tdiv n + (if fFirst ∧ 0 < payers then nFeeRet.tmod n else 0)

theorem feeShares_all (nFeeRet : CAmount) (n : Nat) :
    feeShares nFeeRet n true n = if n = 0 then 0 else nFeeRet := by
  unfold feeShares
  rcases Nat.eq_zero_or_pos n with rfl | hpos
  · simp
  · rw [if_pos ⟨rfl, hpos⟩, if_neg hpos.ne']
    exact Int.mul_tdiv_add_tmod nFeeRet n

theorem payees_spec {n : Nat} {fFirst : Bool}
    (h : payees wallet.discardThreshold nFeeRet n fFirst vecSend = .ok vout) :
    PaysAll wallet vecSend (feeShares nFeeRet n fFirst (subtractCount vecSend)) vout := by
  induction vecSend generalizing fFirst vout with
  | nil =>
    cases h
    refine ⟨.nil, fun txout hmem => (by cases hmem), ?_⟩
    simp [feeShares, subtractCount, totalAmount, outValue]
  | cons recipient vecSend ih =>
    simp only [payees, eq_ok] at h
    obtain ⟨-, hdust, rest, hrest, rfl⟩ := h
    have hall := (ih hrest).cons (payeeOut_pays nFeeRet n fFirst recipient) hdust
    refine ⟨hall.pays, hall.noDust, hall.value.trans ?_⟩
    simp only [payeeOut, feeShares, subtractCount_cons]
    cases recipient.fSubtractFeeFromAmount <;> cases fFirst <;> simp <;> ring

theorem subtractFromFirst_spec {changeDelta : CAmount} (hall : PaysAll wallet vecSend lost vout)
    (hsome : 0 < subtractCount vecSend)
    (h : subtractFromFirst wallet.discardThreshold changeDelta vecSend vout = .ok vout') :
    PaysAll wallet vecSend (lost + changeDelta) vout' := by
  induction vecSend generalizing lost vout vout' with
  | nil => exact absurd hsome (lt_irrefl _)
  | cons recipient vecSend ih =>
    obtain ⟨hpays, hdust, hvalue⟩ := hall
    cases hpays with
    | @cons _ txout _ vout hpays hrest =>
      have hhead := hdust txout List.mem_cons_self
      have htail : PaysAll wallet vecSend (totalAmount vecSend - outValue vout) vout :=
        ⟨hrest, fun other hmem => hdust other (List.mem_cons_of_mem _ hmem), by ring⟩
      rw [outValue_cons, totalAmount_cons] at hvalue
      rw [subtractFromFirst] at h
      split_ifs at h with hsubtract
      · simp only [eq_ok] at h
        obtain ⟨-, hreduced, rfl⟩ := h
        have hless : Pays recipient { txout with nValue := txout.nValue - changeDelta } :=
          ⟨hpays.1, fun hno => absurd hsubtract (by simp [hno])⟩
        have hcons := htail.cons hless hreduced
        refine ⟨hcons.pays, hcons.noDust, hcons.value.trans ?_⟩
        linarith
      · simp only [eq_ok] at h
        obtain ⟨rest, hrest, rfl⟩ := h
        rw [subtractCount_cons, if_neg hsubtract] at hsome
        have hcons := (ih htail hsome hrest).cons hpays hhead
        refine ⟨hcons.pays, hcons.noDust, hcons.value.trans ?_⟩
        linarith

theorem isDust_eq_false_of_le (h : dustLimit ≤ txout.nValue) : isDust txout dustLimit = false := by
  simp [isDust, h]

theorem isDust_add_nonneg {amount : CAmount} (hamount : 0 ≤ amount)
    (h : isDust txout dustLimit = false) :
    isDust { txout with nValue := txout.nValue + amount } dustLimit = false := by
  simp only [isDust, Bool.and_eq_false_iff, decide_eq_false_iff_not] at h ⊢
  exact h.imp_right fun hvalue => by linarith

/-- The payees with the change, if there is one, at its position. -/
def withChange (vout : List CTxOut) : Option (Nat × CTxOut) → List CTxOut
  | none => vout
  | some (position, change) => vout.insertIdx position change

/-- A draft: who is paid, where the change is, and what the outputs and the fee are worth. -/
structure DraftOk (wallet : CWallet) (vecSend : List CRecipient) (draft : Draft)
    (vout : List CTxOut) (change : Option (Nat × CTxOut)) (worth : CAmount) : Prop where
  shape : draft.vout = withChange vout change
  position : draft.nChangePos = change.map Prod.fst
  inside : ∀ item ∈ change, item.1 ≤ vout.length
  noDust : ∀ item ∈ change, isDust item.2 wallet.discardThreshold = false
  script : ∀ item ∈ change, ∃ dest, item.2.scriptPubKey = getScriptForDestination dest
  pays : ∃ lost, PaysAll wallet vecSend lost vout ∧
    lost ≤ if subtractCount vecSend = 0 then 0 else draft.nFeeRet + wallet.discardThreshold
  balance : outValue draft.vout + draft.nFeeRet = worth

theorem outValue_insertIdx (h : position ≤ vout.length) (change : CTxOut) :
    outValue (vout.insertIdx position change) = change.nValue + outValue vout := by
  have hperm := List.perm_insertIdx change vout h
  exact (hperm.map CTxOut.nValue).sum_eq

theorem modify_insertIdx (h : position ≤ vout.length) (change : CTxOut) (f : CTxOut → CTxOut) :
    (vout.insertIdx position change).modify position f = vout.insertIdx position (f change) := by
  induction vout generalizing position with
  | nil =>
    obtain rfl := Nat.le_zero.mp h
    rfl
  | cons txout vout ih =>
    cases position with
    | zero => rfl
    | succ position =>
      rw [List.insertIdx_succ_cons, List.insertIdx_succ_cons, List.modify_succ_cons,
        ih (Nat.le_of_succ_le_succ h)]

theorem DraftOk.allNoDust {change : Option (Nat × CTxOut)} {worth : CAmount}
    (ok : DraftOk wallet vecSend draft vout change worth) : NoDust wallet draft.vout := by
  obtain ⟨lost, hpays, -⟩ := ok.pays
  rw [ok.shape]
  cases change with
  | none => exact hpays.noDust
  | some item =>
    intro txout hmem
    rcases (List.mem_insertIdx (ok.inside item rfl)).mp hmem with rfl | hmem
    · exact ok.noDust item rfl
    · exact hpays.noDust txout hmem

theorem changePosition_le {size : Nat}
    (h : changePosition choices nChangePosRequest size = .ok position) : position ≤ size := by
  unfold changePosition at h
  split at h
  · cases h
    exact Nat.le_of_lt_succ (Nat.mod_lt _ (Nat.succ_pos _))
  · simp only [eq_ok] at h
    omega

theorem changeScript_spec {script : CScript} (h : changeScript choices coinControl = .ok script) :
    ∃ dest, script = getScriptForDestination dest := by
  unfold changeScript at h
  split at h
  · cases h
    exact ⟨_, rfl⟩
  · split at h
    · cases h
      exact ⟨_, rfl⟩
    · cases h

theorem raiseChange_spec {newTxOut newTxOut' : CTxOut} (hpos : 0 < newTxOut.nValue)
    (hall : PaysAll wallet vecSend lost vout)
    (h : raiseChange wallet.discardThreshold vecSend newTxOut vout = .ok (newTxOut', vout')) :
    ∃ delta, PaysAll wallet vecSend (lost + delta) vout' ∧
      newTxOut'.nValue = newTxOut.nValue + delta ∧
      newTxOut'.scriptPubKey = newTxOut.scriptPubKey ∧ delta ≤ wallet.discardThreshold ∧
      (subtractCount vecSend = 0 → delta = 0) ∧
      (0 < subtractCount vecSend → isDust newTxOut' wallet.discardThreshold = false) := by
  unfold raiseChange at h
  split_ifs at h with hraise
  · simp only [eq_ok] at h
    obtain ⟨reduced, hreduced, rfl, rfl⟩ := h
    refine ⟨wallet.discardThreshold - newTxOut.nValue, subtractFromFirst_spec hall hraise.1 hreduced,
      rfl, rfl, by linarith, fun hnone => absurd hnone hraise.1.ne', fun _ => ?_⟩
    exact isDust_eq_false_of_le (by simp)
  · cases h
    refine ⟨0, by rwa [add_zero], (add_zero _).symm, rfl, wallet.discardThreshold_nonneg,
      fun _ => rfl, fun hsome => ?_⟩
    exact Bool.eq_false_iff.mpr fun hdust => hraise ⟨hsome, hdust⟩

theorem placeChange_spec {setCoins : SetCoins} {nChange : CAmount}
    (hall : PaysAll wallet vecSend (if subtractCount vecSend = 0 then 0 else nFeeRet) vout)
    (h : placeChange wallet choices coinControl nChangePosRequest vecSend nChange
      ⟨setCoins, vout, none, nFeeRet⟩ = .ok draft) :
    ∃ vout' change, DraftOk wallet vecSend draft vout' change
        (totalAmount vecSend + (if subtractCount vecSend = 0 then nFeeRet else 0) +
          max 0 nChange) ∧
      nFeeRet ≤ draft.nFeeRet ∧ draft.inputs = setCoins := by
  have hthreshold := wallet.discardThreshold_nonneg
  have hlost : (if subtractCount vecSend = 0 then 0 else nFeeRet) ≤
      if subtractCount vecSend = 0 then 0 else nFeeRet + wallet.discardThreshold := by
    split_ifs <;> linarith
  have htotal : totalAmount vecSend + (if subtractCount vecSend = 0 then nFeeRet else 0) =
      outValue vout + nFeeRet := by
    rw [hall.value]
    split_ifs <;> ring
  rw [htotal]
  unfold placeChange at h
  split_ifs at h with hpos
  · rw [max_eq_right hpos.le]
    simp only [bind_eq_ok, Prod.exists] at h
    obtain ⟨scriptChange, hscript, newTxOut, reduced, hraise, h⟩ := h
    obtain ⟨dest, hdest⟩ := changeScript_spec hscript
    obtain ⟨delta, hreduced, hvalue, hsame, hdelta, hnone, hsome⟩ := raiseChange_spec hpos hall hraise
    have hvalues := hreduced.value
    rw [sub_add_eq_sub_sub, ← hall.value] at hvalues
    split at h
    · -- Dust is left only when nobody pays the fee: the change goes to the fee.
      rename_i hdust
      have hzero : subtractCount vecSend = 0 := by
        by_contra hne
        exact Bool.eq_false_iff.mp (hsome (Nat.pos_of_ne_zero hne)) hdust
      obtain rfl := hnone hzero
      cases h
      refine ⟨reduced, none, ⟨rfl, rfl, by simp, by simp, by simp, ⟨_, hreduced, ?_⟩, ?_⟩,
        by linarith, rfl⟩
      · rw [if_pos hzero, if_pos hzero, add_zero]
      · linarith
    · rename_i hdust
      simp only [eq_ok] at h
      obtain ⟨position, hposition, rfl⟩ := h
      have hle := changePosition_le hposition
      refine ⟨reduced, some (position, newTxOut), ⟨rfl, rfl, ?_, ?_, ?_, ⟨_, hreduced, ?_⟩, ?_⟩,
        le_refl _, rfl⟩
      · rintro item ⟨⟩
        exact hle
      · rintro item ⟨⟩
        exact Bool.eq_false_iff.mpr hdust
      · rintro item ⟨⟩
        exact ⟨dest, hsame.trans hdest⟩
      · split_ifs with hzero
        · rw [hnone hzero, add_zero]
        · linarith
      · rw [outValue_insertIdx hle]
        linarith
  · cases h
    rw [max_eq_left (not_lt.mp hpos), add_zero]
    exact ⟨vout, none, ⟨rfl, rfl, by simp, by simp, by simp, ⟨_, hall, hlost⟩, rfl⟩, le_refl _, rfl⟩

/-- Moving an amount between the change and the fee, when nobody pays the fee from an amount. -/
theorem DraftOk.moveFee {change : CTxOut} {worth : CAmount}
    (ok : DraftOk wallet vecSend draft vout (some (position, change)) worth)
    (hzero : subtractCount vecSend = 0) {amount : CAmount}
    (hdust : isDust { change with nValue := change.nValue + amount }
      wallet.discardThreshold = false) :
    DraftOk wallet vecSend
      { draft with
        vout := addToChange draft.vout position amount
        nFeeRet := draft.nFeeRet - amount } vout
      (some (position, { change with nValue := change.nValue + amount })) worth := by
  have hinside := ok.inside (position, change) rfl
  have hshape : addToChange draft.vout position amount =
      vout.insertIdx position { change with nValue := change.nValue + amount } := by
    rw [ok.shape]
    exact modify_insertIdx hinside change _
  refine ⟨hshape, ok.position, ?_, ?_, ?_, ?_, ?_⟩
  · rintro item ⟨⟩
    exact hinside
  · rintro item ⟨⟩
    exact hdust
  · rintro item ⟨⟩
    exact ok.script (position, change) rfl
  · obtain ⟨lost, hpays, hlost⟩ := ok.pays
    rw [if_pos hzero] at hlost
    exact ⟨lost, hpays, by rwa [if_pos hzero]⟩
  · have hbalance := ok.balance
    rw [ok.shape, withChange, outValue_insertIdx hinside] at hbalance
    rw [hshape, outValue_insertIdx hinside, ← hbalance]
    ring

theorem addToChange_scripts (vout : List CTxOut) (position : Nat) (amount : CAmount) :
    (addToChange vout position amount).map CTxOut.scriptPubKey = vout.map CTxOut.scriptPubKey := by
  induction vout generalizing position with
  | nil => cases position <;> rfl
  | cons txout vout ih =>
    cases position with
    | zero => rfl
    | succ position =>
      have := ih position
      rw [addToChange] at this ⊢
      rw [List.modify_succ_cons, List.map_cons, List.map_cons, this]

/-- A draft the fee settles, and the inputs and scripts it keeps. -/
structure Settles (wallet : CWallet) (vecSend : List CRecipient) (nFeeNeeded worth : CAmount)
    (draft draft' : Draft) : Prop where
  ok : ∃ vout change, DraftOk wallet vecSend draft' vout change worth
  fee : nFeeNeeded ≤ draft'.nFeeRet
  inputs : draft'.inputs = draft.inputs
  scripts : draft'.vout.map CTxOut.scriptPubKey = draft.vout.map CTxOut.scriptPubKey

/-- How settling the fee of a draft ends. -/
def SettleEnds (wallet : CWallet) (vecSend : List CRecipient) (nFeeNeeded worth : CAmount)
    (draft : Draft) : PassEnd → Prop
  | .done draft' => Settles wallet vecSend nFeeNeeded worth draft draft'
  | .again nFeeRet => nFeeRet = nFeeNeeded ∧ draft.nFeeRet < nFeeNeeded

theorem settleFee_spec {change : Option (Nat × CTxOut)} {worth : CAmount}
    (ok : DraftOk wallet vecSend draft vout change worth) (nFeeNeeded : CAmount) :
    SettleEnds wallet vecSend nFeeNeeded worth draft
      (settleFee wallet.discardThreshold (subtractCount vecSend) nFeeNeeded draft) := by
  obtain ⟨inputs, outs, nChangePos, nFeeRet⟩ := draft
  unfold settleFee
  cases change with
  | none =>
    obtain rfl : nChangePos = none := ok.position
    dsimp only
    split_ifs with hle
    · exact ⟨⟨vout, none, ok⟩, hle, rfl, rfl⟩
    · exact ⟨rfl, not_le.mp hle⟩
  | some item =>
    obtain ⟨position, txout⟩ := item
    obtain rfl : nChangePos = some position := ok.position
    dsimp only
    split_ifs with hle hrefund htake
    · have hdust := isDust_add_nonneg (sub_nonneg.mpr hle) (ok.noDust _ rfl)
      exact ⟨⟨vout, _, ok.moveFee hrefund.2 hdust⟩, le_of_eq (sub_sub_cancel _ _).symm, rfl,
        addToChange_scripts _ _ _⟩
    · exact ⟨⟨vout, _, ok⟩, hle, rfl, rfl⟩
    · have hvalue : changeValue outs position = txout.nValue := by
        obtain rfl : outs = vout.insertIdx position txout := ok.shape
        rw [changeValue, List.getElem?_insertIdx_self, if_pos (ok.inside (position, txout) rfl)]
        rfl
      have hdust : isDust { txout with nValue := txout.nValue + -(nFeeNeeded - nFeeRet) }
          wallet.discardThreshold = false :=
        isDust_eq_false_of_le (by dsimp only; linarith [htake.2])
      have hmove := ok.moveFee htake.1 hdust
      rw [sub_neg_eq_add] at hmove
      exact ⟨⟨vout, _, hmove⟩, le_of_eq (add_sub_cancel _ _).symm, rfl, addToChange_scripts _ _ _⟩
    · exact ⟨rfl, not_le.mp hle⟩

/-- The amounts asked for and the coins on offer leave room in 64 bits. -/
structure Fits (wallet : CWallet) (coinControl : Option CCoinControl) (vecSend : List CRecipient) :
    Prop where
  nonneg : 0 ≤ totalAmount vecSend
  total : totalAmount vecSend ≤ room wallet coinControl
  worth : Worth wallet.walletValue coinControl wallet.vAvailableCoins (room wallet coinControl)

/-- What holds of the draft of a pass and its size. -/
structure Drafted (wallet : CWallet) (coinControl : Option CCoinControl)
    (vecSend : List CRecipient) (nFeeRet : CAmount) (draft : Draft) (nBytes : Nat) : Prop where
  ok : ∃ vout change worth, DraftOk wallet vecSend draft vout change worth ∧
    (Fits wallet coinControl vecSend → worth = draft.inputs.value)
  fee : nFeeRet ≤ draft.nFeeRet
  size : wallet.dummySize (draft.inputs.map Prod.fst) (draft.vout.map CTxOut.scriptPubKey) =
    some nBytes
  inputs : ∃ target nValueIn, SelectsInputs wallet.selectParams coinControl
    wallet.vAvailableCoins target (draft.inputs, nValueIn)

/-- The total that a call computes, where it fits, and the fee of one of its passes. -/
structure PassStart (wallet : CWallet) (coinControl : Option CCoinControl)
    (vecSend : List CRecipient) (nValue nFeeRet : CAmount) : Prop where
  value : Fits wallet coinControl vecSend → nValue = totalAmount vecSend
  nonneg : 0 ≤ nFeeRet
  bound : nFeeRet ≤ max 0 (feeBound wallet coinControl)

variable {nValue : CAmount}

/-- Where the amounts fit, no sum of a pass wraps and the change is what the coins are worth more. -/
theorem change_exact (start : PassStart wallet coinControl vecSend nValue nFeeRet)
    (fits : Fits wallet coinControl vecSend) {setCoins : SetCoins} {nValueIn nValueToSelect : CAmount}
    (hselect : nValueToSelect =
      wrapInt64 (nValue + (if subtractCount vecSend = 0 then nFeeRet else 0)))
    (hselects : SelectsInputs wallet.selectParams coinControl wallet.vAvailableCoins nValueToSelect
      (setCoins, nValueIn)) :
    totalAmount vecSend + (if subtractCount vecSend = 0 then nFeeRet else 0) +
      max 0 (wrapInt64 (nValueIn - nValueToSelect)) = setCoins.value := by
  have hvalue : nValueIn = setCoins.value := hselects.value
  have hnonneg := fits.nonneg
  have hroom := fits.total
  have hchange := wallet.getMinChange_nonneg
  obtain ⟨-, hmost⟩ := fits.worth setCoins hselects.among (hselects.nodup wallet.availableNodup)
  have hfee : 0 ≤ (if subtractCount vecSend = 0 then nFeeRet else 0) ∧
      (if subtractCount vecSend = 0 then nFeeRet else 0) ≤ max 0 (feeBound wallet coinControl) := by
    split_ifs
    · exact ⟨start.nonneg, start.bound⟩
    · exact ⟨le_refl _, le_max_left _ _⟩
  rw [start.value fits] at hselect
  generalize (if subtractCount vecSend = 0 then nFeeRet else 0) = fee at hselect hfee ⊢
  rw [room] at hroom hmost
  have hmax := le_max_left 0 (feeBound wallet coinControl)
  rw [wrapInt64_eq ⟨by linarith, by linarith⟩] at hselect
  have henough : nValueToSelect ≤ nValueIn := by
    refine hselects.enough _ fits.worth ?_
    have hparams : wallet.selectParams.minChange = wallet.getMinChange := rfl
    rw [hparams]
    linarith
  rw [wrapInt64_eq ⟨by linarith, by linarith⟩, max_eq_right (by linarith)]
  linarith

theorem draftPass_spec {nBytes : Nat} (start : PassStart wallet coinControl vecSend nValue nFeeRet)
    (h : draftPass wallet choices coinControl nChangePosRequest vecSend nValue nFeeRet =
      .ok (draft, nBytes)) : Drafted wallet coinControl vecSend nFeeRet draft nBytes := by
  simp only [draftPass, eq_ok, orFail_eq_ok, Prod.exists] at h
  obtain ⟨vout, hpayees, setCoins, nValueIn, hselect, placed, hplace, size, hsize, rfl, rfl⟩ := h
  have hselects := selectCoins_spec hselect
  have hall := payees_spec hpayees
  rw [feeShares_all] at hall
  obtain ⟨vout', change, ok, hfee, hinputs⟩ := placeChange_spec hall hplace
  refine ⟨⟨vout', change, _, ok, fun fits => ?_⟩, hfee, hsize, ⟨_, nValueIn, hinputs ▸ hselects⟩⟩
  rw [hinputs]
  exact change_exact start fits rfl hselects

/-- A payment that was built: it balances where the amounts fit, pays its fee and pays the
recipients. -/
structure Built (wallet : CWallet) (coinControl : Option CCoinControl)
    (vecSend : List CRecipient) (draft : Draft) : Prop where
  ok : ∃ vout change worth, DraftOk wallet vecSend draft vout change worth ∧
    (Fits wallet coinControl vecSend → worth = draft.inputs.value)
  size : ∃ nBytes,
    wallet.dummySize (draft.inputs.map Prod.fst) (draft.vout.map CTxOut.scriptPubKey) =
      some nBytes ∧ getFee wallet.minRelayTxFeeRate nBytes ≤
        feeNeeded wallet coinControl draft.vout nBytes ∧
      feeNeeded wallet coinControl draft.vout nBytes ≤ draft.nFeeRet
  inputs : ∃ target nValueIn, SelectsInputs wallet.selectParams coinControl
    wallet.vAvailableCoins target (draft.inputs, nValueIn)

/-- How a pass ends. -/
def PassEnds (wallet : CWallet) (coinControl : Option CCoinControl) (vecSend : List CRecipient)
    (nFeeRet : CAmount) : PassEnd → Prop
  | .done draft => Built wallet coinControl vecSend draft
  | .again nFeeNeeded => nFeeRet < nFeeNeeded ∧ nFeeNeeded ≤ feeBound wallet coinControl

theorem onePass_spec {result : PassEnd}
    (start : PassStart wallet coinControl vecSend nValue nFeeRet)
    (h : onePass wallet choices coinControl nChangePosRequest vecSend nValue nFeeRet =
      .ok result) :
    PassEnds wallet coinControl vecSend nFeeRet result := by
  simp only [onePass, bind_eq_ok, Prod.exists] at h
  obtain ⟨draft, nBytes, hdraft, h⟩ := h
  have hdrafted := draftPass_spec start hdraft
  obtain ⟨hpos, hsize⟩ := wallet.dummySize_pos hdrafted.size
  obtain ⟨vout, change, worth, ok, hworth⟩ := hdrafted.ok
  split at h
  · -- No transaction is small enough to be free.
    rename_i hfree
    exact absurd hfree.2.1 (Nat.not_le.mpr hpos)
  · simp only [eq_ok] at h
    obtain ⟨-, hrelay, rfl⟩ := h
    have hsettle := settleFee_spec ok (feeNeeded wallet coinControl draft.vout nBytes)
    cases hend : settleFee wallet.discardThreshold (subtractCount vecSend)
        (feeNeeded wallet coinControl draft.vout nBytes) draft with
    | done draft' =>
      rw [hend] at hsettle
      obtain ⟨vout', change', ok'⟩ := hsettle.ok
      have hcongr := feeNeeded_congr ok.allNoDust ok'.allNoDust coinControl nBytes
      refine ⟨⟨vout', change', worth, ok', hsettle.inputs ▸ hworth⟩,
        ⟨nBytes, ?_, hcongr ▸ hrelay, hcongr ▸ hsettle.fee⟩, ?_⟩
      · rw [hsettle.inputs, hsettle.scripts]
        exact hdrafted.size
      · rw [hsettle.inputs]
        exact hdrafted.inputs
    | again nFeeNeeded =>
      rw [hend] at hsettle
      obtain ⟨rfl, hmore⟩ := hsettle
      exact ⟨lt_of_le_of_lt hdrafted.fee hmore, feeNeeded_le wallet coinControl draft.vout hsize⟩

theorem PassStart.again (start : PassStart wallet coinControl vecSend nValue nFeeRet)
    {nFeeNeeded : CAmount} (more : nFeeRet < nFeeNeeded)
    (bound : nFeeNeeded ≤ feeBound wallet coinControl) :
    PassStart wallet coinControl vecSend nValue nFeeNeeded :=
  ⟨start.value, start.nonneg.trans more.le, le_max_of_le_right bound⟩

/-! ## Whole calls -/

section Calls

variable {wallet : CWallet} {choices : Nat → PassChoices} {coinControl : Option CCoinControl}
  {nChangePosRequest : Int} {vecSend : List CRecipient}

theorem passes_built {limit k : Nat} {nValue nFeeRet : CAmount} {draft : Draft}
    (start : PassStart wallet coinControl vecSend nValue nFeeRet)
    (h : passes wallet choices coinControl nChangePosRequest vecSend nValue limit k nFeeRet =
      some (.ok draft)) : Built wallet coinControl vecSend draft := by
  induction limit generalizing k nFeeRet with
  | zero => cases h
  | succ limit ih =>
    rw [passes] at h
    split at h
    · cases h
    · rename_i hpass
      cases h
      exact onePass_spec start hpass
    · rename_i hpass
      obtain ⟨more, bound⟩ := onePass_spec start hpass
      exact ih (start.again more bound) h

theorem checkAmounts_spec {nValue total : CAmount} {vecSend : List CRecipient}
    (h : checkAmounts nValue vecSend = .ok total) :
    0 ≤ totalAmount vecSend ∧
      (nValue + totalAmount vecSend < 2 ^ 63 → total = nValue + totalAmount vecSend) := by
  induction vecSend generalizing nValue with
  | nil =>
    cases h
    exact ⟨le_refl _, fun _ => (add_zero _).symm⟩
  | cons recipient rest ih =>
    simp only [checkAmounts, eq_ok] at h
    obtain ⟨-, ⟨hvalue, hamount⟩, hrest⟩ := h
    obtain ⟨hnonneg, hexact⟩ := ih hrest
    rw [totalAmount_cons]
    refine ⟨add_nonneg hamount hnonneg, fun fits => ?_⟩
    rw [wrapInt64_eq ⟨by linarith, by linarith⟩, add_assoc] at hexact
    exact hexact fits

theorem passStart (wallet : CWallet) (coinControl : Option CCoinControl) {nValue : CAmount}
    (h : checkRecipients vecSend = .ok nValue) :
    PassStart wallet coinControl vecSend nValue 0 := by
  simp only [checkRecipients, eq_ok] at h
  obtain ⟨total, hamounts, -, -, rfl⟩ := h
  refine ⟨fun fits => ?_, le_refl _, le_max_left _ _⟩
  have hroom := fits.total
  have hmax := le_max_left 0 (feeBound wallet coinControl)
  have hchange := wallet.getMinChange_nonneg
  rw [room] at hroom
  rw [(checkAmounts_spec hamounts).2 (by linarith), zero_add]

theorem Built.minimum {draft : Draft} (built : Built wallet coinControl vecSend draft)
    (hrelay : 0 < wallet.minRelayTxFeeRate) {control : CCoinControl}
    (hcontrol : coinControl = some control) (hoverride : control.fOverrideFeeRate = false) :
    control.nMinimumTotalFee ≤ draft.nFeeRet := by
  obtain ⟨nBytes, hsize, hneeded, hfee⟩ := built.size
  subst hcontrol
  exact (minimum_le_feeNeeded hrelay hoverride (wallet.dummySize_pos hsize).1 hneeded).trans hfee

theorem createTransaction_built {sign : Bool} {limit : Nat} {draft : Draft}
    (h : createTransaction wallet choices coinControl nChangePosRequest sign vecSend limit =
      some (.ok draft)) :
    0 ≤ totalAmount vecSend ∧ Built wallet coinControl vecSend draft := by
  rw [createTransaction] at h
  split at h
  · cases h
  · rename_i nValue hrecipients
    obtain ⟨result, hresult, hfinish⟩ := Option.map_eq_some_iff.mp h
    simp only [finish, eq_ok] at hfinish
    obtain ⟨built, rfl, -, -, -, -, -, -, rfl⟩ := hfinish
    have start := passStart wallet coinControl hrecipients
    simp only [checkRecipients, eq_ok] at hrecipients
    obtain ⟨total, hamounts, -⟩ := hrecipients
    exact ⟨(checkAmounts_spec hamounts).1, passes_built start hresult⟩

/-- A wallet with one coin of a hundred. -/
def sampleWallet : CWallet where
  discardThreshold := coin / 100
  discardThreshold_nonneg := by decide
  minTxFee := coin / 100
  minTxFee_nonneg := by decide
  minRelayTxFeeRate := coin / 1000
  maxTxFee := 100 * coin
  vAvailableCoins := [{ outpoint := ⟨0, 0⟩, nValue := 100 * coin, nDepth := 10 }]
  availableNodup := by decide
  walletValue := fun _ => none
  dummySize := fun _ _ => some 226
  dummySize_pos := fun h => by
    cases h
    decide

def sampleChoices : PassChoices where
  random := fun _ => ⟨id, fun _ => .refl _, fun _ _ _ => true⟩
  changePosition := fun size => size
  reservedKey := some ⟨List.replicate 20 0, length_zeros⟩

end Calls

end KubuCore.Wallet
