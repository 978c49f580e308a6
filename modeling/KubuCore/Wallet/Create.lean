import KubuCore.Base.Checked
import KubuCore.Script.Standard
import KubuCore.Wallet.Select

/-!
# Building a payment

`CWallet::CreateTransaction` of `wallet.cpp`. A pass pays the recipients with the
fee found so far, selects coins, settles the change and computes the fee the
result needs; a pass that pays too little is repeated with that fee.
-/

namespace KubuCore.Wallet

open Checked Script

/-! ## Fees -/

/-- `CFeeRate::GetFee` of a rate for a thousand bytes. -/
def getFee (nSatoshisPerK : CAmount) (nSize : Nat) : CAmount :=
  let nFee := (nSatoshisPerK * nSize).tdiv 1000
  if nFee = 0 ∧ nSize ≠ 0 then
    if 0 < nSatoshisPerK then 1 else if nSatoshisPerK < 0 then -1 else 0
  else nFee

def isDust (txout : CTxOut) (dustLimit : CAmount) : Bool :=
  !isUnspendable txout.scriptPubKey && txout.nValue < dustLimit

structure CRecipient where
  scriptPubKey : CScript
  nAmount : CAmount
  fSubtractFeeFromAmount : Bool := false
deriving DecidableEq, Repr

/-- The settings of the wallet and what it knows of its coins. -/
structure CWallet where
  discardThreshold : CAmount
  discardThreshold_nonneg : 0 ≤ discardThreshold
  minTxFee : CAmount
  minTxFee_nonneg : 0 ≤ minTxFee
  minRelayTxFeeRate : CAmount
  payTxFee : CAmount := 0
  maxTxFee : CAmount
  fSendFreeTransactions : Bool := false
  bSpendZeroConfChange : Bool := true
  nMaxChainLength : Nat := 25
  fRejectLongChains : Bool := false
  /-- The coins that `AvailableCoins` offers for the call. -/
  vAvailableCoins : List COutput
  availableNodup : (vAvailableCoins.map COutput.outpoint).Nodup
  /-- The value of an output of `mapWallet`. -/
  walletValue : COutPoint → Option CAmount
  /-- The virtual size of a transaction with dummy signatures, an `unsigned int`. -/
  dummySize : List COutPoint → List CScript → Option Nat
  dummySize_pos : ∀ {inputs scripts nBytes}, dummySize inputs scripts = some nBytes →
    0 < nBytes ∧ nBytes < 2 ^ 32
  /-- Whether the priority of a transaction is enough to send it without a fee. -/
  allowFree : SetCoins → Nat → Bool := fun _ _ => false
  /-- Whether the inputs can be signed. -/
  produceSignature : SetCoins → List CTxOut → Bool := fun _ _ => true
  /-- The weight limit of standard transactions. -/
  weightOk : SetCoins → List CTxOut → Bool := fun _ _ => true
  /-- The ancestor and descendant limits of the pool. -/
  chainOk : SetCoins → Bool := fun _ => true

def minChangeFeeMultiplier : CAmount := 2

def CWallet.getMinChange (wallet : CWallet) : CAmount :=
  wallet.discardThreshold + wallet.minTxFee * minChangeFeeMultiplier

theorem CWallet.getMinChange_nonneg (wallet : CWallet) : 0 ≤ wallet.getMinChange :=
  add_nonneg wallet.discardThreshold_nonneg (mul_nonneg wallet.minTxFee_nonneg (by decide))

def CWallet.selectParams (wallet : CWallet) : SelectParams where
  minChange := wallet.getMinChange
  minChange_nonneg := wallet.getMinChange_nonneg
  bSpendZeroConfChange := wallet.bSpendZeroConfChange
  nMaxChainLength := wallet.nMaxChainLength
  fRejectLongChains := wallet.fRejectLongChains
  walletValue := wallet.walletValue

def getKubuDustFee (vout : List CTxOut) (dustLimit : CAmount) : CAmount :=
  (vout.map fun txout => if isDust txout dustLimit then dustLimit else 0).sum

def getRequiredFee (wallet : CWallet) (vout : List CTxOut) (nTxBytes : Nat) : CAmount :=
  max (getFee wallet.minTxFee nTxBytes + getKubuDustFee vout wallet.discardThreshold)
    (getFee wallet.minRelayTxFeeRate nTxBytes)

def getKubuFeeRate (wallet : CWallet) : FeeRatePreset → CAmount
  | .maximum => coin / 100 * 521
  | .veryHigh => wallet.minTxFee * 100
  | .high => wallet.minTxFee * 10
  | .moderate => wallet.minTxFee * 5
  | .low => wallet.minTxFee * 2
  | .minimum => wallet.minTxFee

/-- The shared end of `GetMinimumFee` and `GetKubuPriorityFee`: the fee the user asks for, or
`unset` if there is none, within the required fee and the maximum. -/
def boundedFee (wallet : CWallet) (vout : List CTxOut) (nTxBytes : Nat) (unset : CAmount) :
    CAmount :=
  let targetFee := getFee wallet.payTxFee nTxBytes
  let nFeeNeeded := if targetFee = 0 then unset else targetFee
  min (max nFeeNeeded (getRequiredFee wallet vout nTxBytes)) wallet.maxTxFee

def getMinimumFee (wallet : CWallet) (vout : List CTxOut) (nTxBytes : Nat) : CAmount :=
  boundedFee wallet vout nTxBytes (getRequiredFee wallet vout nTxBytes)

def getKubuPriorityFee (wallet : CWallet) (vout : List CTxOut) (nTxBytes : Nat)
    (nPriority : FeeRatePreset) : CAmount :=
  boundedFee wallet vout nTxBytes (getFee (getKubuFeeRate wallet nPriority) nTxBytes)

/-- The fee of a pass before the overrides of coin control. -/
def presetFee (wallet : CWallet) (coinControl : Option CCoinControl) (vout : List CTxOut)
    (nBytes : Nat) : CAmount :=
  match (coinControl.map CCoinControl.nPriority).getD .minimum with
  | .minimum => getMinimumFee wallet vout nBytes
  | nPriority => getKubuPriorityFee wallet vout nBytes nPriority

/-- The fee a pass needs. -/
def feeNeeded (wallet : CWallet) (coinControl : Option CCoinControl) (vout : List CTxOut)
    (nBytes : Nat) : CAmount :=
  let nFeeNeeded := presetFee wallet coinControl vout nBytes
  match coinControl with
  | none => nFeeNeeded
  | some control =>
    if control.fOverrideFeeRate then getFee control.nFeeRate nBytes
    else if 0 < nFeeNeeded ∧ nFeeNeeded < control.nMinimumTotalFee then control.nMinimumTotalFee
    else nFeeNeeded

/-! ## One pass -/

/-- What a pass chooses at random, and the key it reserves for change. -/
structure PassChoices where
  random : Nat → Randomness
  changePosition : Nat → Nat
  reservedKey : Option Uint160

/-- A transaction under construction. -/
structure Draft where
  inputs : SetCoins
  vout : List CTxOut
  nChangePos : Option Nat
  nFeeRet : CAmount
deriving DecidableEq

def subtractCount (vecSend : List CRecipient) : Nat :=
  vecSend.countP CRecipient.fSubtractFeeFromAmount

def totalAmount (vecSend : List CRecipient) : CAmount := (vecSend.map CRecipient.nAmount).sum

/-- The output of a recipient: the fee is shared, and the first payer pays the remainder. -/
def payeeOut (nFeeRet : CAmount) (nSubtractFeeFromAmount : Nat) (fFirst : Bool)
    (recipient : CRecipient) : CTxOut :=
  let nValue :=
    if recipient.fSubtractFeeFromAmount then
      recipient.nAmount - nFeeRet.tdiv nSubtractFeeFromAmount -
        (if fFirst then nFeeRet.tmod nSubtractFeeFromAmount else 0)
    else recipient.nAmount
  ⟨nValue, recipient.scriptPubKey⟩

def dustReason (nFeeRet : CAmount) (recipient : CRecipient) (txout : CTxOut) : String :=
  if recipient.fSubtractFeeFromAmount ∧ 0 < nFeeRet then
    if txout.nValue < 0 then "The transaction amount is too small to pay the fee"
    else "The transaction amount is too small to send after the fee has been deducted"
  else "Transaction amount too small"

def payees (discardThreshold nFeeRet : CAmount) (nSubtractFeeFromAmount : Nat) :
    Bool → List CRecipient → Except String (List CTxOut)
  | _, [] => pure []
  | fFirst, recipient :: rest => do
    let txout := payeeOut nFeeRet nSubtractFeeFromAmount fFirst recipient
    require (isDust txout discardThreshold = false) (dustReason nFeeRet recipient txout)
    let vout ← payees discardThreshold nFeeRet nSubtractFeeFromAmount
      (fFirst && !recipient.fSubtractFeeFromAmount) rest
    pure (txout :: vout)

/-- Dust change is raised at the cost of the first recipient that pays the fee. -/
def subtractFromFirst (discardThreshold changeDelta : CAmount) :
    List CRecipient → List CTxOut → Except String (List CTxOut)
  | recipient :: recipients, txout :: vout =>
    if recipient.fSubtractFeeFromAmount then do
      let reduced : CTxOut := { txout with nValue := txout.nValue - changeDelta }
      require (isDust reduced discardThreshold = false)
        "The transaction amount is too small to send after the fee has been deducted"
      pure (reduced :: vout)
    else do
      let vout ← subtractFromFirst discardThreshold changeDelta recipients vout
      pure (txout :: vout)
  | _, vout => pure vout

def changeScript (choices : PassChoices) (coinControl : Option CCoinControl) :
    Except String CScript :=
  match coinControl.bind CCoinControl.destChange with
  | some destChange => pure (getScriptForDestination destChange)
  | none =>
    match choices.reservedKey with
    | some keyID => pure (getScriptForDestination (.keyID keyID))
    | none => throw "Keypool ran out, please call keypoolrefill first"

def raiseChange (discardThreshold : CAmount) (vecSend : List CRecipient) (newTxOut : CTxOut)
    (vout : List CTxOut) : Except String (CTxOut × List CTxOut) :=
  if 0 < subtractCount vecSend ∧ isDust newTxOut discardThreshold then do
    let changeDelta := discardThreshold - newTxOut.nValue
    let vout ← subtractFromFirst discardThreshold changeDelta vecSend vout
    pure ({ newTxOut with nValue := newTxOut.nValue + changeDelta }, vout)
  else pure (newTxOut, vout)

/-- Where the change goes. A negative position other than −1 is, as an unsigned number,
beyond every output. -/
def changePosition (choices : PassChoices) (nChangePosRequest : Int) (size : Nat) :
    Except String Nat :=
  if nChangePosRequest = -1 then pure (choices.changePosition size % (size + 1))
  else do
    require (0 ≤ nChangePosRequest ∧ nChangePosRequest ≤ size) "Change index out of range"
    pure nChangePosRequest.toNat

/-- The change output: none, added to the fee, or inserted among the payees. -/
def placeChange (wallet : CWallet) (choices : PassChoices) (coinControl : Option CCoinControl)
    (nChangePosRequest : Int) (vecSend : List CRecipient) (nChange : CAmount) (draft : Draft) :
    Except String Draft :=
  if 0 < nChange then do
    let scriptChange ← changeScript choices coinControl
    let (newTxOut, vout) ← raiseChange wallet.discardThreshold vecSend ⟨nChange, scriptChange⟩
      draft.vout
    if isDust newTxOut wallet.discardThreshold then
      pure { draft with vout := vout, nFeeRet := draft.nFeeRet + nChange }
    else do
      let position ← changePosition choices nChangePosRequest vout.length
      pure { draft with vout := vout.insertIdx position newTxOut, nChangePos := some position }
  else pure draft

inductive PassEnd where
  | done (draft : Draft)
  | again (nFeeRet : CAmount)

def addToChange (vout : List CTxOut) (position : Nat) (amount : CAmount) : List CTxOut :=
  vout.modify position fun txout => { txout with nValue := txout.nValue + amount }

def changeValue (vout : List CTxOut) (position : Nat) : CAmount :=
  ((vout[position]?).map CTxOut.nValue).getD 0

/-- The draft is kept if it pays the fee, or if its change can. -/
def settleFee (discardThreshold : CAmount) (nSubtractFeeFromAmount : Nat) (nFeeNeeded : CAmount)
    (draft : Draft) : PassEnd :=
  match draft.nChangePos with
  | some position =>
    if nFeeNeeded ≤ draft.nFeeRet then
      if nFeeNeeded < draft.nFeeRet ∧ nSubtractFeeFromAmount = 0 then
        .done { draft with
          vout := addToChange draft.vout position (draft.nFeeRet - nFeeNeeded)
          nFeeRet := draft.nFeeRet - (draft.nFeeRet - nFeeNeeded) }
      else .done draft
    else if nSubtractFeeFromAmount = 0 ∧
        discardThreshold + (nFeeNeeded - draft.nFeeRet) ≤ changeValue draft.vout position then
      .done { draft with
        vout := addToChange draft.vout position (-(nFeeNeeded - draft.nFeeRet))
        nFeeRet := draft.nFeeRet + (nFeeNeeded - draft.nFeeRet) }
    else .again nFeeNeeded
  | none => if nFeeNeeded ≤ draft.nFeeRet then .done draft else .again nFeeNeeded

def maxFreeTransactionCreateSize : Nat := 0

/-- The draft of a pass with the fee `nFeeRet`, and its size. -/
def draftPass (wallet : CWallet) (choices : PassChoices) (coinControl : Option CCoinControl)
    (nChangePosRequest : Int) (vecSend : List CRecipient) (nValue nFeeRet : CAmount) :
    Except String (Draft × Nat) := do
  let nSubtractFeeFromAmount := subtractCount vecSend
  let nValueToSelect :=
    wrapInt64 (nValue + (if nSubtractFeeFromAmount = 0 then nFeeRet else 0))
  let vout ← payees wallet.discardThreshold nFeeRet nSubtractFeeFromAmount true vecSend
  let (setCoins, nValueIn) ← orFail "Insufficient funds"
    (selectCoins wallet.selectParams choices.random coinControl wallet.vAvailableCoins
      nValueToSelect)
  let draft ← placeChange wallet choices coinControl nChangePosRequest vecSend
    (wrapInt64 (nValueIn - nValueToSelect)) ⟨setCoins, vout, none, nFeeRet⟩
  let nBytes ← orFail "Signing transaction failed"
    (wallet.dummySize (draft.inputs.map Prod.fst) (draft.vout.map CTxOut.scriptPubKey))
  pure (draft, nBytes)

def onePass (wallet : CWallet) (choices : PassChoices) (coinControl : Option CCoinControl)
    (nChangePosRequest : Int) (vecSend : List CRecipient) (nValue nFeeRet : CAmount) :
    Except String PassEnd := do
  let (draft, nBytes) ← draftPass wallet choices coinControl nChangePosRequest vecSend nValue
    nFeeRet
  if wallet.fSendFreeTransactions ∧ nBytes ≤ maxFreeTransactionCreateSize ∧
      wallet.allowFree draft.inputs nBytes then
    pure (.done draft)
  else do
    let nFeeNeeded := feeNeeded wallet coinControl draft.vout nBytes
    require (getFee wallet.minRelayTxFeeRate nBytes ≤ nFeeNeeded)
      "Transaction too large for fee policy"
    pure (settleFee wallet.discardThreshold (subtractCount vecSend) nFeeNeeded draft)

/-! ## The loop -/

/-- The passes, at most as many as the first number says; `none` is a loop that goes on. -/
def passes (wallet : CWallet) (choices : Nat → PassChoices) (coinControl : Option CCoinControl)
    (nChangePosRequest : Int) (vecSend : List CRecipient) (nValue : CAmount) :
    Nat → Nat → CAmount → Option (Except String Draft)
  | 0, _, _ => none
  | limit + 1, k, nFeeRet =>
    match onePass wallet (choices k) coinControl nChangePosRequest vecSend nValue nFeeRet with
    | .error reason => some (.error reason)
    | .ok (.done draft) => some (.ok draft)
    | .ok (.again nFeeNeeded) =>
      passes wallet choices coinControl nChangePosRequest vecSend nValue limit (k + 1) nFeeNeeded

/-- The amounts added up. Each is checked before it is added, and so is the total so far, but not the
total at the end. -/
def checkAmounts (nValue : CAmount) : List CRecipient → Except String CAmount
  | [] => pure nValue
  | recipient :: rest => do
    require (0 ≤ nValue ∧ 0 ≤ recipient.nAmount) "Transaction amounts must not be negative"
    checkAmounts (wrapInt64 (nValue + recipient.nAmount)) rest

def checkRecipients (vecSend : List CRecipient) : Except String CAmount := do
  let nValue ← checkAmounts 0 vecSend
  require (vecSend ≠ []) "Transaction must have at least one recipient"
  pure nValue

/-- The checks of the finished draft. -/
def finish (wallet : CWallet) (sign : Bool) (draft : Draft) : Except String Draft := do
  require (sign = true → wallet.produceSignature draft.inputs draft.vout = true)
    "Signing transaction failed"
  require (wallet.weightOk draft.inputs draft.vout = true) "Transaction too large"
  require (wallet.fRejectLongChains = true → wallet.chainOk draft.inputs = true)
    "Transaction has too long of a mempool chain"
  pure draft

def createTransaction (wallet : CWallet) (choices : Nat → PassChoices)
    (coinControl : Option CCoinControl) (nChangePosRequest : Int) (sign : Bool)
    (vecSend : List CRecipient) (limit : Nat) : Option (Except String Draft) :=
  match checkRecipients vecSend with
  | .error reason => some (.error reason)
  | .ok nValue =>
    (passes wallet choices coinControl nChangePosRequest vecSend nValue limit 0 0).map fun result =>
      result >>= finish wallet sign

end KubuCore.Wallet
