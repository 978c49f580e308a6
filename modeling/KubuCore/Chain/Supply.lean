import KubuCore.Base.Int64
import KubuCore.Base.Totals
import KubuCore.Chain.Runs

/-!
# The money supply

The value of the unspent outputs grows by no more than the block subsidy: a
transaction puts back at most what it spends less its fee, and the coinbase
takes at most the fees and the subsidy. The bound on the supply keeps all the
sums of block validation inside 64 bits.
-/

namespace KubuCore.Chain

open Checked
open Nickname
open Script
open Totals

/-! ## The value of a view -/

/-- The value of an output that is not spent. -/
def outValue (txout : CTxOut) : Int := if txout.isNull then 0 else txout.nValue

def CCoins.value (coins : CCoins) : Int := (coins.vout.map outValue).sum

/-- The total value of the unspent outputs. -/
def supply (view : CoinsView) : Int := total CCoins.value view

/-- The unspent outputs are amounts that `CheckTransaction` lets pass. -/
def ValuesInRange (view : CoinsView) : Prop :=
  ∀ o txout, coinAt view o = some txout → 0 ≤ txout.nValue ∧ txout.nValue ≤ maxMoney

theorem value_cleanup (coins : CCoins) : coins.cleanup.value = coins.value := by
  have hsplit : coins.vout.rdropWhile CTxOut.isNull ++ coins.vout.rtakeWhile CTxOut.isNull =
      coins.vout := List.rdropWhile_append_rtakeWhile
  have hnull : ((coins.vout.rtakeWhile CTxOut.isNull).map outValue).sum = 0 := by
    apply List.sum_eq_zero
    intro x hx
    obtain ⟨txout, ho, rfl⟩ := List.mem_map.mp hx
    rw [outValue, if_pos (List.mem_rtakeWhile_imp ho)]
  calc coins.cleanup.value
      = ((coins.vout.rdropWhile CTxOut.isNull).map outValue).sum +
          ((coins.vout.rtakeWhile CTxOut.isNull).map outValue).sum := by
        rw [hnull, add_zero]
        rfl
    _ = coins.value := by
        rw [← List.sum_append, ← List.map_append, hsplit]
        rfl

theorem value_of_isPruned {coins : CCoins} (h : coins.isPruned = true) : coins.value = 0 := by
  apply List.sum_eq_zero
  intro x hx
  obtain ⟨txout, ho, rfl⟩ := List.mem_map.mp hx
  rw [outValue, if_pos (List.all_eq_true.mp h txout ho)]

/-- Spending an output takes its value. -/
theorem value_spend {coins : CCoins} {n : Nat} {txout : CTxOut}
    (h : coins.output n = some txout) : (coins.spend n).value = coins.value - txout.nValue := by
  obtain ⟨hget, hnull⟩ := CCoins.output_eq_some.mp h
  obtain ⟨hlt, hn⟩ := List.getElem?_eq_some_iff.mp hget
  rw [CCoins.spend, value_cleanup]
  simp only [CCoins.value, List.map_set, List.sum_set']
  have hlt' : n < (coins.vout.map outValue).length := by simpa using hlt
  have hvalue : outValue txout = txout.nValue := by rw [outValue, hnull]; rfl
  simp only [hlt', List.getElem_map, hn, hvalue]
  exact Int.sub_eq_add_neg.symm ▸ by simp; rfl

theorem supply_storeCoins (view : CoinsView) (txid : Uint256) (coins : CCoins) :
    supply (storeCoins view txid coins) = coins.value + supply (view.erase txid) := by
  rw [storeCoins]
  split
  · rename_i hp
    rw [← value_cleanup, value_of_isPruned hp, zero_add]
  · rw [supply, total_insert, value_cleanup]
    rfl

theorem supply_eq (view : CoinsView) (txid : Uint256) :
    supply view = (coinsOf view txid).value + supply (view.erase txid) := by
  rw [supply, total_eq_erase _ _ txid, coinsOf]
  cases view[txid]? <;> rfl

section Values

variable {view view' : CoinsView} (values : ValuesInRange view)
include values

theorem value_nonneg (txid : Uint256) : 0 ≤ (coinsOf view txid).value := by
  apply List.sum_nonneg
  intro x hx
  obtain ⟨txout, ho, rfl⟩ := List.mem_map.mp hx
  obtain ⟨n, hn⟩ := List.mem_iff_getElem?.mp ho
  rw [outValue]
  split
  · exact le_refl _
  · rename_i hnull
    have hcoin : coinAt view ⟨txid, n⟩ = some txout := by
      rw [coinAt_eq, CCoins.output_eq_some]
      exact ⟨hn, by simpa using hnull⟩
    exact (values _ _ hcoin).1

theorem supply_nonneg : 0 ≤ supply view := by
  apply total_nonneg
  intro txid coins h
  have hc : coinsOf view txid = coins := by rw [coinsOf, h, Option.getD_some]
  rw [← hc]
  exact value_nonneg values txid

/-- Storing an entry adds at most its value. -/
theorem supply_storeCoins_le (txid : Uint256) (coins : CCoins) :
    supply (storeCoins view txid coins) ≤ supply view + coins.value := by
  have hnonneg := value_nonneg values txid
  have hsupply := supply_eq view txid
  rw [supply_storeCoins]
  omega

end Values

/-! ## Spending -/

variable {view view' : CoinsView} {tx : CTransaction}

theorem supply_spendInput {o : COutPoint} {undo : CTxInUndo}
    (h : spendInput view o = some (view', undo)) :
    supply view' = supply view - undo.txout.nValue := by
  obtain ⟨txout, hout, rfl, rfl⟩ := spendInput_cases h
  rw [supply_storeCoins, value_spend hout, undoOf_txout, supply_eq view o.hash]
  ring

theorem supply_spendInputs {vin : List CTxIn} {undos : CTxUndo}
    (h : spendInputs view vin = some (view', undos)) :
    supply view' = supply view - (undos.map fun undo => undo.txout.nValue).sum := by
  induction vin generalizing view undos with
  | nil =>
    cases h
    simp
  | cons txin rest ih =>
    obtain ⟨next, undo, later, hone, hrest, rfl⟩ := spendInputs_cons h
    rw [ih hrest, supply_spendInput hone, List.map_cons, List.sum_cons]
    ring

/-- `GetValueIn` is the value of the outputs in the undo data. -/
theorem getValueIn_eq {txundo : CTxUndo} (notCoinBase : tx.isCoinBase = false)
    (h : List.Forall₂ (fun txin undo => coinAt view txin.prevout = some undo.txout)
      tx.vin txundo) :
    getValueIn view tx = (txundo.map fun undo => undo.txout.nValue).sum := by
  rw [getValueIn, if_neg (by simp [notCoinBase])]
  congr 1
  generalize tx.vin = vin at h
  induction h with
  | nil => rfl
  | cons head tail ih =>
    rw [coinAt_eq, CCoins.output_eq_some] at head
    rw [List.map_cons, ih, List.getD_eq_getElem?_getD, head.1]
    rfl

theorem value_fromTx_le (nHeight : Int) (values : ∀ txout ∈ tx.vout, 0 ≤ txout.nValue) :
    (CCoins.fromTx tx nHeight).value ≤ tx.getValueOut := by
  rw [CCoins.fromTx, CCoins.clearUnspendable, value_cleanup, CCoins.value, List.map_map]
  apply List.sum_le_sum
  intro txout ho
  have hnonneg := values txout ho
  simp only [Function.comp_apply]
  split
  · exact hnonneg
  · rw [outValue]
    split
    · exact hnonneg
    · exact Int.le_refl _

section Update

variable {env : Env} {tx : CTransaction} {view view' : CoinsView} {nHeight : Int}
  {txundo : CTxUndo}

section

variable (values : ValuesInRange view)
include values

theorem ValuesInRange.spendInputs (h : spendInputs view tx.vin = some (view', txundo)) :
    ValuesInRange view' := by
  intro o txout hcoin
  rw [(spendInputs_spec h).2] at hcoin
  split at hcoin
  · cases hcoin
  · exact values o txout hcoin

/-- What a transaction spends is part of the supply. -/
theorem getValueIn_le_supply (notCoinBase : tx.isCoinBase = false)
    (h : spendInputs view tx.vin = some (view', txundo)) : getValueIn view tx ≤ supply view := by
  have hleft := supply_nonneg (values.spendInputs h)
  rw [supply_spendInputs h, ← getValueIn_eq notCoinBase (spendInputs_spec h).1] at hleft
  linarith

/-- `UpdateCoins` replaces what the transaction spends by at most its outputs. -/
theorem supply_updateCoins (outputs : ∀ txout ∈ tx.vout, 0 ≤ txout.nValue)
    (h : updateCoins env tx view nHeight = some (view', txundo)) :
    supply view' + getValueIn view tx ≤ supply view + tx.getValueOut := by
  have hout := value_fromTx_le nHeight outputs
  obtain ⟨middle, rfl, ⟨isCoinBase, rfl, -⟩ | ⟨notCoinBase, hspend⟩⟩ := updateCoins_cases h
  · have hstore := supply_storeCoins_le values (env.txHash tx) (CCoins.fromTx tx nHeight)
    have hzero : getValueIn middle tx = 0 := by rw [getValueIn, if_pos isCoinBase]
    linarith
  · have hstore := supply_storeCoins_le (values.spendInputs hspend) (env.txHash tx)
      (CCoins.fromTx tx nHeight)
    rw [supply_spendInputs hspend, ← getValueIn_eq notCoinBase (spendInputs_spec hspend).1] at hstore
    linarith

theorem ValuesInRange.updateCoins
    (outputs : ∀ txout ∈ tx.vout, 0 ≤ txout.nValue ∧ txout.nValue ≤ maxMoney)
    (h : updateCoins env tx view nHeight = some (view', txundo)) : ValuesInRange view' := by
  intro o txout hcoin
  rw [updateCoins_spec h] at hcoin
  split at hcoin
  · obtain ⟨hget, -, -⟩ := fromTx_output.mp hcoin
    exact outputs txout (List.mem_of_getElem? hget)
  · split at hcoin
    · cases hcoin
    · exact values o txout hcoin

end

end Update

/-! ## Transactions -/

theorem getValueOut_nonneg {tx : CTransaction} (values : ∀ txout ∈ tx.vout, 0 ≤ txout.nValue) :
    0 ≤ tx.getValueOut := by
  apply List.sum_nonneg
  intro x hx
  obtain ⟨txout, ho, rfl⟩ := List.mem_map.mp hx
  exact values txout ho

theorem checkInputValues_eq {consensus : Consensus} {view : CoinsView}
    {nSpendHeight start value : Int} {vin : List CTxIn}
    (h : checkInputValues consensus view nSpendHeight start vin = .ok value) :
    value = start + (vin.map fun txin =>
      ((coinsOf view txin.prevout.hash).vout.getD txin.prevout.n .null).nValue).sum := by
  induction vin generalizing start with
  | nil =>
    cases h
    simp
  | cons txin rest ih =>
    simp only [checkInputValues, bind_eq_ok] at h
    obtain ⟨-, -, -, -, hrest⟩ := h
    rw [ih hrest, List.map_cons, List.sum_cons]
    ring

/-- `CheckInputs` lets no transaction pass that pays more than it spends. -/
theorem getValueOut_le_of_checkInputs {env : Env} {view : CoinsView} {tx : CTransaction}
    {nSpendHeight : Int} {fScriptChecks : Bool} {flags : Flags}
    (notCoinBase : tx.isCoinBase = false)
    (h : checkInputs env view tx nSpendHeight fScriptChecks flags = .ok ()) :
    tx.getValueOut ≤ getValueIn view tx := by
  rw [checkInputs, if_neg (by simp [notCoinBase])] at h
  simp only [checkTxInputs, eq_ok] at h
  obtain ⟨-, ⟨-, -, value, hvalue, -, hle, -⟩, -⟩ := h
  rw [checkInputValues_eq hvalue, zero_add] at hle
  rw [getValueIn, if_neg (by simp [notCoinBase])]
  exact hle

section Connect

variable {env : Env} {ctx : BlockContext} {nHeight : Int} {view view' : CoinsView}
  {txs : List CTransaction} {txundos : List CTxUndo} {txFees : List CAmount}

/-- A transaction after the coinbase takes its fee, which is not negative, out
of the supply. -/
theorem connectTx_supply {tx : CTransaction} {spent : Spent} (values : ValuesInRange view)
    (checked : checkTransaction tx = .ok ()) (notCoinBase : tx.isCoinBase = false)
    (h : connectTx env ctx nHeight view tx = .ok spent) :
    ValuesInRange spent.view ∧ 0 ≤ spent.txFee ∧
      supply spent.view + spent.txFee ≤ supply view := by
  obtain ⟨-, hinputs, hupdate, hfee⟩ := connectTx_spec h
  rw [if_neg (by simp [notCoinBase])] at hfee
  obtain ⟨hrange, -⟩ := checkTransaction_range checked
  have hle := getValueOut_le_of_checkInputs notCoinBase hinputs
  have hsupply := supply_updateCoins values (fun txout ho => (hrange txout ho).1) hupdate
  refine ⟨values.updateCoins hrange hupdate, ?_, ?_⟩
  · linarith
  · linarith

theorem TxLoop.supply (h : TxLoop env ctx nHeight view txs view' txundos txFees)
    (values : ValuesInRange view) (checked : ∀ tx ∈ txs, checkTransaction tx = .ok ())
    (notCoinBase : ∀ tx ∈ txs, tx.isCoinBase = false) :
    ValuesInRange view' ∧ (∀ fee ∈ txFees, 0 ≤ fee) ∧
      supply view' + txFees.sum ≤ supply view := by
  induction h with
  | nil => exact ⟨values, by simp, by simp⟩
  | cons connected _ ih =>
    rw [List.forall_mem_cons] at checked notCoinBase
    obtain ⟨hvalues, hfee, hsupply⟩ := connectTx_supply values checked.1 notCoinBase.1 connected
    obtain ⟨hvalues', hfees, hsupply'⟩ := ih hvalues checked.2 notCoinBase.2
    rw [List.forall_mem_cons, List.sum_cons]
    exact ⟨hvalues', ⟨hfee, hfees⟩, by linarith⟩

/-- The coinbase has no fee and adds at most its outputs. -/
theorem connectCoinbase_supply {tx : CTransaction} {spent : Spent} (values : ValuesInRange view)
    (checked : checkTransaction tx = .ok ()) (isCoinBase : tx.isCoinBase = true)
    (h : connectTx env ctx nHeight view tx = .ok spent) :
    ValuesInRange spent.view ∧ spent.txFee = 0 ∧
      supply spent.view ≤ supply view + tx.getValueOut := by
  obtain ⟨-, -, hupdate, hfee⟩ := connectTx_spec h
  rw [if_pos isCoinBase] at hfee
  obtain ⟨hrange, -⟩ := checkTransaction_range checked
  have hsupply := supply_updateCoins values (fun txout ho => (hrange txout ho).1) hupdate
  rw [getValueIn, if_pos isCoinBase] at hsupply
  exact ⟨values.updateCoins hrange hupdate, hfee, by linarith⟩

end Connect

/-! ## Blocks and chains -/

/-- The subsidies of the heights 1 to `n`. -/
def totalSubsidy (consensus : Consensus) (n : Nat) : Int :=
  ((List.range n).map fun i => getKubuBlockSubsidy consensus (i + 1)).sum

theorem totalSubsidy_succ (consensus : Consensus) (n : Nat) : totalSubsidy consensus (n + 1) =
    totalSubsidy consensus n + getKubuBlockSubsidy consensus (n + 1) := by
  simp [totalSubsidy, List.range_succ]

variable {env : Env} {ctx : BlockContext} {nHeight : Int} {view : CoinsView} {block : CBlock}

/-- The transactions of a block pay its fees out of the supply and what the
coinbase adds. -/
theorem block_supply {view' : CoinsView} {txundos : List CTxUndo} {txFees : List CAmount}
    (values : ValuesInRange view)
    (checked : checkBlock block = .ok ())
    (h : connectTxs env ctx nHeight view block.vtx = .ok (view', txundos, txFees)) :
    ValuesInRange view' ∧ (∀ fee ∈ txFees, 0 ≤ fee) ∧
      supply view' + txFees.sum ≤
        supply view + (block.vtx.head?.map CTransaction.getValueOut).getD 0 := by
  obtain ⟨coinbase, txs, hvtx, hcb, hothers, heach⟩ := checkBlock_spec checked
  rw [hvtx] at h heach ⊢
  rw [List.forall_mem_cons] at heach
  cases txLoop_of_connectTxs h with
  | cons connected run =>
    obtain ⟨hvalues, hfee, hsupply⟩ := connectCoinbase_supply values heach.1 hcb connected
    obtain ⟨hvalues', hfees, hsupply'⟩ := run.supply hvalues heach.2 hothers
    rw [List.forall_mem_cons, List.head?_cons, Option.map_some, Option.getD_some, List.sum_cons,
      hfee]
    exact ⟨hvalues', ⟨le_rfl, hfees⟩, by linarith⟩

variable {state state' : ChainState} {nFees bound : Int}

theorem connectBlock_supply (values : ValuesInRange state.coins)
    (h : connectBlock env ctx state block = .ok state') :
    ValuesInRange state'.coins ∧
      supply state'.coins ≤
        supply state.coins + getKubuBlockSubsidy env.consensus (state.ledger.height + 1) := by
  simp only [connectBlock, eq_ok] at h
  obtain ⟨⟨⟩, hchecked, -, -, ⟨coins, txundos, txFees⟩, htxs, -, hlimit, h⟩ := h
  obtain ⟨hvalues, -, hsupply⟩ := block_supply values hchecked htxs
  have hcoins : state'.coins = coins := by
    split at h
    · cases h
      rfl
    · cases h
  rw [hcoins]
  exact ⟨hvalues, by linarith⟩

theorem connectBlocks_supply {blocks : List (BlockContext × CBlock)}
    (values : ValuesInRange state.coins)
    (bound : supply state.coins ≤ totalSubsidy env.consensus state.ledger.chain.length)
    (h : connectBlocks env state blocks = .ok state') :
    ValuesInRange state'.coins ∧
      supply state'.coins ≤ totalSubsidy env.consensus state'.ledger.chain.length ∧
      state'.ledger.chain.length = state.ledger.chain.length + blocks.length := by
  induction blocks generalizing state with
  | nil =>
    cases h
    exact ⟨values, bound, rfl⟩
  | cons head rest ih =>
    simp only [connectBlocks, bind_eq_ok] at h
    obtain ⟨next, hconnect, hrest⟩ := h
    obtain ⟨hvalues, hsupply⟩ := connectBlock_supply values hconnect
    obtain ⟨txundos, txFees, -, -, hledger, -⟩ := connectBlock_cases hconnect
    have hlength : next.ledger.chain.length = state.ledger.chain.length + 1 := by
      rw [Ledger.connect_chain hledger, List.length_cons]
    have hbound : supply next.coins ≤ totalSubsidy env.consensus next.ledger.chain.length := by
      rw [hlength, totalSubsidy_succ]
      rw [Ledger.height] at hsupply
      linarith
    obtain ⟨hvalues', hsupply', hlength'⟩ := ih hvalues hbound hrest
    refine ⟨hvalues', hsupply', ?_⟩
    rw [hlength', List.length_cons]
    omega

/-! ## Sums in 64 bits -/

/-- The totals that the output loop of `CheckTransaction` computes, up to the
output where it stops. -/
def checkedTotals (nValueOut : Int) : List CTxOut → List Int
  | [] => []
  | txout :: rest =>
    if 0 ≤ txout.nValue ∧ txout.nValue ≤ maxMoney then
      (nValueOut + txout.nValue) ::
        if moneyRange (nValueOut + txout.nValue) then checkedTotals (nValueOut + txout.nValue) rest
        else []
    else []

/-- The sums for one transaction in `ConnectBlock` and `CheckTxInputs`: the
value out, the value in, the fee and the fees of the block. -/
def txTotals (view : CoinsView) (nFees : Int) (tx : CTransaction) : List Int :=
  runningTotals 0 (tx.vout.map CTxOut.nValue) ++
    if tx.isCoinBase then []
    else
      runningTotals 0 (tx.vin.map fun txin =>
        ((coinsOf view txin.prevout.hash).vout.getD txin.prevout.n .null).nValue) ++
      [getValueIn view tx - tx.getValueOut, nFees + (getValueIn view tx - tx.getValueOut)]

/-- All sums of the transaction loop, up to the transaction where it stops, and
the block reward after it. -/
def connectTotals (env : Env) (ctx : BlockContext) (nHeight : Int) (view : CoinsView)
    (nFees : Int) : List CTransaction → List Int
  | [] => [nFees + getKubuBlockSubsidy env.consensus nHeight]
  | tx :: rest =>
    if tx.isCoinBase ∨ haveInputs view tx then
      txTotals view nFees tx ++
        match connectTx env ctx nHeight view tx with
        | .ok spent => connectTotals env ctx nHeight spent.view (nFees + spent.txFee) rest
        | .error _ => []
    else []

theorem checkedTotals_range {start : Int} {outputs : List CTxOut}
    (low : 0 ≤ start ∧ start ≤ maxMoney) :
    ∀ t ∈ checkedTotals start outputs, 0 ≤ t ∧ t ≤ 2 * maxMoney := by
  induction outputs generalizing start with
  | nil => simp [checkedTotals]
  | cons txout rest ih =>
    intro t ht
    rw [checkedTotals] at ht
    split at ht
    · rcases List.mem_cons.mp ht with rfl | ht
      · constructor <;> linarith
      · split at ht
        · rename_i hrange
          simp only [moneyRange, Bool.and_eq_true, decide_eq_true_eq] at hrange
          exact ih hrange t ht
        · cases ht
    · cases ht

theorem subsidy_range (consensus : Consensus) (nHeight : Int) :
    2 * coin ≤ getKubuBlockSubsidy consensus nHeight ∧
      getKubuBlockSubsidy consensus nHeight ≤ 48 * coin := by
  unfold getKubuBlockSubsidy
  split <;> decide

/-- The halving interval of a network, far below what would let the subsidies exceed 64 bits. -/
def HalvingsInRange (consensus : Consensus) : Prop :=
  0 < consensus.nSubsidyHalvingInterval ∧ consensus.nSubsidyHalvingInterval ≤ 2 ^ 25

instance (consensus : Consensus) : Decidable (HalvingsInRange consensus) :=
  inferInstanceAs (Decidable (_ ∧ _))

section Subsidies

variable {consensus : Consensus} (halvings : HalvingsInRange consensus)
include halvings

/-- From the fourth halving on the subsidy is two coins. -/
theorem subsidy_late (h : 4 * consensus.nSubsidyHalvingInterval ≤ nHeight) :
    getKubuBlockSubsidy consensus nHeight = 2 * coin := by
  have hdiv : 4 ≤ nHeight / consensus.nSubsidyHalvingInterval := by
    rw [Int.le_ediv_iff_mul_le halvings.1]
    exact h
  unfold getKubuBlockSubsidy
  split <;> first | rfl | omega

theorem totalSubsidy_le (n : Nat) : totalSubsidy consensus n ≤
    2 * coin * n + 46 * coin * min (n : Int) (4 * consensus.nSubsidyHalvingInterval) := by
  -- One height, with the constants as numbers for `omega`.
  have step : ∀ height total subsidy late : Int, 0 ≤ height →
      total ≤ 200000000 * height + 4600000000 * min height late →
      subsidy ≤ 4800000000 → (late ≤ height + 1 → subsidy = 200000000) →
      total + subsidy ≤ 200000000 * (height + 1) + 4600000000 * min (height + 1) late := by
    omega
  induction n with
  | zero =>
    have hpos : 0 ≤ 4 * consensus.nSubsidyHalvingInterval := by
      have := halvings.1
      omega
    simp [totalSubsidy, min_eq_left hpos]
  | succ n ih =>
    rw [totalSubsidy_succ]
    refine step n _ _ _ (Int.natCast_nonneg n) ih ?_ ?_
    · exact (subsidy_range consensus (n + 1)).2
    · exact subsidy_late halvings

theorem totalSubsidy_lt {n : Nat} (h : n < 2 ^ 31) : totalSubsidy consensus n < 2 ^ 60 := by
  have hlow : (2 * coin : Int) = 200000000 := by decide
  have hfirst : (46 * coin : Int) = 4600000000 := by decide
  have hle := totalSubsidy_le halvings n
  have hlimit := halvings.2
  rw [hlow, hfirst] at hle
  omega

end Subsidies

/-- The sums for one transaction stay within the supply and the fees so far,
whether the transaction is accepted or not. -/
theorem txTotals_range {tx : CTransaction} (values : ValuesInRange view)
    (checked : checkTransaction tx = .ok ())
    (inputs : tx.isCoinBase = true ∨ haveInputs view tx = true) (fees : 0 ≤ nFees)
    (within : supply view + nFees ≤ bound) :
    ∀ t ∈ txTotals view nFees tx, -maxMoney ≤ t ∧ t ≤ max bound maxMoney := by
  obtain ⟨hrange, hout⟩ := checkTransaction_range checked
  have hout0 := getValueOut_nonneg fun txout ho => (hrange txout ho).1
  intro t ht
  rw [txTotals, List.mem_append] at ht
  rcases ht with ht | ht
  · have hbounds := runningTotals_bounds (by
      intro x hx
      obtain ⟨txout, ho, rfl⟩ := List.mem_map.mp hx
      exact (hrange txout ho).1) t ht
    rw [zero_add] at hbounds
    exact ⟨by linarith [hbounds.1], le_max_of_le_right (le_trans hbounds.2 hout)⟩
  · split at ht
    · cases ht
    · rename_i notCoinBase
      have notCoinBase' : tx.isCoinBase = false := by simpa using notCoinBase
      have hall : ∀ txin ∈ tx.vin, (coinAt view txin.prevout).isSome = true := by
        have hhave := inputs.resolve_left notCoinBase
        rw [haveInputs, Bool.or_eq_true, List.all_eq_true] at hhave
        exact hhave.resolve_left notCoinBase
      obtain ⟨⟨view', txundo⟩, hspend⟩ := spendInputs_isSome hall (checkTransaction_spec checked).2
      have hin := getValueIn_le_supply values notCoinBase' hspend
      have hin0 : ∀ x ∈ tx.vin.map (fun txin =>
          ((coinsOf view txin.prevout.hash).vout.getD txin.prevout.n .null).nValue), 0 ≤ x := by
        intro x hx
        obtain ⟨txin, hmem, rfl⟩ := List.mem_map.mp hx
        obtain ⟨txout, hcoin⟩ := Option.isSome_iff_exists.mp (hall txin hmem)
        have hnonneg := (values _ _ hcoin).1
        rw [coinAt_eq, CCoins.output_eq_some] at hcoin
        rw [List.getD_eq_getElem?_getD, hcoin.1]
        exact hnonneg
      have hvalueIn : getValueIn view tx = (tx.vin.map fun txin =>
          ((coinsOf view txin.prevout.hash).vout.getD txin.prevout.n .null).nValue).sum := by
        rw [getValueIn, if_neg notCoinBase]
      have hin1 : 0 ≤ getValueIn view tx := hvalueIn ▸ List.sum_nonneg hin0
      rcases List.mem_append.mp ht with ht | ht
      · have hbounds := runningTotals_bounds hin0 t ht
        exact ⟨by linarith [hbounds.1], le_max_of_le_left (by linarith [hbounds.2])⟩
      · rcases List.mem_cons.mp ht with rfl | ht
        · exact ⟨by linarith, le_max_of_le_left (by linarith)⟩
        · obtain rfl := List.mem_singleton.mp ht
          exact ⟨by linarith, le_max_of_le_left (by linarith)⟩

theorem connectTotals_range {txs : List CTransaction} (values : ValuesInRange view)
    (checked : ∀ tx ∈ txs, checkTransaction tx = .ok ())
    (notCoinBase : ∀ tx ∈ txs, tx.isCoinBase = false) (fees : 0 ≤ nFees)
    (within : supply view + nFees ≤ bound) :
    ∀ t ∈ connectTotals env ctx nHeight view nFees txs,
      -maxMoney ≤ t ∧ t ≤ max bound maxMoney + 48 * coin := by
  have hcoin : (0 : Int) ≤ 48 * coin := by decide
  induction txs generalizing view nFees with
  | nil =>
    intro t ht
    obtain rfl := List.mem_singleton.mp ht
    have hsupply := supply_nonneg values
    have hsubsidy := subsidy_range env.consensus nHeight
    have hmoney : (0 : Int) ≤ maxMoney := by decide
    have hmax : bound ≤ max bound maxMoney := le_max_left _ _
    exact ⟨by linarith [hsubsidy.1], by linarith [hsubsidy.2]⟩
  | cons tx rest ih =>
    intro t ht
    rw [connectTotals] at ht
    split at ht
    · rename_i inputs
      rcases List.mem_append.mp ht with ht | ht
      · obtain ⟨hlow, hhigh⟩ :=
          txTotals_range values (checked tx List.mem_cons_self) inputs fees within t ht
        exact ⟨hlow, by linarith⟩
      · split at ht
        · rename_i spent hone
          obtain ⟨hvalues, hfee, hsupply⟩ := connectTx_supply values
            (checked tx List.mem_cons_self) (notCoinBase tx List.mem_cons_self) hone
          exact ih hvalues (fun t ht => checked t (List.mem_cons_of_mem _ ht))
            (fun t ht => notCoinBase t (List.mem_cons_of_mem _ ht)) (by linarith) (by linarith) t ht
        · cases ht
    · cases ht

/-- The sums of a checked block, its coinbase included. -/
theorem blockTotals_range (values : ValuesInRange view) (checked : checkBlock block = .ok ()) :
    ∀ t ∈ connectTotals env ctx nHeight view 0 block.vtx,
      -maxMoney ≤ t ∧ t ≤ supply view + 2 * maxMoney + 48 * coin := by
  obtain ⟨coinbase, txs, hvtx, hcb, hothers, heach⟩ := checkBlock_spec checked
  rw [hvtx] at heach ⊢
  have hcoinbase := heach coinbase List.mem_cons_self
  have hout := (checkTransaction_range hcoinbase).2
  have hsupply := supply_nonneg values
  have hmoney : (0 : Int) ≤ maxMoney := by decide
  have hcoin : (0 : Int) ≤ 48 * coin := by decide
  intro t ht
  rw [connectTotals, if_pos (.inl hcb), List.mem_append] at ht
  rcases ht with ht | ht
  · obtain ⟨hlow, hhigh⟩ := txTotals_range values hcoinbase (.inl hcb) (le_refl 0)
      (le_of_eq (add_zero (supply view))) t ht
    have hmax : max (supply view) maxMoney ≤ supply view + maxMoney :=
      max_le (by linarith) (by linarith)
    exact ⟨hlow, by linarith⟩
  · split at ht
    · rename_i spent hone
      obtain ⟨hvalues, hfee, hsupply'⟩ := connectCoinbase_supply values hcoinbase hcb hone
      have within : supply spent.view + (0 + spent.txFee) ≤ supply view + maxMoney := by
        linarith
      obtain ⟨hlow, hhigh⟩ := connectTotals_range hvalues
        (fun t ht => heach t (List.mem_cons_of_mem _ ht)) hothers (by rw [hfee]; decide) within t ht
      have hmax : max (supply view + maxMoney) maxMoney ≤ supply view + maxMoney :=
        max_le (le_refl _) (by linarith)
      exact ⟨hlow, by linarith⟩
    · cases ht

theorem inInt64_of_bounds {x : Int} (low : -maxMoney ≤ x)
    (high : x ≤ 2 ^ 60 + 2 * maxMoney + 48 * coin) : InInt64 x := by
  have hlow : (-2 ^ 63 : Int) ≤ -maxMoney := by decide
  have hhigh : (2 ^ 60 + 2 * maxMoney + 48 * coin : Int) < 2 ^ 63 := by decide
  exact ⟨le_trans hlow low, lt_of_le_of_lt high hhigh⟩

/-- The value of the unspent outputs of a chain is at most the sum of its
subsidies. For every next block below height `2 ^ 31`, the output totals of
`CheckTransaction` fit in 64 bits; if it passes `CheckBlock`, so do all the sums
of `ConnectBlock`, up to where it stops, and the fees are not negative. -/
theorem supply_within_subsidies {env : Env} {blocks : List (BlockContext × CBlock)}
    {state : ChainState} (halvings : HalvingsInRange env.consensus)
    (accepted : connectBlocks env .empty blocks = .ok state) :
    supply state.coins ≤ totalSubsidy env.consensus blocks.length ∧
      ∀ ctx block, blocks.length + 1 < 2 ^ 31 →
        (∀ tx ∈ block.vtx, ∀ t ∈ checkedTotals 0 tx.vout, InInt64 t) ∧
        (checkBlock block = .ok () →
          (∀ t ∈ connectTotals env ctx (state.ledger.height + 1) state.coins 0 block.vtx,
            InInt64 t) ∧
          ∀ coins txundos txFees,
            connectTxs env ctx (state.ledger.height + 1) state.coins block.vtx =
              .ok (coins, txundos, txFees) → ∀ fee ∈ txFees, 0 ≤ fee) := by
  have start : ValuesInRange ChainState.empty.coins := by
    intro o txout hcoin
    simp [coinAt, ChainState.empty] at hcoin
  have none : supply ChainState.empty.coins ≤
      totalSubsidy env.consensus ChainState.empty.ledger.chain.length := by
    simp [supply, ChainState.empty, Ledger.empty, totalSubsidy]
  obtain ⟨values, bound, length⟩ := connectBlocks_supply start none accepted
  rw [ChainState.empty, Ledger.empty, List.length_nil, Nat.zero_add] at length
  rw [length] at bound
  refine ⟨bound, fun ctx block low => ⟨?_, fun checked => ⟨?_, ?_⟩⟩⟩
  · intro tx _ t ht
    obtain ⟨hlow, hhigh⟩ := checkedTotals_range (by decide) t ht
    have hcoin : (0 : Int) ≤ 48 * coin := by decide
    exact inInt64_of_bounds (by linarith) (by linarith)
  · intro t ht
    obtain ⟨hlow, hhigh⟩ := blockTotals_range values checked t ht
    have hsubsidy : totalSubsidy env.consensus blocks.length < 2 ^ 60 :=
      totalSubsidy_lt halvings (by omega)
    exact inInt64_of_bounds hlow (by linarith)
  · intro coins txundos txFees htxs
    exact (block_supply values checked htxs).2.1

theorem supply_of_registration :
    connectBlocks sampleEnv .empty registeredBlocks = .ok registeredState ∧
      supply registeredState.coins ≤ totalSubsidy sampleEnv.consensus 31 ∧
      ∀ t ∈ connectTotals sampleEnv sampleContext (registeredState.ledger.height + 1)
        registeredState.coins 0 (sampleBlock 32 [firstUpdateTx]).vtx, InInt64 t := by
  have accepted : connectBlocks sampleEnv .empty registeredBlocks = .ok registeredState :=
    (stateAfter_spec (by decide +kernel)).2
  obtain ⟨bound, sums⟩ := supply_within_subsidies (by decide) accepted
  have checked : checkBlock (sampleBlock 32 [firstUpdateTx]) = .ok () := by decide +kernel
  exact ⟨accepted, bound, ((sums sampleContext _ (by decide)).2 checked).1⟩

end KubuCore.Chain
