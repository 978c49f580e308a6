import KubuCore.Chain.View

/-!
# Disconnecting restores the coins view

`ApplyTxInUndo` undoes one spend exactly, so the transaction loop of
`DisconnectBlock` undoes that of `ConnectBlock` and finds nothing unclean. The
views this holds for are tidy: no entry ends in a spent output, and every spent
output inside an entry is the null output.
-/

namespace KubuCore.Chain

open Script
open Trim

structure CCoins.Tidy (coins : CCoins) : Prop where
  unspent : coins.isPruned = false
  trimmed : coins.cleanup = coins
  blanks : ∀ txout ∈ coins.vout, txout.isNull = true → txout = .null
  height : coins.nHeight ≠ 0

def Tidy (view : CoinsView) : Prop :=
  ∀ (txid : Uint256) (coins : CCoins), view[txid]? = some coins → coins.Tidy

theorem CCoins.cleanup_cleanup (coins : CCoins) : coins.cleanup.cleanup = coins.cleanup := by
  simp [CCoins.cleanup, List.rdropWhile_idempotent]

theorem tidy_empty : Tidy ∅ := by
  intro txid coins h
  simp at h

theorem mem_of_mem_cleanup {coins : CCoins} {txout : CTxOut} (h : txout ∈ coins.cleanup.vout) :
    txout ∈ coins.vout := by
  obtain ⟨i, hi⟩ := List.mem_iff_getElem?.mp h
  exact List.mem_of_getElem? (getElem?_of_rdropWhile hi)

/-- What `storeCoins` leaves is tidy if the entry has one kind of null output
and a height. -/
theorem tidy_storeCoins {view : CoinsView} (tidy : Tidy view) (txid : Uint256) {coins : CCoins}
    (blanks : ∀ txout ∈ coins.vout, txout.isNull = true → txout = .null)
    (height : coins.nHeight ≠ 0) : Tidy (storeCoins view txid coins) := by
  intro other entry h
  rw [getElem?_storeCoins] at h
  split at h
  · split at h
    · cases h
    · rename_i hp
      cases h
      exact ⟨by simpa using hp, coins.cleanup_cleanup,
        fun txout ho => blanks txout (mem_of_mem_cleanup ho), height⟩
  · exact tidy other entry h

/-! ## One input -/

section Input

variable {view view' : CoinsView} {o : COutPoint} {undo : CTxInUndo}

variable {coins : CCoins} {n : Nat}

theorem blanks_spend (blanks : ∀ txout ∈ coins.vout, txout.isNull = true → txout = .null) :
    ∀ txout ∈ (coins.spend n).vout, txout.isNull = true → txout = .null := by
  intro txout ho hnull
  rcases List.mem_or_eq_of_mem_set (mem_of_mem_cleanup ho) with hmem | rfl
  · exact blanks txout hmem hnull
  · rfl

theorem exists_entry_of_output {txid : Uint256} {txout : CTxOut}
    (h : (coinsOf view txid).output n = some txout) : view[txid]? = some (coinsOf view txid) := by
  unfold coinsOf at h ⊢
  cases hv : view[txid]? with
  | none =>
    rw [hv] at h
    cases h
  | some coins => rfl

theorem tidy_spendInput (tidy : Tidy view) (h : spendInput view o = some (view', undo)) :
    Tidy view' := by
  obtain ⟨txout, hout, rfl, rfl⟩ := spendInput_cases h
  have entry := tidy _ _ (exists_entry_of_output hout)
  exact tidy_storeCoins tidy _ (blanks_spend entry.blanks) entry.height

/-- The output list of an entry comes back when the spent slot is written. -/
theorem restore_vout (entry : coins.Tidy) {n : Nat} {txout : CTxOut}
    (hout : coins.output n = some txout) :
    ((coins.spend n).vout ++
      List.replicate (n + 1 - (coins.spend n).vout.length) CTxOut.null).set n txout =
        coins.vout := by
  obtain ⟨hget, -⟩ := CCoins.output_eq_some.mp hout
  have hn := (List.getElem?_eq_some_iff.mp hget).1
  have htrim := congrArg CCoins.vout entry.trimmed
  have hpad := pad_rdropWhile_set htrim entry.blanks hn
  rw [CCoins.spend, CCoins.cleanup]
  rw [hpad]
  exact restore_set hget

theorem isPruned_spend : (coins.spend n).isPruned = true ↔ (coins.spend n).vout = [] := by
  constructor
  · intro h
    have hall := List.all_eq_true.mp h
    have hnil := List.rdropWhile_eq_nil_iff.mpr hall
    have htrim : (coins.spend n).vout.rdropWhile CTxOut.isNull = (coins.spend n).vout :=
      congrArg CCoins.vout (CCoins.cleanup_cleanup _)
    rw [← htrim, hnil]
  · intro h
    simp [CCoins.isPruned, h]

theorem storeCoins_eq_of_entry {txid : Uint256} (entry : coins.Tidy) (other : CoinsView)
    (h : view[txid]? = some coins)
    (frame : ∀ x : Uint256, x ≠ txid → other[x]? = view[x]?) :
    storeCoins other txid coins = view := by
  apply Std.ExtTreeMap.ext_getElem?
  intro x
  rw [getElem?_storeCoins, entry.trimmed, entry.unspent]
  by_cases hx : x = txid
  · simp [hx, h]
  · simp [hx, frame x hx]

/-- `ApplyTxInUndo` undoes a spend. -/
theorem applyTxInUndo_spendInput (tidy : Tidy view)
    (h : spendInput view o = some (view', undo)) : applyTxInUndo undo view' o = (view, true) := by
  obtain ⟨txout, hout, rfl, rfl⟩ := spendInput_cases h
  have hentry := exists_entry_of_output hout
  generalize hc : coinsOf view o.hash = coins at *
  have entry := tidy _ _ hentry
  have hvout := restore_vout entry hout
  have hframe : ∀ x : Uint256, x ≠ o.hash →
      (storeCoins view o.hash (coins.spend o.n))[x]? = view[x]? := by
    intro x hx
    rw [getElem?_storeCoins, if_neg hx]
  have hback := storeCoins_eq_of_entry entry _ hentry hframe
  have hself : (coins.spend o.n).cleanup = coins.spend o.n := CCoins.cleanup_cleanup _
  by_cases hlast : (coins.spend o.n).vout = []
  · have hundo : undoOf coins o.n txout =
        { txout, fCoinBase := coins.fCoinBase, nHeight := coins.nHeight
          nVersion := coins.nVersion } := by
      rw [undoOf, if_pos hlast]
    have hnone : coinsOf (storeCoins view o.hash (coins.spend o.n)) o.hash = {} := by
      rw [coinsOf_storeCoins, if_pos rfl, hself, if_pos (isPruned_spend.mpr hlast)]
    rw [hlast] at hvout
    simp only [applyTxInUndo, hundo, hnone, ne_eq, entry.height, not_false_eq_true, if_true]
    refine Prod.ext ?_ ?_
    · rw [hvout]
      exact hback
    · simp [CCoins.isPruned, CCoins.isAvailable]
  · have hundo : undoOf coins o.n txout = { txout } := by
      rw [undoOf, if_neg hlast]
    have hpruned : (coins.spend o.n).isPruned = false := by
      cases hp : (coins.spend o.n).isPruned with
      | true => exact absurd (isPruned_spend.mp hp) hlast
      | false => rfl
    have hsome : coinsOf (storeCoins view o.hash (coins.spend o.n)) o.hash = coins.spend o.n := by
      rw [coinsOf_storeCoins, if_pos rfl, hself, hpruned]
      rfl
    have hgone : (coins.spend o.n).isAvailable o.n = false := by
      have hnone := CCoins.output_spend coins o.n o.n
      rw [CCoins.output] at hnone
      cases ha : (coins.spend o.n).isAvailable o.n with
      | false => rfl
      | true =>
        rw [ha, if_pos rfl] at hnone
        simp [CCoins.isAvailable, hnone] at ha
    simp only [applyTxInUndo, hundo, hsome, ne_eq, not_true_eq_false, if_false]
    refine Prod.ext ?_ ?_
    · rw [hvout]
      exact hback
    · simp [hpruned, hgone]

end Input

/-! ## One transaction -/

variable {view view' : CoinsView} {vin : List CTxIn} {undos : CTxUndo}

section

variable (tidy : Tidy view) (h : spendInputs view vin = some (view', undos))
include tidy h

theorem tidy_spendInputs : Tidy view' := by
  induction vin generalizing view undos with
  | nil =>
    cases h
    exact tidy
  | cons txin rest ih =>
    obtain ⟨next, undo, later, hone, hrest, -⟩ := spendInputs_cons h
    exact ih (tidy_spendInput tidy hone) hrest

/-- Restoring the inputs of a transaction undoes spending them. -/
theorem restoreInputs_spendInputs :
    undos.length = vin.length ∧ restoreInputs view' (vin.zip undos) = (view, true) := by
  induction vin generalizing view undos with
  | nil =>
    cases h
    exact ⟨rfl, rfl⟩
  | cons txin rest ih =>
    obtain ⟨next, undo, later, hone, hrest, rfl⟩ := spendInputs_cons h
    obtain ⟨hlen, hback⟩ := ih (tidy_spendInput tidy hone) hrest
    refine ⟨by simp [hlen], ?_⟩
    rw [List.zip_cons_cons, restoreInputs, hback]
    simp only
    rw [applyTxInUndo_spendInput tidy hone]
    rfl

end

/-- The entries of a view after spending are entries from before. -/
theorem absent_spendInputs (h : spendInputs view vin = some (view', undos)) {txid : Uint256}
    (absent : view[txid]? = none) :
    view'[txid]? = none := by
  induction vin generalizing view undos with
  | nil =>
    cases h
    exact absent
  | cons txin rest ih =>
    obtain ⟨next, undo, later, hone, hrest, -⟩ := spendInputs_cons h
    refine ih hrest ?_
    obtain ⟨txout, hout, -, rfl⟩ := spendInput_cases hone
    have hentry := exists_entry_of_output hout
    rw [getElem?_storeCoins]
    split
    · rename_i he
      rw [he, hentry] at absent
      cases absent
    · exact absent

theorem cleanup_fromTx (tx : CTransaction) (nHeight : Int) :
    (CCoins.fromTx tx nHeight).cleanup = CCoins.fromTx tx nHeight :=
  CCoins.cleanup_cleanup _

theorem clearUnspendable_fromTx (tx : CTransaction) (nHeight : Int) :
    (CCoins.fromTx tx nHeight).clearUnspendable = CCoins.fromTx tx nHeight := by
  have hmap : ∀ txout ∈ (CCoins.fromTx tx nHeight).vout,
      (if isUnspendable txout.scriptPubKey then CTxOut.null else txout) = txout := by
    intro txout ho
    obtain ⟨out, -, rfl⟩ := List.mem_map.mp (mem_of_mem_cleanup ho)
    by_cases hu : isUnspendable out.scriptPubKey = true
    · split <;> rfl
    · rw [if_neg hu, if_neg hu]
  have hvout : (CCoins.fromTx tx nHeight).vout.map
      (fun txout => if isUnspendable txout.scriptPubKey then CTxOut.null else txout) =
        (CCoins.fromTx tx nHeight).vout := by
    rw [List.map_congr_left hmap, List.map_id']
  rw [CCoins.clearUnspendable, hvout]
  exact cleanup_fromTx tx nHeight

theorem tidy_fromTx (tidy : Tidy view) {tx : CTransaction} {nHeight : Int}
    (values : ∀ txout ∈ tx.vout, txout.isNull = false) (height : nHeight ≠ 0) (txid : Uint256) :
    Tidy (storeCoins view txid (CCoins.fromTx tx nHeight)) := by
  refine tidy_storeCoins tidy txid (fun txout ho hnull => ?_) height
  obtain ⟨out, hmem, rfl⟩ := List.mem_map.mp (mem_of_mem_cleanup ho)
  by_cases hu : isUnspendable out.scriptPubKey = true
  · rw [if_pos hu]
  · rw [if_neg hu, values out hmem] at hnull
    cases hnull

/-- Removing the outputs of a transaction undoes adding them. -/
theorem removeOutputs_storeCoins {env : Env} {tx : CTransaction} (nHeight : Int)
    (absent : view[env.txHash tx]? = none) :
    removeOutputs env tx (storeCoins view (env.txHash tx) (CCoins.fromTx tx nHeight)) nHeight =
      (view, true) := by
  refine Prod.ext ?_ ?_
  · apply Std.ExtTreeMap.ext_getElem?
    intro x
    simp only [removeOutputs, Std.ExtTreeMap.getElem?_erase, getElem?_storeCoins]
    by_cases hx : x = env.txHash tx
    · simp [hx, absent]
    · have hne : ¬ env.txHash tx = x := fun h => hx h.symm
      simp [hx, hne]
  · simp only [removeOutputs, coinsOf_storeCoins, if_true, cleanup_fromTx]
    by_cases hp : (CCoins.fromTx tx nHeight).isPruned = true
    · have hempty : ({} : CCoins).clearUnspendable.isPruned = true := rfl
      simp only [hp]
      split
      · simp [CCoins.isPruned, CCoins.clearUnspendable, CCoins.cleanup]
      · simp [hempty]
    · simp only [hp, Bool.false_eq_true, if_false, clearUnspendable_fromTx]
      split <;> simp

section Transaction

variable {env : Env} {tx : CTransaction} {view view' : CoinsView} {nHeight : Int}
  {txundo : CTxUndo}

theorem tidy_updateCoins (tidy : Tidy view)
    (values : ∀ txout ∈ tx.vout, txout.isNull = false) (height : nHeight ≠ 0)
    (h : updateCoins env tx view nHeight = some (view', txundo)) : Tidy view' := by
  obtain ⟨middle, rfl, ⟨-, rfl, -⟩ | ⟨-, hspend⟩⟩ := updateCoins_cases h
  · exact tidy_fromTx tidy values height _
  · exact tidy_fromTx (tidy_spendInputs tidy hspend) values height _

/-- An id that is not in the view is there after a transaction only if it is
its id. -/
theorem absent_updateCoins {txid : Uint256} (absent : view[txid]? = none)
    (ne : txid ≠ env.txHash tx) (h : updateCoins env tx view nHeight = some (view', txundo)) :
    view'[txid]? = none := by
  obtain ⟨middle, rfl, ⟨-, rfl, -⟩ | ⟨-, hspend⟩⟩ := updateCoins_cases h
  · rw [getElem?_storeCoins, if_neg ne]
    exact absent
  · rw [getElem?_storeCoins, if_neg ne]
    exact absent_spendInputs hspend absent

/-- Disconnecting a transaction undoes connecting it, if its id is new. -/
theorem disconnectTxs_cons {rest : List (CTransaction × CTxUndo)} {later : CoinsView}
    (tidy : Tidy view) (absent : view[env.txHash tx]? = none)
    (notCoinBase : tx.isCoinBase = false)
    (h : updateCoins env tx view nHeight = some (view', txundo))
    (others : disconnectTxs env later nHeight rest = some (view', true)) :
    disconnectTxs env later nHeight ((tx, txundo) :: rest) = some (view, true) := by
  obtain ⟨middle, rfl, ⟨hcb, -⟩ | ⟨-, hspend⟩⟩ := updateCoins_cases h
  · rw [hcb] at notCoinBase
    cases notCoinBase
  · obtain ⟨hlen, hback⟩ := restoreInputs_spendInputs tidy hspend
    have hremove := removeOutputs_storeCoins nHeight (absent_spendInputs hspend absent)
    simp only [disconnectTxs, others, Option.bind_eq_bind, Option.bind_some, hremove, hlen, ne_eq,
      not_true_eq_false, if_false, hback, Bool.and_self]

end Transaction

end KubuCore.Chain
