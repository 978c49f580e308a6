import KubuCore.Chain.Runs

/-!
# Custody of bonds

The bond of every nickname record is an unspent output of the recorded amount
that pays to the recorded owner. A transaction spends the bond of a name only
with an operation on that name, and the operations that spend a bond either
put a new output in its place or leave the record without a bond.
-/

namespace KubuCore.Chain

open Nickname
open Script

/-- Every bond the records hold is in the coins view, with the amount and the
owner of its record. -/
def Custody (records : Records) (coins : CoinsView) : Prop :=
  ∀ name info, records name = some info → info.hasBondOutpoint = true →
    coinAt coins info.getBondOutpoint =
      some ⟨info.bondAmount, getScriptForRawPubKey info.ownerPubKey⟩

theorem isUnspendable_ownerP2PK {key : CPubKey} (h : key.length = compressedSize) :
    isUnspendable (getScriptForRawPubKey key) = false := by
  simp [isUnspendable, getScriptForRawPubKey, pushBytes_compressed h, h, compressedSize,
    maxScriptSize, opReturn]

section Transaction

variable {env : Env} {ctx : BlockContext} {nHeight : Int} {coins : CoinsView} {tx : CTransaction}
  {spent : Spent}

/-- A bond output is in the view once its transaction is connected. -/
theorem coinAt_bondOutput (h : connectTx env ctx nHeight coins tx = .ok spent)
    (values : ∀ txout ∈ tx.vout, 0 ≤ txout.nValue) {ownerPubKey : Bytes} {amount : CAmount}
    {vout : Nat} (key : ValidOwnerKey env ownerPubKey)
    (bond : BondOutput tx ownerPubKey amount vout) :
    coinAt spent.view ⟨env.txHash tx, vout⟩ =
      some ⟨amount, getScriptForRawPubKey ownerPubKey⟩ := by
  obtain ⟨-, -, hupdate, -⟩ := connectTx_spec h
  have hout := bond.output
  rw [key.set_eq] at hout
  rw [updateCoins_spec hupdate, if_pos rfl, fromTx_output]
  refine ⟨hout, ?_, isUnspendable_ownerP2PK key.length_eq⟩
  exact isNull_of_nonneg (values _ (List.mem_of_getElem? hout))

/-- Connecting a transaction keeps the outputs it neither spends nor makes. -/
theorem coinAt_of_unspent (h : connectTx env ctx nHeight coins tx = .ok spent) {o : COutPoint}
    (old : o.hash ≠ env.txHash tx) (unspent : ∀ txin ∈ tx.vin, txin.prevout ≠ o) :
    coinAt spent.view o = coinAt coins o := by
  obtain ⟨-, -, hupdate, -⟩ := connectTx_spec h
  have hnot : o ∉ spentOutpoints tx := by
    intro hmem
    unfold spentOutpoints at hmem
    split at hmem
    · cases hmem
    · obtain ⟨txin, hin, he⟩ := List.mem_map.mp hmem
      exact unspent txin hin he
  rw [updateCoins_spec hupdate, if_neg old, if_neg hnot]

end Transaction

/-! ## One transaction -/

variable {env : Env} {ctx : BlockContext} {nHeight height multiplier : Int} {coins : CoinsView}

variable {item : BlockItem} {spent : Spent} {index : COutPoint → Option Bytes}
  {view view' : LedgerView} {items : List BlockItem} {state : ChainState}

/-- The bond of the record an operation leaves is in custody: it is a new
output, or the old bond, which the transaction does not spend. -/
theorem custody_opStep {op : NicknameOperation} {bond : Option COutPoint}
    {found : Option NicknameInfo} {outcome : Outcome}
    (step : OpStep env height multiplier item op bond found outcome)
    (connected : connectTx env ctx nHeight coins item.tx = .ok spent)
    (values : ∀ txout ∈ item.tx.vout, 0 ≤ txout.nValue)
    (ok : ∀ info, found = some info → RecordOk env height op.nickname info)
    (kept : bond = none → ∀ info, found = some info → info.hasBondOutpoint = true →
      coinAt spent.view info.getBondOutpoint =
        some ⟨info.bondAmount, getScriptForRawPubKey info.ownerPubKey⟩) :
    ∀ info, outcome.record = some info → info.hasBondOutpoint = true →
      coinAt spent.view info.getBondOutpoint =
        some ⟨info.bondAmount, getScriptForRawPubKey info.ownerPubKey⟩ := by
  cases step with
  | register type authorized available key output =>
    rintro _ ⟨⟩ bonded
    rw [getBondOutpoint_of_has bonded]
    exact coinAt_bondOutput connected values key output
  | transfer type isMutable authorized _ key output =>
    rintro _ ⟨⟩ bonded
    rw [getBondOutpoint_of_has bonded]
    exact coinAt_bondOutput connected values key output
  | renew type isMutable authorized _ key increase output =>
    rintro _ ⟨⟩ bonded
    rw [getBondOutpoint_of_has bonded]
    exact coinAt_bondOutput connected values key output
  | @update old type isMutable authorized =>
    rintro _ ⟨⟩ bonded
    exact kept rfl old rfl bonded
  | @release old type isMutable authorized =>
    rintro _ ⟨⟩ bonded
    have unclaimed := (ok _ rfl).unclaimed_of_mutable (Int.le_refl _) isMutable
    have hold : old.hasBondOutpoint = true := (ok _ rfl).hasBondOutpoint_iff.mpr unclaimed
    have hkept := kept rfl _ rfl hold
    rw [getBondOutpoint_of_has hold] at hkept
    rw [getBondOutpoint_of_has bonded]
    exact hkept
  | claimBond =>
    rintro _ ⟨⟩ bonded
    simp [NicknameInfo.hasBondOutpoint, claimRecord] at bonded
  | claimLegacy =>
    rintro _ ⟨⟩

/-- Connecting a transaction keeps the bonds in custody. -/
theorem custody_txStep {rest : List BlockItem}
    (step : TxStep env index height multiplier item view view')
    (ok : ViewOk env index height view (item :: rest))
    (connected : connectTx env ctx nHeight coins item.tx = .ok spent)
    (values : ∀ txout ∈ item.tx.vout, 0 ≤ txout.nValue) (custody : Custody view.records coins) :
    Custody view'.records spent.view := by
  have holds : ∀ name info, view.records name = some info → info.hasBondOutpoint = true →
      Holds view.records name info.getBondOutpoint := by
    intro name info hr hb
    rw [Holds, hr]
    exact currentBond_some.mpr ⟨hb, rfl⟩
  -- A bond that no input spends stays where it is: its id is not that of the transaction.
  have stays : ∀ name info, view.records name = some info → info.hasBondOutpoint = true →
      (∀ txin ∈ item.tx.vin, txin.prevout ≠ info.getBondOutpoint) →
      coinAt spent.view info.getBondOutpoint =
        some ⟨info.bondAmount, getScriptForRawPubKey info.ownerPubKey⟩ := by
    intro name info hr hb unspent
    rw [coinAt_of_unspent connected
      (ok.fresh.unheld List.mem_cons_self (holds name info hr hb)) unspent]
    exact custody name info hr hb
  cases step with
  | plain found unspent =>
    intro name info hr hb
    refine stays name info hr hb fun txin hin he => ?_
    exact unspent txin hin name (.inl (he ▸ holds name info hr hb))
  | @operate op bond outcome found notCoinBase fee spends step =>
    intro name info hr hb
    rw [LedgerView.apply_records] at hr
    split at hr
    · cases ho : outcome.record with
      | some next =>
        rw [ho] at hr
        cases hr
        refine custody_opStep step connected values (fun _ => ok.records.each _ _) ?_ _ ho hb
        intro hnone old hold hbond
        refine stays _ old hold hbond fun txin hin he => ?_
        have hspent := (spends.2 txin hin _ (.inl (he ▸ holds _ old hold hbond))).2
        rw [hnone] at hspent
        cases hspent
      | none =>
        -- Only a claim of a left-over bond leaves the record as it was.
        rw [ho] at hr
        have hr' : view.records op.nickname = some info := by simpa using hr
        refine stays _ info hr' hb fun txin hin he => ?_
        have hspent := (spends.2 txin hin _ (.inl (he ▸ holds _ info hr' hb))).2
        rw [hr'] at step
        cases step with
        | claimLegacy type legacy => exact legacy ⟨hb, by rw [← he]; exact Option.some.inj hspent⟩
        | register | update | transfer | renew | release | claimBond => cases ho
    · rename_i hne
      refine stays name info hr hb fun txin hin he => ?_
      exact hne (spends.2 txin hin _ (.inl (he ▸ holds name info hr hb))).1

/-! ## Runs -/

/-- Connecting the transactions of a block keeps the bonds in custody. -/
theorem custody_blockRun {coins' : CoinsView}
    (run : BlockRun env index height multiplier items view view')
    (ok : ViewOk env index height view items) (coinsRun : CoinsRun env ctx nHeight items coins coins')
    (checked : ∀ item ∈ items, checkTransaction item.tx = .ok ())
    (custody : Custody view.records coins) : Custody view'.records coins' := by
  induction run generalizing coins with
  | nil =>
    cases coinsRun
    exact custody
  | cons step run ih =>
    cases coinsRun with
    | cons connected undo fee coinsRun =>
      have values := (checkTransaction_spec (checked _ List.mem_cons_self)).1
      exact ih (step.viewOk ok) coinsRun (fun item hi => checked item (List.mem_cons_of_mem _ hi))
        (custody_txStep step ok connected values custody)

theorem ChainLinear.custody (h : ChainLinear env state) :
    Custody (storedRecords state.ledger.db) state.coins := by
  induction h with
  | start =>
    intro name info hr
    simp [storedRecords, ChainState.empty, Ledger.empty] at hr
  | connect run fresh accepted ih =>
    have ok := run.ok.ledger
    obtain ⟨blockUndo, txFees, a⟩ := connectBlock_accepted accepted
    obtain ⟨scan, c, hledger⟩ := connect_spec ok fresh a.ledger
    obtain ⟨-, -, -, -, -, checked⟩ := checkBlock_spec a.checked
    have custody := custody_blockRun c.run (ok.db.startOk (by omega) c.fresh) a.coins
      (fun item hi => checked item.tx (c.txs ▸ List.mem_map_of_mem hi)) ih
    rw [hledger, c.records_after ok]
    exact custody

/-- In every reachable state each record with a bond has its bond outpoint
unspent, with exactly the bond amount and exactly the pay-to-pubkey script of
its owner, and no two records share a bond outpoint. -/
theorem bonds_in_custody {env : Env} {state : ChainState} (h : ChainReachable env state) :
    (∀ name info, storedRecords state.ledger.db name = some info → info.hasBondOutpoint = true →
      coinAt state.coins info.getBondOutpoint =
        some ⟨info.bondAmount, getScriptForRawPubKey info.ownerPubKey⟩) ∧
    ∀ name name' info info', storedRecords state.ledger.db name = some info →
      storedRecords state.ledger.db name' = some info' → info.hasBondOutpoint = true →
      info'.hasBondOutpoint = true → info.getBondOutpoint = info'.getBondOutpoint →
      name = name' := by
  refine ⟨h.linear.custody, ?_⟩
  intro name name' info info' hr hr' hb hb' he
  refine h.ok.ledger.db.uniqueBonds name name' info.getBondOutpoint ?_ ?_
  · rw [Holds, hr]
    exact currentBond_some.mpr ⟨hb, rfl⟩
  · rw [Holds, hr', he]
    exact currentBond_some.mpr ⟨hb', rfl⟩

theorem registered_bond_in_custody :
    ∃ info, storedRecords registeredState.ledger.db sampleName = some info ∧
      info.hasBondOutpoint = true ∧
      coinAt registeredState.coins info.getBondOutpoint =
        some ⟨info.bondAmount, getScriptForRawPubKey info.ownerPubKey⟩ := by
  have hbonded : (storedRecords registeredState.ledger.db sampleName).any
      NicknameInfo.hasBondOutpoint = true := by decide +kernel
  obtain ⟨info, hr, hb⟩ := (Option.any_eq_true _ _).mp hbonded
  exact ⟨info, hr, hb, (bonds_in_custody registeredState_reachable).1 sampleName info hr hb⟩

end KubuCore.Chain
