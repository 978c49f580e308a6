import KubuCore.Nickname.Ledger

/-!
# Every run of the ledger is accepted

The converse of `Nickname/Refinement.lean`: where the ledger can step, the pass
over the block accepts. So `BuildNicknameBlockUpdates` accepts a block exactly
when its transactions are a run of the ledger (`build_iff`).
-/

namespace KubuCore.Nickname

open Checked
open Chain
open Nicknames

/-! ## Operations -/

section Operations

variable {env : Env} {op : BlockOp} {fee : CAmount} {outcome : Outcome}

theorem exists_of_record {state : NicknameWorkingState} {info : NicknameInfo}
    (h : state.record = some info) : state.existsNow = true ∧ state.current = info := by
  simp only [NicknameWorkingState.record] at h
  split at h
  · rename_i he
    exact ⟨he, Option.some.inj h⟩
  · cases h

/-- A single spent bond, as the operations look it up. -/
theorem spent_of_bond {spent : SpentBonds} {name : Bytes} {outpoint : COutPoint}
    (shape : spent = [] ∨ ∃ o, spent = [(name, o)]) (h : some outpoint = spentBond spent) :
    spent = [(name, outpoint)] := by
  rcases shape with rfl | ⟨o, rfl⟩
  · cases h
  · cases h
    rfl

theorem spent_of_none {spent : SpentBonds} (h : none = spentBond spent) : spent = [] := by
  cases spent with
  | nil => rfl
  | cons entry rest => cases h

/-- The operation switch accepts what the ledger allows. -/
theorem processOperation_complete (scan : BlockScan) (shape : op.SpendsOwn)
    (h : op.Steps env fee (spentBond op.spentBondOutpoints) outcome) :
    ∃ scan', processOperation env scan op = .ok scan' := by
  unfold BlockOp.Steps at h
  generalize hrecord : op.current.record = found at h
  generalize hspent : spentBond op.spentBondOutpoints = spent at h
  cases h with
  | register type authorized available key bond =>
    have hs := spent_of_none hspent.symm
    have havail : op.current.existsNow = false ∨ availableForRegistration op.status = true := by
      cases he : op.current.existsNow with
      | false => exact .inl rfl
      | true =>
        rw [status_of_exists he]
        exact .inr (available _ (hrecord.symm.trans (record_of_exists he)))
    simp only [processOperation, type, applyRegister, eq_ok]
    exact ⟨_, _, ⟨(), hs, (), authorized, (), havail, (), key, _, bond, rfl⟩, rfl⟩
  | update type isMutable authorized =>
    obtain ⟨he, rfl⟩ := exists_of_record hrecord
    have hs := spent_of_none hspent.symm
    rw [← status_of_exists he] at isMutable
    simp only [processOperation, type, applyUpdate, eq_ok]
    exact ⟨_, _, ⟨(), hs, (), he, (), isMutable, (), authorized, rfl⟩, rfl⟩
  | transfer type isMutable authorized bonded key bond =>
    obtain ⟨he, rfl⟩ := exists_of_record hrecord
    have hs := spent_of_bond shape hspent.symm
    rw [← status_of_exists he] at isMutable
    simp only [processOperation, type, applyTransfer, eq_ok]
    refine ⟨_, _, ⟨(), ?_, (), he, (), isMutable, (), authorized, (), bonded, (), ?_, (), key, _,
      bond, rfl⟩, rfl⟩ <;> simp [hs, BlockOp.spendsOperationBond]
  | renew type isMutable authorized bonded key increase bond =>
    obtain ⟨he, rfl⟩ := exists_of_record hrecord
    have hs := spent_of_bond shape hspent.symm
    rw [← status_of_exists he] at isMutable
    simp only [processOperation, type, applyRenew, eq_ok]
    refine ⟨_, _, ⟨(), ?_, (), he, (), isMutable, (), authorized, (), bonded, (), ?_, (), key, (),
      increase, _, bond, rfl⟩, rfl⟩ <;> simp [hs, BlockOp.spendsOperationBond]
  | release type isMutable authorized =>
    obtain ⟨he, rfl⟩ := exists_of_record hrecord
    have hs := spent_of_none hspent.symm
    rw [← status_of_exists he] at isMutable
    simp only [processOperation, type, applyRelease, eq_ok]
    exact ⟨_, _, ⟨(), hs, (), he, (), isMutable, (), authorized, rfl⟩, rfl⟩
  | claimBond type bonded claimable authorized =>
    obtain ⟨he, rfl⟩ := exists_of_record hrecord
    have hs := spent_of_bond shape hspent.symm
    rw [← status_of_exists he] at claimable
    have hclaim : applyClaimBond env op = .ok (.inl (claimRecord env op.tx op.current.current)) := by
      have hcurrent : op.current.current.hasBondOutpoint = true ∧
          (op.spentBondOutpoints.lookup op.operation.nickname).getD .null =
            op.current.current.getBondOutpoint := ⟨bonded, by simp [hs]⟩
      simp only [applyClaimBond, if_pos hcurrent, eq_ok]
      exact ⟨(), by simp [hs, BlockOp.spendsOperationBond], (), he, (), claimable, (), authorized,
        trivial⟩
    simp only [processOperation, type, hclaim]
    exact ⟨_, rfl⟩
  | @claimLegacy info outpoint type legacy =>
    obtain ⟨he, rfl⟩ := exists_of_record hrecord
    have hs := spent_of_bond shape hspent.symm
    have hclaim : applyClaimBond env op = .ok (.inr outpoint) := by
      have hlookup : (op.spentBondOutpoints.lookup op.operation.nickname).getD .null = outpoint := by
        simp [hs]
      have hlegacy := hlookup ▸ legacy
      simp only [applyClaimBond, if_neg hlegacy, eq_ok]
      exact ⟨(), by simp [hs, BlockOp.spendsOperationBond], (), he, by rw [hlookup]⟩
    simp only [processOperation, type, hclaim]
    exact ⟨_, rfl⟩

end Operations

/-! ## Steps are determined -/

variable {env : Env} {height : Int} {spent : Option COutPoint} {vin : List CTxIn} {name : Bytes}

variable {multiplier : Int} {item : BlockItem} {index : COutPoint → Option Bytes}
  {db : NicknameStateDB} {scan : BlockScan}

theorem OpStep.deterministic {op : NicknameOperation} {found : Option NicknameInfo}
    {outcome outcome' : Outcome}
    (h : OpStep env height multiplier item op spent found outcome)
    (h' : OpStep env height multiplier item op spent found outcome') : outcome = outcome' := by
  have same : ∀ {owner : Bytes} {amount : CAmount} {v w : Nat}, BondOutput item.tx owner amount v →
      BondOutput item.tx owner amount w → v = w := fun hv hw => Except.ok.inj (hv.symm.trans hw)
  generalize hs : spent = spent' at h'
  generalize hf : found = found' at h'
  cases h with
  | register type _ _ _ bond =>
    cases h' with
    | register _ _ _ _ bond' => rw [same bond bond', hf]
    | update type' | release type' => cases type.symm.trans type'
    | transfer | renew | claimBond | claimLegacy => cases hs
  | update type =>
    cases h' with
    | update => cases hf; rfl
    | register type' | release type' => cases type.symm.trans type'
    | transfer | renew | claimBond | claimLegacy => cases hs
  | release type =>
    cases h' with
    | release => cases hf; rfl
    | register type' | update type' => cases type.symm.trans type'
    | transfer | renew | claimBond | claimLegacy => cases hs
  | transfer type _ _ _ _ bond =>
    cases h' with
    | transfer _ _ _ _ _ bond' => cases hf; rw [same bond bond']
    | renew type' | claimBond type' | claimLegacy type' => cases type.symm.trans type'
    | register | update | release => cases hs
  | renew type _ _ _ _ _ bond =>
    cases h' with
    | renew _ _ _ _ _ _ bond' => cases hf; rw [same bond bond']
    | transfer type' | claimBond type' | claimLegacy type' => cases type.symm.trans type'
    | register | update | release => cases hs
  | claimBond type bonded =>
    cases h' with
    | claimBond => cases hf; rfl
    | claimLegacy _ legacy =>
      cases hf
      exact absurd ⟨bonded, (Option.some.inj hs).symm⟩ legacy
    | transfer type' | renew type' => cases type.symm.trans type'
    | register | update | release => cases hs
  | claimLegacy type legacy =>
    cases h' with
    | claimLegacy => cases hs; rfl
    | claimBond _ bonded =>
      cases hf
      exact absurd ⟨bonded, Option.some.inj hs⟩ legacy
    | transfer type' | renew type' => cases type.symm.trans type'
    | register | update | release => cases hs

/-- What a transaction spends of the bonds is determined by its inputs. -/
theorem SpendsBond.deterministic {records : Records} {spent' : Option COutPoint}
    (h : SpendsBond index records vin name spent) (h' : SpendsBond index records vin name spent') :
    spent = spent' := by
  cases spent with
  | some outpoint =>
    obtain ⟨⟨txin, hin, rfl⟩, bond⟩ := h.1 outpoint rfl
    exact (h'.2 txin hin name bond).2.symm
  | none =>
    cases spent' with
    | none => rfl
    | some outpoint =>
      obtain ⟨⟨txin, hin, rfl⟩, bond⟩ := h'.1 outpoint rfl
      exact (h.2 txin hin name bond).2

theorem TxStep.deterministic {view left right : LedgerView}
    (h : TxStep env index height multiplier item view left)
    (h' : TxStep env index height multiplier item view right) : left = right := by
  cases h with
  | plain found =>
    cases h' with
    | plain => rfl
    | operate found' => cases found.symm.trans found'
  | operate found _ _ spends step =>
    cases h' with
    | plain found' => cases found.symm.trans found'
    | operate found' _ _ spends' step' =>
      cases found.symm.trans found'
      cases spends.deterministic spends'
      rw [step.deterministic step']

/-! ## Transactions -/

/-- The input loop never rejects when all bonds among the inputs are one bond
of one name; it may have been collected already. -/
theorem collectSpentBonds_total {spent : SpentBonds} {outpoint : COutPoint}
    (dbOk : DbOk env height db) (ok : ScanOk db scan) (unique : UniqueBonds (scan.records db))
    (only : ∀ txin ∈ vin, ∀ m, BondOf (bondIndex db) (scan.records db) txin.prevout m →
      m = name ∧ txin.prevout = outpoint)
    (shape : spent = [] ∨ spent = [(name, outpoint)]) :
    ∃ scan' spent', collectSpentBonds db scan spent vin = .ok (scan', spent') ∧
      (spent' = [] ∨ spent' = [(name, outpoint)]) := by
  induction vin generalizing scan spent with
  | nil => exact ⟨scan, spent, rfl, shape⟩
  | cons txin rest ih =>
    cases hl : lookupBondNicknameByOutpoint db scan txin.prevout with
    | mk scan₁ result =>
      obtain ⟨ok₁, hview, hresult⟩ := lookup_spec dbOk ok unique hl
      have hrecords : scan₁.records db = scan.records db := congrArg LedgerView.records hview
      have next := fun {spent₁} => @ih scan₁ spent₁ ok₁ (hrecords ▸ unique)
        (fun t ht => hrecords ▸ only t (List.mem_cons_of_mem _ ht))
      cases result with
      | none => simpa only [collectSpentBonds, hl] using next shape
      | some m =>
        obtain ⟨rfl, hprevout⟩ := only txin List.mem_cons_self m ((hresult m).mp rfl)
        have hadd : addSpentBond spent m txin.prevout = .ok [(m, outpoint)] := by
          rcases shape with rfl | rfl
          · simp [addSpentBond, hprevout]
          · simp [addSpentBond, hprevout, pure, Except.pure]
        obtain ⟨scan', spent', hrest, hshape⟩ := next (.inr rfl)
        refine ⟨scan', spent', ?_, hshape⟩
        simp only [collectSpentBonds, hl, hadd, ok_bind, hrest]

/-- The bonds collected are the one the transaction spends. -/
theorem collectSpentBonds_complete (dbOk : DbOk env height db) (ok : ScanOk db scan)
    (unique : UniqueBonds (scan.records db))
    (spends : SpendsBond (bondIndex db) (scan.records db) vin name spent) :
    ∃ scan', collectSpentBonds db scan [] vin =
        .ok (scan', (spent.map fun outpoint => (name, outpoint)).toList) ∧
      ScanOk db scan' ∧ scan'.view db = scan.view db := by
  have only : ∀ txin ∈ vin, ∀ m, BondOf (bondIndex db) (scan.records db) txin.prevout m →
      m = name ∧ txin.prevout = spent.getD .null := by
    intro txin hin m hm
    obtain ⟨hname, hspent⟩ := spends.2 txin hin m hm
    exact ⟨hname, by rw [hspent, Option.getD_some]⟩
  obtain ⟨scan', spent', hcollect, shape⟩ := collectSpentBonds_total dbOk ok unique only (.inl rfl)
  obtain ⟨ok', hview, spentOk⟩ := collectSpentBonds_spec dbOk ok unique
    (⟨by simp, by simp⟩ : SpentOk (bondIndex db) (scan.records db) [] []) hcollect
  refine ⟨scan', ?_, ok', hview⟩
  suffices hs : spent' = (spent.map fun outpoint => (name, outpoint)).toList by rw [← hs, hcollect]
  cases spent with
  | some outpoint =>
    obtain ⟨⟨txin, hin, rfl⟩, bond⟩ := spends.1 outpoint rfl
    have hl := spentOk.found txin.prevout (List.mem_map_of_mem hin) name bond
    rcases shape with rfl | rfl
    · cases hl
    · rfl
  | none =>
    rcases shape with rfl | rfl
    · rfl
    · obtain ⟨hmem, bond⟩ := spentOk.bond _ List.mem_cons_self
      obtain ⟨txin, hin, he⟩ := List.mem_map.mp hmem
      cases (spends.2 txin hin name (he ▸ bond)).2

section Transactions

variable {env : Env} {db : NicknameStateDB} {height multiplier before : Int} {scan : BlockScan}
  {item : BlockItem} {view' : LedgerView}

/-- A transaction without nickname data that spends no bond passes and leaves
the ledger as it was. -/
theorem processTx_plain (dbOk : DbOk env before db) (ok : ScanOk db scan)
    (unique : UniqueBonds (scan.records db))
    (found : extractNicknameOperationFromTx env item.tx = .ok none)
    (unspent : ∀ txin ∈ item.tx.vin, ∀ name,
      ¬ BondOf (bondIndex db) (scan.records db) txin.prevout name) :
    ∃ scan', processTx env db height multiplier scan item = .ok scan' ∧ ScanOk db scan' ∧
      scan'.view db = scan.view db := by
  have spends : SpendsBond (bondIndex db) (scan.records db) item.tx.vin [] none :=
    ⟨by simp, fun txin hin m hm => absurd hm (unspent txin hin m)⟩
  obtain ⟨scan', hcollect, ok', hview⟩ := collectSpentBonds_complete dbOk ok unique spends
  refine ⟨scan', ?_, ok', hview⟩
  simp only [processTx, found, hcollect]
  rfl

section

variable (dbOk : DbOk env before db) (ok : ScanOk db scan) (unique : UniqueBonds (scan.records db))
include dbOk ok unique

/-- The loop body accepts a transaction when the ledger can step. -/
theorem processTx_accepts
    (h : TxStep env (bondIndex db) height multiplier item (scan.view db) view') :
    ∃ scan', processTx env db height multiplier scan item = .ok scan' := by
  cases h with
  | plain found unspent =>
    obtain ⟨scan', hprocess, -⟩ := processTx_plain dbOk ok unique found unspent
    exact ⟨scan', hprocess⟩
  | @operate op spent outcome found notCoinBase fee spends step =>
    obtain ⟨scan₁, hcollect, ok₁, hview₁⟩ := collectSpentBonds_complete dbOk ok unique spends
    have hrecords₁ : scan₁.records db = scan.records db := congrArg LedgerView.records hview₁
    have normal :=
      normalizeNickname_of_valid (extractNicknameOperationFromTx_wellFormed found).validName
    cases hload : loadState db scan₁ op.nickname with
    | mk scan₂ current =>
      obtain ⟨-, -, -, hrecord⟩ := loadState_spec ok₁ (hrecords₁ ▸ unique) normal hload
      rw [hrecords₁] at hrecord
      have shape : (spent.map fun outpoint => (op.nickname, outpoint)).toList = [] ∨
          ∃ o, (spent.map fun outpoint => (op.nickname, outpoint)).toList = [(op.nickname, o)] := by
        cases spent with
        | none => exact .inl rfl
        | some outpoint => exact .inr ⟨outpoint, rfl⟩
      have hspent : spentBond (spent.map fun outpoint => (op.nickname, outpoint)).toList = spent := by
        cases spent <;> rfl
      have accepted : ∃ scan', processOperation env scan₂
          ⟨item.tx, item.txundo, op, height, multiplier,
            (spent.map fun outpoint => (op.nickname, outpoint)).toList, current⟩ = .ok scan' :=
        processOperation_complete scan₂ shape (by rw [hspent, BlockOp.Steps, hrecord]; exact step)
      obtain ⟨scan', hoperation⟩ := accepted
      refine ⟨scan', ?_⟩
      simp only [processTx, found, hcollect, ok_bind, hload, eq_ok]
      refine ⟨(), notCoinBase, (), fee, (), ?_, (), ?_, hoperation⟩
      · cases spent <;> simp
      · cases spent <;> simp

/-- The loop body accepts exactly the transactions the ledger can step over. -/
theorem processTx_iff :
    (∃ scan', processTx env db height multiplier scan item = .ok scan') ↔
      ∃ view', TxStep env (bondIndex db) height multiplier item (scan.view db) view' := by
  constructor
  · rintro ⟨scan', h⟩
    obtain ⟨view', step, -⟩ := processTx_refines dbOk ok unique h
    exact ⟨view', step⟩
  · rintro ⟨view', h⟩
    exact processTx_accepts dbOk ok unique h

end

end Transactions

/-! ## Blocks -/

variable {db : NicknameStateDB} {before : Int} {view : LedgerView} {block : CBlock}

variable {items : List BlockItem} {blockUndo : CBlockUndo} {txFees : List CAmount}

theorem scan_complete {env : Env} {height multiplier : Int} {scan : BlockScan} {view' : LedgerView}
    (dbOk : DbOk env before db) (ok : ScanOk db scan) (hview : scan.view db = view)
    (viewOk : ViewOk env (bondIndex db) height view items)
    (run : BlockRun env (bondIndex db) height multiplier items view view') :
    ∃ scan', items.foldlM (processTx env db height multiplier) scan = .ok scan' ∧
      ScanOk db scan' ∧ scan'.view db = view' := by
  induction run generalizing scan with
  | nil => exact ⟨scan, rfl, ok, hview⟩
  | cons step run ih =>
    subst hview
    obtain ⟨scan₁, hprocess⟩ := processTx_accepts dbOk ok viewOk.records.unique step
    obtain ⟨ok₁, step₁⟩ := processTx_follows dbOk ok viewOk hprocess
    obtain ⟨scan', hrest, done⟩ := ih ok₁ (step₁.deterministic step) (step.viewOk viewOk)
    refine ⟨scan', ?_, done⟩
    rw [List.foldlM_cons, hprocess, ok_bind, hrest]

/-- `BuildNicknameBlockUpdates` accepts a block, given undo data and fees for
its transactions, exactly when they are a run of the ledger. -/
theorem build_iff {env : Env} {height : Int} (dbOk : DbOk env before db) (le : before ≤ height)
    (fresh : FreshItems env (bondIndex db) (startView db) (blockItems block blockUndo txFees)) :
    (∃ updates, buildNicknameBlockUpdates env db block blockUndo txFees height = .ok updates) ↔
      (block.vtx = [] ∨ blockUndo.length + 1 = block.vtx.length) ∧
        txFees.length = block.vtx.length ∧
        ∃ view, BlockRun env (bondIndex db) height (readPricingMultiplierPermille db)
          (blockItems block blockUndo txFees) (startView db) view := by
  constructor
  · rintro ⟨updates, h⟩
    obtain ⟨scan, -, -, run⟩ := build_refines dbOk le fresh h
    simp only [buildNicknameBlockUpdates, eq_ok] at h
    obtain ⟨-, hundo, -, hfees, -⟩ := h
    exact ⟨hundo, hfees, _, run⟩
  · rintro ⟨hundo, hfees, view, run⟩
    obtain ⟨scan, hscan, -⟩ := scan_complete dbOk (scanOk_empty db) (view_empty db)
      (dbOk.startOk le fresh) run
    refine ⟨scan.toUpdates height, ?_⟩
    simp only [buildNicknameBlockUpdates, eq_ok]
    exact ⟨(), hundo, (), hfees, scan, hscan, rfl⟩

/-- After a coinbase without nickname data that spends no bond, a block with
one more transaction is accepted exactly when the ledger can step over that
transaction, whatever its id. -/
theorem build_single_iff {env : Env} {coinbase tx : CTransaction} {txundo : CTxUndo}
    {coinbaseFee fee : CAmount} {height : Int} (dbOk : DbOk env before db)
    (txs : block.vtx = [coinbase, tx])
    (found : extractNicknameOperationFromTx env coinbase = .ok none)
    (unspent : ∀ txin ∈ coinbase.vin, ∀ name,
      ¬ BondOf (bondIndex db) (storedRecords db) txin.prevout name) :
    (∃ updates, buildNicknameBlockUpdates env db block [txundo] [coinbaseFee, fee] height =
        .ok updates) ↔
      ∃ view, TxStep env (bondIndex db) height (readPricingMultiplierPermille db)
        ⟨tx, some txundo, fee⟩ (startView db) view := by
  have hrecords : ({} : BlockScan).records db = storedRecords db :=
    congrArg LedgerView.records (view_empty db)
  obtain ⟨scan, hcoinbase, ok, hview⟩ : ∃ scan,
      processTx env db height (readPricingMultiplierPermille db) {} ⟨coinbase, none, coinbaseFee⟩ =
        .ok scan ∧ ScanOk db scan ∧ scan.view db = ({} : BlockScan).view db :=
    processTx_plain dbOk (scanOk_empty db) (hrecords ▸ dbOk.uniqueBonds) found
      (hrecords ▸ unspent)
  rw [view_empty] at hview
  have unique : UniqueBonds (scan.records db) := by
    rw [show scan.records db = storedRecords db from congrArg LedgerView.records hview]
    exact dbOk.uniqueBonds
  have hitems : blockItems block [txundo] [coinbaseFee, fee] =
      [⟨coinbase, none, coinbaseFee⟩, ⟨tx, some txundo, fee⟩] := by
    rw [blockItems, txs]
    rfl
  rw [← hview, ← processTx_iff dbOk ok unique]
  simp only [buildNicknameBlockUpdates, eq_ok, hitems, List.foldlM_cons, txs,
    hcoinbase]
  constructor
  · rintro ⟨_, -, -, -, -, scan', ⟨_, h, scan'', hprocess, -⟩, -⟩
    cases h
    exact ⟨scan'', hprocess⟩
  · rintro ⟨scan', hprocess⟩
    exact ⟨_, (), .inr rfl, (), rfl, scan', ⟨scan, rfl, scan', hprocess, rfl⟩, rfl⟩

theorem BlockRun.deterministic {env : Env} {index : COutPoint → Option Bytes}
    {height multiplier : Int} {left right : LedgerView}
    (h : BlockRun env index height multiplier items view left)
    (h' : BlockRun env index height multiplier items view right) : left = right := by
  induction h with
  | nil =>
    cases h'
    rfl
  | cons step run ih =>
    cases h' with
    | cons step' run' =>
      rw [step.deterministic step'] at ih
      exact ih run'

/-- A run of the ledger can be connected, and leaves the records it ends with. -/
theorem connect_of_run {env : Env} {ledger : Ledger} (ok : LedgerOk env ledger)
    (fresh : FreshBlock env ledger block)
    (undoSize : blockUndo.length + 1 = block.vtx.length) (feeSize : txFees.length = block.vtx.length)
    (run : BlockRun env (bondIndex ledger.db) (ledger.height + 1)
      (readPricingMultiplierPermille ledger.db) (blockItems block blockUndo txFees)
      (startView ledger.db) view) :
    ∃ ledger', ledger.connect env block blockUndo txFees = .ok ledger' ∧
      ledger'.chain = block :: ledger.chain ∧ storedRecords ledger'.db = view.records := by
  have hitems : (blockItems block blockUndo txFees).map BlockItem.tx = block.vtx :=
    zipWith3_tx _ _ _ (by simpa using undoSize) feeSize
  have hfresh := ok.freshItems fresh hitems
  obtain ⟨updates, hbuild⟩ := (build_iff ok.db (by omega) hfresh).mpr
    ⟨.inr undoSize, feeSize, view, run⟩
  have hconnect : ledger.connect env block blockUndo txFees =
      .ok ⟨writeNicknameBatch env ledger.db block.hash updates, block :: ledger.chain⟩ := by
    rw [Ledger.connect, hbuild]
    rfl
  obtain ⟨scan, c, hledger⟩ := connect_spec ok fresh hconnect
  refine ⟨_, hconnect, rfl, ?_⟩
  rw [hledger, ← c.run.deterministic run]
  exact c.done.block_nickname ok.db

end KubuCore.Nickname
