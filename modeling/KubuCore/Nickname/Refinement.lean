import KubuCore.Nickname.Scan

/-!
# Accepted blocks are runs of the ledger

The operation switch of `BuildNicknameBlockUpdates` performs an `OpStep`, its
loop body a `TxStep`, and the loop a run of them (`scan_refines`).
-/

namespace KubuCore.Nickname

open Checked
open Chain
open Nicknames

/-! ## Operations -/

section Operations

variable {env : Env} {op : BlockOp} {next : NicknameInfo} (fee : CAmount)

/-- The step an operation of a block takes. -/
abbrev BlockOp.Steps (env : Env) (op : BlockOp) (fee : CAmount) (spent : Option COutPoint)
    (outcome : Outcome) : Prop :=
  OpStep env op.blockHeight op.pricingMultiplierPermille ⟨op.tx, op.txundo, fee⟩ op.operation spent
    op.current.record outcome

/-- An operation spends no bond, or one of its own name. -/
abbrev BlockOp.SpendsOwn (op : BlockOp) : Prop :=
  op.spentBondOutpoints = [] ∨ ∃ o, op.spentBondOutpoints = [(op.operation.nickname, o)]

theorem record_of_exists (h : op.current.existsNow = true) :
    op.current.record = some op.current.current := by
  simp [NicknameWorkingState.record, h]

theorem status_of_exists (h : op.current.existsNow = true) :
    op.status = op.current.current.getStatus op.blockHeight := by
  simp [BlockOp.status, h]

theorem spentBond_of_lookup {spent : SpentBonds} {name : Bytes} {outpoint : COutPoint}
    (shape : spent = [] ∨ ∃ o, spent = [(name, o)]) (h : spent.lookup name = some outpoint) :
    spentBond spent = some outpoint := by
  rcases shape with rfl | ⟨o, rfl⟩
  · cases h
  · simpa [spentBond] using h

theorem applyRegister_step (type : op.operation.type = .register)
    (h : applyRegister env op = .ok next) :
    op.spentBondOutpoints = [] ∧ op.Steps env fee none
      (.register next (retiredBy op.blockHeight op.current.record)) := by
  simp only [applyRegister, eq_ok] at h
  obtain ⟨-, hspent, ⟨⟩, hauth, -, havail, -, hkey, vout, hbond, rfl⟩ := h
  refine ⟨hspent, .register type hauth (fun info hi => ?_) hkey hbond⟩
  cases he : op.current.existsNow with
  | false => simp [NicknameWorkingState.record, he] at hi
  | true =>
    rw [record_of_exists he] at hi
    cases hi
    rw [← status_of_exists he]
    simpa [he] using havail

theorem applyUpdate_step (type : op.operation.type = .update) (h : applyUpdate env op = .ok next) :
    op.spentBondOutpoints = [] ∧ op.Steps env fee none (.store next) := by
  simp only [applyUpdate, eq_ok] at h
  obtain ⟨-, hspent, -, he, -, hmut, ⟨⟩, hauth, rfl⟩ := h
  rw [status_of_exists he] at hmut
  rw [BlockOp.Steps, record_of_exists he]
  exact ⟨hspent, .update type hmut hauth⟩

theorem applyTransfer_step (type : op.operation.type = .transfer) (shape : op.SpendsOwn)
    (h : applyTransfer env op = .ok next) :
    op.Steps env fee (spentBond op.spentBondOutpoints) (.store next) := by
  simp only [applyTransfer, eq_ok] at h
  obtain ⟨-, -, -, he, -, hmut, ⟨⟩, hauth, -, hbonded, -, hcurrent, -, hkey, vout, hbond, rfl⟩ := h
  rw [status_of_exists he] at hmut
  rw [BlockOp.Steps, record_of_exists he, spentBond_of_lookup shape hcurrent]
  exact .transfer type hmut hauth hbonded hkey hbond

theorem applyRenew_step (type : op.operation.type = .renew) (shape : op.SpendsOwn)
    (h : applyRenew env op = .ok next) :
    op.Steps env fee (spentBond op.spentBondOutpoints) (.store next) := by
  simp only [applyRenew, eq_ok] at h
  obtain ⟨-, -, -, he, -, hmut, ⟨⟩, hauth, -, hbonded, -, hcurrent, -, hkey, -, hinc, vout, hbond,
    rfl⟩ := h
  rw [status_of_exists he] at hmut
  rw [BlockOp.Steps, record_of_exists he, spentBond_of_lookup shape hcurrent]
  exact .renew type hmut hauth hbonded hkey hinc hbond

theorem applyRelease_step (type : op.operation.type = .release)
    (h : applyRelease env op = .ok next) :
    op.spentBondOutpoints = [] ∧ op.Steps env fee none (.store next) := by
  simp only [applyRelease, eq_ok] at h
  obtain ⟨-, hspent, -, he, -, hmut, ⟨⟩, hauth, rfl⟩ := h
  rw [status_of_exists he] at hmut
  rw [BlockOp.Steps, record_of_exists he]
  exact ⟨hspent, .release type hmut hauth⟩

theorem applyClaimBond_step (type : op.operation.type = .claimBond) (shape : op.SpendsOwn)
    {result : NicknameInfo ⊕ COutPoint} (h : applyClaimBond env op = .ok result) :
    op.Steps env fee (spentBond op.spentBondOutpoints) (result.elim .store .claimLegacy) := by
  simp only [applyClaimBond, eq_ok] at h
  obtain ⟨-, ⟨hspends, -⟩, -, he, h⟩ := h
  obtain ⟨o, ho⟩ := Option.isSome_iff_exists.mp hspends
  rw [ho, Option.getD_some] at h
  rw [BlockOp.Steps, record_of_exists he, spentBond_of_lookup shape ho]
  split_ifs at h with hcurrent
  · simp only [eq_ok] at h
    obtain ⟨-, hstatus, ⟨⟩, hauth, rfl⟩ := h
    rw [status_of_exists he] at hstatus
    rw [hcurrent.2]
    exact .claimBond type hcurrent.1 hstatus hauth
  · cases h
    exact .claimLegacy type hcurrent

theorem retiredBond_eq (op : BlockOp) :
    op.retiredBond = ((retiredBy op.blockHeight op.current.record).map
      fun outpoint => (outpoint, op.operation.nickname)).toList := by
  cases he : op.current.existsNow with
  | false => simp [BlockOp.retiredBond, NicknameWorkingState.record, he, retiredBy]
  | true =>
    rw [record_of_exists he, retiredBy, BlockOp.retiredBond, status_of_exists he]
    simp only [he, true_and]
    split <;> rfl

end Operations

/-! ## Storing -/

section Storing

variable {db : NicknameStateDB} {scan : BlockScan} {op : BlockOp} {info : NicknameInfo}

theorem stateOk_stored (ok : ScanOk db scan)
    (loaded : scan.states[op.operation.nickname]? = some op.current) :
    StateOk db op.operation.nickname
      { op.current with current := info, existsNow := true, dirty := true } := by
  have old := ok.states _ _ loaded
  exact ⟨old.loaded, old.normal, old.before, by simp, fun _ => rfl⟩

theorem records_stored (m : Bytes) :
    (scan.storeRecord op info).1.records db m =
      (scan.records db).set op.operation.nickname info m := by
  simp only [BlockScan.storeRecord, records_setState, Records.set, NicknameWorkingState.record]
  by_cases h : op.operation.nickname = m
  · simp [h]
  · simp [h, Ne.symm h]

theorem storeRecord_view :
    (scan.storeRecord op info).1.view db =
      (scan.view db).apply op.operation.nickname (.store info) := by
  apply LedgerView.ext
  · funext m
    exact records_stored m
  all_goals rfl

theorem storeRecord_ok (ok : ScanOk db scan)
    (loaded : scan.states[op.operation.nickname]? = some op.current)
    (same : currentBond (some info) = currentBond op.current.record) :
    ScanOk db (scan.storeRecord op info).1 := by
  refine scanOk_store ok (stateOk_stored ok loaded) ?_
  rw [ok.held, loaded]
  exact same.symm

/-- Storing a record with a bond no other name holds. -/
theorem storeRecordAndBond_ok (ok : ScanOk db scan)
    (loaded : scan.states[op.operation.nickname]? = some op.current)
    (fresh : ∀ m outpoint, m ≠ op.operation.nickname → currentBond (some info) = some outpoint →
      ¬ Holds (scan.records db) m outpoint) :
    ScanOk db (scan.storeRecordAndBond op info) ∧
      (scan.storeRecordAndBond op info).view db =
        (scan.view db).apply op.operation.nickname (.store info) := by
  have hunique : ∀ (m : Bytes) (outpoint : COutPoint), m ≠ op.operation.nickname →
      currentBond (some info) = some outpoint →
      scan.nicknameBondOutpoints[m]? ≠ some outpoint := fun m o hne hb hm =>
    fresh m o hne hb (ok.holds_of_cached hm)
  refine ⟨scanOk_storeAndIndex ok (stateOk_stored ok loaded) hunique, ?_⟩
  obtain ⟨hstates, hups, hers, hcount, -, -⟩ := indexBondOutpoint_spec
    (scan.storeRecord op info).1 op.operation.nickname
    { op.current with current := info, existsNow := true, dirty := true } ok.owned hunique
  rw [← storeRecord_view]
  apply LedgerView.ext
  · funext m
    simp only [BlockScan.view, BlockScan.records, BlockScan.storeRecordAndBond]
    simp only [BlockScan.storeRecord] at hstates ⊢
    rw [hstates]
  · exact hups
  · exact hers
  · exact hcount

end Storing

/-! ## Transactions -/

variable {env : Env} {height before multiplier : Int} {db : NicknameStateDB}
  {scan scan' : BlockScan}

/-- An operation that spends no bond and registers nothing keeps the bond. -/
theorem OpStep.same_bond {item : BlockItem} {op : NicknameOperation} {found : Option NicknameInfo}
    {next : NicknameInfo}
    (h : OpStep env height multiplier item op none found (.store next))
    (ok : ∀ info, found = some info → RecordOk env height op.nickname info) :
    currentBond (some next) = currentBond found := by
  cases h with
  | update => rfl
  | release type isMutable =>
    have unclaimed := (ok _ rfl).unclaimed_of_mutable (Int.le_refl _) isMutable
    simp [currentBond, NicknameInfo.hasBondOutpoint, NicknameInfo.getBondOutpoint, releaseRecord,
      unclaimed]

/-- What the working state relies on: the records are sound, and no bond of theirs is made by the
transaction. -/
structure Fits (env : Env) (height : Int) (records : Records) (tx : CTransaction) : Prop where
  sound : RecordsOk env height records
  fresh : ∀ name outpoint, Holds records name outpoint → outpoint.hash ≠ env.txHash tx

/-- An accepted operation is a step of the ledger, and the working state
follows it. -/
theorem processOperation_refines {op : BlockOp} (fee : CAmount) (ok : ScanOk db scan)
    (loaded : scan.states[op.operation.nickname]? = some op.current) (shape : op.SpendsOwn)
    (h : processOperation env scan op = .ok scan') :
    ∃ outcome, OpStep env op.blockHeight op.pricingMultiplierPermille ⟨op.tx, op.txundo, fee⟩
        op.operation (spentBond op.spentBondOutpoints) (scan.records db op.operation.nickname)
        outcome ∧
      (Fits env op.blockHeight (scan.records db) op.tx → ScanOk db scan' ∧
        scan'.view db = (scan.view db).apply op.operation.nickname outcome) := by
  have hrecord : scan.records db op.operation.nickname = op.current.record :=
    records_of_loaded loaded
  have each : ∀ {height}, RecordsOk env height (scan.records db) →
      ∀ info, op.current.record = some info → RecordOk env height op.operation.nickname info :=
    fun recordsOk info hi => recordsOk.each _ _ (hrecord.trans hi)
  rw [hrecord]
  -- A bond of the new record is new, or the old bond of the same name.
  have distinct : ∀ {spent : Option COutPoint} {outcome : Outcome} {info : NicknameInfo},
      op.Steps env fee spent outcome → outcome.record = some info →
      Fits env op.blockHeight (scan.records db) op.tx →
      ∀ m outpoint, m ≠ op.operation.nickname → currentBond (some info) = some outpoint →
        ¬ Holds (scan.records db) m outpoint := by
    intro spent outcome info step hr fits m outpoint hne hb hm
    rw [← hr] at hb
    rcases step.bond_origin (each fits.sound) hb with ⟨-, hid⟩ | ⟨-, hold⟩
    · exact fits.fresh m outpoint hm hid
    · refine hne (fits.sound.unique m op.operation.nickname outpoint hm ?_)
      rw [Holds, hrecord]
      exact hold
  unfold processOperation at h
  split at h
  · rename_i type
    obtain ⟨next, happly, hscan⟩ := bind_eq_ok.mp h
    obtain ⟨hspent, step⟩ := applyRegister_step fee type happly
    cases hscan
    rw [hspent]
    refine ⟨_, step, fun fits => ?_⟩
    obtain ⟨ok', hview⟩ := storeRecordAndBond_ok ok loaded (distinct step rfl fits)
    refine ⟨{ ok' with }, ?_⟩
    simp only [BlockScan.view, LedgerView.apply, retiredBond_eq, LedgerView.mk.injEq] at hview ⊢
    exact ⟨hview.1, by rw [hview.2.1], hview.2.2.1, by rw [hview.2.2.2]⟩
  · rename_i type
    obtain ⟨next, happly, hscan⟩ := bind_eq_ok.mp h
    obtain ⟨hspent, step⟩ := applyUpdate_step fee type happly
    cases hscan
    rw [hspent]
    exact ⟨_, step, fun fits =>
      ⟨storeRecord_ok ok loaded (step.same_bond (each fits.sound)), storeRecord_view⟩⟩
  · rename_i type
    obtain ⟨next, happly, hscan⟩ := bind_eq_ok.mp h
    have step := applyTransfer_step fee type shape happly
    cases hscan
    exact ⟨_, step, fun fits => storeRecordAndBond_ok ok loaded (distinct step rfl fits)⟩
  · rename_i type
    obtain ⟨next, happly, hscan⟩ := bind_eq_ok.mp h
    have step := applyRenew_step fee type shape happly
    cases hscan
    exact ⟨_, step, fun fits => storeRecordAndBond_ok ok loaded (distinct step rfl fits)⟩
  · rename_i type
    obtain ⟨next, happly, hscan⟩ := bind_eq_ok.mp h
    obtain ⟨hspent, step⟩ := applyRelease_step fee type happly
    cases hscan
    rw [hspent]
    exact ⟨_, step, fun fits =>
      ⟨storeRecord_ok ok loaded (step.same_bond (each fits.sound)), storeRecord_view⟩⟩
  · rename_i type
    obtain ⟨result, happly, hscan⟩ := bind_eq_ok.mp h
    have step := applyClaimBond_step fee type shape happly
    cases result with
    | inl next =>
      cases hscan
      exact ⟨_, step, fun fits => storeRecordAndBond_ok ok loaded (distinct step rfl fits)⟩
    | inr outpoint =>
      cases hscan
      exact ⟨_, step, fun _ => ⟨{ ok with }, rfl⟩⟩
  · cases h

/-- An accepted transaction is a step of the ledger, and the working state
follows it. -/
theorem processTx_refines {item : BlockItem} (dbOk : DbOk env before db) (ok : ScanOk db scan)
    (unique : UniqueBonds (scan.records db))
    (h : processTx env db height multiplier scan item = .ok scan') :
    ∃ view', TxStep env (bondIndex db) height multiplier item (scan.view db) view' ∧
      (Fits env height (scan.records db) item.tx → ScanOk db scan' ∧ scan'.view db = view') := by
  simp only [processTx, bind_eq_ok] at h
  obtain ⟨found, hfound, ⟨scan₁, spent⟩, hcollect, h⟩ := h
  obtain ⟨ok₁, hview₁, spentOk⟩ := collectSpentBonds_spec dbOk ok unique
    (⟨by simp, by simp⟩ : SpentOk (bondIndex db) (scan.records db) [] []) hcollect
  have hrecords₁ : scan₁.records db = scan.records db := congrArg LedgerView.records hview₁
  cases found with
  | none =>
    simp only [eq_ok] at h
    obtain ⟨-, rfl, rfl⟩ := h
    refine ⟨_, .plain hfound fun txin hin name hb => ?_, fun _ => ⟨ok₁, hview₁⟩⟩
    cases spentOk.found txin.prevout (List.mem_map_of_mem hin) name hb
  | some operation =>
    simp only [eq_ok] at h
    obtain ⟨-, hcoinbase, -, hfee, h⟩ := h
    cases hload : loadState db scan₁ operation.nickname with
    | mk scan₂ current =>
      have normal :=
        normalizeNickname_of_valid (extractNicknameOperationFromTx_wellFormed hfound).validName
      obtain ⟨ok₂, hview₂, hloaded, -⟩ := loadState_spec ok₁ (hrecords₁ ▸ unique) normal hload
      rw [hview₁] at hview₂
      have hrecords₂ : scan₂.records db = scan.records db := congrArg LedgerView.records hview₂
      simp only [hload] at h
      obtain ⟨-, hone, -, hown, h⟩ := h
      have shape := spent_shape hone hown
      obtain ⟨outcome, step, follows⟩ := processOperation_refines item.fee ok₂ hloaded shape h
      rw [hview₂, hrecords₂] at follows
      rw [hrecords₂] at step
      exact ⟨_, .operate hfound hcoinbase hfee (spendsBond_of_spentOk spentOk shape) step, follows⟩

/-- In a block whose ledger is sound the working state stays so. -/
theorem processTx_follows {item : BlockItem} {rest : List BlockItem} (dbOk : DbOk env before db)
    (ok : ScanOk db scan)
    (viewOk : ViewOk env (bondIndex db) height (scan.view db) (item :: rest))
    (h : processTx env db height multiplier scan item = .ok scan') :
    ScanOk db scan' ∧
      TxStep env (bondIndex db) height multiplier item (scan.view db) (scan'.view db) := by
  obtain ⟨view', step, follows⟩ := processTx_refines dbOk ok viewOk.records.unique h
  obtain ⟨ok', rfl⟩ := follows
    ⟨viewOk.records, fun _ _ holds => viewOk.fresh.unheld List.mem_cons_self holds⟩
  exact ⟨ok', step⟩

/-! ## Blocks -/

/-- The transaction loop is a run of the ledger. -/
theorem scan_refines {items : List BlockItem} (dbOk : DbOk env before db) (ok : ScanOk db scan)
    (viewOk : ViewOk env (bondIndex db) height (scan.view db) items)
    (h : items.foldlM (processTx env db height multiplier) scan = .ok scan') :
    ScanOk db scan' ∧
      BlockRun env (bondIndex db) height multiplier items (scan.view db) (scan'.view db) := by
  induction items generalizing scan with
  | nil =>
    cases h
    exact ⟨ok, .nil⟩
  | cons item rest ih =>
    rw [List.foldlM_cons, bind_eq_ok] at h
    obtain ⟨scan₁, hitem, hrest⟩ := h
    obtain ⟨ok₁, step⟩ := processTx_follows dbOk ok viewOk hitem
    obtain ⟨ok', run⟩ := ih ok₁ (step.viewOk viewOk) hrest
    exact ⟨ok', .cons step run⟩

/-- The ledger at the start of a block. -/
def startView (db : NicknameStateDB) : LedgerView := ⟨storedRecords db, [], [], 0⟩

theorem view_empty (db : NicknameStateDB) : ({} : BlockScan).view db = startView db := by
  apply LedgerView.ext
  · funext name
    have unloaded : ({} : BlockScan).states[name]? = none := by simp
    exact records_of_unloaded unloaded
  all_goals rfl

theorem DbOk.startOk {items : List BlockItem} (dbOk : DbOk env before db) (le : before ≤ height)
    (fresh : FreshItems env (bondIndex db) (startView db) items) :
    ViewOk env (bondIndex db) height (startView db) items where
  records := ⟨fun name info hi => (dbOk.records name info hi).mono le, dbOk.uniqueBonds⟩
  lists := ⟨by simp [startView], by simp [startView]⟩
  fresh := fresh

/-- A block that is accepted is a run from the stored records, and its updates
are those of the working state at the end. -/
theorem build_refines {block : CBlock} {blockUndo : CBlockUndo} {txFees : List CAmount}
    {updates : NicknameBlockUpdates}
    (dbOk : DbOk env before db) (le : before ≤ height)
    (fresh : FreshItems env (bondIndex db) (startView db) (blockItems block blockUndo txFees))
    (h : buildNicknameBlockUpdates env db block blockUndo txFees height = .ok updates) :
    ∃ scan, updates = scan.toUpdates height ∧ ScanOk db scan ∧
      BlockRun env (bondIndex db) height (readPricingMultiplierPermille db)
        (blockItems block blockUndo txFees) (startView db) (scan.view db) := by
  simp only [buildNicknameBlockUpdates, eq_ok] at h
  obtain ⟨-, -, -, -, scan, hscan, rfl⟩ := h
  obtain ⟨ok, run⟩ := scan_refines dbOk (scanOk_empty db)
    (view_empty db ▸ dbOk.startOk le fresh) hscan
  exact ⟨scan, rfl, ok, view_empty db ▸ run⟩

end KubuCore.Nickname
