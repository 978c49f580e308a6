import KubuCore.Nickname.Runs

/-!
# What one transaction does to the records

The pass over a block, cut into one event for each transaction with the records
just before and just after it. A record in its active or grace period changes
only by an operation of its owner on its own name (`no_takeover`).
-/

namespace KubuCore.Nickname

open Checked
open Chain
open Nicknames

structure TxEvent where
  item : BlockItem
  before : Records
  after : Records

/-- The events of the transaction loop, up to the first transaction that is
rejected. -/
def blockEvents (env : Env) (db : NicknameStateDB) (height multiplier : Int) (scan : BlockScan) :
    List BlockItem → List TxEvent
  | [] => []
  | item :: rest =>
    match processTx env db height multiplier scan item with
    | .ok scan' =>
      ⟨item, scan.records db, scan'.records db⟩ ::
        blockEvents env db height multiplier scan' rest
    | .error _ => []

/-- The events of a block at the next height. -/
def Ledger.events (env : Env) (ledger : Ledger) (block : CBlock) (blockUndo : CBlockUndo)
    (txFees : List CAmount) : List TxEvent :=
  blockEvents env ledger.db (ledger.height + 1) (readPricingMultiplierPermille ledger.db) {}
    (blockItems block blockUndo txFees)

variable {env : Env} {height multiplier : Int} {info : NicknameInfo} {db : NicknameStateDB}
  {items : List BlockItem} {scan : BlockScan} {index : COutPoint → Option Bytes}
  {item : BlockItem}

variable {scan' : BlockScan} {view view' : LedgerView} {before : Int} {name : Bytes}

/-- An accepted block has an event for each of its transactions. -/
theorem blockEvents_items (h : items.foldlM (processTx env db height multiplier) scan = .ok scan') :
    (blockEvents env db height multiplier scan items).map TxEvent.item = items := by
  induction items generalizing scan with
  | nil => rfl
  | cons item rest ih =>
    rw [List.foldlM_cons, bind_eq_ok] at h
    obtain ⟨scan₁, hitem, hrest⟩ := h
    simp only [blockEvents, hitem, List.map_cons, ih hrest]

/-- The events of a block as a run of the ledger. -/
inductive EventRun (env : Env) (index : COutPoint → Option Bytes) (height multiplier : Int) :
    List TxEvent → LedgerView → LedgerView → Prop where
  | nil {view : LedgerView} : EventRun env index height multiplier [] view view
  | cons {event : TxEvent} {rest : List TxEvent} {view middle view' : LedgerView}
      (before : view.records = event.before) (after : middle.records = event.after)
      (step : TxStep env index height multiplier event.item view middle)
      (run : EventRun env index height multiplier rest middle view') :
      EventRun env index height multiplier (event :: rest) view view'

theorem EventRun.blockRun {events : List TxEvent}
    (h : EventRun env index height multiplier events view view') :
    BlockRun env index height multiplier (events.map TxEvent.item) view view' := by
  induction h with
  | nil => exact .nil
  | cons before after step run ih => exact .cons step ih

theorem blockEvents_run (dbOk : DbOk env before db) (ok : ScanOk db scan)
    (viewOk : ViewOk env (bondIndex db) height (scan.view db) items)
    (h : items.foldlM (processTx env db height multiplier) scan = .ok scan') :
    EventRun env (bondIndex db) height multiplier (blockEvents env db height multiplier scan items)
      (scan.view db) (scan'.view db) := by
  induction items generalizing scan with
  | nil =>
    cases h
    exact .nil
  | cons item rest ih =>
    rw [List.foldlM_cons, bind_eq_ok] at h
    obtain ⟨scan₁, hitem, hrest⟩ := h
    obtain ⟨ok₁, step⟩ := processTx_follows dbOk ok viewOk hitem
    simp only [blockEvents, hitem]
    exact .cons rfl rfl step (ih ok₁ (step.viewOk viewOk) hrest)

/-- The event is a step of the ledger from a well-formed view. -/
structure EventStep (env : Env) (index : COutPoint → Option Bytes) (height multiplier : Int)
    (event : TxEvent) (view view' : LedgerView) (rest : List BlockItem) : Prop where
  before : view.records = event.before
  after : view'.records = event.after
  step : TxStep env index height multiplier event.item view view'
  ok : ViewOk env index height view (event.item :: rest)

theorem blockEvents_step (dbOk : DbOk env before db) (ok : ScanOk db scan)
    (viewOk : ViewOk env (bondIndex db) height (scan.view db) items)
    {event : TxEvent} (h : event ∈ blockEvents env db height multiplier scan items) :
    ∃ view view' rest, EventStep env (bondIndex db) height multiplier event view view' rest := by
  induction items generalizing scan with
  | nil => cases h
  | cons item rest ih =>
    simp only [blockEvents] at h
    split at h
    · rename_i scan' hitem
      obtain ⟨ok', step⟩ := processTx_follows dbOk ok viewOk hitem
      rcases List.mem_cons.mp h with rfl | h
      · exact ⟨_, _, rest, rfl, rfl, step, viewOk⟩
      · exact ih ok' (step.viewOk viewOk) h
    · cases h

/-- An event of an accepted block is such a step. -/
theorem LedgerOk.event_step {ledger : Ledger} {block : CBlock} {blockUndo : CBlockUndo}
    {txFees : List CAmount} {updates : NicknameBlockUpdates} (ok : LedgerOk env ledger)
    (fresh : FreshBlock env ledger block)
    (accepted : buildNicknameBlockUpdates env ledger.db block blockUndo txFees
      (ledger.height + 1) = .ok updates)
    {event : TxEvent} (h : event ∈ ledger.events env block blockUndo txFees) :
    ∃ view view' rest, EventStep env (bondIndex ledger.db) (ledger.height + 1)
      (readPricingMultiplierPermille ledger.db) event view view' rest := by
  have hfresh := ok.freshItems fresh (blockItems_tx accepted)
  exact blockEvents_step ok.db (scanOk_empty _)
    (view_empty ledger.db ▸ ok.db.startOk (by omega) hfresh) h

/-! ## Records in their active or grace period -/

/-- The transaction carries an operation of this type on this name. -/
def Operates (env : Env) (tx : CTransaction) (type : NicknameOpType) (name : Bytes) : Prop :=
  ∃ op, extractNicknameOperationFromTx env tx = .ok (some op) ∧ op.type = type ∧
    op.nickname = name

instance (env : Env) (tx : CTransaction) (type : NicknameOpType) (name : Bytes) :
    Decidable (Operates env tx type name) :=
  decidable_of_iff
    ((extractNicknameOperationFromTx env tx).toOption.join.any
      (fun op => op.type = type ∧ op.nickname = name) = true) <| by
    unfold Operates
    rcases extractNicknameOperationFromTx env tx with _ | _ | op <;>
      simp [Except.toOption]

/-- What a transaction may change of a record that is in its active or grace
period. -/
structure Guarded (env : Env) (item : BlockItem) (name : Bytes) (info next : NicknameInfo) :
    Prop where
  registration : next.registrationHeight = info.registrationHeight
  owner : next.ownerPubKey ≠ info.ownerPubKey → Operates env item.tx .transfer name ∧
    ∃ txin ∈ item.tx.vin, txin.prevout = info.getBondOutpoint
  payout : next.payoutAddress ≠ info.payoutAddress → Operates env item.tx .update name ∧
    OwnerInput env item info.ownerPubKey
  released : next.released = true → Operates env item.tx .release name ∧
    OwnerInput env item info.ownerPubKey
  active : info.activeUntilHeight ≤ next.activeUntilHeight
  grace : info.graceUntilHeight ≤ next.graceUntilHeight
  bond : info.bondAmount ≤ next.bondAmount
  unclaimed : next.bondClaimed = false

theorem unreleased_of_mutable
    (h : isMutableNicknameStatus (info.getStatus height)) : info.released = false := by
  cases hr : info.released with
  | false => rfl
  | true =>
    cases hc : info.bondClaimed <;>
      simp [NicknameInfo.getStatus, getStatus, hr, hc, isMutableNicknameStatus] at h

theorem Guarded.refl (unreleased : info.released = false) (unclaimed : info.bondClaimed = false) :
    Guarded env item name info info where
  registration := rfl
  owner h := absurd rfl h
  payout h := absurd rfl h
  released h := by
    rw [unreleased] at h
    cases h
  active := Int.le_refl _
  grace := Int.le_refl _
  bond := Int.le_refl _
  unclaimed := unclaimed

/-- An operation that finds a record in its active or grace period. -/
theorem OpStep.guarded {records : Records} {op : NicknameOperation} {spent : Option COutPoint}
    {outcome : Outcome}
    (h : OpStep env height multiplier item op spent (some info) outcome)
    (found : extractNicknameOperationFromTx env item.tx = .ok (some op))
    (spends : SpendsBond index records item.tx.vin op.nickname spent)
    (ok : RecordOk env height op.nickname info)
    (isMutable : isMutableNicknameStatus (info.getStatus height)) :
    ∀ next, outcome.record = some next → Guarded env item op.nickname info next := by
  have unreleased := unreleased_of_mutable isMutable
  have unclaimed := ok.unclaimed_of_mutable (Int.le_refl _) isMutable
  have keep : Guarded env item op.nickname info info := .refl unreleased unclaimed
  cases h with
  | register type authorized available =>
    have havailable := available info rfl
    cases hs : info.getStatus height <;>
      simp [hs, isMutableNicknameStatus, availableForRegistration] at isMutable havailable
  | update type _ authorized =>
    rintro _ ⟨⟩
    exact { keep with payout := fun _ => ⟨⟨op, found, type, rfl⟩, authorized⟩ }
  | transfer type _ authorized bonded key output =>
    rintro _ ⟨⟩
    obtain ⟨hinput, -⟩ := spends.1 _ rfl
    exact { keep with
      owner := fun _ => ⟨⟨op, found, type, rfl⟩, hinput⟩
      unclaimed := rfl }
  | renew type _ authorized bonded key increase output =>
    rintro _ ⟨⟩
    -- A negative number of active blocks shortens no period: then no record reaches past the
    -- height it was made at.
    have hactive : info.activeUntilHeight ≤ max info.activeUntilHeight height + env.activeBlocks := by
      have := ok.horizon
      omega
    have hgrace := ok.grace
    exact { keep with
      released := fun h => by cases h
      active := hactive
      grace := by
        simp only [renewRecord]
        omega
      bond := Int.le_add_of_nonneg_right increase.1
      unclaimed := rfl }
  | release type _ authorized =>
    rintro _ ⟨⟩
    exact { keep with
      released := fun _ => ⟨⟨op, found, type, rfl⟩, authorized⟩
      unclaimed := rfl }
  | claimBond type bonded claimable =>
    rw [claimable] at isMutable
    cases isMutable
  | claimLegacy =>
    rintro _ ⟨⟩

/-- One transaction leaves such a record in place and guarded. -/
theorem TxStep.guarded (h : TxStep env index height multiplier item view view')
    (ok : RecordsOk env height view.records) {name : Bytes} {info : NicknameInfo}
    (record : view.records name = some info)
    (isMutable : isMutableNicknameStatus (info.getStatus height)) :
    ∃ next, view'.records name = some next ∧ Guarded env item name info next := by
  have hok := ok.each name info record
  have keep : Guarded env item name info info :=
    .refl (unreleased_of_mutable isMutable) (hok.unclaimed_of_mutable (Int.le_refl _) isMutable)
  cases h with
  | plain => exact ⟨info, record, keep⟩
  | @operate op spent outcome found notCoinBase fee spends step =>
    obtain same | ⟨next, rfl, hr, now⟩ := view.apply_cases op.nickname outcome name
    · exact ⟨info, same ▸ record, keep⟩
    · rw [record] at step
      exact ⟨next, now, step.guarded found spends hok isMutable next hr⟩

/-- No takeover: while a record is in its active or grace period, a transaction
of an accepted block changes it only by an operation of its owner on its name.
Every record before and after a transaction has its grace period end
`graceBlocks` after its active period, and its bond claimed exactly when it has
no bond outpoint. -/
theorem no_takeover {env : Env} {ledger : Ledger} {block : CBlock} {blockUndo : CBlockUndo}
    {txFees : List CAmount} {updates : NicknameBlockUpdates} (reachable : Reachable env ledger)
    (fresh : FreshBlock env ledger block)
    (accepted : buildNicknameBlockUpdates env ledger.db block blockUndo txFees
      (ledger.height + 1) = .ok updates) :
    ((ledger.events env block blockUndo txFees).map fun event => event.item.tx) = block.vtx ∧
    ∀ event ∈ ledger.events env block blockUndo txFees, ∀ name info,
      (event.before name = some info →
        info.getStatus (ledger.height + 1) = .active ∨
          info.getStatus (ledger.height + 1) = .expiredGrace →
        ∃ next, event.after name = some next ∧ Guarded env event.item name info next) ∧
      (event.before name = some info ∨ event.after name = some info →
        info.graceUntilHeight = info.activeUntilHeight + env.graceBlocks ∧
          (info.bondClaimed = true ↔ info.hasBondOutpoint = false)) := by
  refine ⟨?_, fun event he name info => ?_⟩
  · have hitems := blockItems_tx accepted
    simp only [buildNicknameBlockUpdates, eq_ok] at accepted
    obtain ⟨-, -, -, -, scan, hscan, -⟩ := accepted
    have hevents := blockEvents_items hscan
    rw [← hitems, ← hevents, List.map_map]
    rfl
  · obtain ⟨view, view', rest, hbefore, hafter, step, ok⟩ :=
      reachable.ok.event_step fresh accepted he
    rw [← hbefore, ← hafter]
    constructor
    · intro record status
      refine step.guarded ok.records record ?_
      rcases status with hs | hs <;> simp [hs, isMutableNicknameStatus]
    · intro record
      have hok : RecordOk env (ledger.height + 1) name info := by
        rcases record with hr | hr
        · exact ok.records.each name info hr
        · exact (step.viewOk ok).records.each name info hr
      refine ⟨hok.grace, ?_⟩
      have hiff := hok.hasBondOutpoint_iff
      cases hc : info.bondClaimed <;> cases hb : info.hasBondOutpoint <;> simp_all

/-- An update of the sample name, which is active before the transaction. -/
theorem no_takeover_update :
    (registeredLedger.events sampleEnv (sampleBlock 2 [firstUpdateTx])
      [[{ txout := toSampleKey 1000 }]] [0, 1000000]).map
        (fun event => (event.before sampleName).map (NicknameInfo.getStatus · 2)) =
      [some .active, some .active] ∧
    ∀ event ∈ registeredLedger.events sampleEnv (sampleBlock 2 [firstUpdateTx])
        [[{ txout := toSampleKey 1000 }]] [0, 1000000],
      ∀ info, event.before sampleName = some info →
        info.getStatus 2 = .active ∨ info.getStatus 2 = .expiredGrace →
        ∃ next, event.after sampleName = some next ∧
          Guarded sampleEnv event.item sampleName info next := by
  refine ⟨by decide +kernel, fun event he info => ?_⟩
  obtain ⟨updates, haccepted⟩ := exists_of_isOk
    (x := buildNicknameBlockUpdates sampleEnv registeredLedger.db (sampleBlock 2 [firstUpdateTx])
      [[{ txout := toSampleKey 1000 }]] [0, 1000000] 2) (by decide +kernel)
  exact ((no_takeover registeredLedger_reachable (by decide +kernel) haccepted).2 event he
    sampleName info).1

end KubuCore.Nickname
