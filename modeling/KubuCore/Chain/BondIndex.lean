import KubuCore.Chain.Bonds

/-!
# The bond index and the unspent outputs

A row of the bond index is an unspent output, unless a block spent a bond that
it also left behind: the bonds on the side list of registrations are written to
the index after those claimed are taken out, and the pass over the block no
longer knows them. In a run whose blocks spare the bonds they leave behind every
row is unspent, and bonds are spent by operations on their name only.
-/

namespace KubuCore.Chain

open Checked
open Nickname

/-- The bond that a registration leaves behind: that of the record which its name had before the
transaction. -/
def leftBehind (env : Env) (height : Int) (event : TxEvent) : Option COutPoint :=
  match extractNicknameOperationFromTx env event.item.tx with
  | .ok (some op) => if op.type = .register then retiredBy height (event.before op.nickname) else none
  | _ => none

/-- No transaction of the block spends a bond that a registration of the block leaves behind. -/
def sparesRetired (env : Env) (ctx : BlockContext) (state : ChainState) (block : CBlock) : Bool :=
  (chainEvents env ctx state block).all fun event =>
    (leftBehind env (state.ledger.height + 1) event).all fun outpoint =>
      block.vtx.all fun tx => tx.vin.all fun txin => decide (txin.prevout ≠ outpoint)

/-- Every row of the bond index is of an unspent output and names a record. -/
def IndexBacked (state : ChainState) : Prop :=
  ∀ o name, bondIndex state.ledger.db o = some name →
    (coinAt state.coins o).isSome = true ∧ ∃ info, storedRecords state.ledger.db name = some info

/-- The bonds on the list, and those made on the way, are spent by a transfer, a
renewal or a claim of their name. -/
def SpentByOperation (env : Env) : List (COutPoint × Bytes) → List TxEvent → Prop
  | _, [] => True
  | bonds, event :: rest =>
    (∀ txin ∈ event.item.tx.vin, ∀ bond ∈ bonds, txin.prevout = bond.1 →
      Operates env event.item.tx .transfer bond.2 ∨ Operates env event.item.tx .renew bond.2 ∨
        Operates env event.item.tx .claimBond bond.2) ∧
    SpentByOperation env (bonds ++ (createdBond env event).toList) rest

instance decidableSpentByOperation (env : Env) :
    (bonds : List (COutPoint × Bytes)) → (events : List TxEvent) →
      Decidable (SpentByOperation env bonds events)
  | _, [] => isTrue trivial
  | bonds, event :: rest =>
    have := decidableSpentByOperation env (bonds ++ (createdBond env event).toList) rest
    inferInstanceAs (Decidable ((∀ txin ∈ event.item.tx.vin, ∀ bond ∈ bonds,
      txin.prevout = bond.1 → _) ∧ _))

/-! ## Spent outputs stay spent -/

section Spent

variable {env : Env} {ctx : BlockContext} {nHeight : Int} {items : List BlockItem}
  {coins coins' : CoinsView}

theorem CoinsRun.spent_stays (run : CoinsRun env ctx nHeight items coins coins') {o : COutPoint}
    (old : ∀ item ∈ items, o.hash ≠ env.txHash item.tx) (spent : coinAt coins o = none) :
    coinAt coins' o = none := by
  induction run with
  | nil => exact spent
  | cons connected undo fee run ih =>
    rw [List.forall_mem_cons] at old
    refine ih old.2 ?_
    obtain ⟨-, -, hupdate, -⟩ := connectTx_spec connected
    rw [updateCoins_spec hupdate, if_neg old.1, spent]
    exact ite_self _

/-- What a transaction spends is unspent before it. -/
theorem unspent_of_spent {tx : CTransaction} {spent : Spent}
    (connected : connectTx env ctx nHeight coins tx = .ok spent) {o : COutPoint}
    (ho : o ∈ spentOutpoints tx) : (coinAt coins o).isSome = true := by
  obtain ⟨hinputs, -⟩ := connectTx_spec connected
  unfold spentOutpoints at ho
  split at ho
  · cases ho
  · rename_i notCoinBase
    obtain ⟨txin, hin, rfl⟩ := List.mem_map.mp ho
    have hall := hinputs.resolve_left notCoinBase
    rw [haveInputs, Bool.or_eq_true, List.all_eq_true] at hall
    exact hall.resolve_left notCoinBase txin hin

theorem mem_spentOutpoints {tx : CTransaction} {txin : CTxIn} (nonNull : txin.prevout.hash ≠ 0)
    (hin : txin ∈ tx.vin) : txin.prevout ∈ spentOutpoints tx := by
  rw [spentOutpoints, if_neg fun isCoinBase => nonNull (isCoinBase_prevout isCoinBase hin)]
  exact List.mem_map_of_mem hin

/-- An output that a block spends is not there after it, whether the block made
it or not. -/
theorem CoinsRun.input_spent (run : CoinsRun env ctx nHeight items coins coins')
    (distinct : (items.map fun item => env.txHash item.tx).Nodup)
    (new : ∀ o, (coinAt coins o).isSome = true → ∀ item ∈ items, o.hash ≠ env.txHash item.tx)
    {item : BlockItem} (hi : item ∈ items) {o : COutPoint} (ho : o ∈ spentOutpoints item.tx) :
    coinAt coins' o = none := by
  induction run with
  | nil => cases hi
  | @cons head rest view view' spent connected undo fee run ih =>
    obtain ⟨-, -, hupdate, -⟩ := connectTx_spec connected
    rw [List.map_cons, List.nodup_cons] at distinct
    rcases List.mem_cons.mp hi with rfl | hi
    · obtain ⟨hhead, hlater⟩ := List.forall_mem_cons.mp (new o (unspent_of_spent connected ho))
      refine run.spent_stays hlater ?_
      rw [updateCoins_spec hupdate, if_neg hhead, if_pos ho]
    · refine ih distinct.2 ?_ hi
      intro p there later hl
      rw [updateCoins_spec hupdate] at there
      split at there
      · rename_i hid
        rw [hid]
        intro he
        exact distinct.1 (he ▸ List.mem_map_of_mem hl)
      · split at there
        · cases there
        · exact new p there later (List.mem_cons_of_mem _ hl)

end Spent

/-! ## Bonds left behind -/

section Retired

variable {env : Env} {index : COutPoint → Option Bytes} {height multiplier : Int}
  {view view' : LedgerView} {o : COutPoint}

theorem TxStep.retired_iff {event : TxEvent}
    (step : TxStep env index height multiplier event.item view view')
    (before : view.records = event.before) :
    (∃ name, (o, name) ∈ view'.retired) ↔
      (∃ name, (o, name) ∈ view.retired) ∨ leftBehind env height event = some o := by
  cases step with
  | plain found => simp [leftBehind, found]
  | @operate op spent outcome found notCoinBase fee spends step =>
    simp only [leftBehind, found, ← before]
    generalize view.records op.nickname = record at step
    cases step with
    | register type =>
      simp [LedgerView.apply, type, exists_or]
    | update type | transfer type | renew type | release type | claimBond type | claimLegacy type =>
      simp [LedgerView.apply, type]

/-- The bonds on the side list at the end of a block are those that its registrations left behind. -/
theorem EventRun.retired_iff {events : List TxEvent}
    (run : EventRun env index height multiplier events view view') :
    (∃ name, (o, name) ∈ view'.retired) ↔
      (∃ name, (o, name) ∈ view.retired) ∨
        ∃ event ∈ events, leftBehind env height event = some o := by
  induction run with
  | nil => simp
  | cons before after step run ih =>
    rw [ih, TxStep.retired_iff step before, or_assoc, List.exists_mem_cons_iff]

end Retired

/-! ## The middle of a block -/

/-- What the index rests on in the middle of a block: bonds held and bonds left
behind are unspent, and so are the indexed bonds that nobody held when the
block began, until they are claimed. -/
structure Backed (index : COutPoint → Option Bytes) (start : Records) (view : LedgerView)
    (coins : CoinsView) : Prop where
  custody : Custody view.records coins
  retired : ∀ entry ∈ view.retired, (coinAt coins entry.1).isSome = true
  legacy : ∀ o name, index o = some name → (∀ m, ¬ Holds start m o) → o ∉ view.claimed →
    (coinAt coins o).isSome = true ∧ ∀ m, ¬ Holds view.records m o

variable {coins : CoinsView} {env : Env} {ctx : BlockContext} {index : COutPoint → Option Bytes}
  {height multiplier nHeight : Int} {start : Records} {view view' : LedgerView}

theorem Custody.unspent {records : Records} (custody : Custody records coins) {name : Bytes}
    {o : COutPoint} (holds : Holds records name o) :
    (coinAt coins o).isSome = true := by
  cases hr : records name with
  | none =>
    rw [Holds, hr] at holds
    cases holds
  | some info =>
    rw [Holds, hr, currentBond_some] at holds
    obtain ⟨bonded, rfl⟩ := holds
    rw [custody name info hr bonded]
    rfl

theorem Backed.step {item : BlockItem} {rest : List BlockItem} {spent : Spent}
    (backed : Backed index start view coins)
    (step : TxStep env index height multiplier item view view')
    (ok : ViewOk env index height view (item :: rest))
    (connected : connectTx env ctx nHeight coins item.tx = .ok spent)
    (values : ∀ txout ∈ item.tx.vout, 0 ≤ txout.nValue)
    (spared : ∀ entry ∈ view.retired, ∀ txin ∈ item.tx.vin, txin.prevout ≠ entry.1) :
    Backed index start view' spent.view := by
  have old : ∀ o, Known index view o → o.hash ≠ env.txHash item.tx := fun o known =>
    ok.fresh.unknown o known item List.mem_cons_self
  refine ⟨custody_txStep step ok connected values backed.custody, ?_, ?_⟩
  · intro entry he
    rcases step.retired_origin he with he | ⟨holds, unspent⟩
    · rw [coinAt_of_unspent connected (old _ (.inr (.inr (.inl ⟨entry.2, he⟩)))) (spared entry he)]
      exact backed.retired entry he
    · rw [coinAt_of_unspent connected (old _ (.inr (.inl ⟨entry.2, holds⟩))) unspent]
      exact backed.custody.unspent holds
  · intro o name hindex hstart hclaimed
    obtain ⟨coin, unheld⟩ :=
      backed.legacy o name hindex hstart fun hc => hclaimed (step.claimed_mono hc)
    have hold := old o (.inl ⟨name, hindex⟩)
    refine ⟨?_, step.unheld ok.records hold unheld⟩
    rw [coinAt_of_unspent connected hold]
    · exact coin
    · -- A spend would be charged to the name and put the bond on the list of those claimed.
      rintro txin hin rfl
      obtain ⟨-, -, -, -, holds | claimed⟩ := step.spends_bond hin (.inr ⟨unheld, hindex⟩)
      · exact unheld name holds
      · exact hclaimed claimed

theorem Backed.events {events : List TxEvent} {coins' : CoinsView}
    (run : EventRun env index height multiplier events view view')
    (coinsRun : CoinsRun env ctx nHeight (events.map TxEvent.item) coins coins')
    (ok : ViewOk env index height view (events.map TxEvent.item))
    (checked : ∀ event ∈ events, checkTransaction event.item.tx = .ok ())
    (spared : ∀ entry ∈ view'.retired, ∀ event ∈ events, ∀ txin ∈ event.item.tx.vin,
      txin.prevout ≠ entry.1)
    (backed : Backed index start view coins) : Backed index start view' coins' := by
  induction run generalizing coins with
  | nil =>
    cases coinsRun
    exact backed
  | @cons event rest view middle view' before after step run ih =>
    cases coinsRun with
    | cons connected undo fee coinsRun =>
      rw [List.forall_mem_cons] at checked
      have values := (checkTransaction_spec checked.1).1
      have later : ∀ entry ∈ view.retired, entry ∈ view'.retired := fun entry he =>
        run.blockRun.retired_mono (step.retired_mono he)
      have next := backed.step step ok connected values fun entry he =>
        spared entry (later entry he) event List.mem_cons_self
      exact ih coinsRun (step.viewOk ok) checked.2
        (fun entry he e hmem => spared entry he e (List.mem_cons_of_mem _ hmem)) next

/-- Bonds that are kept are spent by operations on their name, as long as those
left behind are spared. -/
theorem spentByOperation {events : List TxEvent} {coins' : CoinsView}
    {bonds : List (COutPoint × Bytes)}
    (run : EventRun env index height multiplier events view view')
    (coinsRun : CoinsRun env ctx nHeight (events.map TxEvent.item) coins coins')
    (ok : ViewOk env index height view (events.map TxEvent.item))
    (nonNull : ∀ entry ∈ bonds, entry.1.hash ≠ 0)
    (old : ∀ entry ∈ bonds, ∀ event ∈ events, entry.1.hash ≠ env.txHash event.item.tx)
    (spared : ∀ entry ∈ view'.retired, ∀ event ∈ events, ∀ txin ∈ event.item.tx.vin,
      txin.prevout ≠ entry.1)
    (kept : AllKept index start view coins bonds) : SpentByOperation env bonds events := by
  induction run generalizing coins bonds with
  | nil => exact trivial
  | @cons event rest view middle view' before after step run ih =>
    cases coinsRun with
    | cons connected undo fee coinsRun =>
      refine ⟨?_, ?_⟩
      · rintro txin hin ⟨_, name⟩ hmem rfl
        have bond : BondOf index view.records txin.prevout name := by
          have there := unspent_of_spent connected (mem_spentOutpoints (nonNull _ hmem) hin)
          rcases kept _ _ hmem there with holds | ⟨hretired, -⟩ | ⟨hindex, -, unheld, -⟩
          · exact .inl holds
          · have hend := run.blockRun.retired_mono (step.retired_mono hretired)
            exact absurd rfl (spared _ hend event List.mem_cons_self txin hin)
          · exact .inr ⟨unheld, hindex⟩
        obtain ⟨op, found, rfl, types, -⟩ := step.spends_bond hin bond
        rcases types with type | type | type
        · exact .inl ⟨op, found, type, rfl⟩
        · exact .inr (.inl ⟨op, found, type, rfl⟩)
        · exact .inr (.inr ⟨op, found, type, rfl⟩)
      · obtain ⟨hkept, hold⟩ := kept.event step after ok connected old
        refine ih coinsRun (step.viewOk ok) ?_ hold
          (fun entry he e hmem => spared entry he e (List.mem_cons_of_mem _ hmem)) hkept
        intro entry he
        rcases List.mem_append.mp he with he | he
        · exact nonNull entry he
        · rw [(createdBond_spec step ok after (Option.mem_toList.mp he)).2]
          exact ok.fresh.nonNull _ List.mem_cons_self

/-! ## Blocks and runs -/

section Block

variable {env : Env} {ctx : BlockContext} {state state' : ChainState} {block : CBlock}
  {scan : BlockScan}

theorem EventsAccepted.spares_iff
    (a : EventsAccepted env ctx state state' block (chainEvents env ctx state block) scan) :
    sparesRetired env ctx state block = true ↔
      ∀ entry ∈ (scan.view state.ledger.db).retired, ∀ event ∈ chainEvents env ctx state block,
        ∀ txin ∈ event.item.tx.vin, txin.prevout ≠ entry.1 := by
  have left : ∀ o, (∃ name, (o, name) ∈ (scan.view state.ledger.db).retired) ↔
      ∃ event ∈ chainEvents env ctx state block,
        leftBehind env (state.ledger.height + 1) event = some o := by
    intro o
    rw [EventRun.retired_iff a.run]
    simp [startView]
  simp only [sparesRetired, ← a.txs, List.all_eq_true, Option.all_eq_true, List.mem_map,
    decide_eq_true_eq]
  constructor
  · rintro h ⟨o, name⟩ hretired event hevent txin hin
    obtain ⟨registers, hregisters, ho⟩ := (left o).mp ⟨name, hretired⟩
    exact h registers hregisters o ho _ ⟨event, hevent, rfl⟩ txin hin
  · rintro h registers hregisters o ho _ ⟨event, hevent, rfl⟩ txin hin
    obtain ⟨name, hretired⟩ := (left o).mpr ⟨registers, hregisters, ho⟩
    exact h (o, name) hretired event hevent txin hin

/-- A block that spares the bonds it leaves behind keeps the index backed. -/
theorem IndexBacked.connect (backed : IndexBacked state) (run : ChainLinear env state)
    (a : EventsAccepted env ctx state state' block (chainEvents env ctx state block) scan)
    (spares : sparesRetired env ctx state block = true) : IndexBacked state' := by
  have ok := run.ok.ledger
  have start : Backed (bondIndex state.ledger.db) (storedRecords state.ledger.db)
      (startView state.ledger.db) state.coins :=
    ⟨run.custody, fun _ he => absurd he List.not_mem_nil,
      fun o name row unheld _ => ⟨(backed o name row).1, unheld⟩⟩
  have done := start.events a.run a.coins a.start a.checked (a.spares_iff.mp spares)
  intro o name row
  rw [a.ledger] at row ⊢
  refine ⟨?_, (a.connected.dbOk ok _ _).named o name row⟩
  rcases a.connected.bond_cases ok row with hretired | holds | ⟨hindex, hclaimed, hstart⟩
  · exact done.retired (o, name) hretired
  · exact done.custody.unspent holds
  · exact (done.legacy o name hindex hstart hclaimed).1

theorem ChainLinear.ids_of_coin (run : ChainLinear env state) {o : COutPoint}
    (there : (coinAt state.coins o).isSome = true) : o.hash ∈ state.ledger.ids env := by
  by_contra hnot
  rw [coinAt, run.ok.ids _ hnot] at there
  cases there

/-- If the index is backed after a block, the block spared what it left behind:
a bond left behind is indexed, and what a block spends is gone. -/
theorem EventsAccepted.spares_of_backed
    (a : EventsAccepted env ctx state state' block (chainEvents env ctx state block) scan)
    (run : ChainLinear env state)
    (run' : ChainLinear env state') (fresh : FreshBlock env state.ledger block)
    (backed : IndexBacked state') : sparesRetired env ctx state block = true := by
  rw [a.spares_iff]
  rintro ⟨o, name⟩ hretired event hevent txin hin rfl
  obtain ⟨m, -, row⟩ := a.connected.done.block_bond_retired ⟨name, hretired⟩
  have row' : bondIndex state'.ledger.db txin.prevout = some (normalizeKeyName m) := by
    rw [a.ledger]
    exact row
  have there := (backed _ _ row').1
  have hspent : txin.prevout ∈ spentOutpoints event.item.tx :=
    mem_spentOutpoints (fun hnull => run'.nonNull (hnull ▸ run'.ids_of_coin there)) hin
  have distinct : (((chainEvents env ctx state block).map TxEvent.item).map
      fun item => env.txHash item.tx).Nodup := by
    have hmap : ((chainEvents env ctx state block).map TxEvent.item).map
        (fun item => env.txHash item.tx) =
        ((chainEvents env ctx state block).map fun event => event.item.tx).map env.txHash := by
      rw [List.map_map, List.map_map]
      rfl
    rw [hmap, a.txs]
    exact fresh.distinct
  have new : ∀ o, (coinAt state.coins o).isSome = true →
      ∀ item ∈ (chainEvents env ctx state block).map TxEvent.item,
        o.hash ≠ env.txHash item.tx := by
    intro o hcoin item hi
    obtain ⟨other, hother, rfl⟩ := List.mem_map.mp hi
    exact a.id_ne fresh (run.ids_of_coin hcoin) other hother
  rw [a.coins.input_spent distinct new (List.mem_map_of_mem hevent) hspent] at there
  cases there

end Block

theorem BondLinear.backed {env : Env} {state : ChainState} {history : History}
    (run : BondLinear env (fun ctx state block => sparesRetired env ctx state block = true) state
      history) : IndexBacked state := by
  induction run with
  | start =>
    intro o name row
    simp [bondIndex, ChainState.empty, Ledger.empty] at row
  | connect run fresh met accepted ih =>
    obtain ⟨scan, a⟩ := eventsAccepted run.chain.ok.ledger fresh accepted
    exact ih.connect run.chain a met

/-- In every run whose blocks spare the bonds they leave behind, each row of the
bond index is of an unspent output and names a record. The next block keeps it
so, and spends the bonds made for names by operations on those names only,
exactly when it spares the bonds it leaves behind. -/
theorem bond_index_unspent_iff {env : Env} {state : ChainState} {history : History}
    (run : BondRun env (fun ctx state block => sparesRetired env ctx state block = true) state
      history) :
    IndexBacked state ∧
      ∀ ctx block state', FreshBlock env state.ledger block →
        connectBlock env ctx state block = .ok state' →
        ((IndexBacked state' ∧
            SpentByOperation env history.flatten (chainEvents env ctx state block)) ↔
          sparesRetired env ctx state block = true) := by
  have linear := run.linear
  have chain := linear.chain
  refine ⟨linear.backed, ?_⟩
  intro ctx block state' fresh accepted
  obtain ⟨scan, a⟩ := eventsAccepted chain.ok.ledger fresh accepted
  constructor
  · rintro ⟨backed, -⟩
    exact a.spares_of_backed chain (.connect chain fresh accepted) fresh backed
  · intro spares
    refine ⟨linear.backed.connect chain a spares, ?_⟩
    have indexed := linear.indexed
    have start : AllKept (bondIndex state.ledger.db) (storedRecords state.ledger.db)
        (startView state.ledger.db) state.coins history.flatten := fun o name hmem hcoin =>
      kept_start chain.ok.ledger.db (indexed.rows o name hmem hcoin)
    refine spentByOperation a.run a.coins a.start ?_ ?_ (a.spares_iff.mp spares) start
    · intro entry he hnull
      exact chain.nonNull (hnull ▸ indexed.ids entry he)
    · intro entry he
      exact a.id_ne fresh (indexed.ids entry he)

/-- The registration of the sample name, with the bond it makes. -/
def registeredRun : ChainState × History :=
  (runWith sampleEnv (sparesRetired sampleEnv) registeredBlocks).getD (.empty, [])

theorem bond_index_unspent_registered :
    BondRun sampleEnv (fun ctx state block => sparesRetired sampleEnv ctx state block = true)
        registeredRun.1 registeredRun.2 ∧
      bondIndex registeredRun.1.ledger.db ⟨registerId, 1⟩ = some sampleName ∧
      (coinAt registeredRun.1.coins ⟨registerId, 1⟩).isSome = true := by
  obtain ⟨hsome, row⟩ :
      (runWith sampleEnv (sparesRetired sampleEnv) registeredBlocks).isSome = true ∧
        bondIndex registeredRun.1.ledger.db ⟨registerId, 1⟩ = some sampleName := by decide +kernel
  obtain ⟨result, hresult⟩ := Option.isSome_iff_exists.mp hsome
  have run := runWith_run hresult
  have heq : registeredRun = result := by rw [registeredRun, hresult, Option.getD_some]
  rw [heq] at row ⊢
  exact ⟨run, row, ((bond_index_unspent_iff run).1 _ _ row).1⟩

/-- The name is released, registered again and the bond left behind claimed, all
in one block. -/
def claimedBlocks : List (BlockContext × CBlock) :=
  registeredBlocks ++ [(sampleContext, sampleBlock 32 [releaseTx, reregisterTx, claimTx])]

def claimedRun : ChainState × History := runOf sampleEnv claimedBlocks

def matureRun : ChainState × History := runOf sampleEnv matureBlocks

/-- The name is registered twice, and the bond left behind spent without nickname data. -/
def replacedBlock : CBlock := sampleBlock 31 [registerTx, releaseTx, reregisterTx, plainTx]

/-- The row of a bond that is claimed in the block that left it behind stays in
the index, and a bond left behind in the block that made it can be spent by a
transaction without nickname data. -/
theorem retired_bond_spent_in_block :
    (BondRun sampleEnv (fun _ _ _ => True) claimedRun.1 claimedRun.2 ∧
      bondIndex claimedRun.1.ledger.db ⟨registerId, 1⟩ = some sampleName ∧
      coinAt claimedRun.1.coins ⟨registerId, 1⟩ = none) ∧
    ∃ state', BondRun sampleEnv (fun _ _ _ => True) matureRun.1 matureRun.2 ∧
      FreshBlock sampleEnv matureRun.1.ledger replacedBlock ∧
      connectBlock sampleEnv sampleContext matureRun.1 replacedBlock = .ok state' ∧
      ¬ SpentByOperation sampleEnv matureRun.2.flatten
        (chainEvents sampleEnv sampleContext matureRun.1 replacedBlock) := by
  obtain ⟨row, spent⟩ : bondIndex claimedRun.1.ledger.db ⟨registerId, 1⟩ = some sampleName ∧
      coinAt claimedRun.1.coins ⟨registerId, 1⟩ = none := by decide +kernel
  obtain ⟨fresh, isOk, byPlain⟩ : FreshBlock sampleEnv matureRun.1.ledger replacedBlock ∧
      (connectBlock sampleEnv sampleContext matureRun.1 replacedBlock).isOk = true ∧
      ¬ SpentByOperation sampleEnv matureRun.2.flatten
        (chainEvents sampleEnv sampleContext matureRun.1 replacedBlock) := by decide +kernel
  obtain ⟨state', accepted⟩ := exists_of_isOk isOk
  exact ⟨⟨runOf_run (by decide +kernel), row, spent⟩, state', runOf_run (by decide +kernel), fresh,
    accepted, byPlain⟩

end KubuCore.Chain
