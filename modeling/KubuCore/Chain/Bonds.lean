import KubuCore.Chain.Custody
import KubuCore.Nickname.Complete
import KubuCore.Nickname.Events

/-!
# Bonds made by the chain

Every bond output that a registration, transfer or renewal of the chain made
and that is still unspent is the current bond of its name or has an index row
that names it. The history of a run lists the bonds each block made, latest
block first.
-/

namespace KubuCore.Chain

open Checked
open Nickname
open Nicknames
open Script

/-! ## The history of a run -/

/-- The events of the nickname pass when a block is connected. -/
def chainEvents (env : Env) (ctx : BlockContext) (state : ChainState) (block : CBlock) :
    List TxEvent :=
  match connectTxs env ctx (state.ledger.height + 1) state.coins block.vtx with
  | .ok (_, txundos, txFees) => state.ledger.events env block txundos.tail txFees
  | .error _ => []

/-- The bond a transaction made, and for which name. -/
def createdBond (env : Env) (event : TxEvent) : Option (COutPoint × Bytes) :=
  match extractNicknameOperationFromTx env event.item.tx with
  | .ok (some op) =>
    if op.type = .register ∨ op.type = .transfer ∨ op.type = .renew then
      (event.after op.nickname).map fun info => (info.getBondOutpoint, op.nickname)
    else none
  | _ => none

def createdBonds (env : Env) (events : List TxEvent) : List (COutPoint × Bytes) :=
  events.filterMap (createdBond env)

abbrev History := List (List (COutPoint × Bytes))

/-- Runs in which every block connected meets a condition, with the bonds made
by the blocks of the chain. -/
inductive BondRun (env : Env) (cond : BlockContext → ChainState → CBlock → Prop) :
    ChainState → History → Prop where
  | start : BondRun env cond .empty []
  | connect {state state' : ChainState} {history : History} {block : CBlock} {ctx : BlockContext}
      (run : BondRun env cond state history) (fresh : FreshBlock env state.ledger block)
      (met : cond ctx state block) (accepted : connectBlock env ctx state block = .ok state') :
      BondRun env cond state' (createdBonds env (chainEvents env ctx state block) :: history)
  | disconnect {state state' : ChainState} {bonds : List (COutPoint × Bytes)} {history : History}
      (run : BondRun env cond state (bonds :: history))
      (done : disconnectBlock env state = some state') : BondRun env cond state' history

/-- The same without disconnecting. -/
inductive BondLinear (env : Env) (cond : BlockContext → ChainState → CBlock → Prop) :
    ChainState → History → Prop where
  | start : BondLinear env cond .empty []
  | connect {state state' : ChainState} {history : History} {block : CBlock} {ctx : BlockContext}
      (run : BondLinear env cond state history) (fresh : FreshBlock env state.ledger block)
      (met : cond ctx state block) (accepted : connectBlock env ctx state block = .ok state') :
      BondLinear env cond state' (createdBonds env (chainEvents env ctx state block) :: history)

section Runs

variable {env : Env} {cond : BlockContext → ChainState → CBlock → Prop} {state : ChainState}
  {history : History}

theorem BondLinear.chain (run : BondLinear env cond state history) : ChainLinear env state := by
  induction run with
  | start => exact .start
  | connect _ fresh _ accepted ih => exact .connect ih fresh accepted

theorem BondRun.mono {cond' : BlockContext → ChainState → CBlock → Prop}
    (run : BondRun env cond state history)
    (weaker : ∀ ctx state block, cond ctx state block → cond' ctx state block) :
    BondRun env cond' state history := by
  induction run with
  | start => exact .start
  | connect _ fresh met accepted ih => exact .connect ih fresh (weaker _ _ _ met) accepted
  | disconnect _ done ih => exact .disconnect ih done

theorem BondRun.linear (run : BondRun env cond state history) :
    BondLinear env cond state history := by
  induction run with
  | start => exact .start
  | connect _ fresh met accepted ih => exact .connect ih fresh met accepted
  | disconnect _ done ih =>
    cases ih with
    | connect run fresh _ accepted =>
      rw [disconnectBlock_connectBlock run.chain.ok fresh accepted] at done
      cases done
      exact run

end Runs

/-! ## An accepted block, event by event -/

/-- A connected block as a run of its events over ledger and coins. -/
structure EventsAccepted (env : Env) (ctx : BlockContext) (state state' : ChainState)
    (block : CBlock) (events : List TxEvent) (scan : BlockScan) : Prop where
  txs : events.map (fun event => event.item.tx) = block.vtx
  checked : ∀ event ∈ events, checkTransaction event.item.tx = .ok ()
  start : ViewOk env (bondIndex state.ledger.db) (state.ledger.height + 1)
    (startView state.ledger.db) (events.map TxEvent.item)
  run : EventRun env (bondIndex state.ledger.db) (state.ledger.height + 1)
    (readPricingMultiplierPermille state.ledger.db) events (startView state.ledger.db)
    (scan.view state.ledger.db)
  coins : CoinsRun env ctx (state.ledger.height + 1) (events.map TxEvent.item) state.coins
    state'.coins
  connected : Connected env state.ledger block (events.map TxEvent.item) scan
  ledger : state'.ledger = ⟨writeBlock env state.ledger.db block.hash scan (state.ledger.height + 1),
    block :: state.ledger.chain⟩

variable {env : Env} {height multiplier nHeight : Int} {ctx : BlockContext}
  {index : COutPoint → Option Bytes} {view view' : LedgerView} {state state' : ChainState}
  {block : CBlock} {rest : List BlockItem} {start : Records} {coins : CoinsView}
  {tx : CTransaction} {bonds : List (COutPoint × Bytes)} {db : NicknameStateDB}

theorem eventsAccepted (ok : LedgerOk env state.ledger) (fresh : FreshBlock env state.ledger block)
    (accepted : connectBlock env ctx state block = .ok state') :
    ∃ scan, EventsAccepted env ctx state state' block (chainEvents env ctx state block) scan := by
  obtain ⟨txundos, txFees, hchecked, htxs, hledger, -⟩ := connectBlock_cases accepted
  obtain ⟨scan, c, hstate⟩ := connect_spec ok fresh hledger
  have hevents : chainEvents env ctx state block =
      state.ledger.events env block txundos.tail txFees := by
    rw [chainEvents, htxs]
  simp only [Ledger.connect, bind_eq_ok] at hledger
  obtain ⟨updates, hbuild, -⟩ := hledger
  simp only [buildNicknameBlockUpdates, eq_ok] at hbuild
  obtain ⟨-, -, -, -, scan', hscan, -⟩ := hbuild
  have le : state.ledger.height ≤ state.ledger.height + 1 := by omega
  have start := ok.db.startOk le c.fresh
  have run := blockEvents_run ok.db (scanOk_empty _) (view_empty _ ▸ start) hscan
  have hitems : (chainEvents env ctx state block).map TxEvent.item =
      blockItems block txundos.tail txFees := by
    rw [hevents]
    exact blockEvents_items hscan
  have hview : scan'.view state.ledger.db = scan.view state.ledger.db := by
    have hrun := run.blockRun
    rw [blockEvents_items hscan] at hrun
    exact hrun.deterministic c.run
  rw [hview] at run
  have heach : ∀ item ∈ blockItems block txundos.tail txFees,
      checkTransaction item.tx = .ok () := by
    obtain ⟨-, -, -, -, -, heach⟩ := checkBlock_spec hchecked
    intro item hi
    exact heach item.tx (c.txs ▸ List.mem_map_of_mem hi)
  refine ⟨scan, ?_, ?_, ?_, ?_, ?_, ?_, hstate⟩
  · rw [← c.txs, ← hitems, List.map_map]
    rfl
  · intro event he
    exact heach event.item (hitems ▸ List.mem_map_of_mem he)
  · rw [hitems]
    exact start
  · rw [hevents]
    exact run
  · rw [hitems]
    exact coinsRun_of_block hchecked htxs
  · rw [hitems]
    exact c

variable {scan : BlockScan} {item : BlockItem} {o : COutPoint} {name : Bytes} {spent : Spent}
  {ledger : Ledger}

/-- Ids of the chain are not ids of the block. -/
theorem EventsAccepted.id_ne {events : List TxEvent}
    (a : EventsAccepted env ctx state state' block events scan)
    (fresh : FreshBlock env state.ledger block) {txid : Uint256}
    (known : txid ∈ state.ledger.ids env) : ∀ event ∈ events, txid ≠ env.txHash event.item.tx := by
  rintro event hevent rfl
  refine fresh.unused event.item.tx ?_ known
  rw [← a.txs]
  exact List.mem_map.mpr ⟨event, hevent, rfl⟩

/-! ## One transaction -/

theorem TxStep.claimed_origin (h : TxStep env index height multiplier item view view')
    {outpoint : COutPoint} (ho : outpoint ∈ view'.claimed) :
    outpoint ∈ view.claimed ∨ ∃ txin ∈ item.tx.vin, txin.prevout = outpoint := by
  cases h with
  | plain => exact .inl ho
  | operate found notCoinBase fee spends step =>
    rcases step.listed.2 outpoint ho with hold | ⟨hs, -⟩
    · exact .inl hold
    · exact .inr (spends.1 outpoint hs).1

/-- The bond a transaction made is the bond of its name after it. -/
theorem createdBond_spec {event : TxEvent}
    (step : TxStep env index height multiplier event.item view view')
    (ok : ViewOk env index height view (event.item :: rest)) (after : view'.records = event.after)
    (created : createdBond env event = some (o, name)) :
    Holds view'.records name o ∧ o.hash = env.txHash event.item.tx := by
  have each := (step.viewOk ok).records.each
  cases step with
  | plain found => simp [createdBond, found] at created
  | @operate op spent outcome found notCoinBase fee spends step =>
    simp only [createdBond, found] at created
    split at created
    · rename_i htype
      rw [← after, Option.map_eq_some_iff] at created
      obtain ⟨info, hinfo, he⟩ := created
      obtain ⟨rfl, rfl⟩ := Prod.mk.inj he
      have made : info.bondClaimed = false ∧ info.bondTxid = env.txHash event.item.tx := by
        rw [LedgerView.apply_records, if_pos rfl] at hinfo
        generalize view.records op.nickname = record at step hinfo
        cases step with
        | register | transfer | renew =>
          cases hinfo
          exact ⟨rfl, rfl⟩
        | update type | release type | claimBond type | claimLegacy type =>
          rw [type] at htype
          simp at htype
      have bonded := (each _ _ hinfo).hasBondOutpoint_iff.mpr made.1
      refine ⟨?_, ?_⟩
      · rw [Holds, hinfo, currentBond_some]
        exact ⟨bonded, rfl⟩
      · rw [getBondOutpoint_of_has bonded]
        exact made.2
    · cases created

/-- Where an unspent bond of a name is found in the middle of a block: with the
name, among the bonds left behind, or in an index row of a bond that nobody
has held since the block began. -/
def Kept (index : COutPoint → Option Bytes) (start : Records) (view : LedgerView) (o : COutPoint)
    (name : Bytes) : Prop :=
  Holds view.records name o ∨
    ((o, name) ∈ view.retired ∧ ∀ m, (o, m) ∈ view.retired → m = name) ∨
    (index o = some name ∧ (∀ m, ¬ Holds start m o) ∧ (∀ m, ¬ Holds view.records m o) ∧
      o ∉ view.claimed ∧ ∀ m, (o, m) ∉ view.retired)

/-- A transaction that does not spend the bond keeps it. -/
theorem Kept.step (kept : Kept index start view o name)
    (step : TxStep env index height multiplier item view view')
    (ok : ViewOk env index height view (item :: rest)) (old : o.hash ≠ env.txHash item.tx)
    (unspent : o ∉ spentOutpoints item.tx) : Kept index start view' o name := by
  by_cases same : view' = view
  · rw [same]
    exact kept
  have unspent : ∀ txin ∈ item.tx.vin, txin.prevout ≠ o := by
    cases step with
    | plain => exact absurd rfl same
    | operate _ notCoinBase =>
      intro txin hin he
      refine unspent ?_
      rw [spentOutpoints, notCoinBase]
      exact List.mem_map.mpr ⟨txin, hin, he⟩
  rcases kept with holds | ⟨hretired, honly⟩ | ⟨hindex, hstart, hunheld, hclaimed, hretired⟩
  · by_cases hnow : Holds view'.records name o
    · exact .inl hnow
    · refine .inr (.inl ?_)
      rcases step.bond_lost ok.records holds hnow with ⟨txin, hin, he⟩ | hretired
      · exact absurd he (unspent txin hin)
      · refine ⟨hretired, fun m hm => ?_⟩
        rcases step.retired_origin hm with hold | ⟨hm', -⟩
        · exact absurd holds ((ok.lists.retired (o, m) hold).1 name)
        · exact ok.records.unique m name o hm' holds
  · refine .inr (.inl ⟨step.retired_mono hretired, fun m hm => ?_⟩)
    rcases step.retired_origin hm with hold | ⟨hm', -⟩
    · exact honly m hold
    · exact absurd hm' ((ok.lists.retired (o, name) hretired).1 m)
  · refine .inr (.inr ⟨hindex, hstart, step.unheld ok.records old hunheld, ?_, ?_⟩)
    · intro hc
      rcases TxStep.claimed_origin step hc with hold | ⟨txin, hin, he⟩
      · exact hclaimed hold
      · exact unspent txin hin he
    · intro m hm
      rcases step.retired_origin hm with hold | ⟨hm', -⟩
      · exact hretired m hold
      · exact hunheld m hm'

/-! ## A block -/

/-- Every bond on the list that is still unspent is kept. -/
def AllKept (index : COutPoint → Option Bytes) (start : Records) (view : LedgerView)
    (coins : CoinsView) (bonds : List (COutPoint × Bytes)) : Prop :=
  ∀ o name, (o, name) ∈ bonds → (coinAt coins o).isSome = true → Kept index start view o name

theorem createdBonds_cons (env : Env) (event : TxEvent) (rest : List TxEvent) :
    createdBonds env (event :: rest) =
      (createdBond env event).toList ++ createdBonds env rest := by
  rw [createdBonds, List.filterMap_cons]
  cases createdBond env event <;> rfl

theorem AllKept.event {event : TxEvent} {events : List TxEvent}
    (kept : AllKept index start view coins bonds)
    (step : TxStep env index height multiplier event.item view view')
    (after : view'.records = event.after)
    (ok : ViewOk env index height view ((event :: events).map TxEvent.item))
    (connected : connectTx env ctx nHeight coins event.item.tx = .ok spent)
    (old : ∀ entry ∈ bonds, ∀ e ∈ event :: events, entry.1.hash ≠ env.txHash e.item.tx) :
    AllKept index start view' spent.view (bonds ++ (createdBond env event).toList) ∧
      ∀ entry ∈ bonds ++ (createdBond env event).toList, ∀ e ∈ events,
        entry.1.hash ≠ env.txHash e.item.tx := by
  constructor
  · intro o name hmem hcoin
    rcases List.mem_append.mp hmem with hmem | hmem
    · have hold := old _ hmem event List.mem_cons_self
      obtain ⟨-, -, hupdate, -⟩ := connectTx_spec connected
      rw [updateCoins_spec hupdate, if_neg hold] at hcoin
      split at hcoin
      · cases hcoin
      · rename_i hnot
        exact (kept o name hmem hcoin).step step ok hold hnot
    · exact .inl (createdBond_spec step ok after (Option.mem_toList.mp hmem)).1
  · intro entry he later hl
    rcases List.mem_append.mp he with he | he
    · exact old entry he later (List.mem_cons_of_mem _ hl)
    · rw [(createdBond_spec step ok after (Option.mem_toList.mp he)).2]
      exact ok.fresh.head_ne (List.mem_map_of_mem hl)

theorem AllKept.events {events : List TxEvent} {coins' : CoinsView}
    (run : EventRun env index height multiplier events view view')
    (coinsRun : CoinsRun env ctx nHeight (events.map TxEvent.item) coins coins')
    (ok : ViewOk env index height view (events.map TxEvent.item))
    (old : ∀ entry ∈ bonds, ∀ event ∈ events, entry.1.hash ≠ env.txHash event.item.tx)
    (kept : AllKept index start view coins bonds) :
    AllKept index start view' coins' (bonds ++ createdBonds env events) := by
  induction run generalizing coins bonds with
  | nil =>
    cases coinsRun
    rw [createdBonds, List.filterMap_nil, List.append_nil]
    exact kept
  | @cons event rest view middle view' before after step run ih =>
    cases coinsRun with
    | cons connected undo fee coinsRun =>
      obtain ⟨hkept, hold⟩ := kept.event step after ok connected old
      rw [createdBonds_cons, ← List.append_assoc]
      exact ih coinsRun (step.viewOk ok) hold hkept

theorem createdBonds_ids {events : List TxEvent}
    (run : EventRun env index height multiplier events view view')
    (ok : ViewOk env index height view (events.map TxEvent.item)) :
    ∀ entry ∈ createdBonds env events, ∃ event ∈ events,
      entry.1.hash = env.txHash event.item.tx := by
  induction run with
  | nil =>
    intro entry he
    cases he
  | @cons event rest view middle view' before after step run ih =>
    intro entry he
    rw [createdBonds_cons, List.mem_append] at he
    rcases he with he | he
    · exact ⟨event, List.mem_cons_self,
        (createdBond_spec step ok after (Option.mem_toList.mp he)).2⟩
    · obtain ⟨later, hl, hid⟩ := ih (step.viewOk ok) entry he
      exact ⟨later, List.mem_cons_of_mem _ hl, hid⟩

/-- A bond with an index row is kept when a block begins. -/
theorem kept_start (ok : DbOk env height db) (row : bondIndex db o = some name) :
    Kept (bondIndex db) (storedRecords db) (startView db) o name := by
  by_cases held : Holds (storedRecords db) name o
  · exact .inl held
  · have unheld : ∀ m, ¬ Holds (storedRecords db) m o := by
      intro m hm
      have hrow := ok.indexed m o hm
      rw [row] at hrow
      cases hrow
      exact held hm
    exact .inr (.inr ⟨row, unheld, unheld, List.not_mem_nil, fun _ => List.not_mem_nil⟩)

/-- A bond kept to the end of a block has an index row. -/
theorem Kept.row {items : List BlockItem} (c : Connected env ledger block items scan)
    (ok : LedgerOk env ledger)
    (kept : Kept (bondIndex ledger.db) (storedRecords ledger.db) (scan.view ledger.db) o name)
    (blockHash : Uint256) (blockHeight : Int) :
    bondIndex (writeBlock env ledger.db blockHash scan blockHeight) o = some name := by
  rcases kept with holds | ⟨hretired, honly⟩ | ⟨hindex, hstart, hunheld, hclaimed, hretired⟩
  · refine (c.dbOk ok blockHash blockHeight).indexed name o ?_
    rw [c.done.block_nickname ok.db]
    exact holds
  · obtain ⟨m, hm, hrow⟩ := c.done.block_bond_retired ⟨name, hretired⟩
    rw [hrow, honly m hm, ((c.viewOk ok).lists.retired (o, name) hretired).2.1]
  · rw [c.done.block_bond_unlisted hretired hclaimed]
    rw [(c.done.upserts_bond ok.db o).2.2 hunheld hstart]
    exact hindex

/-! ## Runs -/

/-- The bonds of the history are of transactions of the chain, and those still
unspent have an index row with their name. -/
structure BondsIndexed (env : Env) (state : ChainState) (bonds : List (COutPoint × Bytes)) :
    Prop where
  ids : ∀ entry ∈ bonds, entry.1.hash ∈ state.ledger.ids env
  rows : ∀ o name, (o, name) ∈ bonds → (coinAt state.coins o).isSome = true →
    bondIndex state.ledger.db o = some name

theorem BondsIndexed.connect (h : BondsIndexed env state bonds) (ok : LedgerOk env state.ledger)
    (fresh : FreshBlock env state.ledger block)
    (accepted : connectBlock env ctx state block = .ok state') :
    BondsIndexed env state' (bonds ++ createdBonds env (chainEvents env ctx state block)) := by
  obtain ⟨scan, a⟩ := eventsAccepted ok fresh accepted
  constructor
  · intro entry he
    rw [Ledger.ids, a.ledger, List.flatMap_cons, List.mem_append]
    rcases List.mem_append.mp he with he | he
    · exact .inr (h.ids entry he)
    · obtain ⟨event, hevent, hid⟩ := createdBonds_ids a.run a.start entry he
      rw [hid, ← a.txs]
      exact .inl (List.mem_map_of_mem (List.mem_map.mpr ⟨event, hevent, rfl⟩))
  · intro o name hmem hcoin
    have old := fun entry he => a.id_ne fresh (h.ids entry he)
    have start : AllKept (bondIndex state.ledger.db) (storedRecords state.ledger.db)
        (startView state.ledger.db) state.coins bonds := fun o name hmem hcoin =>
      kept_start ok.db (h.rows o name hmem hcoin)
    have kept := start.events a.run a.coins a.start old o name hmem hcoin
    rw [a.ledger]
    exact kept.row a.connected ok _ _

theorem BondLinear.indexed {cond : BlockContext → ChainState → CBlock → Prop} {history : History}
    (run : BondLinear env cond state history) :
    BondsIndexed env state history.flatten := by
  induction run with
  | start => exact ⟨by simp, by simp⟩
  | connect run fresh met accepted ih =>
    obtain ⟨ids, rows⟩ := ih.connect run.chain.ok.ledger fresh accepted
    constructor
    · intro entry he
      exact ids entry (List.mem_append.mpr (List.mem_append.mp he).symm)
    · intro o name hmem
      exact rows o name (List.mem_append.mpr (List.mem_append.mp hmem).symm)

/-! ## Claiming a bond -/

/-- No transaction of a chain has the null id. -/
theorem ChainLinear.nonNull (run : ChainLinear env state) :
    (0 : Uint256) ∉ state.ledger.ids env := by
  induction run with
  | start => simp [ChainState.empty, Ledger.empty, Ledger.ids]
  | connect run fresh accepted ih =>
    obtain ⟨txundos, txFees, -, -, hledger, -⟩ := connectBlock_cases accepted
    rw [Ledger.ids, Ledger.connect_chain hledger, List.flatMap_cons, List.mem_append, not_or]
    refine ⟨fun hmem => ?_, ih⟩
    obtain ⟨tx, htx, hid⟩ := List.mem_map.mp hmem
    exact fresh.nonNull tx htx hid

theorem BondOf.indexed (ok : DbOk env height db)
    (h : BondOf (bondIndex db) (storedRecords db) o name) : bondIndex db o = some name := by
  rcases h with holds | ⟨-, row⟩
  · exact ok.indexed name o holds
  · exact row

theorem bondOf_of_row (ok : DbOk env height db) (row : bondIndex db o = some name) :
    BondOf (bondIndex db) (storedRecords db) o name := by
  rcases kept_start ok row with holds | ⟨hretired, -⟩ | ⟨-, unheld, -⟩
  · exact .inl holds
  · cases hretired
  · exact .inr ⟨unheld, row⟩

theorem isCoinBase_prevout (isCoinBase : tx.isCoinBase = true) {txin : CTxIn}
    (hin : txin ∈ tx.vin) : txin.prevout.hash = 0 := by
  unfold CTransaction.isCoinBase at isCoinBase
  split at isCoinBase
  · rename_i only hvin
    rw [hvin, List.mem_singleton] at hin
    subst hin
    simp only [COutPoint.isNull, Bool.and_eq_true, beq_iff_eq] at isCoinBase
    exact isCoinBase.1
  · cases isCoinBase

/-- The undo data authorizes an owner if the transaction spends an output of the
view with an owner script. -/
theorem ownerInput_iff {view view' : CoinsView} {txundo : CTxUndo} {fee : CAmount}
    {ownerPubKey : Bytes}
    (key : ValidOwnerKey env ownerPubKey)
    (spent : updateCoins env tx view nHeight = some (view', txundo))
    (notCoinBase : tx.isCoinBase = false) :
    OwnerInput env ⟨tx, some txundo, fee⟩ ownerPubKey ↔
      ∃ txin ∈ tx.vin, ∃ txout, coinAt view txin.prevout = some txout ∧
        isOwnerScript env ownerPubKey txout.scriptPubKey = true := by
  have hundo := updateCoins_undo spent notCoinBase
  rw [← exists_undo_iff hundo (P := fun txout =>
    isOwnerScript env ownerPubKey txout.scriptPubKey = true)]
  simp only [OwnerInput, txHasOwnerAuthorizationInput, checkOwnerPubKey, eq_ok, List.any_eq_true]
  constructor
  · rintro ⟨_, ⟨-, -, -, -, rfl⟩, -, -, hany⟩
    rw [key.set_eq] at hany
    exact hany
  · intro hany
    refine ⟨ownerPubKey, ⟨(), key.length_eq, (), key, key.set_eq⟩, (), hundo.length_eq.symm, hany⟩

/-- A block whose only transaction after the coinbase spends an outpoint and
carries a claim for a name, with the undo data of that transaction. -/
structure ClaimBlock (env : Env) (state : ChainState) (height : Int) (o : COutPoint)
    (name : Bytes) (block : CBlock) (coinbase tx : CTransaction) (txundo : CTxUndo) : Prop where
  txs : block.vtx = [coinbase, tx]
  fresh : FreshBlock env state.ledger block
  isCoinBase : coinbase.isCoinBase = true
  notCoinBase : tx.isCoinBase = false
  claims : Operates env tx .claimBond name
  spends : ∃ txin ∈ tx.vin, txin.prevout = o
  undo : ∃ view coinbaseUndo view',
    updateCoins env coinbase state.coins height = some (view, coinbaseUndo) ∧
      updateCoins env tx view height = some (view', txundo)

/-- The coinbase has no nickname data, and the claim spends no other indexed
outpoint. -/
structure SingleClaim (env : Env) (db : NicknameStateDB) (o : COutPoint)
    (coinbase tx : CTransaction) : Prop where
  coinbase : extractNicknameOperationFromTx env coinbase = .ok none
  others : ∀ txin ∈ tx.vin, txin.prevout ≠ o → bondIndex db txin.prevout = none

section Claim

variable {env : Env} {state : ChainState} {height : Int} {o : COutPoint} {name : Bytes}
  {block : CBlock} {coinbase tx : CTransaction} {txundo : CTxUndo}

/-- The claim spends the indexed bond of its name and no other bond. -/
theorem SingleClaim.spendsBond (single : SingleClaim env state.ledger.db o coinbase tx)
    (ok : DbOk env state.ledger.height state.ledger.db)
    (row : bondIndex state.ledger.db o = some name)
    (claim : ClaimBlock env state height o name block coinbase tx txundo) :
    SpendsBond (bondIndex state.ledger.db) (storedRecords state.ledger.db) tx.vin name (some o) := by
  refine ⟨?_, ?_⟩
  · rintro _ ⟨⟩
    exact ⟨claim.spends, bondOf_of_row ok row⟩
  · intro txin hin m bond
    have hrow := BondOf.indexed ok bond
    by_cases he : txin.prevout = o
    · rw [he, row] at hrow
      cases hrow
      exact ⟨rfl, by rw [he]⟩
    · rw [single.others txin hin he] at hrow
      cases hrow

section

variable (claim : ClaimBlock env state height o name block coinbase tx txundo)
  (run : ChainLinear env state)
include claim run

/-- Who spends the bond of a record is authorized by it. -/
theorem ClaimBlock.authorized {info : NicknameInfo}
    (record : storedRecords state.ledger.db name = some info) (bonded : info.hasBondOutpoint = true)
    (current : info.getBondOutpoint = o) (fee : CAmount) :
    OwnerInput env ⟨tx, some txundo, fee⟩ info.ownerPubKey := by
  obtain ⟨view, coinbaseUndo, view', hcoinbase, hspent⟩ := claim.undo
  obtain ⟨txin, hin, he⟩ := claim.spends
  have ok := run.ok.ledger
  have coin := run.custody name info record bonded
  have old : o.hash ≠ env.txHash coinbase := by
    intro hid
    have hmem := ok.ids o name (ok.db.indexed name o (by
      rw [Holds, record, currentBond_some]
      exact ⟨bonded, current⟩))
    refine claim.fresh.unused coinbase ?_ (hid ▸ hmem)
    rw [claim.txs]
    exact List.mem_cons_self
  have stays : coinAt view o = coinAt state.coins o := by
    rw [updateCoins_spec hcoinbase, if_neg old, spentOutpoints, if_pos claim.isCoinBase]
    simp
  rw [ownerInput_iff (ok.db.records name info record).owner hspent claim.notCoinBase]
  refine ⟨txin, hin, ⟨info.bondAmount, getScriptForRawPubKey info.ownerPubKey⟩, ?_, ?_⟩
  · rw [he, stays, ← current]
    exact coin
  · simp [isOwnerScript, ownerP2PK]

/-- The claim of an indexed bond is accepted exactly when the bond is not the
current one or the name's bond may be claimed. -/
theorem ClaimBlock.accepted_iff (row : bondIndex state.ledger.db o = some name)
    (single : SingleClaim env state.ledger.db o coinbase tx) {coinbaseFee fee : CAmount}
    (paid : 0 ≤ fee) :
    (∃ updates, buildNicknameBlockUpdates env state.ledger.db block [txundo] [coinbaseFee, fee]
        height = .ok updates) ↔
      ¬ Holds (storedRecords state.ledger.db) name o ∨
        ∃ info, storedRecords state.ledger.db name = some info ∧
          info.getStatus height = .bondClaimable := by
  have ok := run.ok.ledger
  -- The input of a coinbase is no bond.
  rw [build_single_iff ok.db claim.txs single.coinbase fun txin hin name bond => run.nonNull
    (isCoinBase_prevout claim.isCoinBase hin ▸ ok.ids _ _ (BondOf.indexed ok.db bond))]
  obtain ⟨op, found, type, rfl⟩ := claim.claims
  have spends := single.spendsBond ok.db row claim
  constructor
  · rintro ⟨view, step⟩
    cases step with
    | plain found' =>
      rw [found] at found'
      cases found'
    | @operate op' spent outcome found' notCoinBase _ spends' step =>
      rw [found] at found'
      cases found'
      obtain rfl := spends'.deterministic spends
      generalize hf : (startView state.ledger.db).records op.nickname = record at step
      have hf' : storedRecords state.ledger.db op.nickname = record := hf
      cases step with
      | claimBond _ bonded claimable => exact .inr ⟨_, hf', claimable⟩
      | claimLegacy _ legacy =>
        refine .inl fun holds => legacy ?_
        rw [Holds, hf', currentBond_some] at holds
        exact ⟨holds.1, holds.2.symm⟩
      | transfer type' | renew type' =>
        rw [type] at type'
        cases type'
  · intro allowed
    obtain ⟨info, record⟩ := ok.db.named o op.nickname row
    have hfee : getRequiredNicknameFee op (readPricingMultiplierPermille state.ledger.db) ≤ fee := by
      rw [getRequiredNicknameFee, type]
      exact paid
    have step : ∃ outcome, OpStep env height (readPricingMultiplierPermille state.ledger.db)
        ⟨tx, some txundo, fee⟩ op (some o) (some info) outcome := by
      by_cases current : info.hasBondOutpoint = true ∧ o = info.getBondOutpoint
      · obtain ⟨bonded, rfl⟩ := current
        have claimable : info.getStatus height = .bondClaimable := by
          rcases allowed with hnot | ⟨info', record', claimable⟩
          · refine absurd ?_ hnot
            rw [Holds, record, currentBond_some]
            exact ⟨bonded, rfl⟩
          · rw [record] at record'
            cases record'
            exact claimable
        exact ⟨_, .claimBond type bonded claimable
          (claim.authorized run record bonded rfl fee)⟩
      · exact ⟨_, .claimLegacy type current⟩
    obtain ⟨outcome, step⟩ := step
    exact ⟨_, .operate found claim.notCoinBase hfee spends (record ▸ step)⟩

end

end Claim

/-- No bond is lost: in every state reached, each bond output that a
registration, transfer or renewal of the chain made and that is unspent has an
index row with its name, and at every later height the block that claims it
alone is accepted exactly when it is no longer the current bond of the name or
the name's status is claimable. -/
theorem no_bond_lost {env : Env} {state : ChainState} {history : History}
    (run : BondRun env (fun _ _ _ => True) state history) {o : COutPoint} {name : Bytes}
    (created : (o, name) ∈ history.flatten) (unspent : (coinAt state.coins o).isSome = true) :
    bondIndex state.ledger.db o = some name ∧
      ∀ height block coinbase tx txundo coinbaseFee fee, state.ledger.height < height →
        ClaimBlock env state height o name block coinbase tx txundo →
        SingleClaim env state.ledger.db o coinbase tx → 0 ≤ fee →
        ((∃ updates, buildNicknameBlockUpdates env state.ledger.db block [txundo]
            [coinbaseFee, fee] height = .ok updates) ↔
          ¬ Holds (storedRecords state.ledger.db) name o ∨
            ∃ info, storedRecords state.ledger.db name = some info ∧
              info.getStatus height = .bondClaimable) := by
  have linear := run.linear
  have row := linear.indexed.rows o name created unspent
  refine ⟨row, ?_⟩
  intro height block coinbase tx txundo coinbaseFee fee _ claim single paid
  exact claim.accepted_iff linear.chain row single paid

/-! ## A bond left behind on the sample chain -/

variable {env : Env} {cond : BlockContext → ChainState → CBlock → Bool}
  {blocks : List (BlockContext × CBlock)}

/-- Connect blocks that meet a condition, with the bonds they make. -/
def runWith (env : Env) (cond : BlockContext → ChainState → CBlock → Bool)
    (blocks : List (BlockContext × CBlock)) : Option (ChainState × History) :=
  connectWith env (fun ctx state block =>
    if cond ctx state block then some (createdBonds env (chainEvents env ctx state block)) else none)
    .empty [] blocks

theorem runWith_run {result : ChainState × History} (h : runWith env cond blocks = some result) :
    BondRun env (fun ctx state block => cond ctx state block = true) result.1 result.2 := by
  refine (connectWith_run (P := BondRun env _) (fun run fresh visit accepted => ?_) .start h).1
  obtain ⟨met, bonds⟩ := Option.ite_none_right_eq_some.mp visit
  exact Option.some.inj bonds ▸ .connect run fresh met accepted

/-- The state after connecting blocks, and the bonds they made. -/
def runOf (env : Env) (blocks : List (BlockContext × CBlock)) : ChainState × History :=
  (runWith env (fun _ _ _ => true) blocks).getD (.empty, [])

theorem runOf_run (accepted : (runWith env (fun _ _ _ => true) blocks).isSome = true) :
    BondRun env (fun _ _ _ => True) (runOf env blocks).1 (runOf env blocks).2 := by
  obtain ⟨result, hresult⟩ := Option.isSome_iff_exists.mp accepted
  rw [runOf, hresult]
  exact (runWith_run hresult).mono fun _ _ _ _ => trivial

/-- The sample name is registered, released and registered again. -/
def reregisteredBlocks : List (BlockContext × CBlock) :=
  registeredBlocks ++ [(sampleContext, sampleBlock 32 [releaseTx, reregisterTx])]

/-- A claim that spends the bonds of both registrations. -/
def claimBothTx : CTransaction where
  nVersion := 1
  vin :=
    [⟨⟨registerId, 1⟩, pushBytes (
      bytesOf 36 0x304402205c29a764dc3928f722620681f35de1b7a9126fdc575aa45e4e952849652f5896 ++
      bytesOf 35 0x02200bac217fe3771d275105868e5a36859b1355e69f071543f105776c067dc17ec901),
      0xffffffff, []⟩,
     ⟨⟨reregisterId, 1⟩, pushBytes (
      bytesOf 35 0x3043021f60c3e02556151eca23e7d5dd1a5c0f3dc8638d3caf729a10a72c6202cdbb2e ++
      bytesOf 35 0x022006f9753414810c554b17898811d1f137bcb9885b481db842188ed8e9218e7eef01),
      0xffffffff, []⟩]
  vout := [announce 6 [], toSampleKey 599]
  nLockTime := 0

def claimBothEnv : Env :=
  { sampleEnv with
    txHash := fun tx =>
      if tx = claimBothTx then
        0xecb25f3fd21873dcdd1adfe201cccc386dfa0242868479e8b7eaa4df31bb8648
      else sampleEnv.txHash tx }

/-- The chain on which the name was registered twice, with its bonds. -/
def reregistered : ChainState × History := runOf claimBothEnv reregisteredBlocks

theorem reregistered_run :
    BondRun claimBothEnv (fun _ _ _ => True) reregistered.1 reregistered.2 :=
  runOf_run (by decide +kernel)

/-- The bond of the first registration is unspent and no longer the current one. -/
theorem reregistered_bond :
    (⟨registerId, 1⟩, sampleName) ∈ reregistered.2.flatten ∧
      (coinAt reregistered.1.coins ⟨registerId, 1⟩).isSome = true ∧
      ¬ Holds (storedRecords reregistered.1.ledger.db) sampleName ⟨registerId, 1⟩ := by
  unfold Holds
  decide +kernel

theorem sampleClaim {tx : CTransaction} {txundo : CTxUndo}
    (fresh : FreshBlock claimBothEnv reregistered.1.ledger (sampleBlock 33 [tx]))
    (notCoinBase : tx.isCoinBase = false) (claims : Operates claimBothEnv tx .claimBond sampleName)
    (spends : ∃ txin ∈ tx.vin, txin.prevout = ⟨registerId, 1⟩)
    (undo : ((updateCoins claimBothEnv (sampleCoinbase 33) reregistered.1.coins 33).bind fun r =>
      updateCoins claimBothEnv tx r.1 33).map Prod.snd = some txundo) :
    ClaimBlock claimBothEnv reregistered.1 33 ⟨registerId, 1⟩ sampleName (sampleBlock 33 [tx])
      (sampleCoinbase 33) tx txundo where
  txs := rfl
  fresh := fresh
  isCoinBase := by decide
  notCoinBase := notCoinBase
  claims := claims
  spends := spends
  undo := by
    obtain ⟨⟨view', undo'⟩, hspent, rfl⟩ := Option.map_eq_some_iff.mp undo
    obtain ⟨⟨view, coinbaseUndo⟩, hcoinbase, hspent⟩ := Option.bind_eq_some_iff.mp hspent
    exact ⟨view, coinbaseUndo, view', hcoinbase, hspent⟩

/-- The bond of the first registration can be claimed by whoever holds its key. -/
theorem no_bond_lost_reregistered :
    (⟨registerId, 1⟩, sampleName) ∈ reregistered.2.flatten ∧
      bondIndex reregistered.1.ledger.db ⟨registerId, 1⟩ = some sampleName ∧
      ∃ updates, buildNicknameBlockUpdates claimBothEnv reregistered.1.ledger.db
        (sampleBlock 33 [claimTx]) [[{ txout := toSampleKey 300 }]] [0, 1000000] 33 =
          .ok updates := by
  obtain ⟨fresh, undo, high⟩ :
      FreshBlock claimBothEnv reregistered.1.ledger (sampleBlock 33 [claimTx]) ∧
      ((updateCoins claimBothEnv (sampleCoinbase 33) reregistered.1.coins 33).bind fun r =>
        updateCoins claimBothEnv claimTx r.1 33).map Prod.snd =
          some [{ txout := toSampleKey 300 }] ∧
      reregistered.1.ledger.height < 33 := by decide +kernel
  obtain ⟨row, claimable⟩ := no_bond_lost reregistered_run reregistered_bond.1 reregistered_bond.2.1
  refine ⟨reregistered_bond.1, row, ?_⟩
  have claim := sampleClaim fresh (by decide) (by decide +kernel) (by decide) undo
  have single : SingleClaim claimBothEnv reregistered.1.ledger.db ⟨registerId, 1⟩
      (sampleCoinbase 33) claimTx := by
    refine ⟨by decide +kernel, ?_⟩
    intro txin hin hne
    rw [List.mem_singleton.mp hin] at hne
    exact absurd rfl hne
  exact (claimable 33 _ _ _ _ 0 1000000 high claim single (by decide)).mpr
    (.inl reregistered_bond.2.2)

/-- A claim that also spends the current bond is rejected, although the bond of
the first registration is no longer the current one. -/
theorem claim_of_two_bonds_rejected :
    BondRun claimBothEnv (fun _ _ _ => True) reregistered.1 reregistered.2 ∧
      (⟨registerId, 1⟩, sampleName) ∈ reregistered.2.flatten ∧
      (coinAt reregistered.1.coins ⟨registerId, 1⟩).isSome = true ∧
      ClaimBlock claimBothEnv reregistered.1 33 ⟨registerId, 1⟩ sampleName
        (sampleBlock 33 [claimBothTx]) (sampleCoinbase 33) claimBothTx
        [{ txout := toSampleKey 300 }, { txout := toSampleKey 300 }] ∧
      ¬ Holds (storedRecords reregistered.1.ledger.db) sampleName ⟨registerId, 1⟩ ∧
      buildNicknameBlockUpdates claimBothEnv reregistered.1.ledger.db
        (sampleBlock 33 [claimBothTx])
        [[{ txout := toSampleKey 300 }, { txout := toSampleKey 300 }]] [0, 1000000] 33 =
          .error "transaction spends multiple nickname bond outpoints" := by
  obtain ⟨fresh, undo, reason⟩ :
      FreshBlock claimBothEnv reregistered.1.ledger (sampleBlock 33 [claimBothTx]) ∧
      ((updateCoins claimBothEnv (sampleCoinbase 33) reregistered.1.coins 33).bind fun r =>
        updateCoins claimBothEnv claimBothTx r.1 33).map Prod.snd =
          some [{ txout := toSampleKey 300 }, { txout := toSampleKey 300 }] ∧
      reasonOf (buildNicknameBlockUpdates claimBothEnv reregistered.1.ledger.db
        (sampleBlock 33 [claimBothTx])
        [[{ txout := toSampleKey 300 }, { txout := toSampleKey 300 }]] [0, 1000000] 33) =
          some "transaction spends multiple nickname bond outpoints" := by decide +kernel
  obtain ⟨created, unspent, notCurrent⟩ := reregistered_bond
  refine ⟨reregistered_run, created, unspent, ?_, notCurrent, reasonOf_eq_some.mp reason⟩
  exact sampleClaim fresh (by decide) (by decide +kernel) (by decide) undo

end KubuCore.Chain
