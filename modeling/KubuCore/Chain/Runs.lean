import KubuCore.Chain.Connect
import KubuCore.Chain.Restore

/-!
# Runs of the chain state

Blocks are connected to the coins view and to the nickname ledger together,
and disconnected together. Disconnecting is exact on both, so every reachable
state is reached by connecting the blocks of its chain (`ChainReachable.linear`).
-/

namespace KubuCore.Chain

open Checked
open Nickname

/-! ## What an accepted block passed -/

theorem checkOutputs_range {start : Int} {outputs : List CTxOut} (low : start ≤ maxMoney)
    (h : checkOutputs start outputs = .ok ()) :
    (∀ txout ∈ outputs, 0 ≤ txout.nValue ∧ txout.nValue ≤ maxMoney) ∧
      start + (outputs.map CTxOut.nValue).sum ≤ maxMoney := by
  induction outputs generalizing start with
  | nil => simpa using low
  | cons txout rest ih =>
    simp only [checkOutputs, eq_ok, moneyRange, Bool.and_eq_true, decide_eq_true_eq] at h
    obtain ⟨-, hnonneg, -, hmax, -, ⟨-, htotal⟩, hrest⟩ := h
    obtain ⟨heach, hsum⟩ := ih htotal hrest
    rw [List.map_cons, List.sum_cons]
    exact ⟨List.forall_mem_cons.mpr ⟨⟨hnonneg, hmax⟩, heach⟩, by linarith⟩

variable {tx : CTransaction} {view' : CoinsView} {txundos : List CTxUndo} {txFees : List CAmount}
  {state state' : ChainState}

theorem checkTransaction_range (h : checkTransaction tx = .ok ()) :
    (∀ txout ∈ tx.vout, 0 ≤ txout.nValue ∧ txout.nValue ≤ maxMoney) ∧
      tx.getValueOut ≤ maxMoney := by
  simp only [checkTransaction, eq_ok] at h
  obtain ⟨-, -, -, -, -, -, ⟨⟩, houtputs, -⟩ := h
  have hrange := checkOutputs_range (by decide) houtputs
  rw [zero_add] at hrange
  exact hrange

/-- A transaction that passes `CheckTransaction` pays no negative amount and
spends no output twice. -/
theorem checkTransaction_spec (h : checkTransaction tx = .ok ()) :
    (∀ txout ∈ tx.vout, 0 ≤ txout.nValue) ∧ (tx.vin.map CTxIn.prevout).Nodup := by
  have hrange := (checkTransaction_range h).1
  simp only [checkTransaction, eq_ok] at h
  obtain ⟨-, -, -, -, -, -, -, -, -, hnodup, -⟩ := h
  exact ⟨fun txout ho => (hrange txout ho).1, hnodup⟩

theorem isNull_of_nonneg {txout : CTxOut} (h : 0 ≤ txout.nValue) : txout.isNull = false := by
  have hne : txout.nValue ≠ -1 := by
    intro he
    rw [he] at h
    exact absurd h (by decide)
  simp [CTxOut.isNull, hne]

variable {env : Env} {ctx : BlockContext} {block : CBlock} {nHeight : Int} {view : CoinsView}

/-- An accepted block is a coinbase followed by other transactions. -/
theorem checkBlock_spec (h : checkBlock block = .ok ()) :
    ∃ coinbase txs, block.vtx = coinbase :: txs ∧ coinbase.isCoinBase = true ∧
      (∀ tx ∈ txs, tx.isCoinBase = false) ∧ ∀ tx ∈ block.vtx, checkTransaction tx = .ok () := by
  simp only [checkBlock, eq_ok, forM_eq_ok] at h
  obtain ⟨-, hne, -, hfirst, -, hothers, heach⟩ := h
  cases hv : block.vtx with
  | nil => exact absurd hv hne
  | cons coinbase txs =>
    rw [hv] at hfirst hothers heach
    exact ⟨coinbase, txs, rfl, by simpa using hfirst, by simpa using hothers, heach⟩

theorem connectTx_spec {spent : Spent} (h : connectTx env ctx nHeight view tx = .ok spent) :
    (tx.isCoinBase = true ∨ haveInputs view tx = true) ∧
      checkInputs env view tx nHeight ctx.fScriptChecks (ctx.flags env.consensus nHeight) = .ok () ∧
      updateCoins env tx view nHeight = some (spent.view, spent.txundo) ∧
      spent.txFee = if tx.isCoinBase then 0 else getValueIn view tx - tx.getValueOut := by
  simp only [connectTx, eq_ok] at h
  obtain ⟨-, hinputs, ⟨⟩, hchecks, h⟩ := h
  split at h
  · rename_i hupdate
    cases h
    exact ⟨hinputs, hchecks, hupdate, rfl⟩
  · cases h

/-- The transactions of a block against the coins view, one after the other. -/
inductive CoinsRun (env : Env) (ctx : BlockContext) (nHeight : Int) :
    List BlockItem → CoinsView → CoinsView → Prop where
  | nil {view : CoinsView} : CoinsRun env ctx nHeight [] view view
  | cons {item : BlockItem} {rest : List BlockItem} {view view' : CoinsView} {spent : Spent}
      (connected : connectTx env ctx nHeight view item.tx = .ok spent)
      (undo : item.tx.isCoinBase = false → item.txundo = some spent.txundo)
      (fee : item.fee = spent.txFee)
      (run : CoinsRun env ctx nHeight rest spent.view view') :
      CoinsRun env ctx nHeight (item :: rest) view view'

/-- The transaction loop of a block, with what it collects. -/
inductive TxLoop (env : Env) (ctx : BlockContext) (nHeight : Int) : CoinsView →
    List CTransaction → CoinsView → List CTxUndo → List CAmount → Prop where
  | nil {view : CoinsView} : TxLoop env ctx nHeight view [] view [] []
  | cons {view view' : CoinsView} {tx : CTransaction} {rest : List CTransaction} {spent : Spent}
      {txundos : List CTxUndo} {txFees : List CAmount}
      (connected : connectTx env ctx nHeight view tx = .ok spent)
      (run : TxLoop env ctx nHeight spent.view rest view' txundos txFees) :
      TxLoop env ctx nHeight view (tx :: rest) view' (spent.txundo :: txundos)
        (spent.txFee :: txFees)

theorem txLoop_of_connectTxs {txs : List CTransaction}
    (h : connectTxs env ctx nHeight view txs = .ok (view', txundos, txFees)) :
    TxLoop env ctx nHeight view txs view' txundos txFees := by
  induction txs generalizing view txundos txFees with
  | nil =>
    cases h
    exact .nil
  | cons tx rest ih =>
    simp only [connectTxs, eq_ok] at h
    obtain ⟨spent, hone, ⟨view₁, undos, fees⟩, hrest, h⟩ := h
    cases h
    exact .cons hone (ih hrest)

theorem TxLoop.coinsRun {txs : List CTransaction}
    (h : TxLoop env ctx nHeight view txs view' txundos txFees) :
    CoinsRun env ctx nHeight (List.zipWith3 BlockItem.mk txs (txundos.map some) txFees)
      view view' := by
  induction h with
  | nil => exact .nil
  | cons connected _ ih => exact .cons connected (fun _ => rfl) rfl ih

/-- The parts of an accepted block: its transactions ran against the coins and
the ledger took it. -/
structure Accepted (env : Env) (ctx : BlockContext) (state state' : ChainState) (block : CBlock)
    (blockUndo : CBlockUndo) (txFees : List CAmount) : Prop where
  checked : checkBlock block = .ok ()
  coins : CoinsRun env ctx (state.ledger.height + 1) (blockItems block blockUndo txFees)
    state.coins state'.coins
  ledger : state.ledger.connect env block blockUndo txFees = .ok state'.ledger
  undo : state'.undo = blockUndo :: state.undo

theorem connectBlock_cases (h : connectBlock env ctx state block = .ok state') :
    ∃ txundos txFees, checkBlock block = .ok () ∧
      connectTxs env ctx (state.ledger.height + 1) state.coins block.vtx =
        .ok (state'.coins, txundos, txFees) ∧
      state.ledger.connect env block txundos.tail txFees = .ok state'.ledger ∧
      state'.undo = txundos.tail :: state.undo := by
  simp only [connectBlock, eq_ok] at h
  obtain ⟨⟨⟩, hchecked, -, -, ⟨coins, txundos, txFees⟩, htxs, -, -, h⟩ := h
  split at h
  · rename_i hledger
    cases h
    exact ⟨txundos, txFees, hchecked, htxs, hledger, rfl⟩
  · cases h

/-- The transaction loop of a checked block as a run over its items. -/
theorem coinsRun_of_block (checked : checkBlock block = .ok ())
    (htxs : connectTxs env ctx nHeight view block.vtx = .ok (view', txundos, txFees)) :
    CoinsRun env ctx nHeight (blockItems block txundos.tail txFees) view view' := by
  obtain ⟨coinbase, txs, hvtx, hcb, -, -⟩ := checkBlock_spec checked
  rw [hvtx] at htxs
  rw [blockItems, hvtx]
  cases txLoop_of_connectTxs htxs with
  | cons connected run =>
    refine .cons connected (fun hnot => ?_) rfl run.coinsRun
    rw [hcb] at hnot
    cases hnot

theorem connectBlock_accepted (h : connectBlock env ctx state block = .ok state') :
    ∃ blockUndo txFees, Accepted env ctx state state' block blockUndo txFees := by
  obtain ⟨txundos, txFees, hchecked, htxs, hledger, hundo⟩ := connectBlock_cases h
  exact ⟨txundos.tail, txFees, hchecked, coinsRun_of_block hchecked htxs, hledger, hundo⟩

/-! ## Disconnecting -/

section Transactions

variable {env : Env} {ctx : BlockContext} {nHeight : Int} {view view' : CoinsView}
  {txs : List CTransaction} {txundos : List CTxUndo} {txFees : List CAmount}

theorem tidy_connectTx {spent : Spent} (tidy : Tidy view) (height : nHeight ≠ 0)
    (checked : checkTransaction tx = .ok ())
    (connected : connectTx env ctx nHeight view tx = .ok spent) : Tidy spent.view := by
  obtain ⟨-, -, hupdate, -⟩ := connectTx_spec connected
  have hvalues := (checkTransaction_spec checked).1
  exact tidy_updateCoins tidy (fun o ho => isNull_of_nonneg (hvalues o ho)) height hupdate

theorem TxLoop.tidy (h : TxLoop env ctx nHeight view txs view' txundos txFees) (tidy : Tidy view)
    (height : nHeight ≠ 0) (checked : ∀ tx ∈ txs, checkTransaction tx = .ok ()) : Tidy view' := by
  induction h with
  | nil => exact tidy
  | cons connected _ ih =>
    obtain ⟨htx, hrest⟩ := List.forall_mem_cons.mp checked
    exact ih (tidy_connectTx tidy height htx connected) hrest

theorem TxLoop.absent {txid : Uint256}
    (h : TxLoop env ctx nHeight view txs view' txundos txFees) (absent : view[txid]? = none)
    (new : txid ∉ txs.map env.txHash) : view'[txid]? = none := by
  induction h with
  | nil => exact absent
  | cons connected _ ih =>
    obtain ⟨-, -, hupdate, -⟩ := connectTx_spec connected
    rw [List.map_cons, List.mem_cons, not_or] at new
    exact ih (absent_updateCoins absent new.1 hupdate) new.2

theorem TxLoop.length (h : TxLoop env ctx nHeight view txs view' txundos txFees) :
    txundos.length = txs.length := by
  induction h with
  | nil => rfl
  | cons _ _ ih => simp [ih]

/-- The loop of `DisconnectBlock` undoes the loop of `ConnectBlock`. -/
theorem TxLoop.disconnect (h : TxLoop env ctx nHeight view txs view' txundos txFees)
    (tidy : Tidy view) (height : nHeight ≠ 0)
    (checked : ∀ tx ∈ txs, checkTransaction tx = .ok ())
    (notCoinBase : ∀ tx ∈ txs, tx.isCoinBase = false) (distinct : (txs.map env.txHash).Nodup)
    (absent : ∀ tx ∈ txs, view[env.txHash tx]? = none) :
    disconnectTxs env view' nHeight (txs.zip txundos) = some (view, true) := by
  induction h with
  | nil => rfl
  | cons connected _ ih =>
    obtain ⟨-, -, hupdate, -⟩ := connectTx_spec connected
    rw [List.map_cons, List.nodup_cons] at distinct
    rw [List.forall_mem_cons] at checked notCoinBase absent
    have hback := ih (tidy_connectTx tidy height checked.1 connected) checked.2 notCoinBase.2
      distinct.2 fun t ht => absent_updateCoins (absent.2 t ht)
        (fun he => distinct.1 (he ▸ List.mem_map_of_mem ht)) hupdate
    exact disconnectTxs_cons tidy absent.1 notCoinBase.1 hupdate hback

end Transactions

/-! ## Runs -/

/-- What holds of every chain state: its ledger is well formed, its view tidy,
and only transactions of the chain have coins. -/
structure ChainOk (env : Env) (state : ChainState) : Prop where
  ledger : LedgerOk env state.ledger
  tidy : Tidy state.coins
  ids : ∀ txid : Uint256, txid ∉ state.ledger.ids env → state.coins[txid]? = none

theorem chainOk_empty (env : Env) : ChainOk env .empty where
  ledger := ledgerOk_empty env
  tidy := tidy_empty
  ids := by simp [ChainState.empty]

section Block

variable {env : Env} {ctx : BlockContext} {state state' : ChainState} {block : CBlock}

theorem height_ne_zero (ledger : Ledger) : ledger.height + 1 ≠ 0 := by
  simp only [Ledger.height]
  omega

theorem Ledger.connect_chain {ledger ledger' : Ledger} {blockUndo : CBlockUndo}
    {txFees : List CAmount} (h : ledger.connect env block blockUndo txFees = .ok ledger') :
    ledger'.chain = block :: ledger.chain := by
  simp only [Ledger.connect, eq_ok] at h
  obtain ⟨updates, -, rfl⟩ := h
  rfl

theorem ChainOk.connect (ok : ChainOk env state) (fresh : FreshBlock env state.ledger block)
    (h : connectBlock env ctx state block = .ok state') : ChainOk env state' := by
  obtain ⟨txundos, txFees, hchecked, htxs, hledger, -⟩ := connectBlock_cases h
  obtain ⟨coinbase, txs, -, -, -, heach⟩ := checkBlock_spec hchecked
  have hchain := Ledger.connect_chain hledger
  have hloop := txLoop_of_connectTxs htxs
  refine ⟨?_, hloop.tidy ok.tidy (height_ne_zero _) heach, fun txid hnew => ?_⟩
  · obtain ⟨scan, c, hl⟩ := connect_spec ok.ledger fresh hledger
    rw [hl]
    exact c.ledgerOk ok.ledger
  · rw [Ledger.ids, hchain, List.flatMap_cons, List.mem_append, not_or] at hnew
    exact hloop.absent (ok.ids txid hnew.2) hnew.1

/-- Disconnecting the block just connected gives the coins back, whatever the
ledger made of it, if no id of the block had coins before. -/
theorem disconnectBlock_coins (tidy : Tidy state.coins)
    (distinct : (block.vtx.map env.txHash).Nodup)
    (absent : ∀ tx ∈ block.vtx, state.coins[env.txHash tx]? = none)
    (h : connectBlock env ctx state block = .ok state') :
    disconnectBlock env state' =
      some ⟨state.coins, state'.ledger.disconnect env, state.undo⟩ := by
  obtain ⟨txundos, txFees, hchecked, htxs, hledger, hundo⟩ := connectBlock_cases h
  obtain ⟨coinbase, txs, hvtx, hcb, hothers, heach⟩ := checkBlock_spec hchecked
  have hchain := Ledger.connect_chain hledger
  have hheight : state'.ledger.height = state.ledger.height + 1 := by
    simp [Ledger.height, hchain]
  rw [hvtx] at htxs heach distinct absent
  rw [List.map_cons, List.nodup_cons] at distinct
  rw [List.forall_mem_cons] at heach absent
  generalize hcoins : state'.coins = coins at htxs
  obtain - | @⟨_, _, _, _, spent, undos, fees, hone, hrest⟩ := txLoop_of_connectTxs htxs
  obtain ⟨-, -, hupdate, -⟩ := connectTx_spec hone
  have hloop := hrest.disconnect (tidy_connectTx tidy (height_ne_zero _) heach.1 hone)
    (height_ne_zero _) heach.2 hothers distinct.2 fun tx ht => absent_updateCoins (absent.2 tx ht)
      (fun he => distinct.1 (he ▸ List.mem_map_of_mem ht)) hupdate
  have hfirst : removeOutputs env coinbase spent.view (state.ledger.height + 1) =
      (state.coins, true) := by
    obtain ⟨middle, hspent, ⟨-, rfl, -⟩ | ⟨hnot, -⟩⟩ := updateCoins_cases hupdate
    · rw [hspent]
      exact removeOutputs_storeCoins _ absent.1
    · rw [hcb] at hnot
      cases hnot
  simp only [disconnectBlock, hchain, hundo, hvtx, List.tail_cons, hrest.length, ne_eq,
    not_true_eq_false, if_false, hheight, hcoins, hloop, Option.bind_eq_bind, Option.bind_some,
    hfirst, Bool.and_self, if_true]

/-- Disconnecting the block just connected gives the state back. -/
theorem disconnectBlock_connectBlock (ok : ChainOk env state)
    (fresh : FreshBlock env state.ledger block)
    (h : connectBlock env ctx state block = .ok state') :
    disconnectBlock env state' = some state := by
  obtain ⟨txundos, txFees, -, -, hledger, -⟩ := connectBlock_cases h
  have habsent : ∀ tx ∈ block.vtx, state.coins[env.txHash tx]? = none := fun tx htx =>
    ok.ids _ (fresh.unused tx htx)
  rw [disconnectBlock_coins ok.tidy fresh.distinct habsent h,
    disconnect_connect ok.ledger fresh hledger]

end Block

/-- The views the node keeps: every entry is cleaned up, spent outputs are null
outputs, and no coin has height 0, since the outputs of the genesis block are
never added. -/
structure UtxoView where
  coins : CoinsView
  tidy : Tidy coins

/-- The unspent output at an outpoint, with the height and the coinbase flag of
its transaction. -/
def coinInfo (view : CoinsView) (outpoint : COutPoint) : Option (CTxOut × Int × Bool) :=
  (coinAt view outpoint).map fun txout =>
    (txout, (coinsOf view outpoint.hash).nHeight, (coinsOf view outpoint.hash).fCoinBase)

/-- The hash of the tip. -/
def ChainState.bestBlock (state : ChainState) : Option Uint256 :=
  state.ledger.chain.head?.map CBlock.hash

theorem Ledger.disconnect_chain (env : Env) (ledger : Ledger) :
    (ledger.disconnect env).chain = ledger.chain.tail := by
  rw [Ledger.disconnect]
  cases hc : ledger.chain with
  | nil => simp [hc]
  | cons block rest =>
    simp only
    split <;> rfl

theorem absent_of_pruned {view : CoinsView} (tidy : Tidy view) {txid : Uint256}
    (h : (coinsOf view txid).isPruned = true) : view[txid]? = none := by
  cases hv : view[txid]? with
  | none => rfl
  | some coins =>
    have hc : coinsOf view txid = coins := by rw [coinsOf, hv, Option.getD_some]
    rw [hc, (tidy txid coins hv).unspent] at h
    cases h

/-- Disconnecting a block undoes connecting it in the coins view, for every
view and whatever the state of the ledger: it is found clean, every outpoint
has the coin it had before, and the best block is the parent again. -/
theorem disconnect_undoes_connect {env : Env} {ctx : BlockContext} (view : UtxoView)
    (ledger : Ledger) (undo : List CBlockUndo) {block : CBlock} {state' : ChainState}
    (unspent : ∀ tx ∈ block.vtx, (coinsOf view.coins (env.txHash tx)).isPruned = true)
    (distinct : (block.vtx.map env.txHash).Nodup)
    (accepted : connectBlock env ctx ⟨view.coins, ledger, undo⟩ block = .ok state') :
    state'.bestBlock = some block.hash ∧
      ∃ back, disconnectBlock env state' = some back ∧
        (∀ outpoint, coinInfo back.coins outpoint = coinInfo view.coins outpoint) ∧
        back.bestBlock = (ChainState.mk view.coins ledger undo).bestBlock := by
  obtain ⟨txundos, txFees, -, -, hledger, -⟩ := connectBlock_cases accepted
  have hchain := Ledger.connect_chain hledger
  have habsent : ∀ tx ∈ block.vtx, view.coins[env.txHash tx]? = none := fun tx htx =>
    absent_of_pruned view.tidy (unspent tx htx)
  refine ⟨by rw [ChainState.bestBlock, hchain]; rfl, _,
    disconnectBlock_coins view.tidy distinct habsent accepted, fun _ => rfl, ?_⟩
  simp only [ChainState.bestBlock, Ledger.disconnect_chain, hchain, List.tail_cons]

/-- One block connected, with ids new to the chain, or the tip disconnected. -/
inductive ChainStep (env : Env) : ChainState → ChainState → Prop where
  | connect {state state' : ChainState} {block : CBlock} (ctx : BlockContext)
      (fresh : FreshBlock env state.ledger block)
      (accepted : connectBlock env ctx state block = .ok state') : ChainStep env state state'
  | disconnect {state state' : ChainState} (done : disconnectBlock env state = some state') :
      ChainStep env state state'

inductive ChainReachable (env : Env) : ChainState → Prop where
  | start : ChainReachable env .empty
  | next {state state' : ChainState} : ChainReachable env state → ChainStep env state state' →
      ChainReachable env state'

/-- Connecting the blocks of a chain one after the other. -/
inductive ChainLinear (env : Env) : ChainState → Prop where
  | start : ChainLinear env .empty
  | connect {state state' : ChainState} {block : CBlock} {ctx : BlockContext}
      (run : ChainLinear env state) (fresh : FreshBlock env state.ledger block)
      (accepted : connectBlock env ctx state block = .ok state') : ChainLinear env state'

variable {state : ChainState} {blocks : List (BlockContext × CBlock)}

theorem ChainLinear.ok {env : Env} (h : ChainLinear env state) : ChainOk env state := by
  induction h with
  | start => exact chainOk_empty env
  | connect run fresh accepted ih => exact ih.connect fresh accepted

/-- Every reachable state is reached without disconnecting. -/
theorem ChainReachable.linear {env : Env} (h : ChainReachable env state) :
    ChainLinear env state := by
  induction h with
  | start => exact .start
  | next _ step ih =>
    cases step with
    | connect ctx fresh accepted => exact .connect ih fresh accepted
    | disconnect done =>
      cases ih with
      | start => cases done
      | connect run fresh accepted =>
        rw [disconnectBlock_connectBlock run.ok fresh accepted] at done
        cases done
        exact run

theorem ChainReachable.ok {env : Env} (h : ChainReachable env state) : ChainOk env state :=
  h.linear.ok

/-! ## A sample chain -/

/-- Connect blocks that repeat no id and collect what a visit of each finds. -/
def connectWith {γ : Type} (env : Env) (visit : BlockContext → ChainState → CBlock → Option γ) :
    ChainState → List γ → List (BlockContext × CBlock) → Option (ChainState × List γ)
  | state, found, [] => some (state, found)
  | state, found, (ctx, block) :: rest =>
    match decide (FreshBlock env state.ledger block), visit ctx state block,
      connectBlock env ctx state block with
    | true, some item, .ok next => connectWith env visit next (item :: found) rest
    | _, _, _ => none

theorem connectWith_run {γ : Type} {env : Env}
    {visit : BlockContext → ChainState → CBlock → Option γ} {P : ChainState → List γ → Prop}
    (step : ∀ {ctx state block found item next}, P state found →
      FreshBlock env state.ledger block → visit ctx state block = some item →
      connectBlock env ctx state block = .ok next → P next (item :: found))
    {state' : ChainState} {found found' : List γ} (start : P state found)
    (h : connectWith env visit state found blocks = some (state', found')) :
    P state' found' ∧ connectBlocks env state blocks = .ok state' := by
  induction blocks generalizing state found with
  | nil =>
    cases h
    exact ⟨start, rfl⟩
  | cons head rest ih =>
    rw [connectWith] at h
    split at h
    · rename_i item next fresh found accepted
      obtain ⟨reached, hrest⟩ := ih (step start (of_decide_eq_true fresh) found accepted) h
      exact ⟨reached, by rw [connectBlocks, accepted]; exact hrest⟩
    · cases h

def sampleContext : BlockContext := ⟨true, false, true⟩

def sampleRun (blocks : List (BlockContext × CBlock)) : Option (ChainState × List Unit) :=
  connectWith sampleEnv (fun _ _ _ => some ()) .empty [] blocks

/-- The state after connecting blocks of sample transactions. -/
def stateAfter (blocks : List (BlockContext × CBlock)) : ChainState :=
  ((sampleRun blocks).map Prod.fst).getD .empty

theorem stateAfter_spec (ok : (sampleRun blocks).isSome = true) :
    ChainReachable sampleEnv (stateAfter blocks) ∧
      connectBlocks sampleEnv .empty blocks = .ok (stateAfter blocks) := by
  obtain ⟨⟨state, found⟩, hrun⟩ := Option.isSome_iff_exists.mp ok
  rw [stateAfter, hrun]
  exact connectWith_run (P := fun state _ => ChainReachable sampleEnv state)
    (fun run fresh _ accepted => .next run (.connect _ fresh accepted)) .start hrun

/-- Thirty blocks, after which the first coinbase can be spent. -/
def matureBlocks : List (BlockContext × CBlock) :=
  (List.range 30).map fun i => (sampleContext, sampleBlock (i + 1) [])

/-- They are followed by a block that registers the sample name. -/
def registeredBlocks : List (BlockContext × CBlock) :=
  matureBlocks ++ [(sampleContext, sampleBlock 31 [registerTx])]

def matureState : ChainState := stateAfter matureBlocks

def registeredState : ChainState := stateAfter registeredBlocks

theorem registeredState_reachable : ChainReachable sampleEnv registeredState :=
  (stateAfter_spec (by decide +kernel)).1

/-- The block that registers the sample name, with an output spent in the block
that made it. -/
theorem disconnect_undoes_registration :
    ∃ state' back,
      connectBlock sampleEnv sampleContext matureState
        (sampleBlock 31 [registerTx, firstUpdateTx]) = .ok state' ∧
      disconnectBlock sampleEnv state' = some back ∧
      ∀ outpoint, coinInfo back.coins outpoint = coinInfo matureState.coins outpoint := by
  have mature : ChainReachable sampleEnv matureState :=
    (stateAfter_spec (by decide +kernel)).1
  obtain ⟨state', haccepted⟩ := exists_of_isOk
    (x := connectBlock sampleEnv sampleContext matureState
      (sampleBlock 31 [registerTx, firstUpdateTx])) (by decide +kernel)
  have unspent : ∀ tx ∈ (sampleBlock 31 [registerTx, firstUpdateTx]).vtx,
      (coinsOf matureState.coins (sampleEnv.txHash tx)).isPruned = true := by
    decide +kernel
  obtain ⟨-, back, hback, hcoins, -⟩ := disconnect_undoes_connect
    ⟨matureState.coins, mature.ok.tidy⟩ matureState.ledger matureState.undo unspent
    (by decide +kernel) haccepted
  exact ⟨state', back, haccepted, hback, hcoins⟩

end KubuCore.Chain
