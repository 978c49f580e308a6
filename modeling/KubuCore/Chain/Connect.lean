import KubuCore.Chain.Transaction
import KubuCore.Nickname.Runs

/-!
# Connecting and disconnecting blocks

`ConnectBlock` and `DisconnectBlock` of `validation.cpp` over the coins view,
the block undo files and the nickname ledger. Proof of work, the Merkle root,
block size, signature-operation counts and sequence locks are not modelled:
the blocks accepted here include those the source accepts.
-/

namespace KubuCore.Chain

open Checked
open Nickname
open Script

/-- The coins view, the nickname ledger and the undo files of the blocks of the
chain, latest first. -/
structure ChainState where
  coins : CoinsView
  ledger : Ledger
  undo : List CBlockUndo

def ChainState.empty : ChainState := ⟨∅, .empty, []⟩

/-- What `ConnectBlock` reads from the block index: whether the block is below
an assumed-valid one, whether relative lock times are active and whether the
overwrite check applies. -/
structure BlockContext where
  fScriptChecks : Bool
  csvActive : Bool
  fEnforceBIP30 : Bool

/-- The script flags in force. `IsWitnessEnabled` returns false, so the witness
flags are never set. -/
def BlockContext.flags (ctx : BlockContext) (consensus : Consensus) (nHeight : Int) : Flags :=
  { p2sh := true
    derSig := decide (consensus.bip66Height ≤ nHeight)
    checkLockTimeVerify := decide (consensus.bip65Height ≤ nHeight)
    checkSequenceVerify := ctx.csvActive }

def getKubuBlockSubsidy (consensus : Consensus) (nHeight : Int) : CAmount :=
  match nHeight / consensus.nSubsidyHalvingInterval with
  | 0 => 48 * coin
  | 1 => 24 * coin
  | 2 => 12 * coin
  | 3 => 6 * coin
  | _ => 2 * coin

/-! ## Blocks -/

def checkBlock (block : CBlock) : Except Reject Unit := do
  require (block.vtx ≠ []) (⟨100, rejectInvalid, "bad-blk-length"⟩ : Reject)
  require ((block.vtx.head?.map CTransaction.isCoinBase).getD false)
    (⟨100, rejectInvalid, "bad-cb-missing"⟩ : Reject)
  require (block.vtx.tail.all fun tx => !tx.isCoinBase)
    (⟨100, rejectInvalid, "bad-cb-multiple"⟩ : Reject)
  block.vtx.forM checkTransaction

/-- The value of the outputs a transaction spends. -/
def getValueIn (inputs : CoinsView) (tx : CTransaction) : CAmount :=
  if tx.isCoinBase then 0
  else (tx.vin.map fun txin =>
    ((coinsOf inputs txin.prevout.hash).vout.getD txin.prevout.n .null).nValue).sum

/-- What connecting a transaction leaves: the view, the undo data and the fee. -/
structure Spent where
  view : CoinsView
  txundo : CTxUndo
  txFee : CAmount

/-- The body of the transaction loop. A failed assertion of `UpdateCoins` ends
the computation without a reason. -/
def connectTx (env : Env) (ctx : BlockContext) (nHeight : Int) (view : CoinsView)
    (tx : CTransaction) : Except Reject Spent := do
  require (tx.isCoinBase ∨ haveInputs view tx)
    (⟨100, rejectInvalid, "bad-txns-inputs-missingorspent"⟩ : Reject)
  checkInputs env view tx nHeight ctx.fScriptChecks (ctx.flags env.consensus nHeight)
  let txFee := if tx.isCoinBase then 0 else getValueIn view tx - tx.getValueOut
  match updateCoins env tx view nHeight with
  | some (view, txundo) => pure ⟨view, txundo, txFee⟩
  | none => .error ⟨0, 0, ""⟩

/-- The transaction loop: the view, and the undo data and fee of each
transaction. -/
def connectTxs (env : Env) (ctx : BlockContext) (nHeight : Int) (view : CoinsView) :
    List CTransaction → Except Reject (CoinsView × List CTxUndo × List CAmount)
  | [] => .ok (view, [], [])
  | tx :: rest => do
    let spent ← connectTx env ctx nHeight view tx
    let (view, txundos, txFees) ← connectTxs env ctx nHeight spent.view rest
    pure (view, spent.txundo :: txundos, spent.txFee :: txFees)

/-- `ConnectBlock`. The undo data of the coinbase is dropped. -/
def connectBlock (env : Env) (ctx : BlockContext) (state : ChainState) (block : CBlock) :
    Except Reject ChainState := do
  let nHeight := state.ledger.height + 1
  checkBlock block
  require (ctx.fEnforceBIP30 = false ∨
      block.vtx.all fun tx => (coinsOf state.coins (env.txHash tx)).isPruned)
    (⟨100, rejectInvalid, "bad-txns-BIP30"⟩ : Reject)
  let (coins, txundos, txFees) ← connectTxs env ctx nHeight state.coins block.vtx
  let blockReward := txFees.sum + getKubuBlockSubsidy env.consensus nHeight
  require ((block.vtx.head?.map CTransaction.getValueOut).getD 0 ≤ blockReward)
    (⟨100, rejectInvalid, "bad-cb-amount"⟩ : Reject)
  match state.ledger.connect env block txundos.tail txFees with
  | .ok ledger => pure ⟨coins, ledger, txundos.tail :: state.undo⟩
  | .error _ => .error ⟨100, rejectInvalid, "bad-nickname-op"⟩

/-- Blocks connected one after the other, as `ActivateBestChain` does. -/
def connectBlocks (env : Env) (state : ChainState) :
    List (BlockContext × CBlock) → Except Reject ChainState
  | [] => .ok state
  | (ctx, block) :: rest => do
    let state ← connectBlock env ctx state block
    connectBlocks env state rest

/-- `DisconnectBlock` of the tip. Undo data that does not fit stops the node. -/
def disconnectBlock (env : Env) (state : ChainState) : Option ChainState :=
  match state.ledger.chain, state.undo with
  | block :: _, blockUndo :: undo =>
    match block.vtx with
    | coinbase :: txs => do
      if blockUndo.length ≠ txs.length then none
      else
        let nHeight := state.ledger.height
        let (coins, clean) ← disconnectTxs env state.coins nHeight (txs.zip blockUndo)
        let (coins, cleanOuts) := removeOutputs env coinbase coins nHeight
        if clean && cleanOuts then some ⟨coins, state.ledger.disconnect env, undo⟩ else none
    | [] => none
  | _, _ => none

end KubuCore.Chain
