import KubuCore.Base.Checked
import KubuCore.Script.Script

/-!
# The coins view and its undo data

`CCoins`, `UpdateCoins`, `ApplyTxInUndo` and the transaction loop of
`DisconnectBlock`. The view is one flat map: a transaction whose outputs are
all spent has no entry in it.
-/

namespace KubuCore.Chain

open Script

structure CCoins where
  fCoinBase : Bool := false
  vout : List CTxOut := []
  nHeight : Int := 0
  nVersion : Int := 0
deriving DecidableEq, Repr

structure CTxInUndo where
  txout : CTxOut
  fCoinBase : Bool := false
  nHeight : Int := 0
  nVersion : Int := 0
deriving DecidableEq, Repr

abbrev CTxUndo := List CTxInUndo

abbrev CBlockUndo := List CTxUndo

/-- Remove spent outputs at the end. -/
def CCoins.cleanup (coins : CCoins) : CCoins :=
  { coins with vout := coins.vout.rdropWhile CTxOut.isNull }

def CCoins.clearUnspendable (coins : CCoins) : CCoins :=
  let clear (txout : CTxOut) := if isUnspendable txout.scriptPubKey then CTxOut.null else txout
  CCoins.cleanup { coins with vout := coins.vout.map clear }

def CCoins.fromTx (tx : CTransaction) (nHeight : Int) : CCoins :=
  CCoins.clearUnspendable
    { fCoinBase := tx.isCoinBase, vout := tx.vout, nHeight, nVersion := tx.nVersion }

def CCoins.isAvailable (coins : CCoins) (nPos : Nat) : Bool :=
  match coins.vout[nPos]? with
  | some txout => !txout.isNull
  | none => false

def CCoins.isPruned (coins : CCoins) : Bool := coins.vout.all CTxOut.isNull

abbrev CoinsView := Std.ExtTreeMap Uint256 CCoins

/-- The output at an outpoint, if it is unspent. -/
def coinAt (view : CoinsView) (outpoint : COutPoint) : Option CTxOut :=
  match view[outpoint.hash]? with
  | some coins => if coins.isAvailable outpoint.n then coins.vout[outpoint.n]? else none
  | none => none

/-- Leave a modified entry in the view, as the destructor of `CCoinsModifier`
does. -/
def storeCoins (view : CoinsView) (txid : Uint256) (coins : CCoins) : CoinsView :=
  let coins := coins.cleanup
  if coins.isPruned then view.erase txid else view.insert txid coins

/-- The entry that `ModifyCoins` hands out: the coins of the transaction, or
cleared coins. -/
def coinsOf (view : CoinsView) (txid : Uint256) : CCoins := view[txid]?.getD {}

def haveInputs (view : CoinsView) (tx : CTransaction) : Bool :=
  tx.isCoinBase || tx.vin.all fun txin => (coinAt view txin.prevout).isSome

/-! ## Connecting -/

/-- Spend one input and record how to restore it. The assertion of the source
fails if the output is missing or spent. -/
def spendInput (view : CoinsView) (prevout : COutPoint) : Option (CoinsView × CTxInUndo) :=
  let coins := coinsOf view prevout.hash
  match coins.vout[prevout.n]? with
  | none => none
  | some txout =>
    if txout.isNull then none
    else
      let spent := CCoins.cleanup { coins with vout := coins.vout.set prevout.n .null }
      let undo : CTxInUndo :=
        if spent.vout = [] then
          { txout, fCoinBase := coins.fCoinBase, nHeight := coins.nHeight
            nVersion := coins.nVersion }
        else { txout }
      some (storeCoins view prevout.hash spent, undo)

def spendInputs (view : CoinsView) : List CTxIn → Option (CoinsView × CTxUndo)
  | [] => some (view, [])
  | txin :: rest => do
    let (view, undo) ← spendInput view txin.prevout
    let (view, undos) ← spendInputs view rest
    pure (view, undo :: undos)

def updateCoins (env : Env) (tx : CTransaction) (view : CoinsView) (nHeight : Int) :
    Option (CoinsView × CTxUndo) := do
  let (view, txundo) ← if tx.isCoinBase then some (view, []) else spendInputs view tx.vin
  pure (storeCoins view (env.txHash tx) (CCoins.fromTx tx nHeight), txundo)

/-! ## Disconnecting -/

/-- `ApplyTxInUndo`: the view with the output put back, and whether the undo
data fitted. -/
def applyTxInUndo (undo : CTxInUndo) (view : CoinsView) (out : COutPoint) : CoinsView × Bool :=
  let coins := coinsOf view out.hash
  let metaClean := if undo.nHeight ≠ 0 then coins.isPruned else !coins.isPruned
  let coins : CCoins :=
    if undo.nHeight ≠ 0 then
      { fCoinBase := undo.fCoinBase, nHeight := undo.nHeight, nVersion := undo.nVersion }
    else coins
  let clean := metaClean && !coins.isAvailable out.n
  let vout := coins.vout ++ List.replicate (out.n + 1 - coins.vout.length) CTxOut.null
  (storeCoins view out.hash { coins with vout := vout.set out.n undo.txout }, clean)

/-- Restore the inputs of one transaction, last input first. -/
def restoreInputs (view : CoinsView) : List (CTxIn × CTxInUndo) → CoinsView × Bool
  | [] => (view, true)
  | (txin, undo) :: rest =>
    let (view, clean) := restoreInputs view rest
    let (view, cleanHere) := applyTxInUndo undo view txin.prevout
    (view, clean && cleanHere)

/-- Remove the outputs of a transaction; the flag tells whether they were the
outputs the block created. -/
def removeOutputs (env : Env) (tx : CTransaction) (view : CoinsView) (nHeight : Int) :
    CoinsView × Bool :=
  let outs := (coinsOf view (env.txHash tx)).clearUnspendable
  let outsBlock := CCoins.fromTx tx nHeight
  let outs := if outsBlock.nVersion < 0 then { outs with nVersion := outsBlock.nVersion } else outs
  (view.erase (env.txHash tx), (outs.isPruned && outsBlock.isPruned) || outs == outsBlock)

/-- The transaction loop of `DisconnectBlock`, over the transactions after the
coinbase with their undo data, last transaction first. -/
def disconnectTxs (env : Env) (view : CoinsView) (nHeight : Int) :
    List (CTransaction × CTxUndo) → Option (CoinsView × Bool)
  | [] => some (view, true)
  | (tx, txundo) :: rest => do
    let (view, clean) ← disconnectTxs env view nHeight rest
    let (view, cleanOuts) := removeOutputs env tx view nHeight
    if txundo.length ≠ tx.vin.length then none
    else
      let (view, cleanIns) := restoreInputs view (tx.vin.zip txundo)
      some (view, clean && cleanOuts && cleanIns)

end KubuCore.Chain
