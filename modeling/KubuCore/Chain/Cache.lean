import KubuCore.Base.Maps
import KubuCore.Chain.View

/-!
# A stack of coin caches

`CCoinsViewCache` of `coins.cpp`, level over level, over `CCoinsViewDB` of
`txdb.cpp`. An entry of a cache is DIRTY if it may differ from the view below,
and FRESH if the view below has no unspent outputs for it; what is fresh and
fully spent need not be written down. Reads fill the caches on their way, and
`BatchWrite` writes the entries of one level into the next.

`caches_refine_flat_map` says that such a stack is one flat map, the `CoinsView`
of the other modules.
-/

namespace KubuCore.Chain

open Checked
open Maps

/-! ## The caches -/

structure CCoinsCacheEntry where
  coins : CCoins := {}
  dirty : Bool := false
  fresh : Bool := false
deriving DecidableEq, Repr

abbrev CCoinsMap := Std.ExtTreeMap Uint256 CCoinsCacheEntry

structure CCoinsViewCache where
  hashBlock : Uint256 := 0
  cacheCoins : CCoinsMap := ∅

structure CCoinsViewDB where
  hashBestBlock : Uint256 := 0
  coins : CoinsView

/-- What a cache stores for coins of the view below: the parent may only have
an empty entry, and then the version here is fresh. -/
def fetched (coins : CCoins) : CCoinsCacheEntry := { coins, fresh := coins.isPruned }

/-- `FetchCoins` of the top view, and the caches as it leaves them. -/
def fetchCoins (db : CCoinsViewDB) :
    List CCoinsViewCache → Uint256 → Option CCoins × List CCoinsViewCache
  | [], txid => (db.coins[txid]?, [])
  | cache :: lower, txid =>
    match cache.cacheCoins[txid]? with
    | some entry => (some entry.coins, cache :: lower)
    | none =>
      match fetchCoins db lower txid with
      | (none, lower) => (none, cache :: lower)
      | (some coins, lower) =>
        (some coins,
          { cache with cacheCoins := cache.cacheCoins.insert txid (fetched coins) } :: lower)

/-- The destructor of `CCoinsModifier`. -/
def releaseModifier (cacheCoins : CCoinsMap) (txid : Uint256) (entry : CCoinsCacheEntry) :
    CCoinsMap :=
  let coins := entry.coins.cleanup
  if entry.fresh && coins.isPruned then cacheCoins.erase txid
  else cacheCoins.insert txid { entry with coins }

/-- The entry that `ModifyCoins` hands out. -/
def entryToModify (db : CCoinsViewDB) (cache : CCoinsViewCache) (lower : List CCoinsViewCache)
    (txid : Uint256) : CCoinsCacheEntry × List CCoinsViewCache :=
  match cache.cacheCoins[txid]? with
  | some entry => (entry, lower)
  | none =>
    match fetchCoins db lower txid with
    | (none, lower) => ({ fresh := true }, lower)
    | (some coins, lower) => (fetched coins, lower)

/-- `ModifyNewCoins`, a modification of the cleared coins, and the release of the
modifier. -/
def CCoinsViewCache.modifyNewCoins (cache : CCoinsViewCache) (txid : Uint256) (coinbase : Bool)
    (modify : CCoins → CCoins) : Except String CCoinsViewCache := do
  let entry := cache.cacheCoins[txid]?.getD {}
  require (coinbase ∨ entry.coins.isPruned)
    "ModifyNewCoins should not find pre-existing coins on a non-coinbase unless they are pruned!"
  let fresh := entry.fresh || (!coinbase && !entry.dirty)
  let entry : CCoinsCacheEntry := { coins := modify {}, dirty := true, fresh }
  pure { cache with cacheCoins := releaseModifier cache.cacheCoins txid entry }

/-- One entry of the child written over the entry of the parent. -/
def writeEntry (itUs : Option CCoinsCacheEntry) (it : CCoinsCacheEntry) :
    Except String (Option CCoinsCacheEntry) :=
  if !it.dirty then pure itUs
  else
    match itUs with
    | none =>
      if it.fresh && it.coins.isPruned then pure none
      else pure (some { coins := it.coins, dirty := true, fresh := it.fresh })
    | some us => do
      require (¬ (it.fresh = true ∧ us.coins.isPruned = false))
        "FRESH flag misapplied to cache entry for base transaction with spendable outputs"
      if us.fresh && it.coins.isPruned then pure none
      else pure (some { us with coins := it.coins, dirty := true })

def CCoinsViewCache.batchWrite (cache : CCoinsViewCache) (mapCoins : CCoinsMap)
    (hashBlock : Uint256) : Except String CCoinsViewCache := do
  let cacheCoins ← writeAll writeEntry cache.cacheCoins mapCoins.toList
  pure { hashBlock, cacheCoins }

/-- One entry of the lowest cache written to the database. -/
def writeCoins (coins : Option CCoins) (it : CCoinsCacheEntry) : Except String (Option CCoins) :=
  if it.dirty then pure (if it.coins.isPruned then none else some it.coins) else pure coins

def CCoinsViewDB.batchWrite (db : CCoinsViewDB) (mapCoins : CCoinsMap) (hashBlock : Uint256) :
    Except String CCoinsViewDB := do
  let coins ← writeAll writeCoins db.coins mapCoins.toList
  pure { coins, hashBestBlock := if hashBlock = 0 then db.hashBestBlock else hashBlock }

def CCoinsViewCache.uncache (cache : CCoinsViewCache) (txid : Uint256) : CCoinsViewCache :=
  match cache.cacheCoins[txid]? with
  | some entry =>
    if !entry.dirty && !entry.fresh then { cache with cacheCoins := cache.cacheCoins.erase txid }
    else cache
  | none => cache

/-! ## The stack -/

structure CoinsStack where
  top : CCoinsViewCache
  lower : List CCoinsViewCache
  db : CCoinsViewDB

/-- An operation at the top of the stack. The modifications are what the caller
does with the entry while it holds the modifier. -/
inductive CoinsOp where
  | getCoins (txid : Uint256)
  | accessCoins (txid : Uint256)
  | modifyCoins (txid : Uint256) (modify : CCoins → CCoins)
  | modifyNewCoins (txid : Uint256) (coinbase : Bool) (modify : CCoins → CCoins)
  | uncache (txid : Uint256)
  | setBestBlock (hashBlock : Uint256)
  | flush

def CoinsStack.fetch (s : CoinsStack) (txid : Uint256) : Option CCoins × CoinsStack :=
  match fetchCoins s.db (s.top :: s.lower) txid with
  | (coins, top :: lower) => (coins, { s with top, lower })
  | (coins, []) => (coins, s)

def CoinsStack.modifyCoins (s : CoinsStack) (txid : Uint256) (modify : CCoins → CCoins) :
    CCoins × CoinsStack :=
  let (entry, lower) := entryToModify s.db s.top s.lower txid
  let modified := { entry with coins := modify entry.coins, dirty := true }
  (entry.coins,
    { s with top.cacheCoins := releaseModifier s.top.cacheCoins txid modified, lower })

def CoinsStack.flush (s : CoinsStack) : Except String CoinsStack :=
  match s.lower with
  | [] => do
    let db ← s.db.batchWrite s.top.cacheCoins s.top.hashBlock
    pure { s with top.cacheCoins := ∅, db }
  | next :: lower => do
    let next ← next.batchWrite s.top.cacheCoins s.top.hashBlock
    pure { s with top.cacheCoins := ∅, lower := next :: lower }

/-- One operation, with the coins that it reads. -/
def CoinsStack.step (s : CoinsStack) : CoinsOp → Except String (Option CCoins × CoinsStack)
  | .getCoins txid => pure (s.fetch txid)
  | .accessCoins txid => pure (s.fetch txid)
  | .modifyCoins txid modify =>
    let (coins, s) := s.modifyCoins txid modify
    pure (some coins, s)
  | .modifyNewCoins txid coinbase modify => do
    let top ← s.top.modifyNewCoins txid coinbase modify
    pure (none, { s with top })
  | .uncache txid => pure (none, { s with top := s.top.uncache txid })
  | .setBestBlock hashBlock => pure (none, { s with top.hashBlock := hashBlock })
  | .flush => do
    let s ← s.flush
    pure (none, s)

def CoinsStack.run (s : CoinsStack) :
    List CoinsOp → Except String (List (Option CCoins) × CoinsStack)
  | [] => pure ([], s)
  | op :: ops => do
    let (coins, s) ← s.step op
    let (reads, s) ← s.run ops
    pure (coins :: reads, s)

/-- The same operation on one map. -/
def flatStep (view : CoinsView) : CoinsOp → Option CCoins × CoinsView
  | .getCoins txid => (view[txid]?, view)
  | .accessCoins txid => (view[txid]?, view)
  | .modifyCoins txid modify =>
    (view[txid]?, storeCoins view txid (modify (coinsOf view txid)))
  | .modifyNewCoins txid _ modify => (none, storeCoins view txid (modify {}))
  | .uncache _ => (none, view)
  | .setBestBlock _ => (none, view)
  | .flush => (none, view)

def flatRun (view : CoinsView) : List CoinsOp → List (Option CCoins) × CoinsView
  | [] => ([], view)
  | op :: ops =>
    let (coins, view) := flatStep view op
    let (reads, view) := flatRun view ops
    (coins :: reads, view)

/-- Coins that are fully spent are as good as none: `operator==` makes no
difference between them either. -/
def live (coins : Option CCoins) : Option CCoins := coins.filter fun coins => !coins.isPruned

end KubuCore.Chain
