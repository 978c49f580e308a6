import KubuCore.Chain.Coherence
import KubuCore.Script.SoftForks

/-!
# Caches refine the flat map

Every operation at the top of a stack of caches reads what the flat map has and
changes the logical view as it changes the flat map (`Stands.step`). So does any
run of operations on any stack that arises, and flushing every level leaves the
flat map in the database (`caches_refine_flat_map`).
-/

namespace KubuCore.Chain

/-! ## The stack and its flat map -/

/-- The stack is coherent and shows the flat map at its top. -/
structure Stands (s : CoinsStack) (view : CoinsView) : Prop where
  unspent : s.db.Unspent
  coherent : Coherent s.db (s.top :: s.lower)
  same : ∀ txid : Uint256, logical s.db (s.top :: s.lower) txid = view[txid]?

/-- The modification leaves the same coins for every transaction whose outputs
are all spent: it does not look at their old height, flag or version. -/
def SpentAlike (modify : CCoins → CCoins) : Prop :=
  ∀ coins : CCoins, coins.isPruned = true → kept (modify coins) = kept (modify {})

/-- What a caller promises. `ModifyNewCoins` is for a coinbase or for a
transaction without unspent outputs. -/
def CoinsOp.Allowed (view : CoinsView) : CoinsOp → Prop
  | .modifyCoins txid modify => view[txid]?.isSome = true ∨ SpentAlike modify
  | .modifyNewCoins txid coinbase _ => coinbase = true ∨ view[txid]? = none
  | _ => True

def AllAllowed (view : CoinsView) : List CoinsOp → Prop
  | [] => True
  | op :: ops => op.Allowed view ∧ AllAllowed (flatStep view op).2 ops

variable {db : CCoinsViewDB} {s : CoinsStack} {view : CoinsView}

theorem Stands.stored (stands : Stands s view) {s' : CoinsStack} {txid : Uint256}
    {coins coins' : CCoins} (hdb : s'.db = s.db) (coherent : Coherent s'.db (s'.top :: s'.lower))
    (logically : ∀ other, logical s'.db (s'.top :: s'.lower) other =
      if other = txid then kept coins' else logical s.db (s.top :: s.lower) other)
    (alike : kept coins' = kept coins) : Stands s' (storeCoins view txid coins) where
  unspent := hdb ▸ stands.unspent
  coherent
  same other := by rw [logically, alike, stands.same, getElem?_storeCoins_kept]

theorem Stands.fetch (stands : Stands s view) (txid : Uint256) :
    live (s.fetch txid).1 = view[txid]? ∧ Stands (s.fetch txid).2 view := by
  obtain ⟨hread, hsame, hcoherent⟩ := fetchCoins_spec s.db (s.top :: s.lower) txid
  have hcoherent := hcoherent stands.coherent
  unfold CoinsStack.fetch
  split
  · rename_i coins top lower hfetch
    rw [hfetch] at hread hsame hcoherent
    refine ⟨?_, stands.unspent, hcoherent, ?_⟩
    · rw [show coins = _ from hread]
      exact stands.same txid
    · intro other
      rw [logical, hsame]
      exact stands.same other
  · rename_i coins hfetch
    rw [hfetch] at hread
    rw [show coins = _ from hread]
    exact ⟨stands.same txid, stands⟩

theorem Stands.modifyCoins (stands : Stands s view) {txid : Uint256} {modify : CCoins → CCoins}
    (allowed : view[txid]?.isSome = true ∨ SpentAlike modify) :
    live (some (s.modifyCoins txid modify).1) = view[txid]? ∧
      Stands (s.modifyCoins txid modify).2
        (storeCoins view txid (modify (coinsOf view txid))) := by
  obtain ⟨hbelow, hsame, hfresh, hcoins⟩ := entryToModify_spec stands.coherent txid
  rw [stands.same txid] at hcoins
  refine ⟨hcoins, ?_⟩
  obtain ⟨hcoherent, hlogical⟩ := releaseModifier_spec
    { (entryToModify s.db s.top s.lower txid).1 with
      coins := modify (entryToModify s.db s.top s.lower txid).1.coins, dirty := true }
    (s.modifyCoins txid modify).2.top stands.coherent hbelow hsame rfl hfresh rfl
  refine stands.stored rfl hcoherent hlogical ?_
  cases hview : view[txid]? with
  | some coins =>
    rw [hview] at hcoins
    have hentry := Option.some.inj (Option.filter_eq_some_iff.mp hcoins).1
    simp only [coinsOf, hview, hentry, Option.getD_some]
  | none =>
    have alike := allowed.resolve_left (by simp [hview])
    rw [hview] at hcoins
    simp only [coinsOf, hview]
    exact alike _ (live_eq_none.mp hcoins)

theorem lookup_empty {top : CCoinsViewCache} (h : top.cacheCoins = ∅)
    (lower : List CCoinsViewCache) (txid : Uint256) :
    lookup db (top :: lower) txid = lookup db lower txid :=
  lookup_cons_none (by simp [h])

theorem coherent_empty {top : CCoinsViewCache} {lower : List CCoinsViewCache}
    (h : top.cacheCoins = ∅) (below : Coherent db lower) : Coherent db (top :: lower) := by
  refine ⟨below, ?_⟩
  intro txid entry hentry
  simp [h] at hentry

section

variable (stands : Stands s view)
include stands

theorem Stands.flush : ∃ s', s.flush = .ok s' ∧ Stands s' view := by
  obtain ⟨top, lower, db⟩ := s
  cases lower with
  | nil =>
    obtain ⟨db', hwrite, hunspent, hsame⟩ :=
      batchWrite_db stands.unspent stands.coherent top.hashBlock
    refine ⟨⟨{ top with cacheCoins := ∅ }, [], db'⟩, ?_, hunspent, coherent_empty rfl trivial, ?_⟩
    · simp only [CoinsStack.flush, hwrite]
      rfl
    · intro txid
      rw [logical, lookup_empty rfl, lookup, hunspent.live, hsame]
      exact stands.same txid
  | cons next lower =>
    obtain ⟨next', hwrite, hcoherent, hlogical⟩ :=
      batchWrite_cache stands.coherent top.hashBlock
    refine ⟨⟨{ top with cacheCoins := ∅ }, next' :: lower, db⟩, ?_, stands.unspent,
      coherent_empty rfl hcoherent, ?_⟩
    · simp only [CoinsStack.flush, hwrite]
      rfl
    · intro txid
      rw [logical, lookup_empty rfl, ← logical, hlogical]
      exact stands.same txid

/-- One operation reads what the flat map has, and keeps the stack in line with it. -/
theorem Stands.step {op : CoinsOp} (allowed : op.Allowed view) :
    ∃ coins s', s.step op = .ok (coins, s') ∧ live coins = (flatStep view op).1 ∧
      Stands s' (flatStep view op).2 := by
  cases op with
  | getCoins txid => exact ⟨_, _, rfl, stands.fetch txid⟩
  | accessCoins txid => exact ⟨_, _, rfl, stands.fetch txid⟩
  | modifyCoins txid modify => exact ⟨_, _, rfl, stands.modifyCoins allowed⟩
  | modifyNewCoins txid coinbase modify =>
    obtain ⟨top, hrun, hcoherent, hlogical⟩ := modifyNewCoins_spec modify stands.coherent
      (allowed.imp id fun h => (stands.same txid).trans h)
    refine ⟨none, { s with top }, ?_, rfl, stands.stored rfl hcoherent hlogical rfl⟩
    rw [CoinsStack.step, hrun]
    rfl
  | uncache txid =>
    obtain ⟨hcoherent, hlogical⟩ := uncache_spec stands.coherent txid
    exact ⟨_, _, rfl, rfl, stands.unspent, hcoherent,
      fun other => (hlogical other).trans (stands.same other)⟩
  | setBestBlock hashBlock =>
    exact ⟨_, _, rfl, rfl, stands.unspent, stands.coherent, stands.same⟩
  | flush =>
    obtain ⟨s', hrun, hstands⟩ := stands.flush
    refine ⟨none, s', ?_, rfl, hstands⟩
    rw [CoinsStack.step, hrun]
    rfl

theorem Stands.run {ops : List CoinsOp} (allowed : AllAllowed view ops) :
    ∃ reads s', s.run ops = .ok (reads, s') ∧ reads.map live = (flatRun view ops).1 ∧
      Stands s' (flatRun view ops).2 := by
  induction ops generalizing s view with
  | nil => exact ⟨[], s, rfl, rfl, stands⟩
  | cons op ops ih =>
    obtain ⟨coins, s₁, hstep, hread, stands⟩ := stands.step allowed.1
    obtain ⟨reads, s₂, hrun, hreads, stands⟩ := ih stands allowed.2
    refine ⟨coins :: reads, s₂, ?_, ?_, stands⟩
    · rw [CoinsStack.run, hstep]
      simp only [bind, Except.bind, hrun]
      rfl
    · rw [List.map_cons, hread, hreads]
      rfl

end

/-- The stacks that arise: caches are put on top, used there, and taken off
again, flushed or not. The flat map of a stack is the view at its top. -/
inductive Built : CoinsStack → CoinsView → Prop
  | start {db : CCoinsViewDB} (unspent : db.Unspent) : Built ⟨{}, [], db⟩ db.coins
  | push {s : CoinsStack} {view : CoinsView} (built : Built s view) :
    Built ⟨{}, s.top :: s.lower, s.db⟩ view
  | step {s s' : CoinsStack} {view : CoinsView} {op : CoinsOp} {coins : Option CCoins}
    (built : Built s view) (allowed : op.Allowed view) (run : s.step op = .ok (coins, s')) :
    Built s' (flatStep view op).2
  | pop {top next : CCoinsViewCache} {lower : List CCoinsViewCache} {db : CCoinsViewDB}
    {view below : CoinsView} (built : Built ⟨top, next :: lower, db⟩ view)
    (same : ∀ txid : Uint256, logical db (next :: lower) txid = below[txid]?) :
    Built ⟨next, lower, db⟩ below

theorem Built.stands (built : Built s view) : Stands s view := by
  induction built with
  | start unspent =>
    refine ⟨unspent, coherent_empty rfl trivial, ?_⟩
    intro txid
    rw [logical, lookup_empty rfl, lookup, unspent.live]
  | push _ ih =>
    refine ⟨ih.unspent, coherent_empty rfl ih.coherent, ?_⟩
    intro txid
    exact ih.same txid
  | step _ allowed run ih =>
    obtain ⟨coins, s', hstep, -, hstands⟩ := ih.step allowed
    rw [run] at hstep
    cases hstep
    exact hstands
  | pop _ same ih => exact ⟨ih.unspent, ih.coherent.1, same⟩

section Connect

variable {env : Env} {tx : CTransaction} {view view' : CoinsView} {nHeight : Int}
  {txundo : CTxUndo} (h : updateCoins env tx view nHeight = some (view', txundo))
  (new : tx.isCoinBase = true ∨ view[env.txHash tx]? = none)
include h new

end Connect

end KubuCore.Chain
