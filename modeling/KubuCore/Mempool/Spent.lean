import KubuCore.Mempool.Accept
import KubuCore.Mempool.Links

/-!
# The map of spent outpoints

`mapNextTx` says exactly which entry spends an outpoint, after every operation of
the pool. Removing entries can only free outpoints; a transaction is added when
the entries it conflicts with are gone.
-/

namespace KubuCore.Mempool

open Chain

namespace CTxMemPool

/-- Entries are found under the hash of their transaction, and `mapNextTx` is
exact. -/
structure SpentOk (env : Env) (pool : CTxMemPool) : Prop where
  ids : ∀ id d, pool.dataAt id = some d → env.txHash d.tx = id
  next : ∀ o id, pool.mapNextTx[o]? = some id ↔ pool.Spends id o

variable {env : Env} {pool pool' : CTxMemPool}

variable {deltas : Std.ExtTreeMap Uint256 CAmount}

theorem dataAt_empty (id : Uint256) :
    ({ mapDeltas := deltas } : CTxMemPool).dataAt id = none := by
  simp [dataAt]

theorem spentOk_empty : SpentOk env { mapDeltas := deltas } where
  ids id d h := by
    cases h
  next o id := by
    simp [Spends, dataAt_empty]

theorem SpentOk.drops {S : Set Uint256} (ok : SpentOk env pool) (h : Drops S pool pool') :
    SpentOk env pool' where
  ids id d hd := by
    by_cases hS : id ∈ S
    · rw [h.gone id hS] at hd
      cases hd
    · rw [h.stays id hS] at hd
      exact ok.ids id d hd
  next o id := by
    constructor
    · intro hnext
      have hkept : ∀ s ∈ S, ¬ pool.Spends s o := by
        intro s hs hspends
        rw [h.freed o s hs hspends] at hnext
        cases hnext
      rw [h.kept o hkept] at hnext
      have hspends := (ok.next o id).mp hnext
      exact (Spends.congr (h.stays id fun hS => hkept id hS hspends)).mpr hspends
    · intro hspends
      have hS : id ∉ S := by
        intro hS
        obtain ⟨d, hd, -⟩ := hspends
        rw [h.gone id hS] at hd
        cases hd
      have hnext := (ok.next o id).mpr ((Spends.congr (h.stays id hS)).mp hspends)
      rw [h.kept o, hnext]
      intro s hs hspends'
      rw [(ok.next o s).mpr hspends', Option.some.injEq] at hnext
      exact hS (hnext ▸ hs)

theorem SpentOk.adds {entry : CTxMemPoolEntry} {hash : Uint256} (ok : SpentOk env pool)
    (hhash : env.txHash entry.tx = hash) (fresh : pool.dataAt hash = none)
    (free : ∀ o ∈ entry.tx.vin.map CTxIn.prevout, pool.mapNextTx[o]? = none)
    (h : Adds hash entry pool pool') : SpentOk env pool' where
  ids id d hd := by
    rw [h.data] at hd
    split at hd
    · rename_i he
      cases hd
      rw [prioritised_tx, hhash, he]
    · exact ok.ids id d hd
  next o id := by
    rw [h.next]
    by_cases he : id = hash
    · subst he
      have hspends : pool'.Spends id o ↔ o ∈ entry.tx.vin.map CTxIn.prevout := by
        simp only [Spends, h.data, if_pos, Option.some.injEq, exists_eq_left', prioritised_tx]
      rw [hspends]
      by_cases ho : o ∈ entry.tx.vin.map CTxIn.prevout
      · rw [if_pos ⟨ho, free o ho⟩]
        exact iff_of_true rfl ho
      · rw [if_neg fun hc => ho hc.1]
        refine iff_of_false ?_ ho
        intro hnext
        obtain ⟨d, hd, -⟩ := (ok.next o id).mp hnext
        rw [fresh] at hd
        cases hd
    · have hspends : pool'.Spends id o ↔ pool.Spends id o :=
        Spends.congr (by rw [h.data, if_neg he])
      rw [hspends, ← ok.next]
      by_cases ho : o ∈ entry.tx.vin.map CTxIn.prevout
      · rw [if_pos ⟨ho, free o ho⟩, free o ho]
        exact iff_of_false (fun hc => he (Option.some.inj hc).symm) (by simp)
      · rw [if_neg fun hc => ho hc.1]

/-! ## Operations that only remove -/

/-- Some entries are gone and nothing else has changed but totals and links. -/
def Shrinks (pool pool' : CTxMemPool) : Prop := ∃ S, Drops S pool pool'

theorem Shrinks.refl (pool : CTxMemPool) : Shrinks pool pool := ⟨∅, (Frame.refl pool).drops⟩

theorem Shrinks.trans {a b c : CTxMemPool} (h : Shrinks a b) (h' : Shrinks b c) : Shrinks a c := by
  obtain ⟨S, hS⟩ := h
  obtain ⟨T, hT⟩ := h'
  exact ⟨S ∪ T, hS.trans hT⟩

theorem Shrinks.foldl {γ : Type} {step : CTxMemPool → γ → CTxMemPool}
    (each : ∀ pool item, Shrinks pool (step pool item)) (items : List γ) (pool : CTxMemPool) :
    Shrinks pool (items.foldl step pool) :=
  List.foldlRecOn items step (.refl pool) fun _ h item _ => h.trans (each _ item)

theorem shrinks_removeStaged (pool : CTxMemPool) (stage : SetEntries) (updateDescendants : Bool) :
    Shrinks pool (pool.removeStaged stage updateDescendants) :=
  ⟨_, drops_removeStaged pool stage updateDescendants⟩

theorem shrinks_clearPrioritisation (pool : CTxMemPool) (hash : Uint256) :
    Shrinks pool (pool.clearPrioritisation hash) :=
  ⟨∅, fun _ h => h.elim, fun _ _ => rfl, fun _ _ h => h.elim, fun _ _ => rfl⟩

theorem shrinks_removeRecursive (pool : CTxMemPool) (hash : Uint256) (vout : List CTxOut) :
    Shrinks pool (pool.removeRecursive hash vout) :=
  shrinks_removeStaged pool _ false

theorem shrinks_removeConflict (hash : Uint256) (pool : CTxMemPool) (txin : CTxIn) :
    Shrinks pool (removeConflict hash pool txin) := by
  rw [removeConflict]
  split
  · split
    · exact (shrinks_clearPrioritisation pool _).trans (shrinks_removeRecursive _ _ _)
    · exact .refl pool
  · exact .refl pool

theorem shrinks_removeForTx (env : Env) (pool : CTxMemPool) (tx : CTransaction) :
    Shrinks pool (removeForTx env pool tx) := by
  refine Shrinks.trans ?_ (shrinks_clearPrioritisation _ _)
  refine Shrinks.trans ?_ (Shrinks.foldl (shrinks_removeConflict _) tx.vin _)
  split
  · exact shrinks_removeStaged pool _ true
  · exact .refl pool

theorem shrinks_removeForBlock (env : Env) (pool : CTxMemPool) (vtx : List CTransaction) :
    Shrinks pool (pool.removeForBlock env vtx) :=
  Shrinks.foldl (shrinks_removeForTx env) vtx pool

theorem shrinks_expire (pool : CTxMemPool) (time : Int) : Shrinks pool (pool.expire time) :=
  shrinks_removeStaged pool _ false

theorem shrinks_trimOne (pool : CTxMemPool) (it : Uint256) : Shrinks pool (pool.trimOne it) := by
  rw [trimOne]
  split
  · exact shrinks_removeStaged pool _ false
  · exact .refl pool

theorem shrinks_limitMempoolSize (pool : CTxMemPool) (expiry : Int) (trimmed : List Uint256) :
    Shrinks pool (pool.limitMempoolSize expiry trimmed) :=
  (shrinks_expire pool expiry).trans (Shrinks.foldl shrinks_trimOne trimmed _)

end CTxMemPool

end KubuCore.Mempool
