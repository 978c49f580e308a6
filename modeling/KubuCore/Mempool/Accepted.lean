import KubuCore.Mempool.Spent

/-!
# What acceptance has checked

The facts that hold when the checks of `AcceptToMemoryPoolWorker` pass, one
lemma for each stage, and the pool after the transaction is stored.
-/

namespace KubuCore.Mempool

open Chain
open Checked
open Sets
open Worklist
open Std

open CTxMemPool

variable {env : Env} {ctx : AcceptContext} {state : ChainState} {pool : CTxMemPool}
  {tx : CTransaction}

/-! ## Conflicts -/

theorem collectConflicts_spec {enabled : Bool} {vin : List CTxIn} {set set' : SetEntries}
    (h : collectConflicts enabled pool set vin = .ok set') :
    ∀ z, z ∈ set' ↔ z ∈ set ∨ ∃ txin ∈ vin, pool.mapNextTx[txin.prevout]? = some z := by
  induction vin generalizing set with
  | nil =>
    cases h
    simp
  | cons txin vin ih =>
    intro z
    rw [collectConflicts] at h
    split at h
    · rename_i hnone
      rw [ih h]
      simp [hnone]
    · rename_i conflicting hsome
      split at h
      · rename_i hmem
        rw [ih h]
        simp only [List.mem_cons, exists_eq_or_imp, hsome, Option.some.injEq]
        constructor
        · rintro (hz | hz)
          · exact .inl hz
          · exact .inr (.inr hz)
        · rintro (hz | rfl | hz)
          · exact .inl hz
          · exact .inl hmem
          · exact .inr hz
      · simp only [eq_ok] at h
        obtain ⟨-, -, h⟩ := h
        rw [ih h]
        simp only [mem_insert_iff, List.mem_cons, exists_eq_or_imp, hsome, Option.some.injEq]
        rw [or_assoc, eq_comm, or_left_comm]

variable {setConflicts all : SetEntries} {newFeeRate fees : CAmount}
  {replaced replaced' : Replaced} {size : Int} {accepted : Accepted} {z : Uint256}

theorem replaceOne_spec {hash : Uint256}
    (h : replaceOne pool newFeeRate replaced hash = .ok replaced') :
    ∀ z, z ∈ replaced'.setIterConflicting ↔
      z ∈ replaced.setIterConflicting ∨ (z = hash ∧ (pool.dataAt z).isSome) := by
  intro z
  rw [replaceOne] at h
  split at h
  · rename_i hnone
    cases h
    refine ⟨.inl, ?_⟩
    rintro (hz | ⟨rfl, hsome⟩)
    · exact hz
    · rw [dataAt, hnone] at hsome
      cases hsome
  · rename_i mi hsome
    simp only [eq_ok] at h
    obtain ⟨-, -, rfl⟩ := h
    rw [mem_insert_iff, or_comm]
    refine or_congr_right ⟨?_, And.left⟩
    rintro rfl
    exact ⟨rfl, by rw [dataAt, hsome]; rfl⟩

theorem replaceAll_spec {hashes : List Uint256}
    (h : hashes.foldlM (replaceOne pool newFeeRate) replaced = .ok replaced') :
    ∀ z, z ∈ replaced'.setIterConflicting ↔
      z ∈ replaced.setIterConflicting ∨ (z ∈ hashes ∧ (pool.dataAt z).isSome) := by
  induction hashes generalizing replaced with
  | nil =>
    cases h
    simp
  | cons hash hashes ih =>
    intro z
    rw [List.foldlM_cons, bind_eq_ok] at h
    obtain ⟨middle, hone, hrest⟩ := h
    rw [ih hrest, replaceOne_spec hone, List.mem_cons, or_and_right, or_assoc]

/-- The direct conflicts that are in the pool, of which a replacement evicts all
descendants. -/
theorem checkReplacement_spec (h : checkReplacement ctx pool tx fees size setConflicts = .ok all) :
    ∃ direct : SetEntries, all = pool.calculateAllDescendants direct ∧
      ∀ z, z ∈ direct ↔ z ∈ setConflicts ∧ (pool.dataAt z).isSome := by
  simp only [checkReplacement, eq_ok] at h
  obtain ⟨replaced, hall, -, -, -, -, -, -, -, -, rfl⟩ := h
  refine ⟨replaced.setIterConflicting, rfl, ?_⟩
  intro z
  rw [replaceAll_spec hall, ExtTreeSet.mem_toList]
  exact or_iff_right ExtTreeSet.not_mem_empty

theorem checkConflicts_spec (h : checkConflicts ctx pool tx fees size setConflicts = .ok all) :
    ∃ direct : SetEntries, all = pool.calculateAllDescendants direct ∧
      ∀ z, z ∈ direct ↔ z ∈ setConflicts ∧ (pool.dataAt z).isSome := by
  rw [checkConflicts] at h
  split at h
  · rename_i hempty
    cases h
    refine ⟨∅, rfl, ?_⟩
    intro z
    rw [ExtTreeSet.isEmpty_iff, ExtTreeSet.eq_empty_iff_forall_not_mem] at hempty
    exact iff_of_false ExtTreeSet.not_mem_empty fun hz => hempty z hz.1
  · exact checkReplacement_spec h

/-! ## Stages -/

theorem mapError_eq_ok {ε ε' α : Type} {x : Except ε α} {f : ε → ε'} {a : α} :
    x.mapError f = .ok a ↔ x = .ok a := by
  cases x <;> simp [Except.mapError]

theorem checkAccept_ok : checkAccept env ctx state pool tx = .ok accepted ↔ ∃ setConflicts,
      checkAlone env ctx pool tx = .ok setConflicts ∧
      checkCoins env ctx (coinsViewMemPool state.coins pool) tx = .ok () ∧
      checkNicknameOperationForMempool env state.ledger.db pool tx
        (coinsViewMemPool state.coins pool) (state.ledger.height + 1)
        (getValueIn (coinsViewMemPool state.coins pool) tx - tx.getValueOut) = .ok () ∧
      checkPolicy env ctx state pool tx (coinsViewMemPool state.coins pool) setConflicts =
        .ok accepted := by
  simp only [checkAccept, bind_eq_ok, mapError_eq_ok]
  constructor
  · rintro ⟨setConflicts, halone, ⟨⟩, hcoins, ⟨⟩, hnickname, hpolicy⟩
    exact ⟨setConflicts, halone, hcoins, hnickname, hpolicy⟩
  · rintro ⟨setConflicts, halone, hcoins, hnickname, hpolicy⟩
    exact ⟨setConflicts, halone, (), hcoins, (), hnickname, hpolicy⟩

/-- What `checkAlone` leaves to know. -/
structure Alone (env : Env) (pool : CTxMemPool) (tx : CTransaction) (setConflicts : SetEntries) :
    Prop where
  valid : checkTransaction tx = .ok ()
  notCoinBase : tx.isCoinBase = false
  fresh : pool.dataAt (env.txHash tx) = none
  conflicts : ∀ z, z ∈ setConflicts ↔ ∃ txin ∈ tx.vin, pool.mapNextTx[txin.prevout]? = some z

theorem existsTx_eq (pool : CTxMemPool) (id : Uint256) :
    pool.existsTx id = (pool.dataAt id).isSome := by
  rw [existsTx, dataAt, Option.isSome_map, ExtTreeMap.isSome_getElem?_eq_contains]

theorem checkAlone_spec
    (h : checkAlone env ctx pool tx = .ok setConflicts) : Alone env pool tx setConflicts := by
  simp only [checkAlone, eq_ok] at h
  obtain ⟨⟨⟩, valid, -, notCoinBase, -, -, ⟨⟩, -, -, -, -, hfresh, hconflicts⟩ := h
  refine ⟨valid, notCoinBase, ?_, ?_⟩
  · rw [existsTx_eq] at hfresh
    exact Option.isNone_iff_eq_none.mp (by simpa using hfresh)
  · intro z
    rw [collectConflicts_spec hconflicts]
    exact or_iff_right ExtTreeSet.not_mem_empty

/-- What `checkPolicy` leaves to know. -/
structure Policed (env : Env) (ctx : AcceptContext) (state : ChainState) (pool : CTxMemPool)
    (tx : CTransaction) (view : CoinsView) (setConflicts : SetEntries) (accepted : Accepted) :
    Prop where
  entry : accepted.entry = entryOf ctx view tx
  ancestors : pool.calculateMemPoolAncestors ctx.limits tx accepted.entry.nTxSize =
    .ok accepted.setAncestors
  apart : ∀ z ∈ accepted.setAncestors, z ∉ setConflicts
  evicted : ∃ direct : SetEntries, accepted.allConflicting = pool.calculateAllDescendants direct ∧
    ∀ z, z ∈ direct ↔ z ∈ setConflicts ∧ (pool.dataAt z).isSome
  inputs : checkInputs env view tx (state.ledger.height + 1) true mandatoryScriptVerifyFlags = .ok ()

theorem checkPolicy_spec {view : CoinsView}
    (h : checkPolicy env ctx state pool tx view setConflicts = .ok accepted) :
    Policed env ctx state pool tx view setConflicts accepted := by
  simp only [checkPolicy, eq_ok, mapError_eq_ok] at h
  obtain ⟨-, -, ⟨⟩, -, setAncestors, hancestors, -, hapart, all, hall, ⟨⟩, -, ⟨⟩, hinputs, rfl⟩ := h
  refine ⟨rfl, hancestors, ?_, ?_, hinputs⟩
  · intro z hz hmem
    have hnot := List.all_eq_true.mp hapart z (ExtTreeSet.mem_toList.mpr hz)
    rw [hmem] at hnot
    cases hnot
  · exact checkConflicts_spec hall

/-! ## The pool afterwards -/

theorem mem_calculateDescendants {done : SetEntries} {it : Uint256}
    (h : z ∈ done ∨ (z = it ∧ (pool.dataAt z).isSome)) : z ∈ pool.calculateDescendants done it := by
  rw [calculateDescendants]
  rcases h with h | ⟨rfl, hsome⟩
  · exact done_subset_collectWith h
  · by_cases hdone : z ∈ done
    · exact done_subset_collectWith hdone
    · rw [if_neg hdone]
      refine mem_collectWith_single ?_ z
      rw [dataAt, Option.isSome_map, ExtTreeMap.isSome_getElem?_eq_contains] at hsome
      refine Nat.pos_of_ne_zero fun hzero => ?_
      rw [← ExtTreeMap.eq_empty_iff_size_eq_zero] at hzero
      rw [hzero] at hsome
      exact ExtTreeMap.not_mem_empty hsome

/-- Entries of the pool are among their own descendants. -/
theorem mem_calculateAllDescendants {entries : SetEntries} (hz : z ∈ entries)
    (hsome : (pool.dataAt z).isSome) : z ∈ pool.calculateAllDescendants entries := by
  have hfold : ∀ (ids : List Uint256) (done : SetEntries), z ∈ done ∨ z ∈ ids →
      z ∈ ids.foldl pool.calculateDescendants done := by
    intro ids
    induction ids with
    | nil => simp
    | cons it ids ih =>
      intro done h
      refine ih _ ?_
      rcases h with h | h
      · exact .inl (mem_calculateDescendants (.inl h))
      · rcases List.mem_cons.mp h with rfl | h
        · exact .inl (mem_calculateDescendants (.inr ⟨rfl, hsome⟩))
        · exact .inr h
  exact hfold _ _ (.inr (ExtTreeSet.mem_toList.mpr hz))

/-- What an accepted transaction finds when its conflicts are evicted, and the pool
with it. -/
structure Stored (env : Env) (tx : CTransaction) (accepted : Accepted) (pool : CTxMemPool) :
    Prop where
  fresh : (pool.removeStaged accepted.allConflicting false).dataAt (env.txHash tx) = none
  free : ∀ o ∈ tx.vin.map CTxIn.prevout,
    (pool.removeStaged accepted.allConflicting false).mapNextTx[o]? = none
  adds : Adds (env.txHash tx) accepted.entry (pool.removeStaged accepted.allConflicting false)
    (pool.store (env.txHash tx) accepted)
  ok : SpentOk env (pool.store (env.txHash tx) accepted)

theorem stored_of_accept (ok : SpentOk env pool) {view : CoinsView} {setConflicts : SetEntries}
    {accepted : Accepted} (alone : Alone env pool tx setConflicts)
    (policed : Policed env ctx state pool tx view setConflicts accepted) :
    Stored env tx accepted pool := by
  have hdrops := drops_removeStaged pool accepted.allConflicting false
  have hok := ok.drops hdrops
  have htx : accepted.entry.tx = tx := by rw [policed.entry]; rfl
  have fresh : (pool.removeStaged accepted.allConflicting false).dataAt (env.txHash tx) = none := by
    by_cases hmem : env.txHash tx ∈ accepted.allConflicting
    · exact hdrops.gone _ hmem
    · rw [hdrops.stays _ hmem, alone.fresh]
  have free : ∀ o ∈ tx.vin.map CTxIn.prevout,
      (pool.removeStaged accepted.allConflicting false).mapNextTx[o]? = none := by
    intro o ho
    -- An entry that still spends the outpoint would be a conflict, and those are gone.
    by_contra hsome
    obtain ⟨r, hr⟩ := Option.ne_none_iff_exists'.mp hsome
    have hspends := (hok.next o r).mp hr
    have hnot : r ∉ accepted.allConflicting := by
      intro hmem
      obtain ⟨d, hd, -⟩ := hspends
      rw [hdrops.gone r hmem] at hd
      cases hd
    have hbefore := (Spends.congr (hdrops.stays r hnot)).mp hspends
    obtain ⟨txin, htxin, rfl⟩ := List.mem_map.mp ho
    obtain ⟨direct, hall, hdirect⟩ := policed.evicted
    have hin : (pool.dataAt r).isSome := by
      obtain ⟨d, hd, -⟩ := hbefore
      rw [hd]
      rfl
    have hconflict : r ∈ setConflicts :=
      (alone.conflicts r).mpr ⟨txin, htxin, (ok.next _ r).mpr hbefore⟩
    rw [hall] at hnot
    exact hnot (mem_calculateAllDescendants ((hdirect r).mpr ⟨hconflict, hin⟩) hin)
  have hmap : (pool.removeStaged accepted.allConflicting false).mapTx[env.txHash tx]? = none := by
    rwa [dataAt, Option.map_eq_none_iff] at fresh
  have adds := adds_addUnchecked _ accepted.entry hmap accepted.setAncestors
  exact ⟨fresh, free, adds, hok.adds (by rw [htx]) fresh (by rwa [htx]) adds⟩

end KubuCore.Mempool
