import KubuCore.Chain.Runs
import KubuCore.Mempool.Accepted

/-!
# Pending operations

No two transactions of the pool carry operations on the same name. The check of a
new operation lets a pending one pass when both spend a common outpoint; that
transaction is a conflict, and conflicts are evicted before the new one is added.
-/

namespace KubuCore.Mempool

open Chain
open Checked
open Nickname

open CTxMemPool

/-- A change of the pool. The tip may be another one at each step. -/
inductive PoolStep (env : Env) (pool : CTxMemPool) : CTxMemPool → Prop where
  | accept (ctx : AcceptContext) (state : ChainState) (tx : CTransaction) :
      PoolStep env pool (acceptToMemoryPool env ctx state pool tx).2
  | connect (vtx : List CTransaction) : PoolStep env pool (pool.removeForBlock env vtx)
  | removeRecursive (hash : Uint256) (vout : List CTxOut) :
      PoolStep env pool (pool.removeRecursive hash vout)
  | expire (time : Int) : PoolStep env pool (pool.expire time)
  | trim (it : Uint256) : PoolStep env pool (pool.trimOne it)

inductive PoolReachable (env : Env) : CTxMemPool → Prop where
  | start : PoolReachable env {}
  | next {pool pool' : CTxMemPool} : PoolReachable env pool → PoolStep env pool pool' →
      PoolReachable env pool'

/-- The entry `id` carries an operation on the name. -/
def PendingOn (env : Env) (pool : CTxMemPool) (id : Uint256) (name : Bytes) : Prop :=
  ∃ d operation, pool.dataAt id = some d ∧ operationOf env d.tx = some operation ∧
    operation.nickname = name

/-- One name has at most one pending operation. -/
def OnePending (env : Env) (pool : CTxMemPool) : Prop :=
  ∀ id id' name, PendingOn env pool id name → PendingOn env pool id' name → id = id'

variable {env : Env} {pool pool' : CTxMemPool} {tx : CTransaction}

theorem OnePending.shrinks (one : OnePending env pool) (h : Shrinks pool pool') :
    OnePending env pool' := by
  obtain ⟨S, drops⟩ := h
  have before : ∀ id name, PendingOn env pool' id name → PendingOn env pool id name := by
    rintro id name ⟨d, operation, hd, hop⟩
    refine ⟨d, operation, ?_, hop⟩
    by_cases hS : id ∈ S
    · rw [drops.gone id hS] at hd
      cases hd
    · rwa [drops.stays id hS] at hd
  intro id id' name h h'
  exact one id id' name (before id name h) (before id' name h')

/-- Every pending operation on the name shares an input with the new one. -/
theorem checkPending_spec {operation : NicknameOperation} {txs : List CTransaction}
    (h : checkPending env tx operation txs = .ok ()) {mempoolTx : CTransaction}
    (hmem : mempoolTx ∈ txs) (hne : env.txHash mempoolTx ≠ env.txHash tx)
    {pending : NicknameOperation} (hop : operationOf env mempoolTx = some pending)
    (hname : pending.nickname = operation.nickname) : conflictsByInput tx mempoolTx = true := by
  induction txs with
  | nil => cases hmem
  | cons other txs ih =>
    rw [checkPending] at h
    rcases List.mem_cons.mp hmem with rfl | hmem
    · rw [if_neg hne, hop] at h
      simp only [eq_ok] at h
      obtain ⟨-, hor, -⟩ := h
      exact hor.resolve_left fun hdiff => hdiff hname
    · split at h
      · exact ih h hmem
      · split at h
        · exact ih h hmem
        · simp only [eq_ok] at h
          obtain ⟨-, -, h⟩ := h
          exact ih h hmem

theorem mem_transactions {id : Uint256} {d : EntryData} (hd : pool.dataAt id = some d) :
    d.tx ∈ pool.transactions := by
  rw [dataAt, Option.map_eq_some_iff] at hd
  obtain ⟨entry, hentry, rfl⟩ := hd
  exact List.mem_map.mpr
    ⟨(id, entry), Std.ExtTreeMap.mem_toList_iff_getElem?_eq_some.mpr hentry, rfl⟩

/-- A pending operation on the name of a checked one belongs to a conflict. -/
theorem pending_conflicts (ok : SpentOk env pool) {setConflicts : SetEntries}
    (alone : Alone env pool tx setConflicts) {db : NicknameStateDB} {view : CoinsView}
    {height : Int} {fee : CAmount}
    (checked : checkNicknameOperationForMempool env db pool tx view height fee = .ok ())
    {operation : NicknameOperation} (hop : operationOf env tx = some operation) {id : Uint256}
    (pending : PendingOn env pool id operation.nickname) : id ∈ setConflicts := by
  obtain ⟨d, other, hd, hother, hname⟩ := pending
  have hfound : extractNicknameOperationFromTx env tx = .ok (some operation) := by
    rw [operationOf] at hop
    split at hop
    · rename_i hfound
      rw [hfound, hop]
    · cases hop
  simp only [checkNicknameOperationForMempool, hfound, ok_bind, eq_ok] at checked
  obtain ⟨spent, -, -, -, -, -, ⟨⟩, hpending, -⟩ := checked
  have hne : env.txHash d.tx ≠ env.txHash tx := by
    rw [ok.ids id d hd]
    rintro rfl
    rw [alone.fresh] at hd
    cases hd
  have hshared := checkPending_spec hpending (mem_transactions hd) hne hother hname
  obtain ⟨mempoolIn, hin, hcontains⟩ := List.any_eq_true.mp hshared
  rw [List.contains_iff_mem] at hcontains
  obtain ⟨txin, htxin, heq⟩ := List.mem_map.mp hcontains
  refine (alone.conflicts id).mpr ⟨txin, htxin, ?_⟩
  rw [ok.next, heq]
  exact ⟨d, hd, List.mem_map_of_mem hin⟩

/-- Storing an accepted transaction keeps one operation per name. -/
theorem onePending_store (ok : SpentOk env pool) (one : OnePending env pool)
    {ctx : AcceptContext} {state : ChainState} {accepted : Accepted}
    (h : checkAccept env ctx state pool tx = .ok accepted) :
    SpentOk env (pool.store (env.txHash tx) accepted) ∧
      OnePending env (pool.store (env.txHash tx) accepted) := by
  obtain ⟨setConflicts, halone, -, hnickname, hpolicy⟩ := checkAccept_ok.mp h
  have alone := checkAlone_spec halone
  have policed := checkPolicy_spec hpolicy
  have stored := stored_of_accept ok alone policed
  have drops := drops_removeStaged pool accepted.allConflicting false
  have one' : OnePending env (pool.removeStaged accepted.allConflicting false) :=
    one.shrinks ⟨_, drops⟩
  have htx : accepted.entry.tx = tx := by rw [policed.entry]; rfl
  -- A pending operation of the stored pool is the new one or one that was not evicted.
  have cases_on : ∀ id name, PendingOn env (pool.store (env.txHash tx) accepted) id name →
      (id = env.txHash tx ∧ ∃ operation, operationOf env tx = some operation ∧
        operation.nickname = name) ∨
      PendingOn env (pool.removeStaged accepted.allConflicting false) id name := by
    rintro id name ⟨d, operation, hd, hop, hname⟩
    rw [stored.adds.data] at hd
    split at hd
    · rename_i he
      cases hd
      rw [prioritised_tx, htx] at hop
      exact .inl ⟨he, operation, hop, hname⟩
    · exact .inr ⟨d, operation, hd, hop, hname⟩
  have apart : ∀ id name, (∃ operation, operationOf env tx = some operation ∧
      operation.nickname = name) →
      ¬ PendingOn env (pool.removeStaged accepted.allConflicting false) id name := by
    rintro id _ ⟨operation, hop, rfl⟩ ⟨d, other, hd, hother⟩
    have hnot : id ∉ accepted.allConflicting := by
      intro hmem
      rw [drops.gone id hmem] at hd
      cases hd
    rw [drops.stays id hnot] at hd
    have hconflict : id ∈ setConflicts :=
      pending_conflicts ok alone hnickname hop ⟨d, other, hd, hother⟩
    obtain ⟨direct, hall, hdirect⟩ := policed.evicted
    have hin : (pool.dataAt id).isSome := by rw [hd]; rfl
    rw [hall] at hnot
    exact hnot (mem_calculateAllDescendants ((hdirect id).mpr ⟨hconflict, hin⟩) hin)
  refine ⟨stored.ok, ?_⟩
  intro id id' name h h'
  rcases cases_on id name h with ⟨rfl, hop⟩ | hold <;>
    rcases cases_on id' name h' with ⟨rfl, hop'⟩ | hold'
  · rfl
  · exact absurd hold' (apart id' name hop)
  · exact absurd hold (apart id name hop')
  · exact one' id id' name hold hold'

theorem PoolStep.onePending (step : PoolStep env pool pool') (ok : SpentOk env pool)
    (one : OnePending env pool) : SpentOk env pool' ∧ OnePending env pool' := by
  have shrinks : ∀ {pool pool' : CTxMemPool}, Shrinks pool pool' →
      SpentOk env pool ∧ OnePending env pool → SpentOk env pool' ∧ OnePending env pool' := by
    rintro pool pool' ⟨S, h⟩ ⟨ok, one⟩
    exact ⟨ok.drops h, one.shrinks ⟨S, h⟩⟩
  cases step with
  | accept ctx state tx =>
    rw [acceptToMemoryPool]
    split
    · exact ⟨ok, one⟩
    · rename_i accepted haccept
      have stored := onePending_store ok one haccept
      split
      · exact stored
      · exact shrinks (shrinks_limitMempoolSize _ _ _) stored
  | connect vtx => exact shrinks (shrinks_removeForBlock env pool vtx) ⟨ok, one⟩
  | removeRecursive hash vout => exact shrinks (shrinks_removeRecursive pool hash vout) ⟨ok, one⟩
  | expire time => exact shrinks (shrinks_expire pool time) ⟨ok, one⟩
  | trim it => exact shrinks (shrinks_trimOne pool it) ⟨ok, one⟩

theorem PoolReachable.onePending (h : PoolReachable env pool) :
    SpentOk env pool ∧ OnePending env pool := by
  induction h with
  | start =>
    refine ⟨spentOk_empty, ?_⟩
    rintro id id' name ⟨d, -, hd, -⟩
    cases hd
  | next _ step ih => exact step.onePending ih.1 ih.2

/-- At every point of every history of the pool, two entries that carry operations on
one name are the same entry. -/
theorem one_pending_operation (h : PoolReachable env pool) {id id' : Uint256}
    {entry entry' : CTxMemPoolEntry} (hentry : pool.mapTx[id]? = some entry)
    (hentry' : pool.mapTx[id']? = some entry') {operation operation' : NicknameOperation}
    (hop : operationOf env entry.tx = some operation)
    (hop' : operationOf env entry'.tx = some operation')
    (same : operation.nickname = operation'.nickname) : id = id' := by
  have data : ∀ {id : Uint256} {entry : CTxMemPoolEntry}, pool.mapTx[id]? = some entry →
      pool.dataAt id = some entry.toEntryData := by
    intro id entry hentry
    rw [dataAt, hentry, Option.map_some]
  exact h.onePending.2 id id' operation.nickname ⟨_, operation, data hentry, hop, rfl⟩
    ⟨_, operation', data hentry', hop', same.symm⟩

/-- The first update of the registered name with another change output, as one
that can be replaced. -/
def updateTx (change : Int) : CTransaction :=
  { firstUpdateTx with
    vin := firstUpdateTx.vin.map fun txin => { txin with nSequence := 0 }
    vout := [announceUpdate, toSampleKey change]
    voutSize := two_le_maxSize }

/-- Ids for two of the updates, and signatures that cover any change output. -/
def updateEnv : Env :=
  { sampleEnv with
    txHash := fun tx => if tx = updateTx 999 then 1001 else 1002
    ecdsaVerify := fun _ _ _ => true }

def pendingPool : CTxMemPool :=
  (acceptToMemoryPool updateEnv {} registeredState {} (updateTx 999)).2

/-- The pool after a second update that spends the same coin for a higher fee. -/
def replacedPool : CTxMemPool :=
  (acceptToMemoryPool updateEnv {} registeredState pendingPool (updateTx 900)).2

theorem replacedPool_second :
    replacedPool.mapTx[(1002 : Uint256)]?.map (fun entry => entry.tx) = some (updateTx 900) := by
  decide +kernel

/-- The pending update is evicted, and the other one is the only operation on the name. -/
theorem one_pending_operation_replaced :
    (1001 : Uint256) ∈ pendingPool.mapTx ∧ (1001 : Uint256) ∉ replacedPool.mapTx ∧
    ∃ entry operation, replacedPool.mapTx[(1002 : Uint256)]? = some entry ∧
      operationOf updateEnv entry.tx = some operation ∧
      ∀ (id : Uint256) other operation', replacedPool.mapTx[id]? = some other →
        operationOf updateEnv other.tx = some operation' →
        operation'.nickname = operation.nickname → id = 1002 := by
  have reachable : PoolReachable updateEnv replacedPool :=
    .next (.next .start (.accept _ _ _)) (.accept _ _ _)
  obtain ⟨entry, hentry, htx⟩ := Option.map_eq_some_iff.mp replacedPool_second
  obtain ⟨operation, hop⟩ := Option.isSome_iff_exists.mp
    (show (operationOf updateEnv (updateTx 900)).isSome = true by decide +kernel)
  rw [← htx] at hop
  exact ⟨by decide +kernel, by decide +kernel, entry, operation, hentry, hop,
    fun _ _ _ hother hop' same => one_pending_operation reachable hother hentry hop' hop same⟩

end KubuCore.Mempool
