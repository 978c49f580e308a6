import KubuCore.Mempool.Removal

/-!
# Fee replacement

A transaction that spends what entries of the pool spend takes their place, with
all their descendants. The rules of `AcceptToMemoryPoolWorker` compare it with the
direct conflicts only; together with the closures of the graph they say that no
ancestor of the transaction is evicted. The fees of the pool grow if the modified
fees are in range: a fee delta can be so large that a sum or a rate wraps around
and a small fee passes the rules.
-/

namespace KubuCore.Mempool

open Chain
open Checked
open Lineage
open Sets
open Std

open CTxMemPool

variable {env : Env} {ctx : AcceptContext} {state : ChainState} {pool : CTxMemPool}
  {tx : CTransaction}

/-! ## What is evicted -/

section Evicted

variable {view : CoinsView} {setConflicts : SetEntries} {accepted : Accepted}
  (links : LinksOk pool)
  (policed : Policed env ctx state pool tx view setConflicts accepted)

include links policed

theorem evicted_iff {z : Uint256} : z ∈ accepted.allConflicting ↔
    ∃ x ∈ setConflicts, (pool.dataAt x).isSome ∧ pool.graph.Above x z := by
  obtain ⟨direct, hall, hdirect⟩ := policed.evicted
  rw [hall, mem_calculateAllDescendants_iff links fun x hx => ((hdirect x).mp hx).2]
  simp only [hdirect, and_assoc]

theorem evicted_inside : ∀ z ∈ accepted.allConflicting, (pool.dataAt z).isSome := by
  intro z hz
  obtain ⟨x, -, hx, path⟩ := (evicted_iff links policed).mp hz
  exact mem_nodes.mp (path.mem_below (mem_nodes.mpr hx))

theorem evicted_closed (p c : Uint256) (hedge : pool.ParentOf p c)
    (hp : p ∈ accepted.allConflicting) : c ∈ accepted.allConflicting := by
  obtain ⟨x, hx, hin, path⟩ := (evicted_iff links policed).mp hp
  exact (evicted_iff links policed).mpr ⟨x, hx, hin, path.tail hedge⟩

/-- A conflict above an evicted ancestor would be an ancestor itself. -/
theorem evicted_notAncestor {z : Uint256} (hz : z ∈ accepted.allConflicting) :
    ¬ ∃ p ∈ pool.SpendsFrom tx, pool.graph.Above z p := by
  rintro ⟨p, hp, below⟩
  obtain ⟨x, hx, -, path⟩ := (evicted_iff links policed).mp hz
  have hancestor := (mem_calculateMemPoolAncestors links policed.ancestors).mpr
      ⟨p, hp, Relation.ReflTransGen.trans path below⟩
  exact policed.apart x hancestor hx

end Evicted

/-! ## What the rules compare -/

theorem collectConflicts_signals {enabled : Bool} {vin : List CTxIn} {set set' : SetEntries}
    (h : collectConflicts enabled pool set vin = .ok set') :
    ∀ z ∈ set', z ∈ set ∨ ∃ e, pool.mapTx[z]? = some e ∧ signalsReplacement e.tx = true := by
  induction vin generalizing set with
  | nil =>
    cases h
    exact fun z hz => .inl hz
  | cons txin vin ih =>
    rw [collectConflicts] at h
    split at h
    · exact ih h
    · rename_i conflicting _
      split at h
      · exact ih h
      · simp only [eq_ok] at h
        obtain ⟨-, ⟨-, hsignals⟩, h⟩ := h
        have hentry : ∃ e, pool.mapTx[conflicting]? = some e ∧ signalsReplacement e.tx = true := by
          cases hmap : pool.mapTx[conflicting]? with
          | none =>
            rw [hmap] at hsignals
            cases hsignals
          | some e =>
            rw [hmap] at hsignals
            exact ⟨e, rfl, hsignals⟩
        intro z hz
        rcases ih h z hz with hz | hz
        · rcases mem_insert_iff.mp hz with rfl | hz
          · exact .inr hentry
          · exact .inl hz
        · exact .inr hz

/-- The number of descendants that an entry has cached. -/
def countAt (pool : CTxMemPool) (id : Uint256) : Int :=
  (pool.mapTx[id]?.map CTxMemPoolEntry.nCountWithDescendants).getD 0

/-- What the loop over the direct conflicts has compared and gathered. -/
structure Compared (pool : CTxMemPool) (newFeeRate : CAmount) (hashes : List Uint256)
    (replaced replaced' : Replaced) : Prop where
  cheaper : ∀ z ∈ hashes, ∀ d, pool.dataAt z = some d →
    feeRate (wrapInt64 d.getModifiedFee) d.nTxSize < newFeeRate
  parents : ∀ p, p ∈ replaced'.setConflictsParents → p ∈ replaced.setConflictsParents ∨
    ∃ z ∈ hashes, ∃ d, pool.dataAt z = some d ∧ ∃ txin ∈ d.tx.vin, txin.prevout.hash = p
  count : replaced'.nConflictingCount = replaced.nConflictingCount + (hashes.map (countAt pool)).sum

variable {newFeeRate : CAmount} {replaced replaced' : Replaced} {hash : Uint256}

theorem compared_one (h : replaceOne pool newFeeRate replaced hash = .ok replaced') :
    Compared pool newFeeRate [hash] replaced replaced' := by
  rw [replaceOne] at h
  split at h
  · rename_i hnone
    have hdata : pool.dataAt hash = none := by rw [dataAt, hnone, Option.map_none]
    cases h
    refine ⟨?_, fun p hp => .inl hp, by simp [countAt, hnone]⟩
    intro z hz d hd
    rw [List.mem_singleton.mp hz, hdata] at hd
    cases hd
  · rename_i mi hsome
    simp only [eq_ok] at h
    obtain ⟨-, hless, rfl⟩ := h
    have hdata := dataAt_of_mapTx hsome
    refine ⟨?_, ?_, by simp [countAt, hsome]⟩
    · intro z hz d hd
      rw [List.mem_singleton.mp hz, hdata, Option.some.injEq] at hd
      exact hd ▸ hless
    · intro p hp
      have hfold := mem_foldl_insert mi.tx.vin (fun txin : CTxIn => some txin.prevout.hash)
        replaced.setConflictsParents p
      rcases hfold.mp hp with hp | ⟨txin, htxin, he⟩
      · exact .inl hp
      · exact .inr ⟨hash, List.mem_singleton_self hash, mi.toEntryData, hdata, txin, htxin,
          Option.some.inj he⟩

theorem compared_all {hashes : List Uint256}
    (h : hashes.foldlM (replaceOne pool newFeeRate) replaced = .ok replaced') :
    Compared pool newFeeRate hashes replaced replaced' := by
  induction hashes generalizing replaced with
  | nil =>
    cases h
    exact ⟨by simp, fun p hp => .inl hp, by simp⟩
  | cons hash hashes ih =>
    rw [List.foldlM_cons, bind_eq_ok] at h
    obtain ⟨middle, hone, hrest⟩ := h
    have one := compared_one hone
    have rest := ih hrest
    refine ⟨?_, ?_, ?_⟩
    · intro z hz
      rcases List.mem_cons.mp hz with rfl | hz
      · exact one.cheaper z (List.mem_singleton_self z)
      · exact rest.cheaper z hz
    · intro p hp
      rcases rest.parents p hp with hp | ⟨z, hz, hspends⟩
      · rcases one.parents p hp with hp | ⟨z, hz, hspends⟩
        · exact .inl hp
        · exact .inr ⟨z, List.mem_singleton.mp hz ▸ List.mem_cons_self, hspends⟩
      · exact .inr ⟨z, List.mem_cons_of_mem hash hz, hspends⟩
    · simp only [rest.count, one.count, List.map_cons, List.map_nil, List.sum_cons, List.sum_nil]
      ring

/-- The rules of a replacement, in terms of the direct conflicts. -/
structure Ruled (ctx : AcceptContext) (pool : CTxMemPool) (tx : CTransaction)
    (nModifiedFees : CAmount) (nSize : Int) (setConflicts all : SetEntries) : Prop where
  cheaper : ∀ z ∈ setConflicts, ∀ d, pool.dataAt z = some d →
    feeRate (wrapInt64 d.getModifiedFee) d.nTxSize < feeRate nModifiedFees nSize
  count : (setConflicts.toList.map (countAt pool)).sum ≤ 100
  parents : ∀ p ∈ pool.SpendsFrom tx, ∃ z ∈ setConflicts, pool.ParentOf p z
  pays : wrapInt64 (pool.sumOf all EntryData.getModifiedFee) + ctx.incrementalRelayFee ≤
    nModifiedFees

variable {setConflicts : SetEntries} {accepted : Accepted}

theorem checkReplacement_ruled {fees : CAmount} {size : Int} {all : SetEntries}
    (h : checkReplacement ctx pool tx fees size setConflicts = .ok all) :
    Ruled ctx pool tx fees size setConflicts all := by
  simp only [checkReplacement, eq_ok] at h
  obtain ⟨replaced, hall, -, hcount, -, hparents, -, hfees, -, hdelta, rfl⟩ := h
  have compared := compared_all hall
  refine ⟨?_, ?_, ?_, ?_⟩
  · exact fun z hz => compared.cheaper z (ExtTreeSet.mem_toList.mpr hz)
  · have hsum := compared.count
    simp only [maxDescendantsToVisit] at hcount
    simp only [zero_add] at hsum
    omega
  · rintro p ⟨hp, txin, htxin, rfl⟩
    have hknown := List.all_eq_true.mp hparents txin htxin
    rw [existsTx_eq, hp, Bool.not_true, Bool.or_false] at hknown
    rcases compared.parents _ hknown with hnone | ⟨z, hz, hspends⟩
    · exact absurd hnone ExtTreeSet.not_mem_empty
    · exact ⟨z, ExtTreeSet.mem_toList.mp hz, hp, hspends⟩
  · -- The difference is not negative, so that it can only wrap downwards.
    have hless := hdelta.trans (wrapInt64_le (by linarith))
    linarith

/-! ## The fees of the pool -/

/-- The modified fees of all entries. -/
def CTxMemPool.totalModifiedFee (pool : CTxMemPool) : CAmount :=
  ∑ id ∈ pool.graph.nodes, pool.valueAt EntryData.getModifiedFee id

theorem sumOf_eq (pool : CTxMemPool) (set : SetEntries) (value : EntryData → Int) :
    pool.sumOf set value = ∑ id ∈ set.toList.toFinset, pool.valueAt value id := by
  rw [sumOf, ← sum_toList]
  simp only [valueAt_eq]

theorem deltas_removeStaged (pool : CTxMemPool) (stage : SetEntries) (updateDescendants : Bool) :
    (pool.removeStaged stage updateDescendants).mapDeltas = pool.mapDeltas := by
  have herase : ∀ (ids : List Uint256) (pool : CTxMemPool),
      (ids.foldl removeUnchecked pool).mapDeltas = pool.mapDeltas := by
    intro ids
    induction ids with
    | nil => exact fun _ => rfl
    | cons it ids ih =>
      intro pool
      rw [List.foldl_cons, ih, removeUnchecked]
      split <;> rfl
  rw [removeStaged, herase, (pool.frame_updateForRemoveFromMempool stage updateDescendants).deltas]

/-- The new entry is in the pool with its modified fee. -/
theorem modifiedFee_store (adds : Adds (env.txHash tx) accepted.entry
      (pool.removeStaged accepted.allConflicting false) (pool.store (env.txHash tx) accepted))
    (unprioritised : accepted.entry.feeDelta = 0) :
    (pool.store (env.txHash tx) accepted).valueAt EntryData.getModifiedFee (env.txHash tx) =
      accepted.entry.nFee + pool.mapDeltas[env.txHash tx]?.getD 0 := by
  rw [valueAt, adds.data, if_pos rfl, Option.map_some, Option.getD_some, prioritised,
    deltas_removeStaged]
  split
  · rfl
  · rename_i hzero
    have hdelta := not_not.mp hzero
    rw [EntryData.getModifiedFee, unprioritised, hdelta]

theorem totalModifiedFee_store (inside : ∀ z ∈ accepted.allConflicting, (pool.dataAt z).isSome)
    (fresh : pool.dataAt hash = none)
    (adds : Adds hash accepted.entry (pool.removeStaged accepted.allConflicting false)
      (pool.store hash accepted)) :
    (pool.store hash accepted).totalModifiedFee =
      pool.totalModifiedFee - pool.sumOf accepted.allConflicting EntryData.getModifiedFee +
        (pool.store hash accepted).valueAt EntryData.getModifiedFee hash := by
  have drops := drops_removeStaged pool accepted.allConflicting false
  have hnodes : (pool.store hash accepted).graph.nodes =
      insert hash (pool.graph.nodes.filter (· ∉ accepted.allConflicting)) := by
    ext id
    rw [Finset.mem_insert, Finset.mem_filter, mem_nodes, mem_nodes, adds.data]
    by_cases hid : id = hash
    · simp [hid]
    · by_cases hmem : id ∈ accepted.allConflicting
      · rw [drops.gone id hmem]
        simp [hid, hmem]
      · rw [drops.stays id hmem]
        simp [hid, hmem]
  have hnot : hash ∉ pool.graph.nodes.filter (· ∉ accepted.allConflicting) := by
    intro hmem
    have hin := mem_nodes.mp (Finset.mem_filter.mp hmem).1
    rw [fresh] at hin
    cases hin
  have hkept : ∀ id ∈ pool.graph.nodes.filter (· ∉ accepted.allConflicting),
      (pool.store hash accepted).valueAt EntryData.getModifiedFee id =
        pool.valueAt EntryData.getModifiedFee id := by
    intro id hid
    have hne : id ≠ hash := fun he => hnot (he ▸ hid)
    rw [valueAt, adds.data, if_neg hne, drops.stays id (Finset.mem_filter.mp hid).2, valueAt]
  have hevicted : accepted.allConflicting.toList.toFinset =
      pool.graph.nodes.filter (· ∈ accepted.allConflicting) := by
    ext id
    rw [mem_toFinset, Finset.mem_filter, mem_nodes]
    exact ⟨fun h => ⟨inside id h, h⟩, And.right⟩
  rw [totalModifiedFee, hnodes, Finset.sum_insert hnot, Finset.sum_congr rfl hkept, sumOf_eq,
    hevicted, totalModifiedFee,
    ← Finset.sum_filter_add_sum_filter_not pool.graph.nodes (· ∈ accepted.allConflicting)]
  ring

/-! ## The result -/

/-- The pool is consistent: `mapNextTx`, the links and the totals. -/
structure CTxMemPool.PoolOk (env : Env) (pool : CTxMemPool) : Prop where
  spent : SpentOk env pool
  links : LinksOk pool
  totals : TotalsOk pool

/-- The entry spends an input of the transaction. -/
def CTxMemPool.ConflictsWith (pool : CTxMemPool) (tx : CTransaction) (z : Uint256) : Prop :=
  ∃ txin ∈ tx.vin, pool.Spends z txin.prevout

/-- What a replacement evicts. -/
structure Evicts (pool : CTxMemPool) (tx : CTransaction) (accepted : Accepted) : Prop where
  evicted : ∀ z, z ∈ accepted.allConflicting ↔
    ∃ x, pool.ConflictsWith tx x ∧ pool.graph.Above x z
  atMost : accepted.allConflicting.size ≤ 100
  notAncestor : ∀ z ∈ accepted.allConflicting,
    ¬ ∃ p ∈ pool.SpendsFrom tx, pool.graph.Above z p
  signals : ∀ z d, pool.ConflictsWith tx z → pool.dataAt z = some d →
    ∃ txin ∈ d.tx.vin, txin.nSequence < 0xfffffffe
  parents : ∀ p ∈ pool.SpendsFrom tx, ∃ z, pool.ConflictsWith tx z ∧ pool.ParentOf p z

/-- The fee for a thousand bytes, as a number without bounds. -/
def exactRate (fee : CAmount) (size : Int) : CAmount :=
  if 0 < size then (fee * 1000).tdiv size else 0

/-- What a replacement pays, for its modified fee. -/
structure Pays (env : Env) (ctx : AcceptContext) (pool : CTxMemPool) (tx : CTransaction)
    (accepted : Accepted) (newFee : CAmount) : Prop where
  cheaper : ∀ z d, pool.ConflictsWith tx z → pool.dataAt z = some d →
    exactRate d.getModifiedFee d.nTxSize < exactRate newFee accepted.entry.nTxSize
  pays : pool.sumOf accepted.allConflicting EntryData.getModifiedFee + ctx.incrementalRelayFee ≤
    newFee
  grows : pool.totalModifiedFee + ctx.incrementalRelayFee ≤
    (pool.store (env.txHash tx) accepted).totalModifiedFee

/-- The modified fees of the conflicts of a transaction and of their descendants. -/
noncomputable def CTxMemPool.conflictingFees (pool : CTxMemPool) (tx : CTransaction) : CAmount :=
  open Classical in
  ∑ z ∈ pool.graph.nodes.filter fun z => ∃ x, pool.ConflictsWith tx x ∧ pool.graph.Above x z,
    pool.valueAt EntryData.getModifiedFee z

/-- The modified fee that a transaction will have in the pool. -/
def newModifiedFee (env : Env) (state : ChainState) (pool : CTxMemPool) (tx : CTransaction) :
    CAmount :=
  getValueIn (coinsViewMemPool state.coins pool) tx - tx.getValueOut +
    pool.mapDeltas[env.txHash tx]?.getD 0

/-- The modified fees that the rules compare do not wrap to its advantage: neither the
sum of what goes nor a rate. -/
structure FeesFit (env : Env) (state : ChainState) (pool : CTxMemPool) (tx : CTransaction) :
    Prop where
  total : pool.conflictingFees tx < 2 ^ 63
  rates : ∀ z d, pool.ConflictsWith tx z → pool.dataAt z = some d →
    d.getModifiedFee * 1000 < 2 ^ 63
  new : -2 ^ 63 ≤ newModifiedFee env state pool tx * 1000

section Rates

variable {fee : CAmount}

theorem exactRate_le_feeRate (h : fee * 1000 < 2 ^ 63) (size : Int) :
    exactRate fee size ≤ feeRate (wrapInt64 fee) size := by
  rw [exactRate, feeRate, wrapInt64_mul]
  split
  · exact Int.tdiv_le_tdiv ‹_› (le_wrapInt64 h)
  · exact le_rfl

theorem feeRate_le_exactRate (h : -2 ^ 63 ≤ fee * 1000) (size : Int) :
    feeRate (wrapInt64 fee) size ≤ exactRate fee size := by
  rw [exactRate, feeRate, wrapInt64_mul]
  split
  · exact Int.tdiv_le_tdiv ‹_› (wrapInt64_le h)
  · exact le_rfl

end Rates

theorem sumOf_evicted (evicts : Evicts pool tx accepted)
    (inside : ∀ z ∈ accepted.allConflicting, (pool.dataAt z).isSome) :
    pool.sumOf accepted.allConflicting EntryData.getModifiedFee = pool.conflictingFees tx := by
  classical
  rw [sumOf_eq, conflictingFees]
  refine Finset.sum_congr ?_ fun _ _ => rfl
  ext z
  rw [mem_toFinset, Finset.mem_filter, mem_nodes, ← evicts.evicted]
  exact ⟨fun h => ⟨inside z h, h⟩, And.right⟩

theorem checkPolicy_conflicts {view : CoinsView}
    (h : checkPolicy env ctx state pool tx view setConflicts = .ok accepted) :
    checkConflicts ctx pool tx
      (wrapInt64 (accepted.entry.nFee + pool.mapDeltas[env.txHash tx]?.getD 0))
      accepted.entry.nTxSize setConflicts = .ok accepted.allConflicting := by
  simp only [checkPolicy, eq_ok] at h
  obtain ⟨-, -, -, -, setAncestors, -, -, -, all, hall, -, -, -, -, rfl⟩ := h
  exact hall

theorem checkAlone_signals (h : checkAlone env ctx pool tx = .ok setConflicts) :
    ∀ z ∈ setConflicts, ∃ e, pool.mapTx[z]? = some e ∧ signalsReplacement e.tx = true := by
  simp only [checkAlone, eq_ok] at h
  obtain ⟨-, -, -, -, -, -, -, -, -, -, -, -, hconflicts⟩ := h
  intro z hz
  exact (collectConflicts_signals hconflicts z hz).resolve_left ExtTreeSet.not_mem_empty

/-- The cached counts of the direct conflicts bound what is evicted. -/
theorem size_evicted (links : LinksOk pool) (totals : TotalsOk pool) {view : CoinsView}
    {setConflicts : SetEntries} {accepted : Accepted}
    (policed : Policed env ctx state pool tx view setConflicts accepted) :
    (accepted.allConflicting.size : Int) ≤ (setConflicts.toList.map (countAt pool)).sum := by
  have hcount : ∀ z ∈ setConflicts.toList.toFinset, (pool.dataAt z).isSome →
      countAt pool z = (pool.graph.progeny z).card := by
    intro z _ hz
    obtain ⟨e, he⟩ : ∃ e, pool.mapTx[z]? = some e := by
      rwa [dataAt, Option.isSome_map, Option.isSome_iff_exists] at hz
    rw [countAt, he, Option.map_some, Option.getD_some, (totals.descendantTotals he).1]
  have hcovered : accepted.allConflicting.toList.toFinset ⊆
      setConflicts.toList.toFinset.biUnion pool.graph.progeny := by
    intro z hz
    have hz := mem_toFinset.mp hz
    obtain ⟨x, hx, -, path⟩ := (evicted_iff links policed).mp hz
    exact Finset.mem_biUnion.mpr ⟨x, mem_toFinset.mpr hx, (Graph.mem_progeny _).mpr
      ⟨mem_nodes.mpr (evicted_inside links policed z hz), path⟩⟩
  have hnonneg : ∀ z ∈ setConflicts.toList.toFinset,
      ((pool.graph.progeny z).card : Int) ≤ countAt pool z := by
    intro z hz
    by_cases hin : (pool.dataAt z).isSome
    · exact (hcount z hz hin).ge
    · -- Nothing is below an id that is not in the pool.
      have hempty : pool.graph.progeny z = ∅ := by
        refine Finset.eq_empty_of_forall_notMem fun d hd => hin ?_
        obtain ⟨hd, path⟩ := (Graph.mem_progeny _).mp hd
        exact mem_nodes.mp (path.mem hd)
      have hnone : pool.mapTx[z]? = none := by
        rw [dataAt] at hin
        simpa using hin
      rw [hempty, countAt, hnone]
      exact le_rfl
  rw [sum_toList, ← card_toFinset]
  calc (accepted.allConflicting.toList.toFinset.card : Int)
      ≤ (setConflicts.toList.toFinset.biUnion pool.graph.progeny).card := by
        exact_mod_cast Finset.card_le_card hcovered
    _ ≤ ∑ z ∈ setConflicts.toList.toFinset, ((pool.graph.progeny z).card : Int) := by
        exact_mod_cast Finset.card_biUnion_le
    _ ≤ ∑ z ∈ setConflicts.toList.toFinset, countAt pool z := Finset.sum_le_sum hnonneg

/-- The checks on a transaction with conflicts, in terms of these. -/
structure Replaces (env : Env) (ctx : AcceptContext) (state : ChainState) (pool : CTxMemPool)
    (tx : CTransaction) (accepted : Accepted) : Prop where
  evicts : Evicts pool tx accepted
  cheaper : ∀ z d, pool.ConflictsWith tx z → pool.dataAt z = some d →
    feeRate (wrapInt64 d.getModifiedFee) d.nTxSize <
      feeRate (wrapInt64 (newModifiedFee env state pool tx)) accepted.entry.nTxSize
  pays : wrapInt64 (pool.conflictingFees tx) + ctx.incrementalRelayFee ≤
    wrapInt64 (newModifiedFee env state pool tx)
  evicted : pool.sumOf accepted.allConflicting EntryData.getModifiedFee = pool.conflictingFees tx
  grows : (pool.store (env.txHash tx) accepted).totalModifiedFee =
    pool.totalModifiedFee - pool.conflictingFees tx + newModifiedFee env state pool tx

theorem replaces_of_checkAccept (ok : PoolOk env pool) {accepted : Accepted}
    (h : checkAccept env ctx state pool tx = .ok accepted)
    (conflicts : ∃ z, pool.ConflictsWith tx z) : Replaces env ctx state pool tx accepted := by
  obtain ⟨setConflicts, halone, -, -, hpolicy⟩ := checkAccept_ok.mp h
  have alone := checkAlone_spec halone
  have policed := checkPolicy_spec hpolicy
  have stored := stored_of_accept ok.spent alone policed
  have inside := evicted_inside ok.links policed
  have hconflict : ∀ z, z ∈ setConflicts ↔ pool.ConflictsWith tx z := by
    intro z
    rw [alone.conflicts]
    simp only [ok.spent.next]
    rfl
  have hin : ∀ z, pool.ConflictsWith tx z → (pool.dataAt z).isSome := by
    rintro z ⟨txin, -, d, hd, -⟩
    rw [hd]
    rfl
  have hnew : accepted.entry.nFee + pool.mapDeltas[env.txHash tx]?.getD 0 =
      newModifiedFee env state pool tx := by
    rw [policed.entry]
    rfl
  have ruled : Ruled ctx pool tx (wrapInt64 (newModifiedFee env state pool tx))
      accepted.entry.nTxSize setConflicts accepted.allConflicting := by
    have hcheck := checkPolicy_conflicts hpolicy
    obtain ⟨z, hz⟩ := conflicts
    have hnonempty : setConflicts.isEmpty = false := by
      rw [Bool.eq_false_iff, ne_eq, ExtTreeSet.isEmpty_iff]
      intro hempty
      have hmem := (hconflict z).mpr hz
      rw [hempty] at hmem
      exact ExtTreeSet.not_mem_empty hmem
    rw [checkConflicts, hnonempty, hnew] at hcheck
    exact checkReplacement_ruled hcheck
  have evicts : Evicts pool tx accepted := by
    refine ⟨?_, ?_, ?_, ?_, ?_⟩
    · intro z
      rw [evicted_iff ok.links policed]
      simp only [hconflict]
      constructor
      · rintro ⟨x, hx, -, path⟩
        exact ⟨x, hx, path⟩
      · rintro ⟨x, hx, path⟩
        exact ⟨x, hx, hin x hx, path⟩
    · have hsize := size_evicted ok.links ok.totals policed
      have hcount := ruled.count
      omega
    · exact fun z hz => evicted_notAncestor ok.links policed hz
    · intro z d hz hd
      obtain ⟨e, he, hsignals⟩ := checkAlone_signals halone z ((hconflict z).mpr hz)
      rw [dataAt_of_mapTx he, Option.some.injEq] at hd
      subst hd
      obtain ⟨txin, htxin, hless⟩ := List.any_eq_true.mp hsignals
      exact ⟨txin, htxin, of_decide_eq_true hless⟩
    · intro p hp
      obtain ⟨z, hz, hparent⟩ := ruled.parents p hp
      exact ⟨z, (hconflict z).mp hz, hparent⟩
  have hsum := sumOf_evicted evicts inside
  refine ⟨evicts, fun z d hz hd => ruled.cheaper z ((hconflict z).mpr hz) d hd, ?_, hsum, ?_⟩
  · exact hsum ▸ ruled.pays
  · rw [totalModifiedFee_store inside alone.fresh stored.adds, hsum,
      modifiedFee_store stored.adds (by rw [policed.entry]; rfl), hnew]

/-- What wraps is to the advantage of the pool, so that the exact fees pass the rules too. -/
theorem Replaces.pays_of_fit (replaces : Replaces env ctx state pool tx accepted)
    (fit : FeesFit env state pool tx) :
    Pays env ctx pool tx accepted (newModifiedFee env state pool tx) := by
  have hpaid : pool.conflictingFees tx + ctx.incrementalRelayFee ≤
      newModifiedFee env state pool tx := by
    have hnew : -2 ^ 63 ≤ newModifiedFee env state pool tx := by
      linarith [fit.new]
    calc pool.conflictingFees tx + ctx.incrementalRelayFee
        ≤ wrapInt64 (pool.conflictingFees tx) + ctx.incrementalRelayFee := by
          linarith [le_wrapInt64 fit.total]
      _ ≤ wrapInt64 (newModifiedFee env state pool tx) := replaces.pays
      _ ≤ newModifiedFee env state pool tx := wrapInt64_le hnew
  refine ⟨?_, replaces.evicted ▸ hpaid, ?_⟩
  · intro z d hz hd
    calc exactRate d.getModifiedFee d.nTxSize
        ≤ feeRate (wrapInt64 d.getModifiedFee) d.nTxSize :=
          exactRate_le_feeRate (fit.rates z d hz hd) _
      _ < feeRate (wrapInt64 (newModifiedFee env state pool tx)) accepted.entry.nTxSize :=
          replaces.cheaper z d hz hd
      _ ≤ exactRate (newModifiedFee env state pool tx) accepted.entry.nTxSize :=
          feeRate_le_exactRate fit.new _
  · rw [replaces.grows]
    linarith

/-- In a consistent pool every accepted transaction with conflicts evicts exactly these
and their descendants. If the modified fees fit it pays for what it evicts, and a
transaction whose own fee is in range pays for no more than the range of a sum. -/
theorem replacement_pays_for_evicted {pool' : CTxMemPool} (ok : PoolOk env pool)
    (h : acceptToMemoryPool env ctx state pool tx = (.ok (), pool'))
    (conflicts : ∃ z, pool.ConflictsWith tx z) :
    ∃ accepted, checkAccept env ctx state pool tx = .ok accepted ∧
      (pool' = if ctx.fOverrideMempoolLimit then pool.store (env.txHash tx) accepted
        else (pool.store (env.txHash tx) accepted).limitMempoolSize ctx.expiry ctx.trimmed) ∧
      Evicts pool tx accepted ∧
      (FeesFit env state pool tx →
        Pays env ctx pool tx accepted (newModifiedFee env state pool tx)) ∧
      (0 ≤ ctx.incrementalRelayFee → newModifiedFee env state pool tx < 2 ^ 63 →
        Pays env ctx pool tx accepted (newModifiedFee env state pool tx) →
        pool.conflictingFees tx < 2 ^ 63) := by
  rw [acceptToMemoryPool] at h
  split at h
  · cases h
  · rename_i accepted haccept
    have replaces := replaces_of_checkAccept ok haccept conflicts
    refine ⟨accepted, haccept, ?_, replaces.evicts, replaces.pays_of_fit, ?_⟩
    · split_ifs at h with hover
      · rw [if_pos hover]
        exact (congrArg Prod.snd h).symm
      · rw [if_neg hover]
        exact (congrArg Prod.snd h).symm
    · intro hrelay hfee pays
      have hpays := pays.pays
      rw [replaces.evicted] at hpays
      linarith

/-! ## A coin spent twice -/

section Empty

variable {deltas : ExtTreeMap Uint256 CAmount}

theorem linksOk_empty : LinksOk { mapDeltas := deltas } where
  keys id := by simp [HasLinks, dataAt_empty]
  parents c p := by simp [getMemPoolParents, ParentOf, dataAt_empty]
  children p c := by simp [getMemPoolChildren, ParentOf, dataAt_empty]

theorem totalsOk_empty : TotalsOk { mapDeltas := deltas } := by
  constructor <;>
  · intro id e he
    simp at he

end Empty

/-- A transaction that spends one coin anyone can spend, and leaves some of it. -/
def spendAnyone (nValue : CAmount) (scriptPubKey : List UInt8) : CTransaction where
  nVersion := 1
  vin := [⟨⟨7, 0⟩, [], 0, []⟩]
  vout := [⟨nValue, scriptPubKey⟩]
  nLockTime := 0
  voutSize := by
    change 1 ≤ maxSize
    decide

/-- It pays less for each of its bytes than the transactions below. -/
def lowFeeTx : CTransaction := spendAnyone 900000000 (List.replicate 10 0x61 ++ [0x51])

def anyoneEnv : Env :=
  { Nickname.sampleEnv with txHash := fun tx => if tx = lowFeeTx then 1 else 2 }

/-- The coin is in a block. -/
def anyoneState : ChainState :=
  { ChainState.empty with
    coins := storeCoins ∅ 7 { vout := [⟨1000000000, [0x51]⟩], nHeight := 1, nVersion := 1 } }

def lowFeeEntry : CTxMemPoolEntry :=
  entryOf {} (coinsViewMemPool anyoneState.coins {}) lowFeeTx

/-- The largest delta, stored for the entry if it is prioritised. -/
def storedDeltas (prioritise : Bool) : ExtTreeMap Uint256 CAmount :=
  if prioritise then (∅ : ExtTreeMap Uint256 CAmount).insert 1 (2 ^ 63 - 1) else ∅

/-- A pool with the spend that pays less. -/
def spentPool (prioritise : Bool) : CTxMemPool :=
  ({ mapDeltas := storedDeltas prioritise } : CTxMemPool).addUnchecked 1 lowFeeEntry ∅

/-- The other spend pays more, or less if the entry in the pool is prioritised. -/
def replacementTx (prioritise : Bool) : CTransaction :=
  spendAnyone (if prioritise then 910000000 else 500000000) [0x51]

/-- A call that does not trim the pool. -/
def anyoneContext : AcceptContext := { fOverrideMempoolLimit := true }

section Anyone

variable (prioritise : Bool)

theorem spentPool_adds :
    Adds 1 lowFeeEntry { mapDeltas := storedDeltas prioritise } (spentPool prioritise) :=
  adds_addUnchecked _ lowFeeEntry (by simp) ∅

theorem spentPool_ok : PoolOk anyoneEnv (spentPool prioritise) := by
  have adds := spentPool_adds prioritise
  have new : Newcomer { mapDeltas := storedDeltas prioritise } 1 lowFeeEntry.tx := by
    refine ⟨by simp, ?_, by decide⟩
    intro id d hd
    cases hd
  refine ⟨spentOk_empty.adds (by decide +kernel) (dataAt_empty 1) (by simp) adds,
    linksOk_empty.adds new adds,
    totalsOk_empty.adds new (CTxMemPoolEntry.alone_new _ _ _ _ _ _) ?_⟩
  intro z
  refine iff_of_false ExtTreeSet.not_mem_empty ?_
  rintro ⟨p, ⟨hp, -⟩, -⟩
  cases hp

theorem spentPool_data (id : Uint256) :
    (spentPool prioritise).dataAt id = if id = 1 then
      some (prioritised { mapDeltas := storedDeltas prioritise } 1 lowFeeEntry).toEntryData
      else none := by
  rw [(spentPool_adds prioritise).data, dataAt_empty]

/-- The other spend is accepted. -/
theorem replacementTx_accepted : ∃ accepted,
    checkAccept anyoneEnv anyoneContext anyoneState (spentPool prioritise)
      (replacementTx prioritise) = .ok accepted :=
  exists_of_isOk (by cases prioritise <;> decide +kernel)

theorem replacementTx_conflicts :
    (spentPool prioritise).ConflictsWith (replacementTx prioritise) 1 := by
  refine ⟨_, List.mem_cons_self, _, (spentPool_data prioritise 1).trans (if_pos rfl), ?_⟩
  rw [prioritised_tx]
  exact List.mem_cons_self

theorem replacementTx_stored : ∃ pool', acceptToMemoryPool anyoneEnv anyoneContext anyoneState
    (spentPool prioritise) (replacementTx prioritise) = (.ok (), pool') := by
  obtain ⟨accepted, haccept⟩ := replacementTx_accepted prioritise
  rw [acceptToMemoryPool, haccept]
  exact ⟨_, rfl⟩

theorem spentPool_conflictingFees :
    (spentPool prioritise).conflictingFees (replacementTx prioritise) =
      100000000 + if prioritise then 2 ^ 63 - 1 else 0 := by
  classical
  have hnodes : ((spentPool prioritise).graph.nodes.filter fun z => ∃ x,
      (spentPool prioritise).ConflictsWith (replacementTx prioritise) x ∧
        (spentPool prioritise).graph.Above x z) = {1} := by
    ext z
    rw [Finset.mem_filter, mem_nodes, spentPool_data, Finset.mem_singleton]
    constructor
    · rintro ⟨hz, -⟩
      by_contra hne
      rw [if_neg hne] at hz
      cases hz
    · rintro rfl
      exact ⟨by simp, 1, replacementTx_conflicts prioritise, .refl⟩
  rw [conflictingFees, Finset.sum_congr hnodes fun _ _ => rfl, Finset.sum_singleton, valueAt,
    spentPool_data]
  cases prioritise <;> decide +kernel

end Anyone

theorem replacement_pays_for_evicted_anyone :
    ∃ accepted, checkAccept anyoneEnv anyoneContext anyoneState (spentPool false)
        (replacementTx false) = .ok accepted ∧
      Evicts (spentPool false) (replacementTx false) accepted ∧
      Pays anyoneEnv anyoneContext (spentPool false) (replacementTx false) accepted 500000000 := by
  have hfee : newModifiedFee anyoneEnv anyoneState (spentPool false) (replacementTx false) =
      500000000 := by
    decide +kernel
  have fit : FeesFit anyoneEnv anyoneState (spentPool false) (replacementTx false) := by
    refine ⟨by rw [spentPool_conflictingFees]; decide, ?_, by rw [hfee]; decide⟩
    intro z d _ hd
    rw [spentPool_data] at hd
    split at hd
    · cases hd
      decide +kernel
    · cases hd
  obtain ⟨pool', hresult⟩ := replacementTx_stored false
  obtain ⟨accepted, haccept, -, evicts, hpays, -⟩ :=
    replacement_pays_for_evicted (spentPool_ok false) hresult ⟨1, replacementTx_conflicts false⟩
  exact ⟨accepted, haccept, evicts, hfee ▸ hpays fit⟩

/-- The sum of what goes wraps around: the largest delta is evicted for a small fee. -/
theorem prioritised_conflict_underpaid :
    PoolOk anyoneEnv (spentPool true) ∧
      (spentPool true).ConflictsWith (replacementTx true) 1 ∧
      (spentPool true).conflictingFees (replacementTx true) = 2 ^ 63 + 99999999 ∧
      newModifiedFee anyoneEnv anyoneState (spentPool true) (replacementTx true) = 90000000 ∧
      ∃ accepted, acceptToMemoryPool anyoneEnv anyoneContext anyoneState (spentPool true)
          (replacementTx true) = (.ok (), (spentPool true).store 2 accepted) ∧
        ¬ Pays anyoneEnv anyoneContext (spentPool true) (replacementTx true) accepted 90000000 := by
  obtain ⟨accepted, haccept⟩ := replacementTx_accepted true
  have conflicts := replacementTx_conflicts true
  have replaces := replaces_of_checkAccept (spentPool_ok true) haccept ⟨1, conflicts⟩
  have hhash : anyoneEnv.txHash (replacementTx true) = 2 := by decide +kernel
  have htotal : (spentPool true).conflictingFees (replacementTx true) = 2 ^ 63 + 99999999 :=
    spentPool_conflictingFees true
  refine ⟨spentPool_ok true, conflicts, htotal, by decide +kernel, accepted, ?_, ?_⟩
  · rw [acceptToMemoryPool, haccept, hhash]
    rfl
  · intro pays
    have hpays := pays.pays
    rw [replaces.evicted, htotal] at hpays
    revert hpays
    decide

end KubuCore.Mempool
