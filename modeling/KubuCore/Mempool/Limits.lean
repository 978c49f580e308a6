import KubuCore.Mempool.Replacement

/-!
# Package limits

`CalculateMemPoolAncestors` compares its limits while it walks: the pending and
the visited entries with the limit on ancestors, and the cached totals of every
visited entry with the limits on descendants. As the totals are exact, no entry
of the pool ever exceeds a limit.
-/

namespace KubuCore.Mempool

open Chain
open Checked
open Lineage
open Sets
open Std

namespace CTxMemPool

variable {pool pool' : CTxMemPool} {limits : AncestorLimits}

/-! ## The walk -/

/-- What the walk has compared so far. -/
structure Walked (pool : CTxMemPool) (limits : AncestorLimits) (entrySize : Int)
    (stage done : SetEntries) (total : Int) : Prop where
  apart : ∀ x ∈ stage, x ∉ done
  count : exceeds (stage.size + done.size + 1) limits.limitAncestorCount = false
  sum : total = entrySize + ∑ a ∈ done.toList.toFinset, pool.valueAt EntryData.nTxSize a
  size : (∃ a, a ∈ done) → exceeds total limits.limitAncestorSize = false
  room : ∀ a ∈ done, ∀ e, pool.mapTx[a]? = some e →
    exceeds (e.nSizeWithDescendants + entrySize) limits.limitDescendantSize = false ∧
      exceeds (e.nCountWithDescendants + 1) limits.limitDescendantCount = false

theorem exceeds_some {value : Int} {limit : Nat} :
    exceeds value (some limit) = false ↔ value ≤ limit := by
  simp [exceeds]

variable {set done stage : SetEntries} {x : Uint256} {entrySize : Int}

theorem stageParents_count {stage' : SetEntries} {ys : List Uint256} (apart : ∀ x ∈ stage, x ∉ done)
    (count : exceeds (stage.size + done.size + 1) limits.limitAncestorCount = false)
    (h : ys.foldlM (stageParent limits done) stage = .ok stage') :
    (∀ x ∈ stage', x ∉ done) ∧
      exceeds (stage'.size + done.size + 1) limits.limitAncestorCount = false := by
  induction ys generalizing stage with
  | nil =>
    cases h
    exact ⟨apart, count⟩
  | cons y ys ih =>
    simp only [List.foldlM_cons, stageParent, eq_ok] at h
    obtain ⟨_, ⟨-, hcount, rfl⟩, hrest⟩ := h
    refine ih ?_ (by simpa using hcount) hrest
    split
    · exact apart
    · rename_i hy
      intro x hx
      rcases mem_insert_iff.mp hx with rfl | hx
      · exact hy
      · exact apart x hx

theorem size_insert_of_apart (hx : x ∉ set) : (set.insert x).size = set.size + 1 := by
  rw [ExtTreeSet.size_insert, if_neg (mt ExtTreeSet.mem_iff_contains.mpr hx)]

theorem size_erase_of_mem (hx : x ∈ set) : (set.erase x).size + 1 = set.size := by
  have hpos : 0 < set.size := by
    refine Nat.pos_of_ne_zero fun hzero => ?_
    rw [← ExtTreeSet.eq_empty_iff_size_eq_zero] at hzero
    rw [hzero] at hx
    exact ExtTreeSet.not_mem_empty hx
  rw [ExtTreeSet.size_erase, if_pos (ExtTreeSet.mem_iff_contains.mp hx)]
  omega

theorem toFinset_insert (set : SetEntries) (x : Uint256) :
    (set.insert x).toList.toFinset = insert x set.toList.toFinset := by
  ext z
  rw [Finset.mem_insert, mem_toFinset, mem_toFinset, mem_insert_iff]

/-- The loop keeps what it has compared. -/
theorem ancestorLoop_walked {total : Int} {fuel : Nat} {result : SetEntries}
    (walked : Walked pool limits entrySize stage done total)
    (h : pool.ancestorLoop limits entrySize fuel stage done total = .ok result) :
    ∃ stage' total', Walked pool limits entrySize stage' result total' := by
  induction fuel generalizing stage done total with
  | zero =>
    cases h
    exact ⟨stage, total, walked⟩
  | succ fuel ih =>
    rw [ancestorLoop] at h
    cases hmin : first? stage with
    | none =>
      rw [hmin] at h
      cases h
      exact ⟨stage, total, walked⟩
    | some x =>
      simp only [hmin, eq_ok] at h
      obtain ⟨-, hsize, -, hcount, -, htotal, stage', hstage, hrest⟩ := h
      have hx := mem_of_first? hmin
      have hdone := walked.apart x hx
      have apart : ∀ z ∈ stage.erase x, z ∉ done.insert x := by
        intro z hz hmem
        obtain ⟨hne, hz⟩ := mem_erase_iff.mp hz
        exact walked.apart z hz ((mem_insert_iff.mp hmem).resolve_left hne)
      have hsum : ((stage.erase x).size : Int) + (done.insert x).size + 1 =
          stage.size + done.size + 1 := by
        have hins := size_insert_of_apart hdone
        have hers := size_erase_of_mem hx
        omega
      obtain ⟨apart', count'⟩ := stageParents_count apart (hsum ▸ walked.count) hstage
      refine ih ⟨apart', count', ?_, ?_, ?_⟩ hrest
      · rw [toFinset_insert, Finset.sum_insert fun hmem => hdone (mem_toFinset.mp hmem),
          valueAt_eq, walked.sum]
        ring
      · simpa using htotal
      · intro a ha e he
        rcases mem_insert_iff.mp ha with rfl | ha
        · rw [he] at hsize hcount
          exact ⟨by simpa using hsize, by simpa using hcount⟩
        · exact walked.room a ha e he

theorem searchParents_count {vin : List CTxIn} {set' : SetEntries}
    (count : exceeds (set.size + 1) limits.limitAncestorCount = false)
    (h : pool.searchParents limits set vin = .ok set') :
    exceeds (set'.size + 1) limits.limitAncestorCount = false := by
  induction vin generalizing set with
  | nil =>
    cases h
    exact count
  | cons txin vin ih =>
    rw [searchParents] at h
    split at h
    · simp only [eq_ok] at h
      obtain ⟨-, hcount, h⟩ := h
      exact ih (by simpa using hcount) h
    · exact ih count h

/-- The comparisons behind the set that `CalculateMemPoolAncestors` returns. -/
theorem calculateMemPoolAncestors_walked {tx : CTransaction} {setAncestors : SetEntries}
    (positive : exceeds 1 limits.limitAncestorCount = false)
    (h : pool.calculateMemPoolAncestors limits tx entrySize = .ok setAncestors) :
    ∃ stage total, Walked pool limits entrySize stage setAncestors total := by
  simp only [calculateMemPoolAncestors, bind_eq_ok] at h
  obtain ⟨parentHashes, hparents, hloop⟩ := h
  have hstart : exceeds ((∅ : SetEntries).size + 1) limits.limitAncestorCount = false := by
    simpa using positive
  have hcount := searchParents_count hstart hparents
  have hempty : (∅ : SetEntries).toList.toFinset = ∅ := by
    refine Finset.eq_empty_of_forall_notMem fun x hx => ?_
    exact ExtTreeSet.not_mem_empty (mem_toFinset.mp hx)
  refine ancestorLoop_walked ⟨?_, ?_, ?_, ?_, ?_⟩ hloop
  · exact fun x _ hx => ExtTreeSet.not_mem_empty hx
  · simpa using hcount
  · rw [hempty, Finset.sum_empty, add_zero]
  · rintro ⟨a, ha⟩
    exact absurd ha ExtTreeSet.not_mem_empty
  · exact fun a ha => absurd ha ExtTreeSet.not_mem_empty

end CTxMemPool

/-! ## Packages of the pool -/

/-- Fixed limits; none is zero. -/
structure PackageLimits where
  limitAncestorCount : Nat
  limitAncestorSize : Nat
  limitDescendantCount : Nat
  limitDescendantSize : Nat
  positive : 0 < limitAncestorCount ∧ 0 < limitAncestorSize ∧ 0 < limitDescendantCount ∧
    0 < limitDescendantSize

def PackageLimits.toLimits (limits : PackageLimits) : AncestorLimits where
  limitAncestorCount := some limits.limitAncestorCount
  limitAncestorSize := some limits.limitAncestorSize
  limitDescendantCount := some limits.limitDescendantCount
  limitDescendantSize := some limits.limitDescendantSize

namespace CTxMemPool

/-- An entry with its relatives on one side; the size counts when there are others. -/
structure Fits (pool : CTxMemPool) (it : Uint256) (ids : Finset Uint256)
    (limitCount limitSize : Nat) : Prop where
  count : ids.card ≤ limitCount
  size : (∃ z ∈ ids, z ≠ it) → pool.sizeOf ids ≤ limitSize

/-- The pool is consistent, and every entry keeps to the limits. -/
structure Limited (limits : PackageLimits) (pool : CTxMemPool) : Prop where
  links : LinksOk pool
  totals : TotalsOk pool
  spenders : ∀ o id, pool.mapNextTx[o]? = some id → pool.Spends id o
  sizes : ∀ id d, pool.dataAt id = some d → 0 ≤ d.nTxSize
  ancestors : ∀ id ∈ pool.graph.nodes, pool.Fits id (pool.graph.lineage id)
    limits.limitAncestorCount limits.limitAncestorSize
  descendants : ∀ id ∈ pool.graph.nodes, pool.Fits id (pool.graph.progeny id)
    limits.limitDescendantCount limits.limitDescendantSize

variable {pool pool' : CTxMemPool} {limits : PackageLimits}

theorem valueAt_nonneg (sizes : ∀ id d, pool.dataAt id = some d → 0 ≤ d.nTxSize) (id : Uint256) :
    0 ≤ pool.valueAt EntryData.nTxSize id := by
  rw [valueAt]
  cases hd : pool.dataAt id with
  | none => exact le_rfl
  | some d => exact sizes id d hd

theorem sizeOf_le (sizes : ∀ id d, pool.dataAt id = some d → 0 ≤ d.nTxSize)
    {ids ids' : Finset Uint256} (sub : ids' ⊆ ids)
    (data : ∀ id ∈ ids', pool'.dataAt id = pool.dataAt id) : pool'.sizeOf ids' ≤ pool.sizeOf ids := by
  have hsame : pool'.sizeOf ids' = pool.sizeOf ids' :=
    Finset.sum_congr rfl fun id hid => by rw [valueAt, data id hid, valueAt]
  rw [hsame]
  exact Finset.sum_le_sum_of_subset_of_nonneg sub fun id _ _ => valueAt_nonneg sizes id

/-- Fewer relatives fit as well. -/
theorem Fits.subset {it : Uint256} {ids ids' : Finset Uint256} {limitCount limitSize : Nat}
    (fits : pool.Fits it ids limitCount limitSize)
    (sizes : ∀ id d, pool.dataAt id = some d → 0 ≤ d.nTxSize) (sub : ids' ⊆ ids)
    (data : ∀ id ∈ ids', pool'.dataAt id = pool.dataAt id) :
    pool'.Fits it ids' limitCount limitSize where
  count := (Finset.card_le_card sub).trans fits.count
  size := by
    rintro ⟨z, hz, hne⟩
    exact (sizeOf_le sizes sub data).trans (fits.size ⟨z, sub hz, hne⟩)

/-- There is room for an entry of this size below these ancestors. -/
structure Room (pool : CTxMemPool) (limits : PackageLimits) (entrySize : Int)
    (ancestors : Finset Uint256) : Prop where
  count : ancestors.card + 1 ≤ limits.limitAncestorCount
  size : ancestors.Nonempty → entrySize + pool.sizeOf ancestors ≤ limits.limitAncestorSize
  countBelow : ∀ a ∈ ancestors, (pool.graph.progeny a).card + 1 ≤ limits.limitDescendantCount
  sizeBelow : ∀ a ∈ ancestors,
    pool.sizeOf (pool.graph.progeny a) + entrySize ≤ limits.limitDescendantSize

/-- A walk that succeeds has found room. -/
theorem room_of_walk (links : LinksOk pool) (totals : TotalsOk pool) {tx : CTransaction}
    {entrySize : Int} {setAncestors : SetEntries}
    (h : pool.calculateMemPoolAncestors limits.toLimits tx entrySize = .ok setAncestors) :
    Room pool limits entrySize setAncestors.toList.toFinset := by
  have positive : exceeds 1 limits.toLimits.limitAncestorCount = false := by
    refine exceeds_some.mpr ?_
    have hpos := limits.positive.1
    omega
  obtain ⟨stage, total, walked⟩ := calculateMemPoolAncestors_walked positive h
  have hentry : ∀ a ∈ setAncestors.toList.toFinset, a ∈ setAncestors ∧
      ∃ e, pool.mapTx[a]? = some e := by
    intro a ha
    have ha := mem_toFinset.mp ha
    obtain ⟨p, hp, path⟩ := (mem_calculateMemPoolAncestors links h).mp ha
    have hin := mem_nodes.mp (path.mem (mem_nodes.mpr hp.1))
    rw [dataAt, Option.isSome_map] at hin
    exact ⟨ha, Option.isSome_iff_exists.mp hin⟩
  refine ⟨?_, ?_, ?_, ?_⟩
  · have hcount := exceeds_some.mp walked.count
    rw [card_toFinset]
    omega
  · rintro ⟨a, ha⟩
    have hsize := exceeds_some.mp (walked.size ⟨a, (hentry a ha).1⟩)
    rw [walked.sum] at hsize
    exact hsize
  · intro a ha
    obtain ⟨ha, e, he⟩ := hentry a ha
    have hcount := exceeds_some.mp (walked.room a ha e he).2
    rw [(totals.descendantTotals he).1] at hcount
    omega
  · intro a ha
    obtain ⟨ha, e, he⟩ := hentry a ha
    have hsize := exceeds_some.mp (walked.room a ha e he).1
    rwa [(totals.descendantTotals he).2] at hsize

/-! ## Steps -/

variable {S : Set Uint256}

theorem spenders_drops (spenders : ∀ o id, pool.mapNextTx[o]? = some id → pool.Spends id o)
    (drops : Drops S pool pool') (o : COutPoint) (id : Uint256)
    (h : pool'.mapNextTx[o]? = some id) : pool'.Spends id o := by
  have hkept : ∀ s ∈ S, ¬ pool.Spends s o := by
    intro s hs hspends
    rw [drops.freed o s hs hspends] at h
    cases h
  rw [drops.kept o hkept] at h
  have hspends := spenders o id h
  exact (Spends.congr (drops.stays id fun hS => hkept id hS hspends)).mpr hspends

theorem sizes_drops (sizes : ∀ id d, pool.dataAt id = some d → 0 ≤ d.nTxSize)
    (drops : Drops S pool pool') (id : Uint256) (d : EntryData) (hd : pool'.dataAt id = some d) :
    0 ≤ d.nTxSize := by
  by_cases hS : id ∈ S
  · rw [drops.gone id hS] at hd
    cases hd
  · rw [drops.stays id hS] at hd
    exact sizes id d hd

theorem data_of_node (drops : Drops S pool pool') {id : Uint256}
    (hid : id ∈ pool'.graph.nodes) : id ∉ S ∧ pool'.dataAt id = pool.dataAt id := by
  have hS := ((nodes_drops drops id).mp hid).2
  exact ⟨hS, drops.stays id hS⟩

theorem above_drops (drops : Drops S pool pool') {a z : Uint256} (path : pool'.graph.Above a z) :
    pool.graph.Above a z :=
  Relation.ReflTransGen.mono (fun p c hedge => ((parentOf_drops drops p c).mp hedge).1) a z path

theorem progeny_drops (drops : Drops S pool pool') (a : Uint256) :
    pool'.graph.progeny a ⊆ pool.graph.progeny a := by
  intro d hd
  obtain ⟨hd, path⟩ := (Graph.mem_progeny _).mp hd
  exact (Graph.mem_progeny _).mpr ⟨((nodes_drops drops d).mp hd).1, above_drops drops path⟩

/-! ## A replacement -/

/-- Room that was found before entries with all their descendants went. -/
theorem Room.cut {entrySize : Int} {ancestors : Finset Uint256}
    (room : Room pool limits entrySize ancestors)
    (sizes : ∀ id d, pool.dataAt id = some d → 0 ≤ d.nTxSize) {S : Set Uint256}
    (drops : Drops S pool pool') (apart : ∀ a ∈ ancestors, a ∉ S) :
    Room pool' limits entrySize ancestors := by
  have hprogeny := progeny_drops drops
  refine ⟨room.count, ?_, ?_, ?_⟩
  · intro hne
    have hle := sizeOf_le sizes (Finset.Subset.refl _) fun a ha => drops.stays a (apart a ha)
    have hroom := room.size hne
    omega
  · intro a ha
    have hcard := Finset.card_le_card (hprogeny a)
    have hroom := room.countBelow a ha
    omega
  · intro a ha
    have hle :=
      sizeOf_le sizes (hprogeny a) fun d hd => (data_of_node drops ((Graph.mem_progeny _).mp hd).1).2
    have hroom := room.sizeBelow a ha
    omega

/-- The ancestors found before the eviction are those after it. -/
theorem ancestors_after_eviction {env : Env} {ctx : AcceptContext} {state : ChainState}
    {tx : CTransaction} {view : CoinsView} {setConflicts : SetEntries} {accepted : Accepted}
    (links : LinksOk pool) (policed : Policed env ctx state pool tx view setConflicts accepted)
    (z : Uint256) :
    z ∈ accepted.setAncestors ↔
      ∃ p ∈ (pool.removeStaged accepted.allConflicting false).SpendsFrom tx,
        (pool.removeStaged accepted.allConflicting false).graph.Above z p := by
  have drops := drops_removeStaged pool accepted.allConflicting false
  have cuts := cuts_removeStaged (evicted_closed links policed)
  rw [mem_calculateMemPoolAncestors links policed.ancestors]
  constructor
  · rintro ⟨p, hp, path⟩
    have hstays : p ∉ accepted.allConflicting :=
      fun hmem => evicted_notAncestor links policed hmem ⟨p, hp, .refl⟩
    refine ⟨p, ⟨?_, hp.2⟩, (cuts.above hstays).mpr path⟩
    rw [drops.stays p hstays]
    exact hp.1
  · rintro ⟨p, hp, path⟩
    obtain ⟨hstays, hdata⟩ := data_of_node drops (mem_nodes.mpr hp.1)
    refine ⟨p, ⟨?_, hp.2⟩, (cuts.above hstays).mp path⟩
    rw [← hdata]
    exact hp.1

/-! ## A connected block -/

theorem mem_spendersOf {hash : Uint256} {vout : List CTxOut} {z : Uint256}
    (hz : z ∈ pool.spendersOf hash vout) : ∃ o : COutPoint, pool.mapNextTx[o]? = some z := by
  -- The loop keeps: what it has collected spends some outpoint.
  refine List.foldlRecOn (motive := fun set : SetEntries =>
    z ∈ set → ∃ o : COutPoint, pool.mapNextTx[o]? = some z) _ _ ?_ ?_ hz
  · exact fun h => absurd h ExtTreeSet.not_mem_empty
  · intro set hset i _
    split
    · rename_i next hnext
      intro hz
      rcases mem_insert_iff.mp hz with rfl | hz
      · exact ⟨_, hnext⟩
      · exact hset hz
    · exact hset

/-- Every parent in the pool of a transaction of the block comes before it. -/
def ParentsFirst (env : Env) (pool : CTxMemPool) (vtx : List CTransaction) : Prop :=
  ∀ before tx after, vtx = before ++ tx :: after →
    ∀ p, pool.ParentOf p (env.txHash tx) → p ∈ before.map env.txHash

theorem gone_removeForTx (env : Env) (pool : CTxMemPool) (tx : CTransaction) :
    (removeForTx env pool tx).dataAt (env.txHash tx) = none := by
  have hstays : ∀ {pool pool' : CTxMemPool}, Shrinks pool pool' →
      pool.dataAt (env.txHash tx) = none → pool'.dataAt (env.txHash tx) = none := by
    rintro pool pool' ⟨S, drops⟩ hnone
    by_cases hS : env.txHash tx ∈ S
    · exact drops.gone _ hS
    · rw [drops.stays _ hS, hnone]
  refine hstays ((Shrinks.foldl (shrinks_removeConflict _) tx.vin _).trans
    (shrinks_clearPrioritisation _ _)) ?_
  split
  · exact (drops_removeStaged pool _ true).gone _ (mem_insert_iff.mpr (.inl rfl))
  · rename_i hout
    rw [existsTx_eq] at hout
    simpa using hout

/-! ## What keeps the limits -/

section

variable (ok : Limited limits pool)
include ok

/-- A removal that leaves consistent links and totals leaves every package smaller. -/
theorem Limited.drops (drops : Drops S pool pool')
    (links : LinksOk pool') (totals : TotalsOk pool') : Limited limits pool' := by
  have hnode : ∀ id ∈ pool'.graph.nodes, id ∈ pool.graph.nodes :=
    fun id hid => ((nodes_drops drops id).mp hid).1
  refine ⟨links, totals, spenders_drops ok.spenders drops, sizes_drops ok.sizes drops, ?_, ?_⟩
  · intro id hid
    refine (ok.ancestors id (hnode id hid)).subset ok.sizes ?_ ?_
    · intro a ha
      obtain ⟨ha, path⟩ := (Graph.mem_lineage _).mp ha
      exact (Graph.mem_lineage _).mpr ⟨hnode a ha, above_drops drops path⟩
    · intro a ha
      exact (data_of_node drops ((Graph.mem_lineage _).mp ha).1).2
  · intro id hid
    refine (ok.descendants id (hnode id hid)).subset ok.sizes (progeny_drops drops id) ?_
    intro d hd
    exact (data_of_node drops ((Graph.mem_progeny _).mp hd).1).2

theorem Limited.cut {stage : SetEntries} (inside : ∀ r ∈ stage, (pool.dataAt r).isSome)
    (closed : ∀ p c, pool.ParentOf p c → p ∈ stage → c ∈ stage) :
    Limited limits (pool.removeStaged stage false) :=
  ok.drops (drops_removeStaged pool stage false) (ok.links.removeStaged inside)
    (ok.totals.cut ok.links inside closed)

theorem Limited.removeRoot {it : Uint256}
    (hit : (pool.dataAt it).isSome) (root : ∀ p, ¬ pool.ParentOf p it) :
    Limited limits (pool.removeStaged ((∅ : SetEntries).insert it) true) := by
  refine ok.drops (drops_removeStaged pool _ true) (ok.links.removeStaged ?_)
    (ok.totals.removeRoot ok.links hit root)
  intro r hr
  rcases mem_insert_iff.mp hr with rfl | hr
  · exact hit
  · exact absurd hr ExtTreeSet.not_mem_empty

/-- A new entry that has room keeps the limits. -/
theorem Limited.add {hash : Uint256} {entry : CTxMemPoolEntry}
    (new : Newcomer pool hash entry.tx) (alone : entry.Alone) (size : 0 ≤ entry.nTxSize)
    {setAncestors : SetEntries}
    (ancestors : ∀ z, z ∈ setAncestors ↔ ∃ p ∈ pool.SpendsFrom entry.tx, pool.graph.Above z p)
    (room : Room pool limits entry.nTxSize setAncestors.toList.toFinset) :
    Limited limits (pool.addUnchecked hash entry setAncestors) := by
  have adds := adds_addUnchecked pool entry new.fresh setAncestors
  have links := ok.links.adds new adds
  have totals := ok.totals.adds new alone ancestors
  have leaf := adds.leaf new
  generalize pool.addUnchecked hash entry setAncestors = pool' at *
  have hown : pool'.valueAt EntryData.nTxSize hash = entry.nTxSize := by
    rw [valueAt, adds.data, if_pos rfl, Option.map_some, prioritised]
    split <;> rfl
  have hold : ∀ id ∈ pool.graph.nodes, pool'.dataAt id = pool.dataAt id := fun id => adds.stays new
  have hsizeOf : ∀ ids : Finset Uint256, (∀ z ∈ ids, z ∈ pool.graph.nodes) →
      pool'.sizeOf ids = pool.sizeOf ids := by
    intro ids hids
    exact Finset.sum_congr rfl fun z hz => by rw [valueAt, hold z (hids z hz), valueAt]
  have hset := mem_nodes_of_ancestors ancestors
  have hprogeny : ∀ id, ∀ z ∈ pool.graph.progeny id, z ∈ pool.graph.nodes :=
    fun id z hz => ((Graph.mem_progeny _).mp hz).1
  refine ⟨links, totals, ?_, ?_, ?_, ?_⟩
  · intro o id h
    rw [adds.next] at h
    split at h
    · rename_i ho
      cases h
      refine ⟨_, by rw [adds.data, if_pos rfl], ?_⟩
      rw [prioritised_tx]
      exact ho.1
    · have hspends := ok.spenders o id h
      have hid : id ∈ pool.graph.nodes := by
        obtain ⟨d, hd, -⟩ := hspends
        rw [mem_nodes, hd]
        rfl
      exact (Spends.congr (hold id hid)).mpr hspends
  · intro id d hd
    rw [adds.data] at hd
    split at hd
    · cases hd
      rw [prioritised]
      split <;> exact size
    · exact ok.sizes id d hd
  · intro id hid
    rcases (leaf.nodes id).mp hid with rfl | hid
    · rw [leaf.lineage_new fun z => mem_toFinset.trans (ancestors z)]
      have hnot : id ∉ setAncestors.toList.toFinset := fun h => leaf.fresh (hset id h)
      refine ⟨?_, ?_⟩
      · rw [Finset.card_insert_of_notMem hnot]
        exact room.count
      · rintro ⟨z, hz, hne⟩
        have hz := (Finset.mem_insert.mp hz).resolve_left hne
        have hroom := room.size ⟨z, hz⟩
        rw [← hsizeOf _ hset] at hroom
        rw [sizeOf, Finset.sum_insert hnot, hown]
        exact hroom
    · rw [leaf.lineage_old hid]
      exact (ok.ancestors id hid).subset ok.sizes (Finset.Subset.refl _) fun a ha =>
        hold a ((Graph.mem_lineage _).mp ha).1
  · intro id hid
    rcases (leaf.nodes id).mp hid with rfl | hid
    · rw [leaf.progeny_new]
      refine ⟨limits.positive.2.2.1, ?_⟩
      rintro ⟨z, hz, hne⟩
      exact absurd (Finset.mem_singleton.mp hz) hne
    · by_cases habove : ∃ p ∈ pool.SpendsFrom entry.tx, pool.graph.Above id p
      · have hmem := mem_toFinset.mpr ((ancestors id).mpr habove)
        have hnot := leaf.notMem_progeny id
        rw [leaf.progeny_above habove]
        refine ⟨?_, fun _ => ?_⟩
        · rw [Finset.card_insert_of_notMem hnot]
          exact room.countBelow id hmem
        · have hroom := room.sizeBelow id hmem
          rw [← hsizeOf _ (hprogeny id)] at hroom
          rw [sizeOf, Finset.sum_insert hnot, hown, add_comm]
          exact hroom
      · rw [leaf.progeny_aside hid habove]
        exact (ok.descendants id hid).subset ok.sizes (Finset.Subset.refl _) fun d hd =>
          hold d (hprogeny id d hd)

/-- Storing an accepted transaction keeps the limits of its call. -/
theorem Limited.store {env : Env} {ctx : AcceptContext}
    {state : ChainState} {tx : CTransaction} {accepted : Accepted}
    (fixed : ctx.limits = limits.toLimits) (size : 0 ≤ ctx.getTxSize tx)
    (childless : ∀ id d, pool.dataAt id = some d →
      ∀ txin ∈ d.tx.vin, txin.prevout.hash ≠ env.txHash tx)
    (accept : checkAccept env ctx state pool tx = .ok accepted) :
    Limited limits (pool.store (env.txHash tx) accepted) := by
  obtain ⟨setConflicts, halone, hcoins, -, hpolicy⟩ := checkAccept_ok.mp accept
  have alone := checkAlone_spec halone
  have policed := checkPolicy_spec hpolicy
  have drops := drops_removeStaged pool accepted.allConflicting false
  have htx : accepted.entry.tx = tx := by rw [policed.entry]; rfl
  have hsize : accepted.entry.nTxSize = ctx.getTxSize tx := by rw [policed.entry]; rfl
  have walk := policed.ancestors
  rw [fixed] at walk
  have room := room_of_walk ok.links ok.totals walk
  have new : Newcomer (pool.removeStaged accepted.allConflicting false) (env.txHash tx)
      accepted.entry.tx := by
    refine ⟨?_, ?_, ?_⟩
    · have hnone :
          (pool.removeStaged accepted.allConflicting false).dataAt (env.txHash tx) = none := by
        by_cases hmem : env.txHash tx ∈ accepted.allConflicting
        · exact drops.gone _ hmem
        · rw [drops.stays _ hmem, alone.fresh]
      rwa [dataAt, Option.map_eq_none_iff] at hnone
    · intro id d hd
      have hid : id ∈ (pool.removeStaged accepted.allConflicting false).graph.nodes := by
        rw [mem_nodes, hd]
        rfl
      rw [(data_of_node drops hid).2] at hd
      exact childless id d hd
    · -- The inputs are known to the view, and the transaction is not.
      rw [htx]
      simp only [checkCoins, eq_ok] at hcoins
      obtain ⟨-, hunknown, -, hknown, -⟩ := hcoins
      intro txin htxin he
      have hsome := List.all_eq_true.mp hknown txin htxin
      rw [he, hunknown] at hsome
      cases hsome
  refine (ok.cut (evicted_inside ok.links policed) (evicted_closed ok.links policed)).add new ?_ ?_ ?_
    (room.cut ok.sizes drops ?_)
  · rw [policed.entry]
    exact CTxMemPoolEntry.alone_new _ _ _ _ _ _
  · rw [hsize]
    exact size
  · intro z
    rw [htx]
    exact ancestors_after_eviction ok.links policed z
  · intro a ha hmem
    exact evicted_notAncestor ok.links policed hmem
      ((mem_calculateMemPoolAncestors ok.links policed.ancestors).mp (mem_toFinset.mp ha))

theorem Limited.clearPrioritisation (hash : Uint256) :
    Limited limits (pool.clearPrioritisation hash) := by
  obtain ⟨S, drops⟩ := shrinks_clearPrioritisation pool hash
  exact ok.drops drops ⟨ok.links.keys, ok.links.parents, ok.links.children⟩
    ⟨ok.totals.descendants, ok.totals.ancestors⟩

/-- The descendants of entries go with them. -/
theorem Limited.removeAllDescendants {entries : SetEntries}
    (inside : ∀ x ∈ entries, (pool.dataAt x).isSome) :
    Limited limits (pool.removeStaged (pool.calculateAllDescendants entries) false) := by
  refine ok.cut ?_ ?_
  · intro r hr
    obtain ⟨x, hx, path⟩ := (mem_calculateAllDescendants_iff ok.links inside).mp hr
    exact mem_nodes.mp (path.mem_below (mem_nodes.mpr (inside x hx)))
  · intro p c hedge hp
    obtain ⟨x, hx, path⟩ := (mem_calculateAllDescendants_iff ok.links inside).mp hp
    exact (mem_calculateAllDescendants_iff ok.links inside).mpr ⟨x, hx, path.tail hedge⟩

theorem Limited.removeRecursive (hash : Uint256) (vout : List CTxOut) :
    Limited limits (pool.removeRecursive hash vout) := by
  refine ok.removeAllDescendants ?_
  intro x hx
  split at hx
  · rename_i hin
    rcases mem_insert_iff.mp hx with rfl | hx
    · rwa [existsTx_eq] at hin
    · exact absurd hx ExtTreeSet.not_mem_empty
  · obtain ⟨o, ho⟩ := mem_spendersOf hx
    obtain ⟨d, hd, -⟩ := ok.spenders o x ho
    rw [hd]
    rfl

theorem Limited.removeConflicts (hash : Uint256) (tx : CTransaction) :
    Limited limits (pool.removeConflicts hash tx) := by
  have hfold : ∀ (vin : List CTxIn) (pool : CTxMemPool), Limited limits pool →
      Limited limits (vin.foldl (removeConflict hash) pool) := by
    intro vin
    induction vin with
    | nil => exact fun _ ok => ok
    | cons txin vin ih =>
      intro pool ok
      refine ih _ ?_
      rw [removeConflict]
      split
      · split
        · exact (ok.clearPrioritisation _).removeRecursive _ _
        · exact ok
      · exact ok
  exact hfold tx.vin pool ok

theorem Limited.removeForTx {env : Env} {tx : CTransaction}
    (root : ∀ p, ¬ pool.ParentOf p (env.txHash tx)) :
    Limited limits (CTxMemPool.removeForTx env pool tx) := by
  refine (Limited.removeConflicts ?_ _ _).clearPrioritisation _
  split
  · rename_i hin
    rw [existsTx_eq] at hin
    exact ok.removeRoot hin root
  · exact ok

theorem Limited.removeForBlock {env : Env} {vtx : List CTransaction}
    (ordered : ParentsFirst env pool vtx) : Limited limits (pool.removeForBlock env vtx) := by
  induction vtx generalizing pool with
  | nil => exact ok
  | cons tx vtx ih =>
    have root : ∀ p, ¬ pool.ParentOf p (env.txHash tx) :=
      fun p hp => absurd (ordered [] tx vtx rfl p hp) List.not_mem_nil
    obtain ⟨S, drops⟩ := shrinks_removeForTx env pool tx
    refine ih (ok.removeForTx root) ?_
    intro before tx' after hsplit p hp
    have hbefore := ordered (tx :: before) tx' after (by rw [hsplit, List.cons_append]) p
      ((parentOf_drops drops _ _).mp hp).1
    rcases List.mem_cons.mp hbefore with rfl | hmem
    · -- The earlier transaction is gone, so it is nobody's parent any more.
      have hin := hp.1
      rw [gone_removeForTx] at hin
      cases hin
    · exact hmem

end

end CTxMemPool

/-! ## Histories -/

open CTxMemPool

/-- A change of the pool while no block is disconnected: a transaction that is added
is not spent by an entry, and the transactions of a block follow their parents. -/
inductive LimitedStep (env : Env) (limits : PackageLimits) (pool : CTxMemPool) :
    CTxMemPool → Prop where
  | add {hash : Uint256} {entry : CTxMemPoolEntry} {setAncestors : SetEntries}
      (new : Newcomer pool hash entry.tx) (alone : entry.Alone) (size : 0 ≤ entry.nTxSize)
      (walk : pool.calculateMemPoolAncestors limits.toLimits entry.tx entry.nTxSize =
        .ok setAncestors) :
      LimitedStep env limits pool (pool.addUnchecked hash entry setAncestors)
  | remove {stage : SetEntries} (inside : ∀ r ∈ stage, (pool.dataAt r).isSome)
      (closed : ∀ p c, pool.ParentOf p c → p ∈ stage → c ∈ stage) :
      LimitedStep env limits pool (pool.removeStaged stage false)
  | connect {vtx : List CTransaction} (ordered : ParentsFirst env pool vtx) :
      LimitedStep env limits pool (pool.removeForBlock env vtx)
  | replace {ctx : AcceptContext} {state : ChainState} {tx : CTransaction} {accepted : Accepted}
      (fixed : ctx.limits = limits.toLimits) (size : 0 ≤ ctx.getTxSize tx)
      (childless : ∀ id d, pool.dataAt id = some d →
        ∀ txin ∈ d.tx.vin, txin.prevout.hash ≠ env.txHash tx)
      (accept : checkAccept env ctx state pool tx = .ok accepted) :
      LimitedStep env limits pool (pool.store (env.txHash tx) accepted)

inductive LimitedReachable (env : Env) (limits : PackageLimits) : CTxMemPool → Prop where
  | start : LimitedReachable env limits {}
  | next {pool pool' : CTxMemPool} : LimitedReachable env limits pool →
      LimitedStep env limits pool pool' → LimitedReachable env limits pool'

variable {env : Env} {limits : PackageLimits} {pool pool' : CTxMemPool}

theorem limited_empty : Limited limits {} where
  links := linksOk_empty
  totals := totalsOk_empty
  spenders o id h := by simp at h
  sizes id d hd := by
    cases hd
  ancestors id hid := by
    cases hid
  descendants id hid := by
    cases hid

theorem LimitedStep.limited (step : LimitedStep env limits pool pool') (ok : Limited limits pool) :
    Limited limits pool' := by
  cases step with
  | add new alone size walk =>
    exact ok.add new alone size (fun z => mem_calculateMemPoolAncestors ok.links walk)
      (room_of_walk ok.links ok.totals walk)
  | remove inside closed => exact ok.cut inside closed
  | connect ordered => exact ok.removeForBlock ordered
  | replace fixed size childless accept => exact ok.store fixed size childless accept

theorem LimitedReachable.limited (h : LimitedReachable env limits pool) : Limited limits pool := by
  induction h with
  | start => exact limited_empty
  | next _ step ih => exact step.limited ih

/-- In every history without reorganisations, no entry has more ancestors or more
descendants than the limits say, or a larger package of them. -/
theorem package_limits_hold (h : LimitedReachable env limits pool) {id : Uint256}
    (hid : pool.existsTx id = true) :
    (pool.graph.lineage id).card ≤ limits.limitAncestorCount ∧
      (pool.graph.progeny id).card ≤ limits.limitDescendantCount ∧
      ((∃ a ∈ pool.graph.lineage id, a ≠ id) →
        pool.sizeOf (pool.graph.lineage id) ≤ limits.limitAncestorSize) ∧
      ((∃ d ∈ pool.graph.progeny id, d ≠ id) →
        pool.sizeOf (pool.graph.progeny id) ≤ limits.limitDescendantSize) := by
  have ok := h.limited
  rw [existsTx_eq, ← mem_nodes] at hid
  have up := ok.ancestors id hid
  have down := ok.descendants id hid
  exact ⟨up.count, down.count, up.size, down.size⟩

/-! ## A parent and its child -/

def pairLimits : PackageLimits := ⟨2, 200, 2, 200, by decide⟩

/-- A transaction that spends the output of the entry in the pool. -/
def childTx : CTransaction where
  nVersion := 1
  vin := [⟨⟨1, 0⟩, [], 0, []⟩]
  vout := [⟨800000000, [0x51]⟩]
  nLockTime := 0

def childEntry : CTxMemPoolEntry :=
  entryOf {} (coinsViewMemPool anyoneState.coins (spentPool false)) childTx

/-- What the walk over the ancestors of the child finds. -/
def childAncestors : SetEntries :=
  ((spentPool false).calculateMemPoolAncestors pairLimits.toLimits childEntry.tx
    childEntry.nTxSize).toOption.getD ∅

/-- The pool of the parent and its child, which reach the limits on their number. -/
def pairPool : CTxMemPool := (spentPool false).addUnchecked 2 childEntry childAncestors

theorem spentPool_limited : LimitedReachable anyoneEnv pairLimits (spentPool false) := by
  refine .next .start (.add ⟨by simp, ?_, by decide⟩ (CTxMemPoolEntry.alone_new _ _ _ _ _ _)
    (by decide +kernel) rfl)
  intro id d hd
  cases hd

theorem childEntry_walk :
    (spentPool false).calculateMemPoolAncestors pairLimits.toLimits childEntry.tx
      childEntry.nTxSize = .ok childAncestors := by
  obtain ⟨set, hset⟩ := exists_of_isOk (x := (spentPool false).calculateMemPoolAncestors
    pairLimits.toLimits childEntry.tx childEntry.nTxSize) (by decide +kernel)
  rw [childAncestors, hset]
  rfl

theorem childEntry_new : Newcomer (spentPool false) 2 childEntry.tx := by
  refine ⟨by decide +kernel, ?_, by decide⟩
  intro id d hd
  rw [spentPool_data] at hd
  split at hd
  · cases hd
    decide
  · cases hd

theorem pairPool_limited : LimitedReachable anyoneEnv pairLimits pairPool :=
  .next spentPool_limited (.add childEntry_new (CTxMemPoolEntry.alone_new _ _ _ _ _ _)
    (by decide +kernel) childEntry_walk)

/-- The child is below the parent and nothing else is below anything. -/
theorem pairPool_parentOf {p c : Uint256} (h : pairPool.ParentOf p c) : p = 1 ∧ c = 2 := by
  obtain ⟨hp, d, hd, txin, htxin, rfl⟩ := h
  have adds : Adds 2 childEntry (spentPool false) pairPool :=
    adds_addUnchecked _ childEntry childEntry_new.fresh _
  rw [adds.data] at hp hd
  split_ifs at hd with hc
  · cases hd
    rw [List.mem_singleton.mp htxin]
    exact ⟨rfl, hc⟩
  · rw [spentPool_data] at hd
    split at hd
    · cases hd
      rw [List.mem_singleton.mp htxin, spentPool_data] at hp
      cases hp
    · cases hd

theorem package_limits_hold_pair :
    LimitedReachable anyoneEnv pairLimits pairPool ∧ (pairPool.graph.progeny 1).card ≤ 2 :=
  ⟨pairPool_limited, (package_limits_hold pairPool_limited (by decide +kernel)).2.1⟩

end KubuCore.Mempool
