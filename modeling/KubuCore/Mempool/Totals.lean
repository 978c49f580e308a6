import KubuCore.Mempool.Graph

/-!
# Totals of the pool

The cached totals of an entry are the sums over its descendants and over its
ancestors, the entry included, and the links are those of the graph. Adding a
transaction that nothing in the pool spends keeps both, and so does removing
entries with all their descendants, or an entry without parents.
-/

namespace KubuCore.Mempool

open Lineage
open Sets

/-! ## Loads -/

/-- What an entry adds to the totals of its ancestors: count, size and fee. -/
def EntryData.descendantLoad (d : EntryData) : Int × Int × Int := (1, d.nTxSize, d.getModifiedFee)

/-- What an entry adds to the totals of its descendants. -/
def EntryData.ancestorLoad (d : EntryData) : Int × Int × Int × Int :=
  (1, d.nTxSize, d.getModifiedFee, d.sigOpCost)

namespace CTxMemPoolEntry

def withDescendants (e : CTxMemPoolEntry) : Int × Int × Int :=
  (e.nCountWithDescendants, e.nSizeWithDescendants, e.nModFeesWithDescendants)

def withAncestors (e : CTxMemPoolEntry) : Int × Int × Int × Int :=
  (e.nCountWithAncestors, e.nSizeWithAncestors, e.nModFeesWithAncestors, e.nSigOpCostWithAncestors)

/-- `UpdateDescendantState` with the three changes as one. -/
def addDescendants (load : Int × Int × Int) : CTxMemPoolEntry → CTxMemPoolEntry :=
  updateDescendantState load.2.1 load.2.2 load.1

def addAncestors (load : Int × Int × Int × Int) : CTxMemPoolEntry → CTxMemPoolEntry :=
  updateAncestorState load.2.1 load.2.2.1 load.1 load.2.2.2

variable (e : CTxMemPoolEntry)

@[simp] theorem withDescendants_addDescendants (load : Int × Int × Int) :
    (e.addDescendants load).withDescendants = e.withDescendants + load := rfl

@[simp] theorem withAncestors_addAncestors (load : Int × Int × Int × Int) :
    (e.addAncestors load).withAncestors = e.withAncestors + load := rfl

@[simp] theorem withDescendants_addAncestors (load : Int × Int × Int × Int) :
    (e.addAncestors load).withDescendants = e.withDescendants := rfl

/-- The totals of an entry that has no relatives. -/
structure Alone : Prop where
  descendants : e.withDescendants = e.descendantLoad
  ancestors : e.withAncestors = e.ancestorLoad

theorem alone_new (tx : CTransaction) (nFee : CAmount) (nTime nTxSize sigOpCost : Int)
    (spendsCoinbase : Bool) : (new tx nFee nTime nTxSize sigOpCost spendsCoinbase).Alone := by
  constructor <;>
    simp [new, withDescendants, withAncestors, EntryData.descendantLoad, EntryData.ancestorLoad,
      EntryData.getModifiedFee]

variable {e}

theorem Alone.updateFeeDelta (alone : e.Alone) (newFeeDelta : CAmount) :
    (e.updateFeeDelta newFeeDelta).Alone := by
  obtain ⟨hdesc, hanc⟩ := alone
  simp only [withDescendants, withAncestors, EntryData.descendantLoad, EntryData.ancestorLoad,
    EntryData.getModifiedFee, Prod.mk.injEq] at hdesc hanc
  constructor
  · simp only [CTxMemPoolEntry.updateFeeDelta, withDescendants, EntryData.descendantLoad,
      EntryData.getModifiedFee, Prod.mk.injEq]
    exact ⟨hdesc.1, hdesc.2.1, by linarith [hdesc.2.2]⟩
  · simp only [CTxMemPoolEntry.updateFeeDelta, withAncestors, EntryData.ancestorLoad,
      EntryData.getModifiedFee, Prod.mk.injEq]
    exact ⟨hanc.1, hanc.2.1, by linarith [hanc.2.2.1], hanc.2.2.2⟩

end CTxMemPoolEntry

namespace CTxMemPool

/-- The load of an entry; one that is not there has none. -/
def loadAt {M : Type} [Zero M] (pool : CTxMemPool) (load : EntryData → M) (id : Uint256) : M :=
  ((pool.dataAt id).map load).getD 0

/-- The totals are the sums over the relatives. -/
structure TotalsOk (pool : CTxMemPool) : Prop where
  descendants : ∀ id e, pool.mapTx[id]? = some e →
    e.withDescendants = ∑ d ∈ pool.graph.progeny id, pool.loadAt EntryData.descendantLoad d
  ancestors : ∀ id e, pool.mapTx[id]? = some e →
    e.withAncestors = ∑ a ∈ pool.graph.lineage id, pool.loadAt EntryData.ancestorLoad a

variable {pool pool' : CTxMemPool}

section

variable {id : Uint256} {e : CTxMemPoolEntry} (h : pool.mapTx[id]? = some e)
include h

theorem dataAt_of_mapTx : pool.dataAt id = some e.toEntryData := by
  rw [dataAt, h, Option.map_some]

theorem mem_nodes_of_mapTx : id ∈ pool.graph.nodes := by
  rw [mem_nodes, dataAt_of_mapTx h]
  rfl

end

theorem loadAt_congr {M : Type} [Zero M] {load : EntryData → M} {id : Uint256}
    (h : pool'.dataAt id = pool.dataAt id) : pool'.loadAt load id = pool.loadAt load id := by
  rw [loadAt, h, loadAt]

/-- A sum over the ids of a set. -/
theorem sum_toList {M : Type} [AddCommMonoid M] (set : SetEntries) (f : Uint256 → M) :
    (set.toList.map f).sum = ∑ id ∈ set.toList.toFinset, f id := by
  rw [List.sum_toFinset f (nodup_toList set)]

theorem mem_toFinset {set : SetEntries} {id : Uint256} :
    id ∈ set.toList.toFinset ↔ id ∈ set := by
  rw [List.mem_toFinset, Std.ExtTreeSet.mem_toList]

theorem card_toFinset (set : SetEntries) : set.toList.toFinset.card = set.size := by
  rw [List.toFinset_card_of_nodup (nodup_toList set), Std.ExtTreeSet.length_toList]

/-- The size of some entries together. -/
def sizeOf (pool : CTxMemPool) (ids : Finset Uint256) : Int :=
  ∑ id ∈ ids, pool.valueAt EntryData.nTxSize id

theorem TotalsOk.descendantTotals (totals : TotalsOk pool) {id : Uint256} {e : CTxMemPoolEntry}
    (he : pool.mapTx[id]? = some e) :
    e.nCountWithDescendants = (pool.graph.progeny id).card ∧
      e.nSizeWithDescendants = pool.sizeOf (pool.graph.progeny id) := by
  have hsum := totals.descendants id e he
  have hload : ∀ d ∈ pool.graph.progeny id, pool.loadAt EntryData.descendantLoad d =
      (1, pool.valueAt EntryData.nTxSize d, pool.valueAt EntryData.getModifiedFee d) := by
    intro d hd
    obtain ⟨data, hdata⟩ :=
      Option.isSome_iff_exists.mp (mem_nodes.mp ((Graph.mem_progeny _).mp hd).1)
    simp only [loadAt, valueAt, hdata]
    rfl
  rw [Finset.sum_congr rfl hload] at hsum
  simp only [Prod.ext_iff, Prod.fst_sum, Prod.snd_sum, Finset.sum_const, nsmul_eq_mul,
    mul_one] at hsum
  exact ⟨hsum.1, hsum.2.1⟩

/-! ## Adding -/

/-- A transaction that is not in the pool, and that no entry spends, nor itself. -/
structure Newcomer (pool : CTxMemPool) (hash : Uint256) (tx : CTransaction) : Prop where
  fresh : pool.mapTx[hash]? = none
  childless : ∀ id d, pool.dataAt id = some d → ∀ txin ∈ d.tx.vin, txin.prevout.hash ≠ hash
  notSelf : ∀ txin ∈ tx.vin, txin.prevout.hash ≠ hash

section Add

variable {hash : Uint256} {entry : CTxMemPoolEntry}

theorem Newcomer.absent {tx : CTransaction} (new : Newcomer pool hash tx) :
    pool.dataAt hash = none := by
  rw [dataAt, new.fresh, Option.map_none]

section

variable (new : Newcomer pool hash entry.tx) (h : Adds hash entry pool pool')
include new h

theorem Adds.parentOf (p c : Uint256) :
    pool'.ParentOf p c ↔ pool.ParentOf p c ∨ (c = hash ∧ p ∈ pool.SpendsFrom entry.tx) := by
  rw [ParentOf, ParentOf, h.data, h.data]
  by_cases hc : c = hash
  · subst hc
    simp only [if_true, Option.some.injEq, exists_eq_left', prioritised_tx, new.absent,
      reduceCtorEq, false_and, exists_false, and_false, false_or, true_and]
    constructor
    · rintro ⟨hp, txin, htxin, he⟩
      have hne : p ≠ c := he ▸ new.notSelf txin htxin
      rw [if_neg hne] at hp
      exact ⟨hp, txin, htxin, he⟩
    · rintro ⟨hp, txin, htxin, he⟩
      have hne : p ≠ c := he ▸ new.notSelf txin htxin
      rw [if_neg hne]
      exact ⟨hp, txin, htxin, he⟩
  · simp only [hc, false_and, or_false]
    refine and_congr_left ?_
    rintro ⟨d, hd, txin, htxin, rfl⟩
    rw [if_neg (new.childless c d hd txin htxin)]

/-- The graph of the pool gains a leaf. -/
theorem Adds.leaf :
    Graph.AddsLeaf hash (pool.SpendsFrom entry.tx) pool.graph pool'.graph where
  fresh := by
    rw [mem_nodes, new.absent]
    simp
  nodes z := by
    rw [mem_nodes, mem_nodes, h.data]
    by_cases hz : z = hash
    · simp [hz]
    · simp [hz]
  parents := h.parentOf new
  inside p hp := mem_nodes.mpr hp.1

theorem Adds.stays {id : Uint256} (hid : id ∈ pool.graph.nodes) :
    pool'.dataAt id = pool.dataAt id := by
  have hne : id ≠ hash := fun he => (h.leaf new).fresh (he ▸ hid)
  rw [h.data, if_neg hne]

end

theorem mem_nodes_of_ancestors {tx : CTransaction} {setAncestors : SetEntries}
    (ancestors : ∀ z, z ∈ setAncestors ↔ ∃ p ∈ pool.SpendsFrom tx, pool.graph.Above z p) :
    ∀ z ∈ setAncestors.toList.toFinset, z ∈ pool.graph.nodes := by
  intro z hz
  obtain ⟨p, hp, path⟩ := (ancestors z).mp (mem_toFinset.mp hz)
  exact path.mem (mem_nodes.mpr hp.1)

theorem LinksOk.adds (links : LinksOk pool) (new : Newcomer pool hash entry.tx)
    (h : Adds hash entry pool pool') : LinksOk pool' := by
  have keys : ∀ id, pool'.HasLinks id ↔ (pool'.dataAt id).isSome := by
    intro id
    rw [h.keys, h.data, links.keys]
    by_cases hid : id = hash
    · simp [hid]
    · simp [hid]
  have parents : ∀ c p, p ∈ pool'.getMemPoolParents c ↔ pool'.ParentOf p c := by
    intro c p
    rw [h.parents, h.parentOf new, links.parents]
    refine or_congr_right (and_congr_right fun _ => ?_)
    rw [existsTx_eq]
    constructor
    · rintro ⟨⟨txin, htxin, rfl⟩, hp⟩
      exact ⟨hp.resolve_left (new.notSelf txin htxin), txin, htxin, rfl⟩
    · rintro ⟨hp, hspends⟩
      exact ⟨hspends, .inr hp⟩
  refine ⟨keys, parents, ?_⟩
  intro p c
  rw [h.children, parents, keys, links.children, h.parentOf new, h.parentOf new]
  constructor
  · rintro (hold | ⟨hold | ⟨-, hp⟩, rfl, -⟩)
    · exact .inl hold
    · exact .inl hold
    · exact .inr ⟨rfl, hp⟩
  · rintro (hold | ⟨rfl, hp⟩)
    · exact .inl hold
    · refine .inr ⟨.inr ⟨rfl, hp⟩, rfl, ?_⟩
      rw [h.data]
      split
      · rfl
      · exact hp.1

theorem getElem?_updateAncestorsOf (pool : CTxMemPool) (add : Bool) (it : Uint256)
    (setAncestors : SetEntries) (id : Uint256) :
    (pool.updateAncestorsOf add it setAncestors).mapTx[id]? =
      if id ∈ setAncestors then pool.mapTx[id]?.map (CTxMemPoolEntry.addDescendants
        ((if add then 1 else -1 : Int), (if add then 1 else -1) * pool.valueAt EntryData.nTxSize it,
          (if add then 1 else -1) * pool.valueAt EntryData.getModifiedFee it))
      else pool.mapTx[id]? := by
  rw [updateAncestorsOf_eq, getElem?_modifyAll, (relinks_updateChildren _ add pool).entries]
  rfl

/-- The sums that a new entry gets from its ancestors. -/
theorem ancestorLoads_eq {set : SetEntries} (inside : ∀ a ∈ set, (pool.dataAt a).isSome)
    (data : ∀ a ∈ set, pool'.dataAt a = pool.dataAt a) :
    ((set.size : Int), pool'.sumOf set EntryData.nTxSize, pool'.sumOf set EntryData.getModifiedFee,
        pool'.sumOf set EntryData.sigOpCost) =
      ∑ a ∈ set.toList.toFinset, pool.loadAt EntryData.ancestorLoad a := by
  have hload : ∀ a ∈ set.toList.toFinset, pool.loadAt EntryData.ancestorLoad a =
      (1, pool'.valueAt EntryData.nTxSize a, pool'.valueAt EntryData.getModifiedFee a,
        pool'.valueAt EntryData.sigOpCost a) := by
    intro a ha
    have ha := mem_toFinset.mp ha
    obtain ⟨d, hd⟩ := Option.isSome_iff_exists.mp (inside a ha)
    simp only [loadAt, valueAt, data a ha, hd]
    rfl
  have hsum : ∀ value, pool'.sumOf set value =
      ∑ a ∈ set.toList.toFinset, pool'.valueAt value a := by
    intro value
    rw [sumOf, ← sum_toList]
    simp only [valueAt_eq]
  have hsize : (set.size : Int) = ∑ _a ∈ set.toList.toFinset, (1 : Int) := by
    rw [← sum_toList set fun _ => (1 : Int)]
    simp
  rw [Finset.sum_congr rfl hload, hsum, hsum, hsum, hsize]
  simp only [Prod.ext_iff, Prod.fst_sum, Prod.snd_sum, and_self]

/-- The entries after `addUnchecked`. -/
theorem getElem?_addUnchecked (fresh : pool.mapTx[hash]? = none) {setAncestors : SetEntries}
    (inside : ∀ a ∈ setAncestors, (pool.dataAt a).isSome) (id : Uint256) :
    (pool.addUnchecked hash entry setAncestors).mapTx[id]? =
      if id = hash then
        some ((pool.prioritised hash entry).addAncestors
          (∑ a ∈ setAncestors.toList.toFinset, pool.loadAt EntryData.ancestorLoad a))
      else if id ∈ setAncestors then
        pool.mapTx[id]?.map
          (CTxMemPoolEntry.addDescendants (pool.prioritised hash entry).descendantLoad)
      else pool.mapTx[id]? := by
  have apart : hash ∉ setAncestors := by
    intro hmem
    have hin := inside hash hmem
    rw [dataAt, fresh] at hin
    cases hin
  rw [addUnchecked_eq fresh]
  generalize hlinked : (pool.insertEntry hash entry).linkParents hash entry.tx = linked
  have hmap : linked.mapTx = pool.mapTx.insert hash (pool.prioritised hash entry) := by
    obtain ⟨pairs, links, -⟩ := (pool.insertEntry hash entry).relinks_linkParents hash entry.tx
    rw [← hlinked, links.entries]
    rfl
  have hget : ∀ id, linked.mapTx[id]? =
      if id = hash then some (pool.prioritised hash entry) else pool.mapTx[id]? := by
    intro id
    rw [hmap, Std.ExtTreeMap.getElem?_insert]
    exact if_congr (Std.LawfulEqCmp.compare_eq_iff_eq.trans eq_comm) rfl rfl
  have hdata : ∀ a ∈ setAncestors,
      (linked.updateAncestorsOf true hash setAncestors).dataAt a = pool.dataAt a := by
    intro a ha
    have hne : a ≠ hash := fun he => apart (he ▸ ha)
    rw [(frame_updateAncestorsOf linked true hash setAncestors).data, dataAt, hget, if_neg hne,
      dataAt]
  have hself : linked.dataAt hash = some (pool.prioritised hash entry).toEntryData := by
    rw [dataAt, hget, if_pos rfl, Option.map_some]
  rw [updateEntryForAncestors, getElem?_modify, getElem?_updateAncestorsOf, hget]
  by_cases hid : id = hash
  · subst hid
    rw [if_pos rfl, if_neg apart, if_pos rfl, if_pos rfl, ← ancestorLoads_eq inside hdata]
    rfl
  · rw [if_neg (Ne.symm hid), if_neg hid, if_neg hid]
    simp only [valueAt, hself]
    simp [EntryData.descendantLoad]

theorem alone_prioritised (alone : entry.Alone) : (pool.prioritised hash entry).Alone := by
  rw [prioritised]
  split
  · exact alone.updateFeeDelta _
  · exact alone

/-- A new transaction with the set of its ancestors keeps the totals exact. -/
theorem TotalsOk.adds (totals : TotalsOk pool) (new : Newcomer pool hash entry.tx)
    (alone : entry.Alone) {setAncestors : SetEntries}
    (ancestors : ∀ z, z ∈ setAncestors ↔ ∃ p ∈ pool.SpendsFrom entry.tx, pool.graph.Above z p) :
    TotalsOk (pool.addUnchecked hash entry setAncestors) := by
  have adds := adds_addUnchecked pool entry new.fresh setAncestors
  have leaf := adds.leaf new
  have hset := mem_nodes_of_ancestors ancestors
  have inside : ∀ a ∈ setAncestors, (pool.dataAt a).isSome :=
    fun a ha => mem_nodes.mp (hset a (mem_toFinset.mpr ha))
  have alone : (pool.prioritised hash entry).Alone := alone_prioritised alone
  -- Loads of old entries are what they were; the new one has its own.
  have hown : ∀ {M : Type} [Zero M] (load : EntryData → M),
      (pool.addUnchecked hash entry setAncestors).loadAt load hash =
        load (pool.prioritised hash entry).toEntryData := by
    intro M _ load
    rw [loadAt, adds.data, if_pos rfl]
    rfl
  have hsum : ∀ {M : Type} [AddCommMonoid M] (load : EntryData → M) (x : Finset Uint256),
      (∀ z ∈ x, z ∈ pool.graph.nodes) →
      ∑ z ∈ x, (pool.addUnchecked hash entry setAncestors).loadAt load z =
        ∑ z ∈ x, pool.loadAt load z :=
    fun load x hx => Finset.sum_congr rfl fun z hz => loadAt_congr (adds.stays new (hx z hz))
  have hprogeny : ∀ id, ∀ z ∈ pool.graph.progeny id, z ∈ pool.graph.nodes :=
    fun id z hz => (Graph.mem_progeny _).mp hz |>.1
  refine ⟨?_, ?_⟩
  · intro id e he
    rw [getElem?_addUnchecked new.fresh inside] at he
    by_cases hid : id = hash
    · subst hid
      rw [if_pos rfl, Option.some.injEq] at he
      subst he
      rw [CTxMemPoolEntry.withDescendants_addAncestors, leaf.progeny_new, Finset.sum_singleton, hown,
        alone.descendants]
    · split_ifs at he with hmem
      · obtain ⟨old, hold, rfl⟩ := Option.map_eq_some_iff.mp he
        rw [CTxMemPoolEntry.withDescendants_addDescendants, totals.descendants id old hold,
          leaf.progeny_above ((ancestors id).mp hmem),
          Finset.sum_insert (leaf.notMem_progeny id), hown, hsum _ _ (hprogeny id), add_comm]
      · rw [leaf.progeny_aside (mem_nodes_of_mapTx he) (mt (ancestors id).mpr hmem),
          hsum _ _ (hprogeny id)]
        exact totals.descendants id e he
  · intro id e he
    rw [getElem?_addUnchecked new.fresh inside] at he
    by_cases hid : id = hash
    · subst hid
      rw [if_pos rfl, Option.some.injEq] at he
      subst he
      rw [CTxMemPoolEntry.withAncestors_addAncestors,
        leaf.lineage_new fun z => mem_toFinset.trans (ancestors z),
        Finset.sum_insert fun h => leaf.fresh (hset _ h), hown, hsum _ _ hset, alone.ancestors]
    · rw [if_neg hid] at he
      have hold : ∃ old, pool.mapTx[id]? = some old ∧ e.withAncestors = old.withAncestors := by
        split at he
        · obtain ⟨old, hold, rfl⟩ := Option.map_eq_some_iff.mp he
          exact ⟨old, hold, rfl⟩
        · exact ⟨e, he, rfl⟩
      obtain ⟨old, hold, hsame⟩ := hold
      rw [hsame, leaf.lineage_old (mem_nodes_of_mapTx hold),
        hsum _ _ fun z hz => (Graph.mem_lineage _).mp hz |>.1]
      exact totals.ancestors id old hold

end Add

end CTxMemPool

end KubuCore.Mempool
