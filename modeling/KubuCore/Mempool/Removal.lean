import KubuCore.Mempool.Totals

/-!
# Removing entries from the pool

`RemoveStaged` takes the entries away from the totals of their ancestors, cuts
their links and erases them. The links stay those of the graph. The totals stay
exact when the entries go with all their descendants; an entry that is confirmed
goes alone, has no parents in the pool, and is taken away from the totals of its
descendants as well.
-/

namespace KubuCore.Mempool

open Lineage
open Sets
open Std

namespace CTxMemPool

variable {pool pool' : CTxMemPool}

/-! ## Telling the ancestors -/

theorem linkedAncestors_congr (parents : ∀ c p, p ∈ pool.getMemPoolParents c ↔ pool.ParentOf p c)
    (data : ∀ id, pool'.dataAt id = pool.dataAt id)
    (same : ∀ c, pool'.getMemPoolParents c = pool.getMemPoolParents c) (it : Uint256) :
    pool'.linkedAncestors it = pool.linkedAncestors it := by
  have hparent : pool'.ParentOf = pool.ParentOf := by
    funext p c
    rw [ParentOf, ParentOf, data, data]
  have parents' : ∀ c p, p ∈ pool'.getMemPoolParents c ↔ pool'.ParentOf p c := by
    intro c p
    rw [same, parents, hparent]
  apply ExtTreeSet.ext_mem
  intro z
  rw [mem_linkedAncestors parents', mem_linkedAncestors parents, hparent, graph_congr data]

/-- The ancestors of some entries are told that these go. -/
structure Detached (ids : List Uint256) (pool pool' : CTxMemPool) : Prop where
  frame : Frame pool pool'
  parents : ∀ c, pool'.getMemPoolParents c = pool.getMemPoolParents c
  children : ∀ p c, c ∈ pool'.getMemPoolChildren p ↔
    c ∈ pool.getMemPoolChildren p ∧ ¬ (c ∈ ids ∧ p ∈ pool.getMemPoolParents c)
  totals : ∀ id e', pool'.mapTx[id]? = some e' → ∃ e, pool.mapTx[id]? = some e ∧
    e'.withAncestors = e.withAncestors ∧
    e'.withDescendants = e.withDescendants -
      ((ids.filter fun r => id ∈ pool.linkedAncestors r).map
        (pool.loadAt EntryData.descendantLoad)).sum

theorem detached_one {it : Uint256} (hit : (pool.dataAt it).isSome) :
    Detached [it] pool (pool.updateAncestorsOf false it (pool.linkedAncestors it)) where
  frame := frame_updateAncestorsOf pool false it _
  parents := parents_updateAncestorsOf pool false it _
  children p c := by
    rw [mem_children_updateAncestorsOf, List.mem_singleton]
    refine and_congr_right fun _ => not_congr ⟨?_, ?_⟩
    · rintro ⟨hp, rfl⟩
      exact ⟨rfl, hp⟩
    · rintro ⟨rfl, hp⟩
      exact ⟨hp, rfl⟩
  totals id e' he := by
    obtain ⟨d, hd⟩ := Option.isSome_iff_exists.mp hit
    rw [getElem?_updateAncestorsOf] at he
    by_cases hid : id ∈ pool.linkedAncestors it
    · rw [if_pos hid] at he
      obtain ⟨e, hold, rfl⟩ := Option.map_eq_some_iff.mp he
      refine ⟨e, hold, rfl, ?_⟩
      simp [hid, loadAt, valueAt, hd, EntryData.descendantLoad, sub_eq_add_neg]
    · rw [if_neg hid] at he
      exact ⟨e', he, rfl, by simp [hid]⟩

theorem detached_foldl (parents : ∀ c p, p ∈ pool.getMemPoolParents c ↔ pool.ParentOf p c)
    {ids : List Uint256} (inside : ∀ r ∈ ids, (pool.dataAt r).isSome) :
    Detached ids pool (ids.foldl
      (fun pool r => pool.updateAncestorsOf false r (pool.linkedAncestors r)) pool) := by
  induction ids generalizing pool with
  | nil => exact ⟨.refl pool, fun _ => rfl, by simp, fun id e' he => ⟨e', he, rfl, by simp⟩⟩
  | cons it ids ih =>
    have one := detached_one (inside it List.mem_cons_self)
    rw [List.foldl_cons]
    generalize pool.updateAncestorsOf false it (pool.linkedAncestors it) = middle at one
    have hparent : middle.ParentOf = pool.ParentOf := by
      funext p c
      rw [ParentOf, ParentOf, one.frame.data, one.frame.data]
    have parents' : ∀ c p, p ∈ middle.getMemPoolParents c ↔ middle.ParentOf p c := by
      intro c p
      rw [one.parents, parents, hparent]
    have inside' : ∀ r ∈ ids, (middle.dataAt r).isSome := by
      intro r hr
      rw [one.frame.data]
      exact inside r (List.mem_cons_of_mem it hr)
    have rest := ih parents' inside'
    refine ⟨one.frame.trans rest.frame, fun c => (rest.parents c).trans (one.parents c), ?_, ?_⟩
    · intro p c
      rw [rest.children, one.children, one.parents, List.mem_singleton, List.mem_cons]
      tauto
    · intro id e' he
      obtain ⟨e1, he1, hanc1, hdesc1⟩ := rest.totals id e' he
      obtain ⟨e, he, hanc, hdesc⟩ := one.totals id e1 he1
      refine ⟨e, he, hanc1.trans hanc, ?_⟩
      have hload : middle.loadAt EntryData.descendantLoad = pool.loadAt EntryData.descendantLoad := by
        funext r
        exact loadAt_congr (one.frame.data r)
      simp only [linkedAncestors_congr parents one.frame.data one.parents, hload] at hdesc1
      rw [hdesc1, hdesc, sub_sub, ← List.sum_append, ← List.map_append, ← List.filter_append,
        List.singleton_append]

/-! ## Cutting the links and erasing -/

theorem foldl_updateChildrenForRemoval (ids : List Uint256) (pool : CTxMemPool) :
    (∀ p, (ids.foldl updateChildrenForRemoval pool).getMemPoolChildren p =
        pool.getMemPoolChildren p) ∧
      (ids.foldl updateChildrenForRemoval pool).mapTx = pool.mapTx ∧
      ∀ c p, p ∈ (ids.foldl updateChildrenForRemoval pool).getMemPoolParents c ↔
        p ∈ pool.getMemPoolParents c ∧ ¬ (p ∈ ids ∧ c ∈ pool.getMemPoolChildren p) := by
  induction ids generalizing pool with
  | nil => simp
  | cons it ids ih =>
    obtain ⟨hchildren, hmap, hparents⟩ := ih (pool.updateChildrenForRemoval it)
    have links := relinks_updateParents ((pool.getMemPoolChildren it).toList.map fun c => (c, it))
      false pool
    rw [← updateChildrenForRemoval_eq] at links
    refine ⟨fun p => (hchildren p).trans (links.far p), hmap.trans links.entries, ?_⟩
    intro c p
    have hmem : (c, p) ∈ (pool.getMemPoolChildren it).toList.map (fun c => (c, it)) ↔
        c ∈ pool.getMemPoolChildren it ∧ p = it := by
      simp [eq_comm]
    rw [List.foldl_cons, hparents, links.far, links.near, hmem,
      List.mem_cons]
    constructor
    · rintro ⟨⟨hp, hnot⟩, hnot'⟩
      refine ⟨hp, ?_⟩
      rintro ⟨rfl | hids, hc⟩
      · exact hnot ⟨hc, rfl⟩
      · exact hnot' ⟨hids, hc⟩
    · rintro ⟨hp, hnot⟩
      refine ⟨⟨hp, ?_⟩, fun h => hnot ⟨.inr h.1, h.2⟩⟩
      rintro ⟨hc, rfl⟩
      exact hnot ⟨.inl rfl, hc⟩

theorem foldl_removeUnchecked (ids : List Uint256) (pool : CTxMemPool) (id : Uint256) :
    (ids.foldl removeUnchecked pool).mapTx[id]? = (if id ∈ ids then none else pool.mapTx[id]?) ∧
      (ids.foldl removeUnchecked pool).mapLinks[id]? =
        if id ∈ ids ∧ (pool.dataAt id).isSome then none else pool.mapLinks[id]? := by
  induction ids generalizing pool with
  | nil => simp
  | cons it ids ih =>
    obtain ⟨hmap, hlinks⟩ := ih (pool.removeUnchecked it)
    have hdrops := drops_removeUnchecked pool it
    rw [List.foldl_cons, hmap, hlinks]
    by_cases hid : id = it
    · subst hid
      cases hentry : pool.mapTx[id]? with
      | none =>
        have hdata : pool.dataAt id = none := by rw [dataAt, hentry, Option.map_none]
        simp [removeUnchecked, hentry, hdata]
      | some entry => simp [removeUnchecked, hentry, dataAt_of_mapTx hentry]
    · rw [hdrops.stays id hid]
      have hne : ¬ it = id := fun he => hid he.symm
      cases hentry : pool.mapTx[it]? with
      | none => simp [removeUnchecked, hentry, hid]
      | some entry => simp [removeUnchecked, hentry, hid, hne, ExtTreeMap.getElem?_erase]

/-! ## The links afterwards -/

theorem nodes_drops {S : Set Uint256} (h : Drops S pool pool') (z : Uint256) :
    z ∈ pool'.graph.nodes ↔ z ∈ pool.graph.nodes ∧ z ∉ S := by
  rw [mem_nodes, mem_nodes]
  by_cases hz : z ∈ S
  · rw [h.gone z hz]
    simp [hz]
  · rw [h.stays z hz]
    simp [hz]

theorem parentOf_drops {S : Set Uint256} (h : Drops S pool pool') (p c : Uint256) :
    pool'.ParentOf p c ↔ pool.ParentOf p c ∧ p ∉ S ∧ c ∉ S := by
  rw [ParentOf, ParentOf]
  by_cases hp : p ∈ S
  · rw [h.gone p hp]
    simp [hp]
  · by_cases hc : c ∈ S
    · rw [h.gone c hc]
      simp [hc]
    · rw [h.stays p hp, h.stays c hc]
      simp [hp, hc]

theorem mapLinks_updateDescendantsForRemoval (ids : List Uint256) (pool : CTxMemPool) :
    (ids.foldl updateDescendantsForRemoval pool).mapLinks = pool.mapLinks := by
  induction ids generalizing pool with
  | nil => rfl
  | cons it ids ih =>
    rw [List.foldl_cons, ih, updateDescendantsForRemoval]
    split
    · rfl
    · rfl

/-- The pool before the ancestors are told. -/
def descendantsTold (pool : CTxMemPool) (stage : SetEntries) (updateDescendants : Bool) :
    CTxMemPool :=
  if updateDescendants then stage.toList.foldl updateDescendantsForRemoval pool else pool

section Staged

variable {stage : SetEntries} {updateDescendants : Bool}

variable (pool stage updateDescendants) in
theorem frame_descendantsTold : Frame pool (pool.descendantsTold stage updateDescendants) := by
  rw [descendantsTold]
  split
  · exact Frame.foldl frame_updateDescendantsForRemoval _ _
  · exact .refl pool

theorem mapLinks_descendantsTold :
    (pool.descendantsTold stage updateDescendants).mapLinks = pool.mapLinks := by
  rw [descendantsTold]
  split
  · exact mapLinks_updateDescendantsForRemoval _ _
  · rfl

variable (links : LinksOk pool) (inside : ∀ r ∈ stage, (pool.dataAt r).isSome)

include links inside

variable (updateDescendants) in
/-- The ancestors are told, from the pool as the descendants left it. -/
theorem detached_stage :
    Detached stage.toList (pool.descendantsTold stage updateDescendants)
      (stage.toList.foldl (fun pool r => pool.updateAncestorsOf false r (pool.linkedAncestors r))
        (pool.descendantsTold stage updateDescendants)) := by
  have hdata := (frame_descendantsTold pool stage updateDescendants).data
  refine detached_foldl ?_ ?_
  · intro c p
    rw [getMemPoolParents, mapLinks_descendantsTold, ParentOf, hdata, hdata]
    exact links.parents c p
  · intro r hr
    rw [hdata]
    exact inside r (ExtTreeSet.mem_toList.mp hr)

theorem LinksOk.removeStaged : LinksOk (pool.removeStaged stage updateDescendants) := by
  have drops := drops_removeStaged pool stage updateDescendants
  have hframe := pool.frame_updateForRemoveFromMempool stage updateDescendants
  have det := detached_stage updateDescendants links inside
  have hend : pool.removeStaged stage updateDescendants = stage.toList.foldl removeUnchecked
    (pool.updateForRemoveFromMempool stage updateDescendants) := rfl
  have hcut : pool.updateForRemoveFromMempool stage updateDescendants =
    stage.toList.foldl updateChildrenForRemoval (stage.toList.foldl (fun pool r =>
      pool.updateAncestorsOf false r (pool.linkedAncestors r))
        (pool.descendantsTold stage updateDescendants)) := rfl
  rw [hend] at drops ⊢
  generalize stage.toList.foldl (fun pool r => pool.updateAncestorsOf false r
    (pool.linkedAncestors r)) (pool.descendantsTold stage updateDescendants) = told at det hcut
  obtain ⟨hchildren, -, hparents⟩ := foldl_updateChildrenForRemoval stage.toList told
  rw [← hcut] at hchildren hparents
  generalize pool.updateForRemoveFromMempool stage updateDescendants = cut at *
  have hlinks : ∀ id, (stage.toList.foldl removeUnchecked cut).mapLinks[id]? =
      if id ∈ stage then none else cut.mapLinks[id]? := by
    intro id
    rw [(foldl_removeUnchecked stage.toList cut id).2, hframe.data]
    refine if_congr ⟨fun h => ExtTreeSet.mem_toList.mp h.1, ?_⟩ rfl rfl
    exact fun h => ⟨ExtTreeSet.mem_toList.mpr h, inside id h⟩
  have parentsFirst : ∀ c p, p ∈ (pool.descendantsTold stage updateDescendants).getMemPoolParents c ↔
      pool.ParentOf p c := by
    intro c p
    rw [getMemPoolParents, mapLinks_descendantsTold]
    exact links.parents c p
  have childrenFirst : ∀ p c,
      c ∈ (pool.descendantsTold stage updateDescendants).getMemPoolChildren p ↔
        pool.ParentOf p c := by
    intro p c
    rw [getMemPoolChildren, mapLinks_descendantsTold]
    exact links.children p c
  have childrenTold : ∀ p c, c ∈ told.getMemPoolChildren p ↔ pool.ParentOf p c ∧ c ∉ stage := by
    intro p c
    rw [det.children, childrenFirst, parentsFirst, ExtTreeSet.mem_toList]
    tauto
  refine ⟨?_, ?_, ?_⟩
  · intro id
    rw [HasLinks, hlinks]
    by_cases hid : id ∈ stage
    · rw [if_pos hid, drops.gone id hid]
      exact iff_of_false Bool.false_ne_true Bool.false_ne_true
    · rw [if_neg hid, drops.stays id hid, ← links.keys, ← hframe.keys]
      rfl
  · intro c p
    rw [parentOf_drops drops, getMemPoolParents, hlinks]
    by_cases hc : c ∈ stage
    · rw [if_pos hc]
      exact iff_of_false ExtTreeSet.not_mem_empty fun h => h.2.2 hc
    · rw [if_neg hc]
      change p ∈ cut.getMemPoolParents c ↔ _
      rw [hparents, det.parents, parentsFirst, childrenTold, ExtTreeSet.mem_toList]
      tauto
  · intro p c
    rw [parentOf_drops drops, getMemPoolChildren, hlinks]
    by_cases hp : p ∈ stage
    · rw [if_pos hp]
      exact iff_of_false ExtTreeSet.not_mem_empty fun h => h.2.1 hp
    · rw [if_neg hp]
      change c ∈ cut.getMemPoolChildren p ↔ _
      rw [hchildren, childrenTold]
      tauto

/-! ## The totals afterwards -/

/-- What became of the totals of an entry that stays. -/
theorem totals_removeStaged {id : Uint256} {e' : CTxMemPoolEntry}
    (he : (pool.removeStaged stage updateDescendants).mapTx[id]? = some e') :
    id ∉ stage ∧ ∃ e, (pool.descendantsTold stage updateDescendants).mapTx[id]? = some e ∧
      e'.withAncestors = e.withAncestors ∧
      e'.withDescendants = e.withDescendants -
        ∑ r ∈ stage.toList.toFinset.filter (fun r => id ∈ pool.linkedAncestors r),
          pool.loadAt EntryData.descendantLoad r := by
  have hframe := frame_descendantsTold pool stage updateDescendants
  have det := detached_stage updateDescendants links inside
  change (stage.toList.foldl removeUnchecked (stage.toList.foldl updateChildrenForRemoval
    (stage.toList.foldl (fun pool r => pool.updateAncestorsOf false r (pool.linkedAncestors r))
      (pool.descendantsTold stage updateDescendants)))).mapTx[id]? = some e' at he
  rw [(foldl_removeUnchecked stage.toList _ id).1,
    (foldl_updateChildrenForRemoval stage.toList _).2.1] at he
  split at he
  · cases he
  · rename_i hid
    obtain ⟨e, hold, hanc, hdesc⟩ := det.totals id e' he
    refine ⟨fun h => hid (ExtTreeSet.mem_toList.mpr h), e, hold, hanc, ?_⟩
    have hload : (pool.descendantsTold stage updateDescendants).loadAt EntryData.descendantLoad =
        pool.loadAt EntryData.descendantLoad := by
      funext r
      exact loadAt_congr (hframe.data r)
    have hsame : ∀ c, (pool.descendantsTold stage updateDescendants).getMemPoolParents c =
        pool.getMemPoolParents c := by
      intro c
      rw [getMemPoolParents, mapLinks_descendantsTold]
      rfl
    have hfilter : stage.toList.toFinset.filter (fun r => id ∈ pool.linkedAncestors r) =
        (stage.toList.filter fun r => id ∈ pool.linkedAncestors r).toFinset := by
      simp
    rw [hdesc, hload, hfilter, List.sum_toFinset _ ((nodup_toList stage).filter _)]
    simp only [linkedAncestors_congr links.parents hframe.data hsame]

omit inside in
/-- An entry that stays has a removed one among its linked descendants when it is
above it. -/
theorem mem_linkedAncestors_of_apart {id r : Uint256} (hne : id ≠ r) :
    id ∈ pool.linkedAncestors r ↔ pool.graph.Above id r := by
  rw [mem_linkedAncestors links.parents]
  constructor
  · rintro ⟨p, hp, path⟩
    exact path.tail hp
  · intro path
    rcases Relation.ReflTransGen.cases_tail path with he | ⟨p, path, hp⟩
    · exact absurd he.symm hne
    · exact ⟨p, hp, path⟩

theorem filter_linkedAncestors {id : Uint256} (hid : id ∉ stage) :
    stage.toList.toFinset.filter (fun r => id ∈ pool.linkedAncestors r) =
      (pool.graph.progeny id).filter (· ∈ stage) := by
  ext r
  rw [Finset.mem_filter, Finset.mem_filter, mem_toFinset, Graph.mem_progeny]
  constructor
  · rintro ⟨hr, hlinked⟩
    have hne : id ≠ r := fun he => hid (he ▸ hr)
    exact ⟨⟨mem_nodes.mpr (inside r hr),
      (mem_linkedAncestors_of_apart links hne).mp hlinked⟩, hr⟩
  · rintro ⟨⟨-, path⟩, hr⟩
    have hne : id ≠ r := fun he => hid (he ▸ hr)
    exact ⟨hr, (mem_linkedAncestors_of_apart links hne).mpr path⟩

omit links inside in
/-- Removing entries with all their descendants cuts them off the graph. -/
theorem cuts_removeStaged (closed : ∀ p c, pool.ParentOf p c → p ∈ stage → c ∈ stage) :
    Graph.Cuts {id | id ∈ stage} pool.graph (pool.removeStaged stage false).graph := by
  have drops := drops_removeStaged pool stage false
  refine ⟨closed, nodes_drops drops, ?_⟩
  intro p c
  refine (parentOf_drops drops p c).trans (and_congr_right fun hedge => ?_)
  exact ⟨And.right, fun hc => ⟨fun hp => hc (closed p c hedge hp), hc⟩⟩

/-- Entries that go with all their descendants leave exact totals. -/
theorem TotalsOk.cut (totals : TotalsOk pool)
    (closed : ∀ p c, pool.ParentOf p c → p ∈ stage → c ∈ stage) :
    TotalsOk (pool.removeStaged stage false) := by
  have drops := drops_removeStaged pool stage false
  have cuts := cuts_removeStaged closed
  have hload : ∀ {M : Type} [Zero M] (load : EntryData → M) (id : Uint256), id ∉ stage →
      (pool.removeStaged stage false).loadAt load id = pool.loadAt load id :=
    fun load id hid => loadAt_congr (drops.stays id hid)
  constructor
  · intro id e' he
    obtain ⟨hid, e, hold, -, hdesc⟩ := totals_removeStaged links inside he
    have hprogeny : (pool.removeStaged stage false).graph.progeny id =
        (pool.graph.progeny id).filter (· ∉ stage) := by
      ext d
      rw [cuts.mem_progeny_iff, Finset.mem_filter]
      rfl
    rw [hdesc, filter_linkedAncestors links inside hid, totals.descendants id e hold, hprogeny,
      Finset.sum_congr rfl fun d hd => hload EntryData.descendantLoad d (Finset.mem_filter.mp hd).2,
      ← Finset.sum_filter_add_sum_filter_not (pool.graph.progeny id) (· ∈ stage), add_sub_cancel_left]
  · intro id e' he
    obtain ⟨hid, e, hold, hanc, -⟩ := totals_removeStaged links inside he
    rw [hanc, cuts.lineage hid, totals.ancestors id e hold]
    refine Finset.sum_congr rfl fun a ha => (hload _ a ?_).symm
    intro hmem
    exact hid (((Graph.mem_lineage _).mp ha).2.closed (S := {id | id ∈ stage}) closed hmem)

end Staged

/-! ## A confirmed entry -/

theorem mem_single {it z : Uint256} : z ∈ (∅ : SetEntries).insert it ↔ z = it := by
  rw [mem_insert_iff]
  exact or_iff_left ExtTreeSet.not_mem_empty

theorem toList_singleton (it : Uint256) : ((∅ : SetEntries).insert it).toList = [it] := by
  refine List.perm_singleton.mp ?_
  rw [List.perm_ext_iff_of_nodup (nodup_toList _) (List.nodup_singleton it)]
  intro z
  rw [ExtTreeSet.mem_toList, mem_single, List.mem_singleton]

section Root

variable {it : Uint256} (links : LinksOk pool) (hit : (pool.dataAt it).isSome)
  (root : ∀ p, ¬ pool.ParentOf p it)

include links hit

theorem ancestors_descendantsTold {id : Uint256} {e' : CTxMemPoolEntry}
    (he : (pool.descendantsTold ((∅ : SetEntries).insert it) true).mapTx[id]? = some e')
    (hne : id ≠ it) :
    ∃ e, pool.mapTx[id]? = some e ∧ e'.withDescendants = e.withDescendants ∧
      (pool.graph.Above it id →
        e'.withAncestors = e.withAncestors - pool.loadAt EntryData.ancestorLoad it) ∧
      (¬ pool.graph.Above it id → e'.withAncestors = e.withAncestors) := by
  have hmem : id ∈ (pool.calculateDescendants ∅ it).erase it ↔ pool.graph.Above it id := by
    rw [mem_erase_iff, mem_progeny_iff links hit]
    exact and_iff_right hne
  obtain ⟨entry, hentry⟩ : ∃ entry, pool.mapTx[it]? = some entry := by
    rwa [dataAt, Option.isSome_map, Option.isSome_iff_exists] at hit
  rw [descendantsTold, if_pos rfl, toList_singleton, List.foldl_cons, List.foldl_nil,
    updateDescendantsForRemoval] at he
  simp only [hentry, getElem?_modifyAll] at he
  by_cases hin : id ∈ (pool.calculateDescendants ∅ it).erase it
  · rw [if_pos hin] at he
    obtain ⟨e, hold, rfl⟩ := Option.map_eq_some_iff.mp he
    refine ⟨e, hold, rfl, fun _ => ?_, fun hnot => absurd (hmem.mp hin) hnot⟩
    rw [loadAt, dataAt_of_mapTx hentry]
    rfl
  · rw [if_neg hin] at he
    exact ⟨e', he, rfl, fun path => absurd (hmem.mpr path) hin, fun _ => rfl⟩

include root

omit links in
/-- Removing an entry without parents cuts it off the graph from above. -/
theorem cuts_reverse :
    Graph.Cuts {it} pool.graph.reverse
      (pool.removeStaged ((∅ : SetEntries).insert it) true).graph.reverse := by
  have drops := drops_removeStaged pool ((∅ : SetEntries).insert it) true
  refine ⟨?_, ?_, ?_⟩
  · rintro c p hedge rfl
    exact absurd hedge (root p)
  · intro z
    exact (nodes_drops drops z).trans (and_congr_right fun _ => not_congr mem_single)
  · intro c p
    refine (parentOf_drops drops p c).trans (and_congr_right fun hedge => ?_)
    have hc : c ≠ it := fun he => root p (he ▸ hedge)
    constructor
    · rintro ⟨hp, -⟩ he
      exact hp (mem_single.mpr he)
    · intro hp
      exact ⟨fun h => hp (mem_single.mp h), fun h => hc (mem_single.mp h)⟩

theorem TotalsOk.removeRoot (totals : TotalsOk pool) :
    TotalsOk (pool.removeStaged ((∅ : SetEntries).insert it) true) := by
  have drops := drops_removeStaged pool ((∅ : SetEntries).insert it) true
  have cuts := cuts_reverse hit root
  have inside : ∀ r ∈ (∅ : SetEntries).insert it, (pool.dataAt r).isSome :=
    fun r hr => mem_single.mp hr ▸ hit
  have hload : ∀ {M : Type} [Zero M] (load : EntryData → M) (id : Uint256), id ≠ it →
      (pool.removeStaged ((∅ : SetEntries).insert it) true).loadAt load id = pool.loadAt load id :=
    fun load id hid => loadAt_congr (drops.stays id fun h => hid (mem_single.mp h))
  constructor
  · intro id e' he
    obtain ⟨hid, e, hold, -, hdesc⟩ := totals_removeStaged links inside he
    have hne : id ≠ it := fun h => hid (mem_single.mpr h)
    obtain ⟨e0, hold0, hdesc0, -⟩ := ancestors_descendantsTold links hit hold hne
    have hnone : ((∅ : SetEntries).insert it).toList.toFinset.filter
        (fun r => id ∈ pool.linkedAncestors r) = ∅ := by
      refine Finset.filter_eq_empty_iff.mpr fun r hr hlinked => ?_
      obtain ⟨p, hp, -⟩ := (mem_linkedAncestors links.parents).mp hlinked
      exact root p (mem_single.mp (mem_toFinset.mp hr) ▸ hp)
    have hprogeny : (pool.removeStaged ((∅ : SetEntries).insert it) true).graph.progeny id =
        pool.graph.progeny id := by
      rw [← Graph.lineage_reverse, cuts.lineage hne, Graph.lineage_reverse]
    rw [hdesc, hnone, Finset.sum_empty, sub_zero, hdesc0, totals.descendants id e0 hold0, hprogeny]
    refine Finset.sum_congr rfl fun d hd => (hload _ d ?_).symm
    -- Nothing is above the removed entry, so it is not among these descendants.
    rintro rfl
    rcases Relation.ReflTransGen.cases_tail ((Graph.mem_progeny _).mp hd).2 with h | ⟨p, -, hp⟩
    · exact hne h.symm
    · exact root p hp
  · intro id e' he
    obtain ⟨hid, e, hold, hanc, -⟩ := totals_removeStaged links inside he
    have hne : id ≠ it := fun h => hid (mem_single.mpr h)
    obtain ⟨e0, hold0, -, habove, haside⟩ := ancestors_descendantsTold links hit hold hne
    have hlineage : (pool.removeStaged ((∅ : SetEntries).insert it) true).graph.lineage id =
        (pool.graph.lineage id).erase it := by
      ext a
      rw [← Graph.progeny_reverse, cuts.mem_progeny_iff, Graph.progeny_reverse, Finset.mem_erase,
        and_comm]
      rfl
    rw [hanc, hlineage, Finset.sum_congr rfl fun a ha =>
      hload EntryData.ancestorLoad a (Finset.mem_erase.mp ha).1]
    by_cases hin : pool.graph.Above it id
    · rw [habove hin, totals.ancestors id e0 hold0, sub_eq_iff_eq_add]
      exact (Finset.sum_erase_add _ _
        ((Graph.mem_lineage _).mpr ⟨mem_nodes.mpr hit, hin⟩)).symm
    · rw [haside hin, totals.ancestors id e0 hold0, Finset.erase_eq_of_notMem]
      exact fun h => hin ((Graph.mem_lineage _).mp h).2

end Root

end CTxMemPool

end KubuCore.Mempool
