import KubuCore.Base.Maps
import KubuCore.Mempool.Pool

/-!
# Links of the pool

What the operations of the pool do to its transactions, to the map of spent
outpoints and to the links between parents and children, apart from the totals.
-/

namespace KubuCore.Mempool

open Chain
open Sets
open Std

namespace CTxMemPool

/-- The entry of a transaction without its totals. -/
def dataAt (pool : CTxMemPool) (id : Uint256) : Option EntryData :=
  pool.mapTx[id]?.map CTxMemPoolEntry.toEntryData

/-- The pool has links for this entry. -/
def HasLinks (pool : CTxMemPool) (id : Uint256) : Prop := pool.mapLinks[id]?.isSome = true

/-- Only totals and links differ. -/
structure Frame (pool pool' : CTxMemPool) : Prop where
  data : ∀ id, pool'.dataAt id = pool.dataAt id
  next : pool'.mapNextTx = pool.mapNextTx
  deltas : pool'.mapDeltas = pool.mapDeltas
  keys : ∀ id, pool'.HasLinks id ↔ pool.HasLinks id

theorem Frame.refl (pool : CTxMemPool) : Frame pool pool := ⟨fun _ => rfl, rfl, rfl, fun _ => .rfl⟩

theorem Frame.trans {a b c : CTxMemPool} (h : Frame a b) (h' : Frame b c) : Frame a c where
  data id := (h'.data id).trans (h.data id)
  next := h'.next.trans h.next
  deltas := h'.deltas.trans h.deltas
  keys id := (h'.keys id).trans (h.keys id)

theorem Frame.foldl {γ : Type} {step : CTxMemPool → γ → CTxMemPool}
    (each : ∀ pool item, Frame pool (step pool item)) (items : List γ) (pool : CTxMemPool) :
    Frame pool (items.foldl step pool) :=
  List.foldlRecOn items step (.refl pool) fun _ h item _ => h.trans (each _ item)

variable {pool : CTxMemPool}

/-! ## Updates of totals -/

theorem getElem?_modifyAll (entries : SetEntries) (update : CTxMemPoolEntry → CTxMemPoolEntry)
    (id : Uint256) :
    (pool.modifyAll entries update).mapTx[id]? =
      if id ∈ entries then pool.mapTx[id]?.map update else pool.mapTx[id]? := by
  simp only [modifyAll, getElem?_foldl_modify (nodup_toList entries), ExtTreeSet.mem_toList]

theorem getElem?_modify (it : Uint256) (update : CTxMemPoolEntry → CTxMemPoolEntry) (id : Uint256) :
    (pool.modify it update).mapTx[id]? =
      if it = id then pool.mapTx[id]?.map update else pool.mapTx[id]? := by
  simp only [modify, ExtTreeMap.getElem?_modify, LawfulEqCmp.compare_eq_iff_eq]
  split
  · subst id
    rfl
  · rfl

theorem frame_modifyAll (entries : SetEntries) {update : CTxMemPoolEntry → CTxMemPoolEntry}
    (keeps : ∀ e, (update e).toEntryData = e.toEntryData) :
    Frame pool (pool.modifyAll entries update) := by
  refine ⟨?_, rfl, rfl, fun _ => .rfl⟩
  intro id
  rw [dataAt, dataAt, getElem?_modifyAll]
  split
  · cases pool.mapTx[id]? with
    | none => rfl
    | some e => exact congrArg some (keeps e)
  · rfl

theorem frame_modify (it : Uint256) {update : CTxMemPoolEntry → CTxMemPoolEntry}
    (keeps : ∀ e, (update e).toEntryData = e.toEntryData) :
    Frame pool (pool.modify it update) := by
  refine ⟨?_, rfl, rfl, fun _ => .rfl⟩
  intro id
  rw [dataAt, dataAt, getElem?_modify]
  split
  · cases pool.mapTx[id]? with
    | none => rfl
    | some e => exact congrArg some (keeps e)
  · rfl

section

variable (entries : SetEntries) (update : CTxMemPoolEntry → CTxMemPoolEntry) (id : Uint256)

@[simp] theorem children_modifyAll :
    (pool.modifyAll entries update).getMemPoolChildren id = pool.getMemPoolChildren id := rfl

@[simp] theorem parents_modifyAll :
    (pool.modifyAll entries update).getMemPoolParents id = pool.getMemPoolParents id := rfl

end

/-! ## Updates of links -/

/-- Links of one side were added or taken away, and nothing else. -/
structure Relinks (near far : CTxMemPool → Uint256 → SetEntries) (add : Bool)
    (pairs : List (Uint256 × Uint256)) (pool pool' : CTxMemPool) : Prop where
  entries : pool'.mapTx = pool.mapTx
  frame : Frame pool pool'
  far : ∀ id, far pool' id = far pool id
  near : ∀ id other, other ∈ near pool' id ↔
    if add then other ∈ near pool id ∨ ((id, other) ∈ pairs ∧ pool.HasLinks id)
    else other ∈ near pool id ∧ (id, other) ∉ pairs

theorem Relinks.foldl {near far : CTxMemPool → Uint256 → SetEntries} {add : Bool}
    {step : CTxMemPool → Uint256 × Uint256 → CTxMemPool}
    (each : ∀ pool x, Relinks near far add [x] pool (step pool x))
    (pairs : List (Uint256 × Uint256)) (pool : CTxMemPool) :
    Relinks near far add pairs pool (pairs.foldl step pool) := by
  induction pairs generalizing pool with
  | nil => exact ⟨rfl, .refl pool, fun _ => rfl, fun _ _ => by cases add <;> simp⟩
  | cons x pairs ih =>
    have first := each pool x
    have rest := ih (step pool x)
    refine ⟨rest.entries.trans first.entries, first.frame.trans rest.frame,
      fun id => (rest.far id).trans (first.far id), fun id other => ?_⟩
    rw [List.foldl_cons, rest.near, first.near, first.frame.keys, List.mem_singleton, List.mem_cons]
    cases add <;> simp only [if_true, Bool.false_eq_true, if_false] <;> tauto

theorem relinks_modify (near far : TxLinks → SetEntries) {update : TxLinks → TxLinks}
    {other : Uint256} {add : Bool} (hfar : ∀ links, far (update links) = far links)
    (hnear : ∀ links, near (update links) =
      if add then (near links).insert other else (near links).erase other)
    (hempty : near {} = ∅) (pool : CTxMemPool) (entry : Uint256) :
    Relinks (fun pool id => near (pool.mapLinks[id]?.getD {}))
      (fun pool id => far (pool.mapLinks[id]?.getD {})) add [(entry, other)] pool
      { pool with mapLinks := pool.mapLinks.modify entry update } := by
  have hget : ∀ id, (pool.mapLinks.modify entry update)[id]? =
      if entry = id then pool.mapLinks[id]?.map update else pool.mapLinks[id]? := by
    intro id
    simp only [ExtTreeMap.getElem?_modify, LawfulEqCmp.compare_eq_iff_eq]
    split
    · subst id
      rfl
    · rfl
  refine ⟨rfl, ⟨fun _ => rfl, rfl, rfl, fun id => ?_⟩, fun id => ?_, fun id c => ?_⟩
  · simp only [HasLinks, hget]
    split
    · rw [Option.isSome_map]
    · rfl
  · rw [hget]
    split
    · cases pool.mapLinks[id]? with
      | none => rfl
      | some links => exact hfar links
    · rfl
  · simp only [hget, HasLinks]
    by_cases he : entry = id
    · subst he
      cases pool.mapLinks[entry]? with
      | none => cases add <;> simp [hempty]
      | some links =>
        cases add <;>
          simp [hnear, -ExtTreeSet.mem_insert, -ExtTreeSet.mem_erase, or_comm, and_comm]
    · have hne : ¬ id = entry := fun h => he h.symm
      cases add <;> simp [he, hne]

section

variable (pairs : List (Uint256 × Uint256)) (add : Bool) (pool : CTxMemPool)

/-- Which links a loop of `updateChild` leaves. -/
theorem relinks_updateChildren : Relinks getMemPoolChildren getMemPoolParents add pairs pool
      (pairs.foldl (fun pool x => pool.updateChild x.1 x.2 add) pool) := by
  refine .foldl (fun pool x => ?_) pairs pool
  apply relinks_modify TxLinks.children TxLinks.parents <;> intros <;> rfl

theorem relinks_updateParents : Relinks getMemPoolParents getMemPoolChildren add pairs pool
      (pairs.foldl (fun pool x => pool.updateParent x.1 x.2 add) pool) := by
  refine .foldl (fun pool x => ?_) pairs pool
  apply relinks_modify TxLinks.parents TxLinks.children <;> intros <;> rfl

end

/-! ## Ancestors told about an entry -/

/-- A value of an entry; an entry that is not there counts nothing. -/
def valueAt (pool : CTxMemPool) (value : EntryData → Int) (id : Uint256) : Int :=
  ((pool.dataAt id).map value).getD 0

theorem valueAt_eq (value : EntryData → Int) (id : Uint256) :
    (pool.mapTx[id]?.map fun e => value e.toEntryData).getD 0 = pool.valueAt value id := by
  rw [valueAt, dataAt, Option.map_map]
  rfl

theorem updateAncestorsOf_eq (pool : CTxMemPool) (add : Bool) (it : Uint256)
    (setAncestors : SetEntries) :
    pool.updateAncestorsOf add it setAncestors =
      (((pool.getMemPoolParents it).toList.map fun p => (p, it)).foldl
        (fun pool x => pool.updateChild x.1 x.2 add) pool).modifyAll setAncestors
          (CTxMemPoolEntry.updateDescendantState
            ((if add then 1 else -1) * pool.valueAt EntryData.nTxSize it)
            ((if add then 1 else -1) * pool.valueAt EntryData.getModifiedFee it)
            (if add then 1 else -1)) := by
  have hmap := (relinks_updateChildren ((pool.getMemPoolParents it).toList.map fun p => (p, it)) add
    pool).entries
  rw [List.foldl_map] at hmap ⊢
  rw [← valueAt_eq, ← valueAt_eq, ← hmap]
  rfl

theorem frame_updateAncestorsOf (pool : CTxMemPool) (add : Bool) (it : Uint256)
    (setAncestors : SetEntries) : Frame pool (pool.updateAncestorsOf add it setAncestors) := by
  rw [updateAncestorsOf_eq]
  exact (relinks_updateChildren _ add pool).frame.trans (frame_modifyAll setAncestors fun _ => rfl)

theorem parents_updateAncestorsOf (pool : CTxMemPool) (add : Bool) (it : Uint256)
    (setAncestors : SetEntries) (id : Uint256) :
    (pool.updateAncestorsOf add it setAncestors).getMemPoolParents id =
      pool.getMemPoolParents id := by
  rw [updateAncestorsOf_eq, parents_modifyAll, (relinks_updateChildren _ add pool).far]

theorem mem_children_updateAncestorsOf (pool : CTxMemPool) (add : Bool) (it : Uint256)
    (setAncestors : SetEntries) (p c : Uint256) :
    c ∈ (pool.updateAncestorsOf add it setAncestors).getMemPoolChildren p ↔
      if add then
        c ∈ pool.getMemPoolChildren p ∨
          (p ∈ pool.getMemPoolParents it ∧ c = it ∧ pool.HasLinks p)
      else c ∈ pool.getMemPoolChildren p ∧ ¬ (p ∈ pool.getMemPoolParents it ∧ c = it) := by
  have hmem : (p, c) ∈ (pool.getMemPoolParents it).toList.map (fun p => (p, it)) ↔
      p ∈ pool.getMemPoolParents it ∧ c = it := by
    simp [eq_comm]
  rw [updateAncestorsOf_eq, children_modifyAll, (relinks_updateChildren _ add pool).near, hmem,
    and_assoc]

/-! ## Removing entries -/

theorem updateChildrenForRemoval_eq (pool : CTxMemPool) (it : Uint256) :
    pool.updateChildrenForRemoval it =
      ((pool.getMemPoolChildren it).toList.map fun c => (c, it)).foldl
        (fun pool x => pool.updateParent x.1 x.2 false) pool := by
  rw [List.foldl_map]
  rfl

theorem frame_updateChildrenForRemoval (pool : CTxMemPool) (it : Uint256) :
    Frame pool (pool.updateChildrenForRemoval it) := by
  rw [updateChildrenForRemoval_eq]
  exact (relinks_updateParents _ false pool).frame

theorem frame_updateDescendantsForRemoval (pool : CTxMemPool) (it : Uint256) :
    Frame pool (pool.updateDescendantsForRemoval it) := by
  rw [updateDescendantsForRemoval]
  split
  · exact frame_modifyAll _ fun _ => rfl
  · exact .refl pool

theorem frame_updateForRemoveFromMempool (pool : CTxMemPool) (entriesToRemove : SetEntries)
    (updateDescendants : Bool) :
    Frame pool (pool.updateForRemoveFromMempool entriesToRemove updateDescendants) := by
  refine Frame.trans ?_ (Frame.foldl frame_updateChildrenForRemoval _ _)
  refine Frame.trans ?_ (Frame.foldl (fun pool it => frame_updateAncestorsOf pool false it _) _ _)
  split
  · exact Frame.foldl frame_updateDescendantsForRemoval _ _
  · exact .refl pool

/-- The entry `id` spends the outpoint `o`. -/
def Spends (pool : CTxMemPool) (id : Uint256) (o : COutPoint) : Prop :=
  ∃ d, pool.dataAt id = some d ∧ o ∈ d.tx.vin.map CTxIn.prevout

theorem Spends.congr {pool pool' : CTxMemPool} {id : Uint256} {o : COutPoint}
    (h : pool'.dataAt id = pool.dataAt id) : pool'.Spends id o ↔ pool.Spends id o := by
  rw [Spends, h]
  rfl

/-- The entries of a set are gone with what they spent, and no others. -/
structure Drops (S : Set Uint256) (pool pool' : CTxMemPool) : Prop where
  gone : ∀ id ∈ S, pool'.dataAt id = none
  stays : ∀ id ∉ S, pool'.dataAt id = pool.dataAt id
  freed : ∀ o, ∀ id ∈ S, pool.Spends id o → pool'.mapNextTx[o]? = none
  kept : ∀ o, (∀ id ∈ S, ¬ pool.Spends id o) → pool'.mapNextTx[o]? = pool.mapNextTx[o]?

theorem Frame.drops {pool pool' : CTxMemPool} (h : Frame pool pool') : Drops ∅ pool pool' where
  gone _ hid := hid.elim
  stays id _ := h.data id
  freed _ _ hid := hid.elim
  kept _ _ := by rw [h.next]

theorem Drops.trans {S T : Set Uint256} {a b c : CTxMemPool} (h : Drops S a b)
    (h' : Drops T b c) : Drops (S ∪ T) a c where
  gone := by
    intro id hid
    by_cases hT : id ∈ T
    · exact h'.gone id hT
    · exact (h'.stays id hT).trans (h.gone id (hid.resolve_right hT))
  stays := by
    intro id hid
    rw [Set.mem_union, not_or] at hid
    exact (h'.stays id hid.2).trans (h.stays id hid.1)
  freed := by
    intro o id hid hspends
    by_cases hfree : ∃ t ∈ T, b.Spends t o
    · obtain ⟨t, ht, hspends'⟩ := hfree
      exact h'.freed o t ht hspends'
    · rw [h'.kept o fun t ht hs => hfree ⟨t, ht, hs⟩]
      by_cases hS : id ∈ S
      · exact h.freed o id hS hspends
      · exact absurd ⟨id, hid.resolve_left hS, (Spends.congr (h.stays id hS)).mpr hspends⟩ hfree
  kept := by
    intro o hkept
    rw [h'.kept o, h.kept o fun id hid => hkept id (.inl hid)]
    intro t ht hspends
    by_cases hS : t ∈ S
    · obtain ⟨d, hd, -⟩ := hspends
      rw [h.gone t hS] at hd
      cases hd
    · exact hkept t (.inr ht) ((Spends.congr (h.stays t hS)).mp hspends)

theorem getElem?_erasePrevouts (vin : List CTxIn) (map : ExtTreeMap COutPoint Uint256)
    (o : COutPoint) :
    (vin.foldl (fun map (txin : CTxIn) => map.erase txin.prevout) map)[o]? =
      if o ∈ vin.map CTxIn.prevout then none else map[o]? := by
  rw [← getElem?_foldl_erase, List.foldl_map]

theorem drops_removeUnchecked (pool : CTxMemPool) (it : Uint256) :
    Drops {it} pool (pool.removeUnchecked it) := by
  cases hentry : pool.mapTx[it]? with
  | none =>
    have hdata : pool.dataAt it = none := by rw [dataAt, hentry, Option.map_none]
    have hpool : pool.removeUnchecked it = pool := by rw [removeUnchecked, hentry]
    rw [hpool]
    refine ⟨?_, fun _ _ => rfl, ?_, fun _ _ => rfl⟩
    · rintro id rfl
      exact hdata
    · rintro o id rfl ⟨d, hd, -⟩
      rw [hdata] at hd
      cases hd
  | some entry =>
    have hdata : pool.dataAt it = some entry.toEntryData := by rw [dataAt, hentry, Option.map_some]
    have hspends : ∀ o, pool.Spends it o ↔ o ∈ entry.tx.vin.map CTxIn.prevout := by
      intro o
      rw [Spends, hdata]
      simp only [Option.some.injEq, exists_eq_left']
    simp only [removeUnchecked, hentry]
    refine ⟨?_, ?_, ?_, ?_⟩
    · simp [dataAt]
    · intro id hid
      have hne : ¬ it = id := fun h => hid h.symm
      simp [dataAt, ExtTreeMap.getElem?_erase, hne]
    · rintro o id rfl ho
      rw [getElem?_erasePrevouts, if_pos ((hspends o).mp ho)]
    · intro o ho
      rw [getElem?_erasePrevouts, if_neg (mt (hspends o).mpr (ho it rfl))]

theorem drops_removeAll (ids : List Uint256) (pool : CTxMemPool) :
    Drops {id | id ∈ ids} pool (ids.foldl removeUnchecked pool) := by
  induction ids generalizing pool with
  | nil =>
    have hempty : {id : Uint256 | id ∈ ([] : List Uint256)} = ∅ := by simp
    rw [hempty]
    exact (Frame.refl pool).drops
  | cons it ids ih =>
    have hunion : {id | id ∈ it :: ids} = {it} ∪ {id | id ∈ ids} := by
      ext id
      simp
    rw [hunion]
    exact (drops_removeUnchecked pool it).trans (ih _)

/-- `RemoveStaged` drops the staged entries. -/
theorem drops_removeStaged (pool : CTxMemPool) (stage : SetEntries) (updateDescendants : Bool) :
    Drops {id | id ∈ stage} pool (pool.removeStaged stage updateDescendants) := by
  have h := ((pool.frame_updateForRemoveFromMempool stage updateDescendants).drops).trans
    (drops_removeAll stage.toList _)
  simp only [Set.empty_union, ExtTreeSet.mem_toList] at h
  exact h

/-! ## Adding an entry -/

theorem relinks_linkParents (pool : CTxMemPool) (hash : Uint256) (tx : CTransaction) :
    ∃ pairs, Relinks getMemPoolParents getMemPoolChildren true pairs pool
        (pool.linkParents hash tx) ∧
      ∀ c p, (c, p) ∈ pairs ↔
        c = hash ∧ (∃ txin ∈ tx.vin, txin.prevout.hash = p) ∧ pool.existsTx p = true := by
  have hfold : ∀ (ids : List Uint256) (pool' : CTxMemPool), pool'.mapTx = pool.mapTx →
      ids.foldl (fun pool phash =>
        if pool.existsTx phash then pool.updateParent hash phash true else pool) pool' =
      ((ids.filter pool.existsTx).map fun p => (hash, p)).foldl
        (fun pool x => pool.updateParent x.1 x.2 true) pool' := by
    intro ids
    induction ids with
    | nil => intro pool' _; rfl
    | cons phash ids ih =>
      intro pool' hmap
      have hexists : pool'.existsTx phash = pool.existsTx phash := by rw [existsTx, hmap]; rfl
      rw [List.foldl_cons, hexists]
      cases hp : pool.existsTx phash with
      | true =>
        rw [List.filter_cons_of_pos hp, List.map_cons]
        exact ih _ hmap
      | false =>
        rw [List.filter_cons_of_neg (by simp [hp])]
        exact ih _ hmap
  refine ⟨_, hfold _ pool rfl ▸ relinks_updateParents _ true pool, ?_⟩
  intro c p
  simp only [List.mem_map, List.mem_filter, ExtTreeSet.mem_toList, mem_insertAll,
    Prod.mk.injEq, ExtTreeSet.not_mem_empty, false_or]
  constructor
  · rintro ⟨q, ⟨hq, hin⟩, rfl, rfl⟩
    exact ⟨rfl, hq, hin⟩
  · rintro ⟨rfl, hq, hin⟩
    exact ⟨p, ⟨hq, hin⟩, rfl, rfl⟩

theorem getElem?_insertPrevouts (vin : List CTxIn) (hash : Uint256)
    (map : ExtTreeMap COutPoint Uint256) (o : COutPoint) :
    (vin.foldl (fun map (txin : CTxIn) => map.insertIfNew txin.prevout hash) map)[o]? =
      if o ∈ vin.map CTxIn.prevout ∧ map[o]? = none then some hash else map[o]? := by
  have hfold := Maps.getElem?_foldl_insertIfNew (vin.map CTxIn.prevout) (fun _ => hash) map o
  rw [List.foldl_map] at hfold
  rw [hfold]
  cases map[o]? <;> simp

/-- A new entry with the fee delta that was stored for it. -/
def prioritised (pool : CTxMemPool) (hash : Uint256) (entry : CTxMemPoolEntry) : CTxMemPoolEntry :=
  let deltas := pool.mapDeltas[hash]?.getD 0
  if deltas ≠ 0 then entry.updateFeeDelta deltas else entry

/-- The first part of `addUnchecked`: the entry without links and totals. -/
def insertEntry (pool : CTxMemPool) (hash : Uint256) (entry : CTxMemPoolEntry) : CTxMemPool :=
  { pool with
    mapTx := pool.mapTx.insert hash (pool.prioritised hash entry)
    mapNextTx := entry.tx.vin.foldl
      (fun map (txin : CTxIn) => map.insertIfNew txin.prevout hash) pool.mapNextTx
    mapLinks := pool.mapLinks.insertIfNew hash {} }

theorem addUnchecked_eq {hash : Uint256} (fresh : pool.mapTx[hash]? = none)
    (entry : CTxMemPoolEntry) (setAncestors : SetEntries) :
    pool.addUnchecked hash entry setAncestors =
      (((pool.insertEntry hash entry).linkParents hash entry.tx).updateAncestorsOf true hash
        setAncestors).updateEntryForAncestors hash setAncestors := by
  have hnew : hash ∉ pool.mapTx := by
    rw [ExtTreeMap.mem_iff_isSome_getElem?, fresh]
    simp
  have hinsert : pool.mapTx.insertIfNew hash entry = pool.mapTx.insert hash entry := by
    apply ExtTreeMap.ext_getElem?
    intro k
    rw [ExtTreeMap.getElem?_insertIfNew, ExtTreeMap.getElem?_insert]
    by_cases he : hash = k
    · simp [hnew]
    · simp [he]
  have hmodify : ∀ deltas, (pool.mapTx.insert hash entry).modify hash
      (CTxMemPoolEntry.updateFeeDelta deltas) =
      pool.mapTx.insert hash (entry.updateFeeDelta deltas) := by
    intro deltas
    apply ExtTreeMap.ext_getElem?
    intro k
    simp only [ExtTreeMap.getElem?_modify, ExtTreeMap.getElem?_insert]
    by_cases he : hash = k
    · subst he
      simp
    · simp [he]
  simp only [addUnchecked, insertEntry, prioritised, hinsert]
  cases hd : pool.mapDeltas[hash]? with
  | none => rfl
  | some deltas =>
    by_cases hzero : deltas = 0
    · simp [hzero]
    · simp [hzero, modify, hmodify]

theorem prioritised_tx (pool : CTxMemPool) (hash : Uint256) (entry : CTxMemPoolEntry) :
    (pool.prioritised hash entry).tx = entry.tx := by
  rw [prioritised]
  split <;> rfl

/-- The pool has one more entry, linked with its parents. -/
structure Adds (hash : Uint256) (entry : CTxMemPoolEntry) (pool pool' : CTxMemPool) : Prop where
  data : ∀ id, pool'.dataAt id =
    if id = hash then some (pool.prioritised hash entry).toEntryData else pool.dataAt id
  next : ∀ o, pool'.mapNextTx[o]? =
    if o ∈ entry.tx.vin.map CTxIn.prevout ∧ pool.mapNextTx[o]? = none then some hash
    else pool.mapNextTx[o]?
  deltas : pool'.mapDeltas = pool.mapDeltas
  keys : ∀ id, pool'.HasLinks id ↔ id = hash ∨ pool.HasLinks id
  parents : ∀ c p, p ∈ pool'.getMemPoolParents c ↔ p ∈ pool.getMemPoolParents c ∨
    (c = hash ∧ (∃ txin ∈ entry.tx.vin, txin.prevout.hash = p) ∧
      (p = hash ∨ pool.existsTx p = true))
  children : ∀ p c, c ∈ pool'.getMemPoolChildren p ↔ c ∈ pool.getMemPoolChildren p ∨
    (p ∈ pool'.getMemPoolParents hash ∧ c = hash ∧ pool'.HasLinks p)

section InsertEntry

variable (pool : CTxMemPool) (hash : Uint256) (entry : CTxMemPoolEntry)

theorem data_insertEntry (id : Uint256) :
    (pool.insertEntry hash entry).dataAt id =
      if id = hash then some (pool.prioritised hash entry).toEntryData else pool.dataAt id := by
  simp only [dataAt, insertEntry, ExtTreeMap.getElem?_insert,
    LawfulEqCmp.compare_eq_iff_eq]
  by_cases he : id = hash
  · rw [if_pos he.symm, if_pos he]
    rfl
  · rw [if_neg (Ne.symm he), if_neg he]

theorem links_insertEntry (id : Uint256) :
    (pool.insertEntry hash entry).getMemPoolChildren id = pool.getMemPoolChildren id ∧
      (pool.insertEntry hash entry).getMemPoolParents id = pool.getMemPoolParents id := by
  simp only [getMemPoolChildren, getMemPoolParents, insertEntry,
    ExtTreeMap.getElem?_insertIfNew, LawfulEqCmp.compare_eq_iff_eq]
  split
  · rename_i h
    obtain ⟨rfl, hmem⟩ := h
    rw [ExtTreeMap.getElem?_eq_none hmem]
    exact ⟨rfl, rfl⟩
  · exact ⟨rfl, rfl⟩

theorem hasLinks_insertEntry (id : Uint256) :
    (pool.insertEntry hash entry).HasLinks id ↔ id = hash ∨ pool.HasLinks id := by
  simp only [HasLinks, insertEntry, ← ExtTreeMap.mem_iff_isSome_getElem?,
    ExtTreeMap.mem_insertIfNew, LawfulEqCmp.compare_eq_iff_eq]
  exact or_congr_left eq_comm

theorem existsTx_insertEntry (p : Uint256) :
    (pool.insertEntry hash entry).existsTx p = true ↔ p = hash ∨ pool.existsTx p = true := by
  simp only [existsTx, insertEntry, ← ExtTreeMap.mem_iff_contains,
    ExtTreeMap.mem_insert, LawfulEqCmp.compare_eq_iff_eq]
  exact or_congr_left eq_comm

theorem frame_updateEntryForAncestors (it : Uint256) (setAncestors : SetEntries) :
    Frame pool (pool.updateEntryForAncestors it setAncestors) :=
  frame_modify it fun _ => rfl

/-- `addUnchecked` of a transaction that is not in the pool. -/
theorem adds_addUnchecked {hash : Uint256} (fresh : pool.mapTx[hash]? = none)
    (setAncestors : SetEntries) :
    Adds hash entry pool (pool.addUnchecked hash entry setAncestors) := by
  obtain ⟨pairs, links, hpairs⟩ := (pool.insertEntry hash entry).relinks_linkParents hash entry.tx
  rw [addUnchecked_eq fresh]
  generalize (pool.insertEntry hash entry).linkParents hash entry.tx = linked at links
  have hrest := (frame_updateAncestorsOf linked true hash setAncestors).trans
      (frame_updateEntryForAncestors _ hash setAncestors)
  have hframe := links.frame.trans hrest
  have hparents : ∀ c, ((linked.updateAncestorsOf true hash setAncestors).updateEntryForAncestors
      hash setAncestors).getMemPoolParents c = linked.getMemPoolParents c :=
    fun c => parents_updateAncestorsOf linked true hash setAncestors c
  refine ⟨fun id => ?_, fun o => ?_, hframe.deltas, fun id => ?_, fun c p => ?_, fun p c => ?_⟩
  · exact (hframe.data id).trans (data_insertEntry pool hash entry id)
  · rw [hframe.next]
    exact getElem?_insertPrevouts entry.tx.vin hash pool.mapNextTx o
  · exact (hframe.keys id).trans (hasLinks_insertEntry pool hash entry id)
  · rw [hparents, links.near, hpairs,
      (links_insertEntry pool hash entry c).2, hasLinks_insertEntry, existsTx_insertEntry]
    constructor
    · rintro (h | ⟨h, -⟩)
      · exact .inl h
      · exact .inr h
    · rintro (h | h)
      · exact .inl h
      · exact .inr ⟨h, .inl h.1⟩
  · have hchildren : ∀ p, linked.getMemPoolChildren p = pool.getMemPoolChildren p := by
      intro p
      rw [links.far, (links_insertEntry pool hash entry p).1]
    rw [hparents, hrest.keys, ← hchildren p]
    exact (mem_children_updateAncestorsOf linked true hash setAncestors p c)

end InsertEntry

end CTxMemPool

end KubuCore.Mempool
