import KubuCore.Base.Lineage
import KubuCore.Mempool.Accepted

/-!
# The graph of the pool

A transaction of the pool is a parent of another that spends one of its outputs.
When the links are those of this graph, the walks of the pool find exactly the
ancestors and the descendants, and the limits of `CalculateMemPoolAncestors` bound
what it returns.
-/

namespace KubuCore.Mempool

open Checked
open Lineage
open Sets
open Worklist
open Std

namespace CTxMemPool

/-- The entry `c` spends an output of the entry `p`. -/
def ParentOf (pool : CTxMemPool) (p c : Uint256) : Prop :=
  (pool.dataAt p).isSome ∧ ∃ d, pool.dataAt c = some d ∧ ∃ txin ∈ d.tx.vin, txin.prevout.hash = p

theorem mem_keys_iff (pool : CTxMemPool) (id : Uint256) :
    id ∈ pool.mapTx.keys.toFinset ↔ (pool.dataAt id).isSome := by
  rw [List.mem_toFinset, ExtTreeMap.mem_keys, dataAt, Option.isSome_map,
    ExtTreeMap.mem_iff_isSome_getElem?]

def graph (pool : CTxMemPool) : Graph Uint256 where
  nodes := pool.mapTx.keys.toFinset
  Parent := pool.ParentOf
  parent_mem h := (pool.mem_keys_iff _).mpr h.1
  child_mem h := by
    obtain ⟨-, d, hd, -⟩ := h
    rw [mem_keys_iff, hd]
    rfl

theorem mem_nodes {pool : CTxMemPool} {id : Uint256} :
    id ∈ pool.graph.nodes ↔ (pool.dataAt id).isSome := pool.mem_keys_iff id

theorem card_nodes (pool : CTxMemPool) : pool.graph.nodes.card = pool.mapTx.size := by
  rw [graph, List.toFinset_card_of_nodup, ExtTreeMap.length_keys]
  refine ExtTreeMap.distinct_keys.imp ?_
  rintro a b hne rfl
  exact hne ReflCmp.compare_self

theorem graph_congr {pool pool' : CTxMemPool} (data : ∀ id, pool'.dataAt id = pool.dataAt id) :
    pool'.graph = pool.graph := by
  have hnodes : pool'.mapTx.keys.toFinset = pool.mapTx.keys.toFinset := by
    ext id
    rw [mem_keys_iff, mem_keys_iff, data]
  have hparent : pool'.ParentOf = pool.ParentOf := by
    funext p c
    rw [ParentOf, ParentOf, data, data]
  simp only [graph, hnodes, hparent]

/-- The links are those of the graph, in both directions. -/
structure LinksOk (pool : CTxMemPool) : Prop where
  keys : ∀ id, pool.HasLinks id ↔ (pool.dataAt id).isSome
  parents : ∀ c p, p ∈ pool.getMemPoolParents c ↔ pool.ParentOf p c
  children : ∀ p c, c ∈ pool.getMemPoolChildren p ↔ pool.ParentOf p c

variable {pool : CTxMemPool}

/-! ## Descendants -/

section Links

variable (links : LinksOk pool)

include links

theorem edge_children {x y : Uint256} :
    Relation.ReflTransGen (Edge pool.getMemPoolChildren) x y ↔ pool.graph.Above x y := by
  have hedge : Edge pool.getMemPoolChildren = pool.graph.Parent := by
    funext p c
    exact propext (links.children p c)
  rw [hedge]
  rfl

variable {it z : Uint256}

/-- `CalculateDescendants` on top of a closed set. -/
theorem mem_calculateDescendants_iff {done : SetEntries}
    (closed : ∀ p c, pool.ParentOf p c → p ∈ done → c ∈ done) (hit : (pool.dataAt it).isSome) :
    z ∈ pool.calculateDescendants done it ↔ z ∈ done ∨ pool.graph.Above it z := by
  rw [calculateDescendants]
  have hstage : ∀ x ∈ (if it ∈ done then ∅ else (∅ : SetEntries).insert it),
      x = it ∧ it ∉ done := by
    intro x hx
    split at hx
    · exact absurd hx ExtTreeSet.not_mem_empty
    · rename_i hnot
      exact ⟨(mem_insert_iff.mp hx).resolve_right ExtTreeSet.not_mem_empty, hnot⟩
  rw [mem_collect (fun x _ y hy => pool.graph.child_mem ((links.children x y).mp hy))
    (fun x hx => (hstage x hx).1 ▸ mem_nodes.mpr hit)
    (fun x hx y hy => .inr (closed x y ((links.children x y).mp hy) hx)) pool.card_nodes.le]
  constructor
  · rintro (hz | ⟨x, hx, path⟩)
    · exact .inl hz
    · rw [(hstage x hx).1, edge_children links] at path
      exact .inr path
  · rintro (hz | path)
    · exact .inl hz
    · by_cases hdone : it ∈ done
      · exact .inl (path.closed (S := {x | x ∈ done}) closed hdone)
      · rw [if_neg hdone]
        exact .inr ⟨it, mem_insert_iff.mpr (.inl rfl), (edge_children links).mpr path⟩

theorem mem_progeny_iff (hit : (pool.dataAt it).isSome) :
    z ∈ pool.calculateDescendants ∅ it ↔ pool.graph.Above it z := by
  rw [mem_calculateDescendants_iff links
    (fun _ _ _ h => absurd h ExtTreeSet.not_mem_empty) hit]
  exact or_iff_right ExtTreeSet.not_mem_empty

/-- The descendants of a set of entries, with the entries. -/
theorem mem_calculateAllDescendants_iff {entries : SetEntries}
    (inside : ∀ x ∈ entries, (pool.dataAt x).isSome) :
    z ∈ pool.calculateAllDescendants entries ↔ ∃ x ∈ entries, pool.graph.Above x z := by
  have hfold : ∀ (ids : List Uint256) (done : SetEntries),
      (∀ x ∈ ids, (pool.dataAt x).isSome) →
      (∀ p c, pool.ParentOf p c → p ∈ done → c ∈ done) →
      (z ∈ ids.foldl pool.calculateDescendants done ↔
        z ∈ done ∨ ∃ x ∈ ids, pool.graph.Above x z) := by
    intro ids
    induction ids with
    | nil => simp
    | cons it ids ih =>
      intro done hids closed
      have hit := hids it List.mem_cons_self
      rw [List.foldl_cons, ih _ fun x hx => hids x (List.mem_cons_of_mem it hx)]
      · rw [mem_calculateDescendants_iff links closed hit, or_assoc]
        simp only [List.mem_cons, exists_eq_or_imp]
      · intro p c hedge hp
        rw [mem_calculateDescendants_iff links closed hit] at hp ⊢
        exact hp.imp (closed p c hedge) fun path => path.tail hedge
  rw [calculateAllDescendants, hfold _ _ (fun x hx => inside x (ExtTreeSet.mem_toList.mp hx))
    fun _ _ _ h => absurd h ExtTreeSet.not_mem_empty]
  simp only [ExtTreeSet.not_mem_empty, false_or, ExtTreeSet.mem_toList]

end Links

/-! ## Ancestors -/

variable {limits : AncestorLimits} {done stage result : SetEntries} {entrySize total : Int}
  {z : Uint256}

theorem stageParents_eq {ys : List Uint256} {stage' : SetEntries}
    (h : ys.foldlM (stageParent limits done) stage = .ok stage') :
    ys.foldl (visit fun _ => none) (stage, done) = (stage', done) := by
  induction ys generalizing stage with
  | nil =>
    cases h
    rfl
  | cons y ys ih =>
    simp only [List.foldlM_cons, stageParent, eq_ok] at h
    obtain ⟨_, ⟨-, -, rfl⟩, hrest⟩ := h
    rw [List.foldl_cons, ← ih hrest]
    by_cases hmem : y ∈ done
    · simp only [visit, if_pos hmem]
    · simp only [visit, if_neg hmem]

/-- A walk that ends within the limits is the walk without limits. -/
theorem ancestorLoop_eq {fuel : Nat}
    (h : pool.ancestorLoop limits entrySize fuel stage done total = .ok result) :
    result = collect pool.getMemPoolParents fuel stage done := by
  induction fuel generalizing stage done total with
  | zero =>
    cases h
    rfl
  | succ fuel ih =>
    rw [ancestorLoop] at h
    rw [collect, collectWith]
    cases hmin : first? stage with
    | none =>
      rw [hmin] at h
      cases h
      rfl
    | some x =>
      simp only [hmin, eq_ok] at h
      obtain ⟨-, -, -, -, -, -, stage', hstage, hrest⟩ := h
      rw [ih hrest]
      simp only [stageParents_eq hstage]
      rfl

section

variable (parents : ∀ c p, p ∈ pool.getMemPoolParents c ↔ pool.ParentOf p c)
include parents

theorem edge_parents {x y : Uint256} :
    Relation.ReflTransGen (Edge pool.getMemPoolParents) x y ↔ pool.graph.Above y x := by
  have hedge : Edge pool.getMemPoolParents = pool.graph.reverse.Parent := by
    funext c p
    exact propext (parents c p)
  rw [hedge]
  exact pool.graph.above_reverse

theorem mem_ancestorLoop (inside : ∀ p ∈ stage, (pool.dataAt p).isSome)
    (h : pool.ancestorLoop limits entrySize pool.mapTx.size stage ∅ total = .ok result) :
    z ∈ result ↔ ∃ p ∈ stage, pool.graph.Above z p := by
  rw [ancestorLoop_eq h,
    mem_collect (fun x _ y hy => pool.graph.parent_mem ((parents x y).mp hy))
      (fun x hx => mem_nodes.mpr (inside x hx))
      (fun x hx => absurd hx ExtTreeSet.not_mem_empty) pool.card_nodes.le]
  simp only [ExtTreeSet.not_mem_empty, false_or, edge_parents parents]

end

theorem mem_searchParents {vin : List CTxIn} {set set' : SetEntries}
    (h : pool.searchParents limits set vin = .ok set') (z : Uint256) :
    z ∈ set' ↔ z ∈ set ∨ ((pool.dataAt z).isSome ∧ ∃ txin ∈ vin, txin.prevout.hash = z) := by
  induction vin generalizing set with
  | nil =>
    cases h
    simp
  | cons txin vin ih =>
    rw [searchParents] at h
    simp only [List.mem_cons, exists_eq_or_imp]
    split_ifs at h with hin
    · rw [existsTx_eq] at hin
      simp only [eq_ok] at h
      obtain ⟨-, -, h⟩ := h
      rw [ih h, mem_insert_iff]
      constructor
      · rintro ((rfl | hz) | ⟨hz, htxin⟩)
        · exact .inr ⟨hin, .inl rfl⟩
        · exact .inl hz
        · exact .inr ⟨hz, .inr htxin⟩
      · rintro (hz | ⟨hz, rfl | htxin⟩)
        · exact .inl (.inr hz)
        · exact .inl (.inl rfl)
        · exact .inr ⟨hz, htxin⟩
    · rw [existsTx_eq] at hin
      rw [ih h]
      refine or_congr_right (and_congr_right fun hz => (or_iff_right ?_).symm)
      rintro rfl
      exact hin hz

/-- The entries whose outputs a transaction spends. -/
def SpendsFrom (pool : CTxMemPool) (tx : CTransaction) : Set Uint256 :=
  {p | (pool.dataAt p).isSome ∧ ∃ txin ∈ tx.vin, txin.prevout.hash = p}

/-- `CalculateMemPoolAncestors` finds the ancestors of a new transaction. -/
theorem mem_calculateMemPoolAncestors (links : LinksOk pool) {tx : CTransaction}
    {setAncestors : SetEntries}
    (h : pool.calculateMemPoolAncestors limits tx entrySize = .ok setAncestors) :
    z ∈ setAncestors ↔ ∃ p ∈ pool.SpendsFrom tx, pool.graph.Above z p := by
  simp only [calculateMemPoolAncestors, bind_eq_ok] at h
  obtain ⟨parentHashes, hparents, hloop⟩ := h
  have hmem : ∀ p, p ∈ parentHashes ↔ p ∈ pool.SpendsFrom tx := by
    intro p
    rw [mem_searchParents hparents]
    exact or_iff_right ExtTreeSet.not_mem_empty
  rw [mem_ancestorLoop links.parents (fun p hp => ((hmem p).mp hp).1) hloop]
  simp only [hmem]

theorem stageParents_ok (done : SetEntries) (ys : List Uint256) (stage : SetEntries) :
    ∃ stage', ys.foldlM (stageParent {} done) stage = .ok stage' := by
  induction ys generalizing stage with
  | nil => exact ⟨stage, rfl⟩
  | cons y ys ih =>
    obtain ⟨stage', hstage⟩ := ih (if y ∈ done then stage else stage.insert y)
    exact ⟨stage', hstage⟩

/-- Without limits the walk cannot fail. -/
theorem ancestorLoop_ok (entrySize total : Int) (fuel : Nat) (stage done : SetEntries) :
    ∃ result, pool.ancestorLoop {} entrySize fuel stage done total = .ok result := by
  induction fuel generalizing stage done total with
  | zero => exact ⟨done, rfl⟩
  | succ fuel ih =>
    rw [ancestorLoop]
    cases hmin : first? stage with
    | none => exact ⟨done, rfl⟩
    | some x =>
      obtain ⟨stage', hstage⟩ :=
        stageParents_ok (done.insert x) (pool.getMemPoolParents x).toList (stage.erase x)
      obtain ⟨result, hresult⟩ :=
        ih (total + (pool.mapTx[x]?.map fun e => e.nTxSize).getD 0) stage' (done.insert x)
      refine ⟨result, ?_⟩
      simp only [eq_ok]
      exact ⟨(), by simp [exceeds], (), by simp [exceeds], (), by simp [exceeds], stage', hstage,
        hresult⟩

/-- The ancestors of an entry through its links, without the entry unless it is
its own ancestor. -/
theorem mem_linkedAncestors (parents : ∀ c p, p ∈ pool.getMemPoolParents c ↔ pool.ParentOf p c)
    {it : Uint256} :
    z ∈ pool.linkedAncestors it ↔ ∃ p, pool.ParentOf p it ∧ pool.graph.Above z p := by
  obtain ⟨result, hresult⟩ := pool.ancestorLoop_ok
    ((pool.mapTx[it]?.map fun e => e.nTxSize).getD 0)
    ((pool.mapTx[it]?.map fun e => e.nTxSize).getD 0) pool.mapTx.size (pool.getMemPoolParents it) ∅
  simp only [linkedAncestors, hresult]
  rw [mem_ancestorLoop parents (fun p hp => ((parents it p).mp hp).1) hresult]
  simp only [parents]

end CTxMemPool

end KubuCore.Mempool
