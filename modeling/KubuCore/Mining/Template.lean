import KubuCore.Mempool.Limits
import KubuCore.Mining.Assembler

/-!
# Block templates

Both passes of the assembler end without a failed assertion, and leave a list of
distinct transactions of the pool in which the parents of each one come before it.
-/

namespace KubuCore.Mining

open Lineage
open Loops
open Mempool
open Mempool.CTxMemPool
open Sets
open Std (ExtTreeMap ExtTreeSet LawfulEqCmp)

/-- A consistent pool, in which no transaction depends on itself, and an index that
lists every entry once. -/
structure MinerContext.Ok (ctx : MinerContext) : Prop where
  links : LinksOk ctx.pool
  totals : TotalsOk ctx.pool
  acyclic : ∀ p c, ctx.pool.ParentOf p c → ¬ ctx.pool.graph.Above c p
  index : ctx.ancestorScore.Perm ctx.pool.mapTx.keys

/-- The set of the block is that of its list. -/
def SameSet (block : BlockAssembler) : Prop := ∀ id, id ∈ block.inBlock ↔ id ∈ block.vtx

/-- A block that lists transactions of the pool with parents first. -/
structure Sound (ctx : MinerContext) (block : BlockAssembler) : Prop where
  members : SameSet block
  listed : ctx.pool.graph.Listed block.vtx

variable {ctx : MinerContext} {block : BlockAssembler} {iter : Uint256}

theorem SameSet.addToBlock (same : SameSet block) (size : Bool) (iter : Uint256) :
    SameSet (addToBlock ctx size block iter) := by
  intro id
  change id ∈ block.inBlock.insert iter ↔ id ∈ block.vtx ++ [iter]
  rw [mem_insert_iff, List.mem_append, List.mem_singleton, same, or_comm]

theorem length_le_size {xs : List Uint256} (nodup : xs.Nodup)
    (nodes : ∀ id ∈ xs, id ∈ ctx.pool.graph.nodes) : xs.length ≤ ctx.pool.mapTx.size := by
  rw [← List.toFinset_card_of_nodup nodup, ← card_nodes]
  exact Finset.card_le_card fun id hid => nodes id (List.mem_toFinset.mp hid)

/-- What a pass has left to do, if it takes at most `rounds` rounds from one added
transaction to the next. -/
def roomLeft (ctx : MinerContext) (rounds : Nat) (block : BlockAssembler) : Nat :=
  (ctx.pool.mapTx.size - block.vtx.length) * (rounds + 1)

theorem roomLeft_lt (block : BlockAssembler) {rounds more : Nat} {block' : BlockAssembler}
    (sound : Sound ctx block') (grows : block.vtx.length < block'.vtx.length)
    (bound : more ≤ rounds) :
    roomLeft ctx rounds block' + more < roomLeft ctx rounds block := by
  have hfits := length_le_size sound.listed.spec.1 sound.listed.spec.2.1
  have hless : ctx.pool.mapTx.size - block'.vtx.length + 1 ≤
      ctx.pool.mapTx.size - block.vtx.length := by omega
  have hmul := Nat.mul_le_mul_right (rounds + 1) hless
  rw [Nat.add_mul] at hmul
  rw [roomLeft, roomLeft]
  omega

theorem firstOf_mem {α : Type} {before : α → α → Bool} {xs : List α} {x : α}
    (h : firstOf before xs = some x) : x ∈ xs := by
  fun_induction firstOf before xs <;> grind

/-! ## Selection by priority -/

section Priority

/-- The queue, the waiting transactions and the block are apart. -/
structure PriorityInv (ctx : MinerContext) (s : PriorityState) : Prop where
  sound : Sound ctx s.block
  nodup : s.vecPriority.Nodup
  apart : ∀ id ∈ s.vecPriority, id ∉ s.waitPriMap
  outside : ∀ id, id ∈ s.vecPriority ∨ id ∈ s.waitPriMap →
    id ∈ ctx.pool.graph.nodes ∧ id ∉ s.block.vtx

def priorityMeasure (ctx : MinerContext) (s : PriorityState) : Nat :=
  roomLeft ctx ctx.pool.mapTx.size s.block + s.vecPriority.length

variable {s : PriorityState}

theorem PriorityInv.requeue (inv : PriorityInv ctx s) (child : Uint256) :
    PriorityInv ctx (requeue s child) ∧ (Mining.requeue s child).block = s.block := by
  unfold Mining.requeue
  split
  · rename_i hwait
    refine ⟨⟨inv.sound, List.nodup_cons.mpr ⟨fun h => inv.apart child h hwait, inv.nodup⟩,
      fun id hid => ?_, fun id hid => inv.outside id ?_⟩, rfl⟩
    · grind [inv.apart id, mem_erase_iff]
    · grind [mem_erase_iff]
  · exact ⟨inv, rfl⟩

theorem testForBlock_same (ctx : MinerContext) (block : BlockAssembler) (iter : Uint256) :
    ∃ lastFewTxs blockFinished,
      (testForBlock ctx block iter).2 = { block with lastFewTxs, blockFinished } := by
  unfold testForBlock
  dsimp only
  split_ifs <;> exact ⟨_, _, rfl⟩

theorem PriorityInv.tryPriority (inv : PriorityInv ctx s) {s0 : PriorityState}
    (less : priorityMeasure ctx s < priorityMeasure ctx s0) (node : iter ∈ ctx.pool.graph.nodes)
    (new : iter ∉ s.block.vtx) (gone : ¬ (iter ∈ s.vecPriority ∨ iter ∈ s.waitPriMap))
    (ready : ∀ p, ctx.pool.ParentOf p iter → p ∈ s.block.vtx) :
    Progress (PriorityInv ctx) (fun s => Sound ctx s.block) (priorityMeasure ctx) s0
      (tryPriority ctx s iter) := by
  obtain ⟨lastFewTxs, blockFinished, hsame⟩ := testForBlock_same ctx s.block iter
  have htested : Sound ctx { s.block with lastFewTxs, blockFinished } :=
    ⟨inv.sound.members, inv.sound.listed⟩
  unfold Mining.tryPriority
  dsimp only
  rw [hsame]
  generalize hblock : addToBlock ctx true _ iter = block
  have hvtx : block.vtx = s.block.vtx ++ [iter] := by rw [← hblock]; rfl
  have hsound : Sound ctx block :=
    ⟨hblock ▸ htested.members.addToBlock true iter, hvtx ▸ inv.sound.listed.snoc node new ready⟩
  split
  · split
    · exact hsound
    · have hstart : PriorityInv ctx { s with block } := by
        refine ⟨hsound, inv.nodup, inv.apart, fun id hid => ?_⟩
        grind [inv.outside id hid]
      obtain ⟨hinv, hkeeps⟩ := List.foldlRecOn
        (motive := fun t => PriorityInv ctx t ∧ t.block = block) _ Mining.requeue ⟨hstart, rfl⟩
        fun t ht child _ => ⟨(ht.1.requeue child).1, (ht.1.requeue child).2.trans ht.2⟩
      have hroom := roomLeft_lt s.block hsound (by simp [hvtx])
        (length_le_size hinv.nodup fun id hid => (hinv.outside id (.inl hid)).1)
      refine ⟨hinv, lt_trans ?_ less⟩
      rw [priorityMeasure, hkeeps]
      exact lt_of_lt_of_le hroom (Nat.le_add_right _ _)
  · exact ⟨⟨htested, inv.nodup, inv.apart, inv.outside⟩, less⟩

theorem PriorityInv.round (ok : ctx.Ok) (inv : PriorityInv ctx s) :
    Progress (PriorityInv ctx) (fun s => Sound ctx s.block) (priorityMeasure ctx) s
      (priorityRound ctx s) := by
  have hmembers := inv.sound.members
  unfold priorityRound
  split
  · exact inv.sound
  · split
    · exact inv.sound
    · rename_i iter hfirst
      have hmem := firstOf_mem hfirst
      obtain ⟨hnode, hnew⟩ := inv.outside iter (.inl hmem)
      have hgone : iter ∉ s.vecPriority.erase iter := inv.nodup.not_mem_erase
      have hrest : PriorityInv ctx { s with vecPriority := s.vecPriority.erase iter } :=
        ⟨inv.sound, inv.nodup.erase iter, fun id hid => inv.apart id (List.mem_of_mem_erase hid),
          fun id hid => inv.outside id (hid.imp_left List.mem_of_mem_erase)⟩
      have hless : priorityMeasure ctx { s with vecPriority := s.vecPriority.erase iter } <
          priorityMeasure ctx s := by
        have hpos := List.length_pos_of_mem hmem
        simp only [priorityMeasure, List.length_erase_of_mem hmem]
        omega
      dsimp only
      split_ifs with hin hwitness hdependent
      · exact hnew ((hmembers iter).mp hin)
      · exact ⟨hrest, hless⟩
      · refine ⟨⟨inv.sound, hrest.nodup, fun id hid => ?_, fun id hid => ?_⟩, hless⟩
        · grind [hrest.apart id, mem_insert_iff]
        · grind [hrest.outside id, mem_insert_iff]
      · refine hrest.tryPriority hless hnode hnew (not_or.mpr ⟨hgone, inv.apart iter hmem⟩) ?_
        intro p hp
        have hparent := ExtTreeSet.mem_toList.mpr ((ok.links.parents iter p).mpr hp)
        simp only [isStillDependent, List.any_eq_true, not_exists, not_and] at hdependent
        exact (hmembers p).mp (by simpa using hdependent p hparent)

theorem addPriorityTxs_sound (ok : ctx.Ok) (sound : Sound ctx block) (empty : block.vtx = []) :
    ∃ block', addPriorityTxs ctx block = some block' ∧ Sound ctx block' := by
  rw [addPriorityTxs]
  split
  · exact ⟨block, rfl, sound⟩
  · have hinv : PriorityInv ctx ⟨block, ctx.pool.mapTx.keys, ∅⟩ :=
      ⟨sound, nodup_keys _, by simp, fun id hid => by simpa [empty, graph] using hid⟩
    have henough : priorityMeasure ctx ⟨block, ctx.pool.mapTx.keys, ∅⟩ < priorityRounds ctx := by
      simp only [priorityMeasure, roomLeft, priorityRounds, ExtTreeMap.length_keys, empty,
        List.length_nil, Nat.sub_zero]
      nlinarith
    obtain ⟨s, hrun, hsound⟩ := run_spec (fun _ inv => PriorityInv.round ok inv) hinv henough
    exact ⟨s.block, by rw [hrun]; rfl, hsound⟩

end Priority

/-! ## Selection by ancestor fee rate -/

/-- The modified entries are outside the block. -/
structure PackageInv (ctx : MinerContext) (s : PackageState) : Prop where
  sound : Sound ctx s.block
  modified : ∀ id ∈ s.mapModifiedTx, id ∈ ctx.pool.graph.nodes ∧ id ∉ s.block.vtx
  index : s.mi <:+ ctx.ancestorScore

def packageMeasure (ctx : MinerContext) (s : PackageState) : Nat :=
  roomLeft ctx (2 * ctx.pool.mapTx.size + 1) s.block + (s.mi.length + s.mapModifiedTx.size)

/-- The transaction that is evaluated; if it fails, the loop goes on. -/
structure Chosen (ctx : MinerContext) (s : PackageState) (c : Candidate) : Prop where
  node : c.iter ∈ ctx.pool.graph.nodes
  new : c.iter ∉ s.block.vtx
  failed : PackageInv ctx (dropFailed s c)
  less : packageMeasure ctx (dropFailed s c) < packageMeasure ctx s

variable {s : PackageState} {c : Candidate}

theorem PackageInv.pending_le (ok : ctx.Ok) (inv : PackageInv ctx s) :
    s.mi.length + s.mapModifiedTx.size ≤ 2 * ctx.pool.mapTx.size := by
  have hindex := inv.index.length_le.trans ok.index.length_eq.le
  have hmodified := length_le_size (nodup_keys _) fun id hid =>
    (inv.modified id (ExtTreeMap.mem_keys.mp hid)).1
  rw [ExtTreeMap.length_keys] at hindex hmodified
  omega

theorem PackageInv.chosen_modified (inv : PackageInv ctx s) {best : Uint256 × ModifiedEntry}
    (h : firstOf ctx.compareModifiedEntry s.mapModifiedTx.toList = some best) :
    Chosen ctx s ⟨best.1, best.2, true, s.mi⟩ := by
  have hmem : best.1 ∈ s.mapModifiedTx :=
    mem_iff_exists.mpr ⟨best.2, ExtTreeMap.mem_toList_iff_getElem?_eq_some.mp (firstOf_mem h)⟩
  obtain ⟨hnode, hnew⟩ := inv.modified _ hmem
  refine ⟨hnode, hnew, ⟨inv.sound, fun id hid => inv.modified id ?_, inv.index⟩, ?_⟩
  · exact (ExtTreeMap.mem_erase.mp hid).2
  · have hpos := List.length_pos_of_mem (ExtTreeMap.mem_keys.mpr hmem)
    rw [ExtTreeMap.length_keys] at hpos
    simp only [packageMeasure, dropFailed, if_true, ExtTreeMap.size_erase,
      ExtTreeMap.contains_iff_mem.mpr hmem]
    omega

theorem PackageInv.chosen_next (ok : ctx.Ok) (inv : PackageInv ctx s) {it : Uint256}
    {rest : List Uint256} (h : s.mi = it :: rest) (fresh : skipMapTxEntry s it = false) :
    Chosen ctx s ⟨it, modifiedEntry ctx it, false, rest⟩ := by
  have hindex := h ▸ inv.index
  refine ⟨List.mem_toFinset.mpr (ok.index.subset (hindex.subset List.mem_cons_self)), fun hin => ?_,
    ⟨inv.sound, inv.modified, (List.suffix_cons it rest).trans hindex⟩, ?_⟩
  · have hblock := ExtTreeSet.contains_iff_mem.mpr ((inv.sound.members it).mpr hin)
    simp [skipMapTxEntry, hblock] at fresh
  · simp [packageMeasure, dropFailed, h]

/-- The package of a transaction: its ancestors outside the block, and itself. -/
theorem mem_packageOf (ok : ctx.Ok) (sound : Sound ctx s.block) (new : iter ∉ s.block.vtx)
    (z : Uint256) :
    z ∈ packageOf ctx s iter ↔ ctx.pool.graph.Above z iter ∧ z ∉ s.block.vtx := by
  rw [packageOf, mem_insert_iff]
  by_cases hz : z = iter
  · subst hz
    exact iff_of_true (.inl rfl) ⟨.refl, new⟩
  · rw [or_iff_right hz, ← mem_linkedAncestors_of_apart ok.links hz, ← sound.members]
    simp [onlyUnconfirmed, ExtTreeSet.mem_filter, ← Bool.not_eq_true, ExtTreeSet.contains_iff_mem]

/-- A parent has fewer ancestors than its child. -/
theorem count_lt (ok : ctx.Ok) {p q : Uint256} (h : ctx.pool.ParentOf p q) :
    getCountWithAncestors ctx p < getCountWithAncestors ctx q := by
  have hcount : ∀ id ∈ ctx.pool.graph.nodes,
      getCountWithAncestors ctx id = (ctx.pool.graph.lineage id).card := by
    intro id hid
    obtain ⟨e, he⟩ := Option.isSome_iff_exists.mp (Option.isSome_map.symm.trans (mem_nodes.mp hid))
    have hone : ∀ a ∈ ctx.pool.graph.lineage id,
        (ctx.pool.loadAt EntryData.ancestorLoad a).1 = 1 := by
      intro a ha
      obtain ⟨d, hd⟩ := Option.isSome_iff_exists.mp (mem_nodes.mp ((Graph.mem_lineage _).mp ha).1)
      simp only [loadAt, hd]
      rfl
    have hsum := congrArg Prod.fst (ok.totals.ancestors id e he)
    rw [Prod.fst_sum, Finset.sum_congr rfl hone] at hsum
    simpa [getCountWithAncestors, he, CTxMemPoolEntry.withAncestors] using hsum
  have hq := ctx.pool.graph.child_mem h
  rw [hcount p (mem_nodes.mpr h.1), hcount q hq, Nat.cast_lt]
  refine Finset.card_lt_card ⟨fun a ha => ?_, fun hsub => ?_⟩
  · obtain ⟨hnode, path⟩ := (Graph.mem_lineage _).mp ha
    exact (Graph.mem_lineage _).mpr ⟨hnode, path.tail h⟩
  · have hself := hsub ((Graph.mem_lineage _).mpr ⟨hq, .refl⟩)
    exact ok.acyclic p q h ((Graph.mem_lineage _).mp hself).2

/-- A new modified entry is that of a descendant outside the package. -/
theorem updatePackages_keeps (ok : ctx.Ok) {added : SetEntries} {Good : Uint256 → Prop}
    {m : ModifiedTxs} (start : ∀ id ∈ m, Good id)
    (each : ∀ it ∈ added, it ∈ ctx.pool.graph.nodes ∧
      ∀ id, ctx.pool.graph.Above it id → id ∉ added → Good id) :
    ∀ id ∈ updatePackagesForAdded ctx added m, Good id := by
  refine List.foldlRecOn (motive := fun m : ModifiedTxs => ∀ id ∈ m, Good id) _ _ start ?_
  intro m hm it hit
  obtain ⟨hnode, hgood⟩ := each it (ExtTreeSet.mem_toList.mp hit)
  refine List.foldlRecOn (motive := fun m : ModifiedTxs => ∀ id ∈ m, Good id) _ _ hm ?_
  intro m hm desc hdesc
  split
  · exact hm
  · rename_i hout
    intro id hid
    rcases ExtTreeMap.mem_insert.mp hid with h | h
    · rw [← LawfulEqCmp.eq_of_compare h]
      exact hgood desc ((mem_progeny_iff ok.links (mem_nodes.mp hnode)).mp
        (ExtTreeSet.mem_toList.mp hdesc)) hout
    · exact hm id h

theorem SameSet.foldl_addToBlock (same : SameSet block) (size : Bool) (xs : List Uint256) :
    SameSet (xs.foldl (Mining.addToBlock ctx size) block) ∧
      (xs.foldl (Mining.addToBlock ctx size) block).vtx = block.vtx ++ xs := by
  induction xs generalizing block with
  | nil => exact ⟨same, (List.append_nil _).symm⟩
  | cons x xs ih =>
    obtain ⟨hsame, hvtx⟩ := ih (same.addToBlock size x)
    exact ⟨hsame, hvtx.trans (List.append_assoc _ _ _)⟩

theorem PackageInv.addPackage (ok : ctx.Ok) (inv : PackageInv ctx s) (chosen : Chosen ctx s c) :
    PackageInv ctx (addPackage ctx s c) ∧
      packageMeasure ctx (Mining.addPackage ctx s c) < packageMeasure ctx s := by
  have hmem := mem_packageOf ok inv.sound chosen.new
  have hperm := (packageOf ctx s c.iter).toList.perm_insertionSort fun a b =>
    getCountWithAncestors ctx a ≤ getCountWithAncestors ctx b
  have hsort : ∀ z, z ∈ sortForBlock ctx (packageOf ctx s c.iter) ↔
      ctx.pool.graph.Above z c.iter ∧ z ∉ s.block.vtx := fun z => by
    rw [sortForBlock, hperm.mem_iff, ExtTreeSet.mem_toList, hmem]
  obtain ⟨hsame, hvtx⟩ := inv.sound.members.foldl_addToBlock ctx.args.fNeedSizeAccounting
    (sortForBlock ctx (packageOf ctx s c.iter))
  have hlisted : ctx.pool.graph.Listed (Mining.addPackage ctx s c).block.vtx := by
    refine hvtx ▸ inv.sound.listed.append_sorted (fun p q h => count_lt ok h)
      (hperm.nodup_iff.mpr (nodup_toList _)) (fun x hx => ?_) (fun x hx p hp => ?_)
      (List.pairwise_insertionSort _ _)
    · obtain ⟨path, hnew⟩ := (hsort x).mp hx
      exact ⟨path.mem chosen.node, hnew⟩
    · rw [hsort]
      by_cases h : p ∈ s.block.vtx
      · exact .inl h
      · exact .inr ⟨.head hp ((hsort x).mp hx).1, h⟩
  have hsound : Sound ctx (Mining.addPackage ctx s c).block := ⟨hsame, hlisted⟩
  have hin : ∀ z, z ∈ (Mining.addPackage ctx s c).block.vtx →
      z ∈ s.block.vtx ∨ ctx.pool.graph.Above z c.iter := by
    intro z hz
    rcases List.mem_append.mp (hvtx ▸ hz) with hz | hz
    · exact .inl hz
    · exact .inr ((hsort z).mp hz).1
  have hinv : PackageInv ctx (Mining.addPackage ctx s c) := by
    refine ⟨hsound, updatePackages_keeps ok (fun id hid => ?_) fun it hit => ?_, ?_⟩
    · rw [mem_iff_exists, getElem?_foldl_erase] at hid
      grind [inv.modified id, hin id, hsort id, mem_iff_exists]
    · obtain ⟨hpath, hnew⟩ := (hmem it).mp hit
      have hnode := hpath.mem chosen.node
      refine ⟨hnode, fun id path hout => ⟨path.mem_below hnode, fun h => ?_⟩⟩
      have hfree : id ∉ s.block.vtx := fun h => hnew (inv.sound.listed.above path h)
      exact (hin id h).elim hfree fun h => hout ((hmem id).mpr ⟨h, hfree⟩)
    · have hindex := chosen.failed.index
      unfold dropFailed at hindex
      split at hindex <;> exact hindex
  have hpos := List.length_pos_of_mem ((hsort c.iter).mpr ⟨.refl, chosen.new⟩)
  have hlength := (congrArg List.length hvtx).trans List.length_append
  have hroom := roomLeft_lt s.block hsound
    (lt_of_lt_of_eq (Nat.lt_add_of_pos_right hpos) hlength.symm)
    (Nat.le_succ_of_le (hinv.pending_le ok))
  exact ⟨hinv, lt_of_lt_of_le hroom (Nat.le_add_right _ _)⟩

theorem PackageInv.evaluate (ok : ctx.Ok) (inv : PackageInv ctx s) (chosen : Chosen ctx s c) :
    Progress (PackageInv ctx) (fun s => Sound ctx s.block) (packageMeasure ctx) s
      (evaluate ctx s c) := by
  have hnew : c.iter ∉ s.block.inBlock := mt (inv.sound.members c.iter).mp chosen.new
  simp only [Mining.evaluate, if_neg hnew]
  split_ifs
  · exact inv.sound
  · exact chosen.failed.sound
  · exact ⟨{ chosen.failed with }, chosen.less⟩
  · exact ⟨chosen.failed, chosen.less⟩
  · exact inv.addPackage ok chosen

theorem PackageInv.round (ok : ctx.Ok) (inv : PackageInv ctx s) :
    Progress (PackageInv ctx) (fun s => Sound ctx s.block) (packageMeasure ctx) s
      (packageRound ctx s) := by
  unfold packageRound choose
  dsimp only
  cases hmi : s.mi with
  | nil =>
    cases hbest : firstOf ctx.compareModifiedEntry s.mapModifiedTx.toList with
    | none => exact inv.sound
    | some best =>
      have hbetter := inv.evaluate ok (inv.chosen_modified hbest)
      rwa [hmi] at hbetter
  | cons it rest =>
    dsimp only
    cases hskip : skipMapTxEntry s it with
    | true =>
      refine ⟨⟨inv.sound, inv.modified, (List.suffix_cons it rest).trans (hmi ▸ inv.index)⟩, ?_⟩
      simp [packageMeasure, hmi]
    | false =>
      have hnext := inv.evaluate ok (inv.chosen_next ok hmi hskip)
      cases hbest : firstOf ctx.compareModifiedEntry s.mapModifiedTx.toList with
      | none => exact hnext
      | some best =>
        have hbetter := inv.evaluate ok (inv.chosen_modified hbest)
        rw [hmi] at hbetter
        simp only [Bool.false_eq_true, if_false]
        split_ifs
        · exact hbetter
        · exact hnext

theorem addPackageTxs_sound (ok : ctx.Ok) (sound : Sound ctx block) :
    ∃ block', addPackageTxs ctx block = some block' ∧ Sound ctx block' := by
  have hmodified : ∀ id ∈ (packageStart ctx block).mapModifiedTx,
      id ∈ ctx.pool.graph.nodes ∧ id ∉ block.vtx := by
    refine updatePackages_keeps ok (fun id hid => absurd hid ExtTreeMap.not_mem_empty) ?_
    intro it hit
    have hnode := sound.listed.spec.2.1 it ((sound.members it).mp hit)
    refine ⟨hnode, fun id path hout => ⟨path.mem_below hnode, fun h => ?_⟩⟩
    exact hout ((sound.members id).mpr h)
  have hinv : PackageInv ctx (packageStart ctx block) := ⟨sound, hmodified, List.suffix_rfl⟩
  have henough : packageMeasure ctx (packageStart ctx block) < packageRounds ctx := by
    have hpending := hinv.pending_le ok
    have hroom : roomLeft ctx (2 * ctx.pool.mapTx.size + 1) block ≤
        ctx.pool.mapTx.size * (2 * ctx.pool.mapTx.size + 2) :=
      Nat.mul_le_mul_right _ (Nat.sub_le _ _)
    simp only [packageMeasure, packageRounds, packageStart, Nat.add_mul] at hpending ⊢
    omega
  obtain ⟨s, hrun, hsound⟩ := run_spec (fun _ inv => PackageInv.round ok inv) hinv henough
  exact ⟨s.block, by rw [addPackageTxs, hrun]; rfl, hsound⟩

/-- For every consistent pool and all settings the selection for a block ends without a failed
assertion, and lists distinct transactions of the pool, each after all its parents. -/
theorem selectTransactions_sound (ok : ctx.Ok) :
    ∃ block, selectTransactions ctx = some block ∧ Sound ctx block := by
  have hempty : Sound ctx {} := ⟨by simp [SameSet], .nil⟩
  obtain ⟨first, hfirst, hsound⟩ := addPriorityTxs_sound ok hempty rfl
  obtain ⟨block, hblock, hsound⟩ := addPackageTxs_sound ok hsound
  exact ⟨block, by rw [selectTransactions, hfirst]; exact hblock, hsound⟩

/-- The settings of a node that did not set any, with a parent and its child in the pool. The
index lists the child first. -/
def sampleMiner : MinerContext where
  pool := pairPool
  args := {}
  blockMinFeeRate := 0
  fIncludeWitness := false
  facts _ := { weight := 320, serializeSize := 80, hasWitness := false, isFinal := true,
               allowFree := true }
  ancestorScore := [2, 1]
  compareModifiedEntry _ _ := false
  priorityBefore _ _ := false

theorem sampleMiner_ok : sampleMiner.Ok := by
  have limited := pairPool_limited.limited
  refine ⟨limited.links, limited.totals, ?_, ?_⟩
  · intro p c hedge path
    obtain ⟨rfl, rfl⟩ := pairPool_parentOf hedge
    rcases Relation.ReflTransGen.cases_head path with he | ⟨z, hz, -⟩
    · cases he
    · cases (pairPool_parentOf hz).1
  · have hkeys : pairPool.mapTx.keys = [1, 2] := by decide +kernel
    change [2, 1].Perm pairPool.mapTx.keys
    rw [hkeys]
    exact .swap 1 2 []

theorem selectTransactions_sample :
    pairPool.ParentOf 1 2 ∧ ∃ block, selectTransactions sampleMiner = some block ∧
      block.vtx = [1, 2] ∧ Sound sampleMiner block := by
  have adds : Adds 2 childEntry (spentPool false) pairPool :=
    adds_addUnchecked _ childEntry childEntry_new.fresh _
  have hvtx : (selectTransactions sampleMiner).map BlockAssembler.vtx = some [1, 2] := by
    decide +kernel
  obtain ⟨block, hblock, sound⟩ := selectTransactions_sound sampleMiner_ok
  rw [hblock] at hvtx
  exact ⟨⟨by decide +kernel, _, (adds.data 2).trans (if_pos rfl), _, List.mem_cons_self, rfl⟩,
    block, hblock, Option.some.inj hvtx, sound⟩

end KubuCore.Mining
