import KubuCore.Chain.FailureFlags

/-!
# Stored and linked blocks

Blocks arrive in any order. A block is linked once it and all its ancestors are
stored; until then it waits in `mapBlocksUnlinked` under its parent. The
invariants here say what the index knows about stored blocks and their flags,
with the queue of `ReceivedBlockTransactions` as a parameter, and are kept when
a block of the queue is linked.
-/

namespace KubuCore.BlockTree

open KubuCore.RootedTree

variable {B : Type} {tree : HeaderTree B}

/-- The block and all its ancestors have been processed. -/
def Linked (state : BlockManager B) (b : B) : Prop := (state.status b).nChainTx ≠ 0

/-- The part of the index that blocks bring with them; `queue` holds the stored blocks that are
about to be linked. -/
structure DataInv (tree : HeaderTree B) (queue : List B) (state : BlockManager B) : Prop where
  parents : ∀ b ∈ state.mapBlockIndex, ∀ p, tree.parent b = some p → p ∈ state.mapBlockIndex
  roots : ∀ b ∈ state.mapBlockIndex, tree.genesis ∈ tree.path b
  genesis : Linked state tree.genesis
  known : ∀ b, (state.status b).haveData = true → b ∈ state.mapBlockIndex
  data_of_linked : ∀ b, Linked state b →
    (state.status b).haveData = true ∧ ∀ p, tree.parent b = some p → Linked state p
  linked_of_data : ∀ b, (state.status b).haveData = true →
    (∀ p, tree.parent b = some p → Linked state p) → Linked state b ∨ b ∈ queue
  queued : ∀ b ∈ queue, (state.status b).haveData = true ∧ ¬ Linked state b ∧
    ∀ p, tree.parent b = some p → Linked state p
  queue_nodup : queue.Nodup
  unlinked : ∀ item ∈ state.mapBlocksUnlinked, tree.parent item.2 = some item.1 ∧
    (state.status item.2).haveData = true ∧ ¬ Linked state item.1
  unlinked_nodup : state.mapBlocksUnlinked.Nodup
  seq_lt : ∀ b, Linked state b → (state.status b).nSequenceId < state.nBlockSequenceId
  seq_inj : ∀ a b, Linked state a → Linked state b →
    (state.status a).nSequenceId = (state.status b).nSequenceId → a = b

/-- Two states that differ in flags, candidates and the tip only. -/
structure SameData (state state' : BlockManager B) : Prop where
  index : state'.mapBlockIndex = state.mapBlockIndex
  unlinked : state'.mapBlocksUnlinked = state.mapBlocksUnlinked
  nextId : state'.nBlockSequenceId = state.nBlockSequenceId
  haveData : ∀ b, (state'.status b).haveData = (state.status b).haveData
  nChainTx : ∀ b, (state'.status b).nChainTx = (state.status b).nChainTx
  nSequenceId : ∀ b, (state'.status b).nSequenceId = (state.status b).nSequenceId

theorem SameData.refl (state : BlockManager B) : SameData state state :=
  ⟨rfl, rfl, rfl, fun _ => rfl, fun _ => rfl, fun _ => rfl⟩

theorem SameData.trans {s t u : BlockManager B} (h : SameData s t) (h' : SameData t u) :
    SameData s u :=
  ⟨h'.index.trans h.index, h'.unlinked.trans h.unlinked, h'.nextId.trans h.nextId,
    fun b => (h'.haveData b).trans (h.haveData b), fun b => (h'.nChainTx b).trans (h.nChainTx b),
    fun b => (h'.nSequenceId b).trans (h.nSequenceId b)⟩

theorem SameData.linked {state state' : BlockManager B} (same : SameData state state') (b : B) :
    Linked state' b ↔ Linked state b := by
  unfold Linked
  rw [same.nChainTx]

theorem DataInv.congr {state state' : BlockManager B} {queue : List B}
    (inv : DataInv tree queue state) (same : SameData state state') : DataInv tree queue state' where
  parents := by rw [same.index]; exact inv.parents
  roots := by rw [same.index]; exact inv.roots
  genesis := (same.linked _).mpr inv.genesis
  known := fun b hb => by rw [same.index]; exact inv.known b (by rwa [same.haveData] at hb)
  data_of_linked := by
    simp only [same.linked, same.haveData]
    exact inv.data_of_linked
  linked_of_data := by
    simp only [same.linked, same.haveData]
    exact inv.linked_of_data
  queued := by
    simp only [same.linked, same.haveData]
    exact inv.queued
  queue_nodup := inv.queue_nodup
  unlinked := by
    simp only [same.linked, same.haveData, same.unlinked]
    exact inv.unlinked
  unlinked_nodup := by rw [same.unlinked]; exact inv.unlinked_nodup
  seq_lt := by
    simp only [same.linked, same.nSequenceId, same.nextId]
    exact inv.seq_lt
  seq_inj := by
    simp only [same.linked, same.nSequenceId]
    exact inv.seq_inj

variable {state : BlockManager B} {queue : List B}

/-- All ancestors of a linked block are linked. -/
theorem DataInv.linked_path (inv : DataInv tree queue state) {a b : B} (hb : Linked state b)
    (ha : a ∈ tree.path b) : Linked state a :=
  of_mem_path (fun hp hb => (inv.data_of_linked _ hb).2 _ hp) hb ha

/-- With nothing left to link, the linked blocks are those stored with all their ancestors. -/
theorem DataInv.linked_iff (inv : DataInv tree [] state) (b : B) :
    Linked state b ↔ ∀ a ∈ tree.path b, (state.status a).haveData = true := by
  constructor
  · exact fun hb a ha => (inv.data_of_linked a (inv.linked_path hb ha)).1
  · intro h
    induction b using tree.parentInduction with
    | step b ih =>
      refine (inv.linked_of_data b (h b (self_mem_path b)) fun p hp => ?_).resolve_right
        List.not_mem_nil
      exact ih p hp fun a ha => h a (mem_path_of_parent hp ha)

theorem DataInv.index_path (inv : DataInv tree queue state) {a b : B}
    (hb : b ∈ state.mapBlockIndex) (ha : a ∈ tree.path b) : a ∈ state.mapBlockIndex :=
  of_mem_path (fun hp hb => inv.parents _ hb _ hp) hb ha

/-! ## Flags -/

/-- No ancestor of the block, nor the block itself, is invalid. -/
def Good (tree : HeaderTree B) (valid : B → Bool) (b : B) : Prop := ∀ a ∈ tree.path b, valid a = true

/-- A block that is marked failed and was never stored keeps its descendants from being linked. -/
def Dead (tree : HeaderTree B) (state : BlockManager B) (b : B) : Prop :=
  ∃ a ∈ tree.path b, (state.status a).haveData = false ∧ (state.status a).failed = true

theorem Good.path {valid : B → Bool} {a b : B} (h : Good tree valid b) (ha : a ∈ tree.path b) :
    Good tree valid a := fun c hc => h c (mem_path_trans ha hc)

/-- What the flags say when validity is a fixed predicate and nobody interferes. -/
structure MarkInv (tree : HeaderTree B) (valid : B → Bool) (state : BlockManager B) : Prop where
  fresh : ∀ b, b ∉ state.mapBlockIndex → state.status b = {}
  validTree : ∀ b ∈ state.mapBlockIndex, blockValidTree ≤ (state.status b).validity
  failedValid : ∀ b, (state.status b).failedValid = true → valid b = false
  failed : ∀ b, (state.status b).failed = true → ¬ Good tree valid b
  dead : ∀ b, (state.status b).failed = true → ¬ Linked state b → Dead tree state b
  waiting : ∀ b p, (state.status b).haveData = true → tree.parent b = some p → ¬ Linked state p →
    (p, b) ∈ state.mapBlocksUnlinked ∨ Dead tree state b
  failedBlocks : ∀ b ∈ state.gFailedBlocks, (state.status b).failedValid = true ∧ Linked state b

theorem parent_ne_self {b p : B} (h : tree.parent b = some p) : b ≠ p := by
  rintro rfl
  have := tree.depth_parent h
  omega

/-- What waits for a queued block is in `mapBlocksUnlinked`. -/
theorem MarkInv.waits {valid : B → Bool} (inv : MarkInv tree valid state) {b : B}
    (data : DataInv tree (b :: queue) state) {c : B} (hc : (state.status c).haveData = true)
    (hp : tree.parent c = some b) : (b, c) ∈ state.mapBlocksUnlinked := by
  obtain ⟨hdata, hfree, hparents⟩ := data.queued b List.mem_cons_self
  refine (inv.waiting c b hc hp hfree).resolve_right ?_
  rintro ⟨a, ha, hnone, -⟩
  have hstored : (state.status a).haveData = true := by
    rcases mem_path_cases ha with rfl | ⟨p, hp', ha⟩
    · exact hc
    · rw [hp] at hp'
      cases hp'
      rcases mem_path_cases ha with rfl | ⟨q, hq, ha⟩
      · exact hdata
      · exact (data.data_of_linked a (data.linked_path (hparents q hq) ha)).1
  rw [hnone] at hstored
  cases hstored

/-! ## Linking -/

section Linking

variable [DecidableEq B]

/-- What linking a block does to its status. -/
def linkedStatus (tree : HeaderTree B) (state : BlockManager B) (b : B) : BlockStatus :=
  { state.status b with
    nChainTx := ((tree.parent b).map fun p => (state.status p).nChainTx).getD 0 + tree.nTx b
    nSequenceId := state.nBlockSequenceId }

theorem linkBlock_status (b c : B) :
    (linkBlock tree state b).status c =
      if c = b then linkedStatus tree state b else state.status c := by
  have hset : (linkBlock tree state b).status = (numbered tree state b).status := by
    unfold linkBlock
    dsimp only
    split <;> rfl
  rw [hset, numbered, status_setStatus]
  rfl

theorem linkBlock_unlinked (b : B) :
    (linkBlock tree state b).mapBlocksUnlinked =
      state.mapBlocksUnlinked.filter fun item => item.1 != b := by
  unfold linkBlock
  dsimp only
  split <;> rfl

theorem linkBlock_rest (b : B) :
    (linkBlock tree state b).nBlockSequenceId = state.nBlockSequenceId + 1 ∧
      (linkBlock tree state b).tip = state.tip ∧
      (linkBlock tree state b).gFailedBlocks = state.gFailedBlocks := by
  unfold linkBlock
  dsimp only
  split <;> exact ⟨rfl, rfl, rfl⟩

theorem linkBlock_linked (b c : B) :
    Linked (linkBlock tree state b) c ↔ c = b ∨ Linked state c := by
  have hpos := tree.nTx_pos b
  unfold Linked
  rw [linkBlock_status]
  split_ifs with h
  · simp only [h, linkedStatus, true_or, iff_true]
    omega
  · simp [h]

theorem linkBlock_haveData (b c : B) :
    ((linkBlock tree state b).status c).haveData = (state.status c).haveData := by
  rw [linkBlock_status]
  split_ifs with h
  · rw [h]
    rfl
  · rfl

theorem linkBlock_failed (b c : B) :
    ((linkBlock tree state b).status c).failedValid = (state.status c).failedValid ∧
      ((linkBlock tree state b).status c).failed = (state.status c).failed ∧
      ((linkBlock tree state b).status c).validity = (state.status c).validity := by
  rw [linkBlock_status]
  split_ifs with h
  · rw [h]
    exact ⟨rfl, rfl, rfl⟩
  · exact ⟨rfl, rfl, rfl⟩

/-- The blocks that wait for `b`. -/
def waitingFor (state : BlockManager B) (b : B) : List B :=
  (state.mapBlocksUnlinked.filter fun item => item.1 == b).map Prod.snd

theorem mem_waitingFor {b c : B} : c ∈ waitingFor state b ↔ (b, c) ∈ state.mapBlocksUnlinked := by
  simp only [waitingFor, List.mem_map, List.mem_filter, beq_iff_eq, Prod.exists, exists_eq_right]

theorem waitingFor_nodup (inv : DataInv tree queue state) (b : B) : (waitingFor state b).Nodup := by
  refine List.Nodup.map_on ?_ (inv.unlinked_nodup.filter _)
  rintro ⟨p, c⟩ hc ⟨p', c'⟩ hc' (rfl : c = c')
  have hp := (List.mem_filter.mp hc).2
  have hp' := (List.mem_filter.mp hc').2
  rw [beq_iff_eq] at hp hp'
  rw [show p = b from hp, show p' = b from hp']

/-- The head of the queue is linked and the blocks that waited for it are queued. -/
theorem DataInv.linkBlock {b : B} (inv : DataInv tree (b :: queue) state)
    (hwaiting : ∀ c, (state.status c).haveData = true → tree.parent c = some b →
      (b, c) ∈ state.mapBlocksUnlinked) :
    DataInv tree (queue ++ waitingFor state b) (linkBlock tree state b) := by
  obtain ⟨hdata, hfree, hparents⟩ := inv.queued b List.mem_cons_self
  obtain ⟨hnot, hnodup⟩ := List.nodup_cons.mp inv.queue_nodup
  have hqueue : ∀ c ∈ queue, _ := fun c hc => inv.queued c (List.mem_cons_of_mem _ hc)
  refine ⟨?_, ?_, ?_, ?_, ?_, ?_, ?_, ?_, ?_, ?_, ?_, ?_⟩
  · rw [linkBlock_index]
    exact inv.parents
  · rw [linkBlock_index]
    exact inv.roots
  · exact (linkBlock_linked b _).mpr (.inr inv.genesis)
  · intro c hc
    rw [linkBlock_haveData] at hc
    rw [linkBlock_index]
    exact inv.known c hc
  · intro c hc
    simp only [linkBlock_linked, linkBlock_haveData] at hc ⊢
    rcases hc with rfl | hc
    · exact ⟨hdata, fun p hp => .inr (hparents p hp)⟩
    · exact ⟨(inv.data_of_linked c hc).1, fun p hp => .inr ((inv.data_of_linked c hc).2 p hp)⟩
  · intro c hc hlinked
    simp only [linkBlock_linked, linkBlock_haveData] at hc hlinked ⊢
    by_cases hold : ∀ p, tree.parent c = some p → Linked state p
    · rcases inv.linked_of_data c hc hold with h | h
      · exact .inl (.inr h)
      · rcases List.mem_cons.mp h with rfl | h
        · exact .inl (.inl rfl)
        · exact .inr (List.mem_append_left _ h)
    · -- The parent is linked only now, so the block waited for it.
      push Not at hold
      obtain ⟨p, hp, hpfree⟩ := hold
      have hpb : p = b := (hlinked p hp).resolve_right hpfree
      rw [hpb] at hp
      exact .inr (List.mem_append_right _ (mem_waitingFor.mpr (hwaiting c hc hp)))
  · intro c hc
    simp only [linkBlock_linked, linkBlock_haveData]
    rcases List.mem_append.mp hc with hold | hwait
    · obtain ⟨hcdata, hcfree, hcparents⟩ := hqueue c hold
      refine ⟨hcdata, ?_, fun p hp => .inr (hcparents p hp)⟩
      rintro (rfl | h)
      · exact hnot hold
      · exact hcfree h
    · obtain ⟨hparent, hcdata, -⟩ := inv.unlinked _ (mem_waitingFor.mp hwait)
      refine ⟨hcdata, ?_, fun p hp => .inl ?_⟩
      · rintro (h | h)
        · exact parent_ne_self hparent h
        · exact hfree ((inv.data_of_linked c h).2 b hparent)
      · rw [hparent] at hp
        exact (Option.some_inj.mp hp).symm
  · refine hnodup.append (waitingFor_nodup inv b) fun c hc hwait => ?_
    obtain ⟨hparent, -, -⟩ := inv.unlinked _ (mem_waitingFor.mp hwait)
    exact hfree ((hqueue c hc).2.2 b hparent)
  · intro item hitem
    rw [linkBlock_unlinked, List.mem_filter] at hitem
    obtain ⟨hparent, hcdata, hcfree⟩ := inv.unlinked item hitem.1
    simp only [linkBlock_linked, linkBlock_haveData]
    refine ⟨hparent, hcdata, ?_⟩
    rintro (h | h)
    · simp [h] at hitem
    · exact hcfree h
  · rw [linkBlock_unlinked]
    exact inv.unlinked_nodup.filter _
  · intro c hc
    rw [(linkBlock_rest b).1, linkBlock_status]
    rw [linkBlock_linked] at hc
    split_ifs with h
    · exact Nat.lt_succ_self _
    · exact (inv.seq_lt c (hc.resolve_left h)).trans (Nat.lt_succ_self _)
  · intro c d hc hd hseq
    rw [linkBlock_linked] at hc hd
    rw [linkBlock_status, linkBlock_status] at hseq
    split_ifs at hseq with hcb hdb hdb
    · rw [hcb, hdb]
    · exact absurd hseq (inv.seq_lt d (hd.resolve_left hdb)).ne'
    · exact absurd hseq (inv.seq_lt c (hc.resolve_left hcb)).ne
    · exact inv.seq_inj c d (hc.resolve_left hcb) (hd.resolve_left hdb) hseq

theorem linkBlock_dead (b c : B) : Dead tree (linkBlock tree state b) c ↔ Dead tree state c := by
  simp only [Dead, linkBlock_haveData, (linkBlock_failed b _).2.1]

theorem MarkInv.linkBlock {valid : B → Bool} (inv : MarkInv tree valid state) {b : B}
    (hb : b ∈ state.mapBlockIndex) : MarkInv tree valid (linkBlock tree state b) := by
  refine ⟨?_, ?_, ?_, ?_, ?_, ?_, ?_⟩
  · intro c hc
    rw [linkBlock_index] at hc
    rw [linkBlock_status, if_neg fun h : c = b => hc (h ▸ hb)]
    exact inv.fresh c hc
  · simp only [linkBlock_index, (linkBlock_failed b _).2.2]
    exact inv.validTree
  · simp only [(linkBlock_failed b _).1]
    exact inv.failedValid
  · simp only [(linkBlock_failed b _).2.1]
    exact inv.failed
  · intro c hc hfree
    rw [(linkBlock_failed b c).2.1] at hc
    rw [linkBlock_linked] at hfree
    exact (linkBlock_dead b c).mpr (inv.dead c hc fun h => hfree (.inr h))
  · intro c p hc hp hfree
    rw [linkBlock_haveData] at hc
    rw [linkBlock_linked, not_or] at hfree
    rw [linkBlock_dead, linkBlock_unlinked]
    rcases inv.waiting c p hc hp hfree.2 with h | h
    · exact .inl (List.mem_filter.mpr ⟨h, by simpa using hfree.1⟩)
    · exact .inr h
  · intro c hc
    rw [(linkBlock_rest b).2.2] at hc
    rw [(linkBlock_failed b c).1, linkBlock_linked]
    exact ⟨(inv.failedBlocks c hc).1, .inr (inv.failedBlocks c hc).2⟩

end Linking

end KubuCore.BlockTree
