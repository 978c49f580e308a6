import KubuCore.Chain.BlockData

/-!
# Arrivals

Headers and blocks arrive: `AcceptBlockHeader` and the storing part of
`AcceptBlock` keep the invariants of the index, mark only descendants of
invalid blocks, and never stop the node.
-/

namespace KubuCore.BlockTree

open KubuCore.RootedTree

variable {B : Type} {tree : HeaderTree B} {state : BlockManager B} {queue : List B}

/-! ## Marking -/

/-- From one state to the next blocks are marked only where they should be. -/
structure Marks (tree : HeaderTree B) (valid : B → Bool) (state state' : BlockManager B) : Prop where
  data : SameData state state'
  fresh : ∀ b, b ∉ state.mapBlockIndex → state'.status b = state.status b
  validity : ∀ b, (state.status b).validity ≤ (state'.status b).validity
  keepsValid : ∀ b, (state.status b).failedValid = true → (state'.status b).failedValid = true
  keeps : ∀ b, (state.status b).failed = true → (state'.status b).failed = true
  failedValid : ∀ b, (state'.status b).failedValid = true →
    (state.status b).failedValid = true ∨ valid b = false
  failed : ∀ b, (state'.status b).failed = true → (state.status b).failed = true ∨
    ¬ Good tree valid b ∧ (Linked state b ∨ Dead tree state' b)
  failedBlocks : ∀ b ∈ state'.gFailedBlocks, b ∈ state.gFailedBlocks ∨
    (state'.status b).failedValid = true ∧ Linked state b

variable {valid : B → Bool} {state' : BlockManager B}

theorem Marks.dead (marks : Marks tree valid state state') {b : B} (dead : Dead tree state b) :
    Dead tree state' b := by
  obtain ⟨a, ha, hdata, hfailed⟩ := dead
  exact ⟨a, ha, by rwa [marks.data.haveData], marks.keeps a hfailed⟩

theorem MarkInv.mark (inv : MarkInv tree valid state) (marks : Marks tree valid state state') :
    MarkInv tree valid state' := by
  refine ⟨?_, ?_, ?_, ?_, ?_, ?_, ?_⟩
  · intro b hb
    rw [marks.data.index] at hb
    rw [marks.fresh b hb]
    exact inv.fresh b hb
  · intro b hb
    rw [marks.data.index] at hb
    exact (inv.validTree b hb).trans (marks.validity b)
  · intro b hb
    rcases marks.failedValid b hb with h | h
    · exact inv.failedValid b h
    · exact h
  · intro b hb
    rcases marks.failed b hb with h | ⟨h, -⟩
    · exact inv.failed b h
    · exact h
  · intro b hb hfree
    rw [marks.data.linked] at hfree
    rcases marks.failed b hb with h | ⟨-, h | h⟩
    · exact marks.dead (inv.dead b h hfree)
    · exact absurd h hfree
    · exact h
  · intro b p hb hp hfree
    rw [marks.data.haveData] at hb
    rw [marks.data.linked] at hfree
    rw [marks.data.unlinked]
    exact (inv.waiting b p hb hp hfree).imp_right marks.dead
  · intro b hb
    rw [marks.data.linked]
    rcases marks.failedBlocks b hb with h | h
    · exact ⟨marks.keepsValid b (inv.failedBlocks b h).1, (inv.failedBlocks b h).2⟩
    · exact h

/-- Neither the tip and the candidates nor the linked blocks change. -/
structure Quiet (state state' : BlockManager B) : Prop where
  tip : state'.tip = state.tip
  candidates : state'.setBlockIndexCandidates = state.setBlockIndexCandidates
  nChainTx : ∀ b, (state'.status b).nChainTx = (state.status b).nChainTx
  nSequenceId : ∀ b, (state'.status b).nSequenceId = (state.status b).nSequenceId

theorem Quiet.refl (state : BlockManager B) : Quiet state state :=
  ⟨rfl, rfl, fun _ => rfl, fun _ => rfl⟩

/-- A header whose parent is known enters the index. -/
theorem DataInv.extend (inv : DataInv tree queue state) {b p : B} (hp : tree.parent b = some p)
    (known : p ∈ state.mapBlockIndex) :
    DataInv tree queue { state with mapBlockIndex := b :: state.mapBlockIndex } := by
  refine { inv with
    parents := ?_, roots := ?_, known := fun c hc => List.mem_cons_of_mem _ (inv.known c hc) }
  · intro c hc q hq
    rcases List.mem_cons.mp hc with rfl | hc
    · rw [hp] at hq
      cases hq
      exact List.mem_cons_of_mem _ known
    · exact List.mem_cons_of_mem _ (inv.parents c hc q hq)
  · exact List.forall_mem_cons.mpr ⟨mem_path_of_parent hp (inv.roots p known), inv.roots⟩

theorem mem_path_of_linear {a x c : B} (hc : c ∈ tree.path a) (hx : x ∈ tree.path a)
    (h : c ∉ tree.path x) : x ∈ tree.path c ∧ c ≠ x := by
  refine ⟨(path_linear hc hx).resolve_left h, ?_⟩
  rintro rfl
  exact h (self_mem_path c)

/-- Storing a block of the index that was not stored before. -/
structure Storing (tree : HeaderTree B) (state : BlockManager B) (b : B) : Prop where
  known : b ∈ state.mapBlockIndex
  missing : (state.status b).haveData = false
  notFailed : (state.status b).failed = false

theorem Storing.not_linked {b : B} (storing : Storing tree state b) (data : DataInv tree [] state) :
    ¬ Linked state b := by
  intro h
  have := (data.data_of_linked b h).1
  rw [storing.missing] at this
  cases this

section Arrivals

variable [DecidableEq B] {valid : B → Bool}

theorem status_markChildren (blocks : List B) (c : B) :
    (state.setStatuses blocks .markChild).status c =
      if c ∈ blocks then (state.status c).markChild else state.status c := by
  induction blocks generalizing state with
  | nil => rfl
  | cons b blocks ih =>
    rw [setStatuses_cons, ih, status_setStatus]
    by_cases hcb : c = b
    · subst hcb
      simp [BlockStatus.markChild]
    · simp [hcb]

theorem sameData_setStatuses (blocks : List B) :
    SameData state (state.setStatuses blocks .markChild) := by
  obtain ⟨status, h⟩ := setStatuses_rest state .markChild blocks
  refine ⟨by rw [h], by rw [h], by rw [h], fun c => ?_, fun c => ?_, fun c => ?_⟩
  · rw [status_markChildren]
    split <;> rfl
  · rw [status_markChildren]
    split <;> rfl
  · rw [status_markChildren]
    split <;> rfl

/-- Marking the descendants of an invalid block. -/
theorem marks_markChildren {blocks : List B} (known : ∀ b ∈ blocks, b ∈ state.mapBlockIndex)
    (bad : ∀ b ∈ blocks, ¬ Good tree valid b ∧
      (Linked state b ∨ Dead tree (state.setStatuses blocks .markChild) b)) :
    Marks tree valid state (state.setStatuses blocks .markChild) := by
  refine ⟨sameData_setStatuses blocks, fun c hc => ?_, fun c => ?_, fun c hc => ?_, fun c hc => ?_,
    fun c hc => ?_, fun c hc => ?_, fun c hc => ?_⟩
  · rw [status_markChildren, if_neg fun h => hc (known c h)]
  · rw [status_markChildren]
    split <;> exact Nat.le_refl _
  · rw [status_markChildren]
    split <;> exact hc
  · rw [status_markChildren]
    split
    · simp [BlockStatus.failed, BlockStatus.markChild]
    · exact hc
  · rw [status_markChildren] at hc
    split at hc <;> exact .inl hc
  · by_cases hmem : c ∈ blocks
    · exact .inr (bad c hmem)
    · rw [status_markChildren, if_neg hmem] at hc
      exact .inl hc
  · obtain ⟨status, h⟩ := setStatuses_rest state .markChild blocks
    rw [h] at hc
    exact .inl hc

/-- A change of one status that keeps the data. -/
theorem sameData_setStatus {b : B} {f : BlockStatus → BlockStatus}
    (hf : ∀ status, (f status).haveData = status.haveData ∧ (f status).nChainTx = status.nChainTx ∧
      (f status).nSequenceId = status.nSequenceId) : SameData state (state.setStatus b f) :=
  ⟨rfl, rfl, rfl, field_setStatus (fun status => (hf status).1) b,
    field_setStatus (fun status => (hf status).2.1) b,
    field_setStatus (fun status => (hf status).2.2) b⟩

/-- Marking an invalid block itself. -/
theorem marks_markValid {b : B} (known : b ∈ state.mapBlockIndex) (bad : valid b = false)
    (hlinked : Linked state b ∨ (state.status b).haveData = false) :
    Marks tree valid state (state.setStatus b .markValid) := by
  have hstatus : ∀ c, (state.setStatus b .markValid).status c =
      if c = b then (state.status b).markValid else state.status c := fun c => status_setStatus _ b c
  have hbad : ¬ Good tree valid b := fun h => by
    rw [h b (self_mem_path b)] at bad
    cases bad
  refine ⟨sameData_setStatus fun _ => ⟨rfl, rfl, rfl⟩, fun c hc => ?_, fun c => ?_, fun c hc => ?_,
    fun c hc => ?_, fun c hc => ?_, fun c hc => ?_, fun c hc => .inl hc⟩
  · rw [hstatus, if_neg fun h : c = b => hc (h ▸ known)]
  · exact Nat.le_of_eq (field_setStatus (f := .markValid) (fun _ => rfl) b c).symm
  · rw [hstatus]
    split_ifs with h
    · rfl
    · exact hc
  · rw [hstatus]
    split_ifs with h
    · rfl
    · exact hc
  · by_cases h : c = b
    · exact .inr (h ▸ bad)
    · rw [hstatus, if_neg h] at hc
      exact .inl hc
  · by_cases h : c = b
    · subst h
      refine .inr ⟨hbad, hlinked.imp_right fun hnone => ⟨c, self_mem_path c, ?_, ?_⟩⟩
      · rw [hstatus, if_pos rfl]
        exact hnone
      · rw [hstatus, if_pos rfl]
        rfl
    · rw [hstatus, if_neg h] at hc
      exact .inl hc

/-! ## Headers -/

/-- The state after a header has been accepted. -/
structure HeaderDone (tree : HeaderTree B) (valid : B → Bool) (state state' : BlockManager B) :
    Prop where
  data : DataInv tree [] state'
  mark : MarkInv tree valid state'
  quiet : Quiet state state'

theorem addToBlockIndex_done (data : DataInv tree [] state) (mark : MarkInv tree valid state)
    {b p : B} (hp : tree.parent b = some p) (known : p ∈ state.mapBlockIndex)
    (fresh : b ∉ state.mapBlockIndex) :
    HeaderDone tree valid state (addToBlockIndex state b) ∧
      b ∈ (addToBlockIndex state b).mapBlockIndex ∧
      ((addToBlockIndex state b).status b).failed = false := by
  obtain ⟨status, hstatus, heq⟩ : ∃ status, (∀ c, status c =
      if c = b then { validity := blockValidTree } else state.status c) ∧
      addToBlockIndex state b =
        { state with mapBlockIndex := b :: state.mapBlockIndex, status := status } :=
    ⟨_, status_setStatus _ b, if_neg (by simpa using fresh)⟩
  have hold := mark.fresh b fresh
  have hfields : ∀ c, (status c).haveData = (state.status c).haveData ∧
      (status c).nChainTx = (state.status c).nChainTx ∧
      (status c).nSequenceId = (state.status c).nSequenceId ∧
      (status c).failedValid = (state.status c).failedValid ∧
      (status c).failed = (state.status c).failed := by
    intro c
    rw [hstatus]
    split_ifs with h
    · rw [h, hold]
      exact ⟨rfl, rfl, rfl, rfl, rfl⟩
    · exact ⟨rfl, rfl, rfl, rfl, rfl⟩
  have hsame : SameData { state with mapBlockIndex := b :: state.mapBlockIndex }
      (addToBlockIndex state b) := by
    rw [heq]
    exact ⟨rfl, rfl, rfl, fun c => (hfields c).1, fun c => (hfields c).2.1,
      fun c => (hfields c).2.2.1⟩
  have hlinked : ∀ c, Linked (addToBlockIndex state b) c ↔ Linked state c := hsame.linked
  rw [heq] at hsame hlinked ⊢
  have hdead : ∀ c, Dead tree { state with
      mapBlockIndex := b :: state.mapBlockIndex, status := status } c ↔ Dead tree state c := by
    intro c
    simp only [Dead, (hfields _).1, (hfields _).2.2.2.2]
  refine ⟨⟨(data.extend hp known).congr hsame, ⟨?_, ?_, ?_, ?_, ?_, ?_, ?_⟩, rfl, rfl,
    fun c => (hfields c).2.1, fun c => (hfields c).2.2.1⟩, List.mem_cons_self, ?_⟩
  · intro c hc
    rw [List.mem_cons, not_or] at hc
    exact (hstatus c).trans ((if_neg hc.1).trans (mark.fresh c hc.2))
  · intro c hc
    dsimp only
    rw [hstatus]
    split_ifs with h
    · exact Nat.le_refl _
    · exact mark.validTree c ((List.mem_cons.mp hc).resolve_left h)
  · simp only [(hfields _).2.2.2.1]
    exact mark.failedValid
  · simp only [(hfields _).2.2.2.2]
    exact mark.failed
  · simp only [(hfields _).2.2.2.2, hlinked, hdead]
    exact mark.dead
  · simp only [(hfields _).1, hlinked, hdead]
    exact mark.waiting
  · simp only [(hfields _).2.2.2.1, hlinked]
    exact mark.failedBlocks
  · exact (hfields b).2.2.2.2.trans (congrArg BlockStatus.failed hold)

theorem mem_pathBelow_of {a b c : B} (hc : c ∈ tree.path b) (ha : a ∈ tree.path c) (hne : c ≠ a) :
    c ∈ pathBelow tree a b := by
  induction b using tree.parentInduction with
  | step b ih =>
    have hba : b ≠ a := by
      rintro rfl
      exact hne (path_antisymm hc ha)
    rcases mem_path_cases hc with rfl | ⟨p, hp, hcp⟩
    · obtain ⟨above, hpath⟩ := exists_path_eq_cons tree.toRootedTree c
      simp [pathBelow, hpath, hne]
    · rw [pathBelow_of_ne hba hp]
      exact List.mem_cons_of_mem _ (ih p hp hcp)

/-- A header below a failed block marks the blocks between them. -/
theorem marks_belowFailed (data : DataInv tree [] state) (mark : MarkInv tree valid state)
    {failedit pindexPrev : B} (hfailed : failedit ∈ state.gFailedBlocks)
    (habove : failedit ∈ tree.path pindexPrev) (known : pindexPrev ∈ state.mapBlockIndex) :
    Marks tree valid state
      (state.setStatuses (pathBelow tree failedit pindexPrev) .markChild) := by
  obtain ⟨hvalid, hlinked⟩ := mark.failedBlocks failedit hfailed
  refine marks_markChildren (fun c hc => data.index_path known (mem_pathBelow habove hc).1)
    fun c hc => ⟨fun hgood => ?_, ?_⟩
  · have hbad := mark.failedValid failedit hvalid
    rw [hgood failedit (mem_pathBelow habove hc).2] at hbad
    cases hbad
  · by_cases hc' : Linked state c
    · exact .inl hc'
    · -- Some block between the failed one and this one was never stored.
      obtain ⟨hcpath, hcfailed⟩ := mem_pathBelow habove hc
      rw [data.linked_iff] at hc'
      push Not at hc'
      obtain ⟨a, ha, hnone⟩ := hc'
      have habelow : a ∉ tree.path failedit := fun h =>
        hnone (data.data_of_linked a (data.linked_path hlinked h)).1
      obtain ⟨hfa, hne⟩ := mem_path_of_linear ha hcfailed habelow
      have hmem := mem_pathBelow_of (mem_path_trans hcpath ha) hfa hne
      refine .inr ⟨a, ha, ?_, ?_⟩
      · rw [status_markChildren, if_pos hmem]
        exact Bool.eq_false_iff.mpr hnone
      · rw [status_markChildren, if_pos hmem]
        simp [BlockStatus.failed, BlockStatus.markChild]

/-- What becomes of the index when a header arrives: it is never left in a bad state, the node
never stops, and an accepted header is known and not failed. -/
def HeaderEnds (tree : HeaderTree B) (valid : B → Bool) (state : BlockManager B) (b : B) :
    HeaderResult B → Prop
  | .accepted state' => HeaderDone tree valid state state' ∧ b ∈ state'.mapBlockIndex ∧
      (b = tree.genesis ∨ (state'.status b).failed = false)
  | .rejected _ state' => HeaderDone tree valid state state'
  | .aborted => False

section

variable (data : DataInv tree [] state) (mark : MarkInv tree valid state)
include data mark

theorem checkFailedBlocks_ends {b p : B} (hp : tree.parent b = some p)
    (known : p ∈ state.mapBlockIndex) (fresh : b ∉ state.mapBlockIndex) :
    HeaderEnds tree valid state b (checkFailedBlocks tree state p b) := by
  obtain ⟨hdone, hmem, hfailed⟩ := addToBlockIndex_done data mark hp known fresh
  unfold checkFailedBlocks
  split
  · exact ⟨hdone, hmem, .inr hfailed⟩
  · split
    · exact ⟨hdone, hmem, .inr hfailed⟩
    · rename_i failedit hfind
      have hmemFailed := List.mem_of_find?_eq_some hfind
      have habove : failedit ∈ tree.path p := by
        have := List.find?_some hfind
        rw [beq_iff_eq] at this
        exact ancestorAt_eq_iff.mp this
      rw [if_pos (mark.failedBlocks failedit hmemFailed).1]
      have hmarks := marks_belowFailed data mark hmemFailed habove known
      obtain ⟨status, hrest⟩ := setStatuses_rest state .markChild (pathBelow tree failedit p)
      exact ⟨data.congr hmarks.data, mark.mark hmarks, by rw [hrest], by rw [hrest],
        hmarks.data.nChainTx, hmarks.data.nSequenceId⟩

theorem acceptBlockHeader_ends (headerOk : Except String Unit) (b : B) :
    HeaderEnds tree valid state b (acceptBlockHeader tree headerOk state b) := by
  have hsame : HeaderDone tree valid state state := ⟨data, mark, .refl state⟩
  have hgenesis := data.known _ (data.data_of_linked _ data.genesis).1
  unfold acceptBlockHeader
  split
  · rename_i hb
    rw [addToBlockIndex, if_pos (by simpa [hb] using hgenesis)]
    exact ⟨hsame, hb ▸ hgenesis, .inl hb⟩
  · split
    · rename_i hknown
      split
      · exact hsame
      · rename_i hfailed
        exact ⟨hsame, by simpa using hknown, .inr (Bool.eq_false_iff.mpr hfailed)⟩
    · rename_i hfresh
      split
      · exact hsame
      · rename_i p hp
        split
        · exact hsame
        · rename_i hknown
          split
          · exact hsame
          · split
            · exact hsame
            · exact checkFailedBlocks_ends data mark hp (by simpa using hknown)
                (by simpa using hfresh)

end

/-! ## Blocks -/

/-- The status of a block whose data has arrived. -/
def storedStatus (status : BlockStatus) : BlockStatus :=
  { status with nChainTx := 0, haveData := true }.raiseValidity blockValidTransactions

theorem storedStatus_fields (status : BlockStatus) :
    (storedStatus status).haveData = true ∧ (storedStatus status).nChainTx = 0 ∧
      (storedStatus status).nSequenceId = status.nSequenceId ∧
      (storedStatus status).failedValid = status.failedValid ∧
      (storedStatus status).failed = status.failed ∧
      status.validity ≤ (storedStatus status).validity := by
  unfold storedStatus BlockStatus.raiseValidity
  split
  · exact ⟨rfl, rfl, rfl, rfl, rfl, Nat.le_refl _⟩
  · exact ⟨rfl, rfl, rfl, rfl, rfl, Nat.le_max_left _ _⟩

variable {b : B}

/-- The state after the data has been recorded and before anything is linked. -/
def storeData (state : BlockManager B) (b : B) : BlockManager B := state.setStatus b storedStatus

theorem storeData_status (c : B) :
    (storeData state b).status c = if c = b then storedStatus (state.status b) else state.status c :=
  status_setStatus _ b c

theorem storeData_haveData (c : B) :
    ((storeData state b).status c).haveData = true ↔ c = b ∨ (state.status c).haveData = true := by
  rw [storeData_status]
  split_ifs with h
  · simp [h, (storedStatus_fields _).1]
  · simp [h]

theorem storeData_flags (c : B) :
    ((storeData state b).status c).failedValid = (state.status c).failedValid ∧
      ((storeData state b).status c).failed = (state.status c).failed ∧
      (state.status c).validity ≤ ((storeData state b).status c).validity ∧
      ((storeData state b).status c).nSequenceId = (state.status c).nSequenceId := by
  rw [storeData_status]
  have := storedStatus_fields (state.status b)
  split_ifs with h
  · rw [h]
    exact ⟨this.2.2.2.1, this.2.2.2.2.1, this.2.2.2.2.2, this.2.2.1⟩
  · exact ⟨rfl, rfl, Nat.le_refl _, rfl⟩

theorem Storing.dead (storing : Storing tree state b) (c : B) :
    Dead tree (storeData state b) c ↔ Dead tree state c := by
  constructor
  · rintro ⟨a, ha, hnone, hfailed⟩
    rw [(storeData_flags a).2.1] at hfailed
    refine ⟨a, ha, ?_, hfailed⟩
    cases hdata : (state.status a).haveData with
    | false => rfl
    | true =>
      rw [storeData_haveData a |>.mpr (.inr hdata)] at hnone
      cases hnone
  · rintro ⟨a, ha, hnone, hfailed⟩
    refine ⟨a, ha, ?_, by rwa [(storeData_flags a).2.1]⟩
    rw [storeData_status]
    split_ifs with h
    · rw [h, storing.notFailed] at hfailed
      cases hfailed
    · exact hnone

section

variable (storing : Storing tree state b) (data : DataInv tree [] state)
include storing data

theorem Storing.linked (c : B) :
    Linked (storeData state b) c ↔ Linked state c := by
  unfold Linked
  rw [storeData_status]
  split_ifs with h
  · subst h
    have hfree := storing.not_linked data
    rw [(storedStatus_fields _).2.1]
    exact ⟨fun h => absurd rfl h, fun h => absurd h hfree⟩
  · rfl

/-- A stored block that is not waiting anywhere yet. -/
theorem Storing.dataInv {queue : List B} {unlinked : List (B × B)} (hqueue : queue.Nodup)
    (hqueued : ∀ c ∈ queue, c = b ∧ ∀ p, tree.parent b = some p → Linked state p)
    (hready : (∀ p, tree.parent b = some p → Linked state p) → b ∈ queue)
    (hunlinked : ∀ item ∈ unlinked, item ∈ state.mapBlocksUnlinked ∨
      item.2 = b ∧ tree.parent b = some item.1 ∧ ¬ Linked state item.1)
    (hnodup : unlinked.Nodup) :
    DataInv tree queue { storeData state b with mapBlocksUnlinked := unlinked } := by
  have hlinked := storing.linked data
  refine ⟨data.parents, data.roots, (hlinked _).mpr data.genesis, ?_, ?_, ?_, ?_, hqueue, ?_,
    hnodup, ?_, ?_⟩
  · intro c hc
    rcases (storeData_haveData c).mp hc with rfl | hc
    · exact storing.known
    · exact data.known c hc
  · intro c hc
    obtain ⟨hdata, hparents⟩ := data.data_of_linked c ((hlinked c).mp hc)
    exact ⟨(storeData_haveData c).mpr (.inr hdata), fun p hp => (hlinked p).mpr (hparents p hp)⟩
  · intro c hc hparents
    have hparents' : ∀ p, tree.parent c = some p → Linked state p :=
      fun p hp => (hlinked p).mp (hparents p hp)
    rcases (storeData_haveData c).mp hc with rfl | hc
    · exact .inr (hready hparents')
    · exact .inl ((hlinked c).mpr
        ((data.linked_of_data c hc hparents').resolve_right List.not_mem_nil))
  · intro c hc
    obtain ⟨rfl, hparents⟩ := hqueued c hc
    exact ⟨(storeData_haveData c).mpr (.inl rfl),
      fun h => storing.not_linked data ((hlinked c).mp h),
      fun p hp => (hlinked p).mpr (hparents p hp)⟩
  · intro item hitem
    rcases hunlinked item hitem with hold | ⟨hb, hp, hfree⟩
    · obtain ⟨hp, hdata, hfree⟩ := data.unlinked item hold
      exact ⟨hp, (storeData_haveData _).mpr (.inr hdata), fun h => hfree ((hlinked _).mp h)⟩
    · exact ⟨hb ▸ hp, (storeData_haveData _).mpr (.inl hb), fun h => hfree ((hlinked _).mp h)⟩
  · intro c hc
    have := data.seq_lt c ((hlinked c).mp hc)
    rw [← (storeData_flags (b := b) c).2.2.2] at this
    exact this
  · intro c d hc hd hseq
    rw [(storeData_flags c).2.2.2, (storeData_flags d).2.2.2] at hseq
    exact data.seq_inj c d ((hlinked c).mp hc) ((hlinked d).mp hd) hseq

variable (mark : MarkInv tree valid state)
include mark

theorem Storing.markInv {unlinked : List (B × B)}
    (hkeep : ∀ item ∈ state.mapBlocksUnlinked, item ∈ unlinked)
    (hwaiting : ∀ p, tree.parent b = some p → ¬ Linked state p →
      (p, b) ∈ unlinked ∨ Dead tree state b) :
    MarkInv tree valid { storeData state b with mapBlocksUnlinked := unlinked } := by
  have hlinked := storing.linked data
  have hdead := storing.dead
  refine ⟨?_, ?_, ?_, ?_, ?_, ?_, ?_⟩
  · intro c hc
    refine ((storeData_status c).trans (if_neg ?_)).trans (mark.fresh c hc)
    rintro rfl
    exact hc storing.known
  · exact fun c hc => (mark.validTree c hc).trans (storeData_flags c).2.2.1
  · exact fun c hc => mark.failedValid c (by rwa [← (storeData_flags (b := b) c).1])
  · exact fun c hc => mark.failed c (by rwa [← (storeData_flags (b := b) c).2.1])
  · intro c hc hfree
    have hfailed : (state.status c).failed = true := by rwa [← (storeData_flags (b := b) c).2.1]
    exact (hdead c).mpr (mark.dead c hfailed fun h => hfree ((hlinked c).mpr h))
  · intro c p hc hp hfree
    have hpfree : ¬ Linked state p := fun h => hfree ((hlinked p).mpr h)
    rcases (storeData_haveData c).mp hc with rfl | hc
    · exact (hwaiting p hp hpfree).imp_right (hdead c).mpr
    · exact (mark.waiting c p hc hp hpfree).imp (hkeep _) (hdead c).mpr
  · intro c hc
    obtain ⟨hvalid, hcl⟩ := mark.failedBlocks c hc
    exact ⟨(storeData_flags c).1.trans hvalid, (hlinked c).mpr hcl⟩

/-- A block with all its ancestors is queued for linking. -/
theorem Storing.ready (hparents : ∀ p, tree.parent b = some p → Linked state p) :
    DataInv tree [b] (storeData state b) ∧ MarkInv tree valid (storeData state b) :=
  ⟨storing.dataInv data (List.nodup_singleton b) (fun _ hc => ⟨List.mem_singleton.mp hc, hparents⟩)
      (fun _ => List.mem_singleton.mpr rfl) (fun _ h => .inl h) data.unlinked_nodup,
    storing.markInv data mark (fun _ h => h) fun p hp hfree => absurd (hparents p hp) hfree⟩

/-- A block with a missing ancestor waits for its parent, unless the parent has failed. -/
theorem Storing.wait {p : B} (hp : tree.parent b = some p)
    (hfree : ¬ Linked state p) {unlinked : List (B × B)}
    (hunlinked : unlinked = if (state.status p).failed then state.mapBlocksUnlinked
      else state.mapBlocksUnlinked ++ [(p, b)]) :
    DataInv tree [] { storeData state b with mapBlocksUnlinked := unlinked } ∧
      MarkInv tree valid { storeData state b with mapBlocksUnlinked := unlinked } := by
  have hnew : (p, b) ∉ state.mapBlocksUnlinked := fun h => by
    have := (data.unlinked _ h).2.1
    rw [storing.missing] at this
    cases this
  have hmem : ∀ item, item ∈ unlinked ↔ item ∈ state.mapBlocksUnlinked ∨
      (state.status p).failed = false ∧ item = (p, b) := by
    rw [hunlinked]
    cases (state.status p).failed <;> simp
  refine ⟨storing.dataInv data List.nodup_nil (fun c hc => absurd hc List.not_mem_nil) ?_ ?_ ?_,
    storing.markInv data mark (fun item h => (hmem item).mpr (.inl h)) ?_⟩
  · exact fun h => absurd (h p hp) hfree
  · intro item hitem
    rcases (hmem item).mp hitem with h | ⟨-, rfl⟩
    · exact .inl h
    · exact .inr ⟨rfl, hp, hfree⟩
  · rw [hunlinked]
    split
    · exact data.unlinked_nodup
    · exact data.unlinked_nodup.append (List.nodup_singleton _) (by simpa using hnew)
  · intro q hq hqfree
    rw [hp] at hq
    cases hq
    cases hfailed : (state.status p).failed with
    | false => exact .inl ((hmem _).mpr (.inr ⟨hfailed, rfl⟩))
    | true =>
      obtain ⟨a, ha, hdead⟩ := mark.dead p hfailed hfree
      exact .inr ⟨a, mem_path_of_parent hp ha, hdead⟩

end

/-- What every linked block keeps holds when the queue is empty: each round takes one block from
the queue and moves what waited for it there, so the queue and the waiting blocks run out. -/
theorem linkBlocks_induction {P : BlockManager B → Prop}
    (step : ∀ {state b queue}, DataInv tree (b :: queue) state → MarkInv tree valid state →
      P state → P (linkBlock tree state b))
    {fuel : Nat} {queue : List B} (data : DataInv tree queue state)
    (mark : MarkInv tree valid state) (hP : P state)
    (hfuel : queue.length + state.mapBlocksUnlinked.length ≤ fuel) :
    DataInv tree [] (linkBlocks tree state fuel queue) ∧
      MarkInv tree valid (linkBlocks tree state fuel queue) ∧
      P (linkBlocks tree state fuel queue) := by
  induction fuel generalizing state queue with
  | zero =>
    cases queue with
    | nil => exact ⟨data, mark, hP⟩
    | cons b queue =>
      rw [List.length_cons] at hfuel
      omega
  | succ fuel ih =>
    cases queue with
    | nil => exact ⟨data, mark, hP⟩
    | cons b queue =>
      have hb := data.known b (data.queued b List.mem_cons_self).1
      refine ih (data.linkBlock fun c hc hp => mark.waits data hc hp) (mark.linkBlock hb)
        (step data mark hP) ?_
      have hsplit := List.length_eq_length_filter_add (l := state.mapBlocksUnlinked)
        fun item => item.1 == b
      rw [linkBlock_unlinked, List.length_append, List.length_map]
      rw [List.length_cons] at hfuel
      have hne : (state.mapBlocksUnlinked.filter fun item => item.1 != b) =
          state.mapBlocksUnlinked.filter fun item => !(item.1 == b) := rfl
      rw [hne]
      omega

end Arrivals

end KubuCore.BlockTree
