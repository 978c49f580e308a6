import KubuCore.Chain.BlockTree

/-!
# Flags of failed blocks

A block marked as failed has an ancestor, or is itself, marked `failedValid`,
and the members of `gFailedBlocks` carry that mark. Every operation on the block
index keeps both, except that `ResetBlockFailureFlags` clears the marks of one
line of blocks only: it forgets the blocks beside that line, and it never
removes a block from `gFailedBlocks`.
-/

namespace KubuCore.BlockTree

open KubuCore.RootedTree

section Flags

variable {B : Type} {tree : HeaderTree B}

/-- The sets beside the index hold blocks of the index, and parents are known. -/
structure Known (tree : HeaderTree B) (state : BlockManager B) : Prop where
  parents : ∀ b ∈ state.mapBlockIndex, ∀ p, tree.parent b = some p → p ∈ state.mapBlockIndex
  tip : ∀ b, state.tip = some b → b ∈ state.mapBlockIndex
  candidates : ∀ b ∈ state.setBlockIndexCandidates, b ∈ state.mapBlockIndex
  unlinked : ∀ item ∈ state.mapBlocksUnlinked, item.2 ∈ state.mapBlockIndex
  failed : ∀ b ∈ state.gFailedBlocks, b ∈ state.mapBlockIndex

/-- A failed block descends from a block that failed itself; if `strict`, the set of failed
blocks has only such blocks. -/
structure FlagInv (tree : HeaderTree B) (strict : Prop) (state : BlockManager B) : Prop where
  known : Known tree state
  flags : ∀ b ∈ state.mapBlockIndex, (state.status b).failed = true →
    ∃ a ∈ tree.path b, (state.status a).failedValid = true
  failedBlocks : strict → ∀ b ∈ state.gFailedBlocks, (state.status b).failedValid = true

variable {strict : Prop} {state state' : BlockManager B}

theorem Known.path (known : Known tree state) {a b : B} (hb : b ∈ state.mapBlockIndex)
    (ha : a ∈ tree.path b) : a ∈ state.mapBlockIndex :=
  of_mem_path (fun hp hb => known.parents _ hb _ hp) hb ha

theorem failed_iff (status : BlockStatus) :
    status.failed = true ↔ status.failedValid = true ∨ status.failedChild = true := by
  simp [BlockStatus.failed]

/-- A block of `C` is marked as a child, a block of `V` as failed itself. -/
structure Marked (tree : HeaderTree B) (V C : B → Prop) (state state' : BlockManager B) : Prop where
  index : state'.mapBlockIndex = state.mapBlockIndex
  valid : ∀ b, (state'.status b).failedValid = true ↔ (state.status b).failedValid = true ∨ V b
  child : ∀ b, (state'.status b).failedChild = true ↔ (state.status b).failedChild = true ∨ C b
  below : ∀ b, C b → ∃ a ∈ tree.path b,
    (a ∈ state.mapBlockIndex ∧ (state.status a).failed = true) ∨ V a

/-- The flags are the same. -/
def SameFlags (state state' : BlockManager B) : Prop :=
  state'.mapBlockIndex = state.mapBlockIndex ∧
    ∀ b, (state'.status b).failedValid = (state.status b).failedValid ∧
      (state'.status b).failedChild = (state.status b).failedChild

theorem SameFlags.refl (state : BlockManager B) : SameFlags state state := ⟨rfl, fun _ => ⟨rfl, rfl⟩⟩

section

variable (inv : FlagInv tree strict state)
include inv

theorem FlagInv.mark {V C : B → Prop}
    (marked : Marked tree V C state state') (known : Known tree state')
    (hfailed : ∀ b ∈ state'.gFailedBlocks, b ∈ state.gFailedBlocks ∨ V b) :
    FlagInv tree strict state' := by
  have hold : ∀ {a : B}, a ∈ state.mapBlockIndex → (state.status a).failed = true →
      ∃ c ∈ tree.path a, (state'.status c).failedValid = true := by
    intro a ha hfailed
    obtain ⟨c, hc, hvalid⟩ := inv.flags a ha hfailed
    exact ⟨c, hc, (marked.valid c).mpr (.inl hvalid)⟩
  refine ⟨known, fun b hb hfailed => ?_, fun hstrict b hb => ?_⟩
  · rcases (failed_iff _).mp hfailed with hvalid | hchild
    · exact ⟨b, self_mem_path b, hvalid⟩
    · rcases (marked.child b).mp hchild with hchild | hmark
      · exact hold (marked.index ▸ hb) ((failed_iff _).mpr (.inr hchild))
      · obtain ⟨a, ha, ⟨hknown, hfailed⟩ | hvalid⟩ := marked.below b hmark
        · obtain ⟨c, hc, hvalid⟩ := hold hknown hfailed
          exact ⟨c, mem_path_trans ha hc, hvalid⟩
        · exact ⟨a, ha, (marked.valid a).mpr (.inr hvalid)⟩
  · rcases hfailed b hb with hb | hvalid
    · exact (marked.valid b).mpr (.inl (inv.failedBlocks hstrict b hb))
    · exact (marked.valid b).mpr (.inr hvalid)

theorem FlagInv.keep (same : SameFlags state state') (known : Known tree state')
    (hfailed : ∀ b ∈ state'.gFailedBlocks, b ∈ state.gFailedBlocks) :
    FlagInv tree strict state' := by
  refine inv.mark (V := fun _ => False) (C := fun _ => False) ⟨same.1, ?_, ?_, ?_⟩ known
    fun b hb => .inl (hfailed b hb)
  · exact fun b => by rw [(same.2 b).1, or_false]
  · exact fun b => by rw [(same.2 b).2, or_false]
  · exact fun b h => h.elim

/-- The sequence number and the waiting blocks do not matter for the flags. -/
theorem FlagInv.requeue {n : Nat} {unlinked : List (B × B)}
    (h : ∀ item ∈ unlinked, item.2 ∈ state.mapBlockIndex) :
    FlagInv tree strict { state with nBlockSequenceId := n, mapBlocksUnlinked := unlinked } :=
  inv.keep (.refl state) { inv.known with unlinked := h } fun _ hc => hc

theorem FlagInv.prune :
    FlagInv tree strict (pruneBlockIndexCandidates tree state) :=
  inv.keep (.refl state) { inv.known with
    candidates := fun c hc => inv.known.candidates c (List.mem_of_mem_filter hc) } fun _ hc => hc

theorem FlagInv.withTip {tip : Option B} (h : ∀ b, tip = some b → b ∈ state.mapBlockIndex) :
    FlagInv tree strict { state with tip } :=
  inv.keep (.refl state) { inv.known with tip := h } fun _ hc => hc

end

/-- Two states that differ, as far as flags go, by cleared blocks. -/
def ClearedAt (state state' : BlockManager B) (C : B → Prop) : Prop :=
  ∀ c, (C c → (state'.status c).failedValid = false ∧ (state'.status c).failedChild = false) ∧
    (¬ C c → (state'.status c).failedValid = (state.status c).failedValid ∧
      (state'.status c).failedChild = (state.status c).failedChild)

theorem ClearedAt.trans {s t u : BlockManager B} {C D : B → Prop} (h : ClearedAt s t C)
    (h' : ClearedAt t u D) : ClearedAt s u fun c => C c ∨ D c := by
  intro c
  by_cases hd : D c
  · exact ⟨fun _ => (h' c).1 hd, fun hn => absurd (.inr hd) hn⟩
  · obtain ⟨hvalid, hchild⟩ := (h' c).2 hd
    rw [hvalid, hchild]
    exact ⟨fun hc => (h c).1 (hc.resolve_right hd), fun hn => (h c).2 fun hc => hn (.inl hc)⟩

theorem ClearedAt.congr {s t : BlockManager B} {C D : B → Prop} (h : ClearedAt s t C)
    (heq : ∀ c, C c ↔ D c) : ClearedAt s t D := by
  intro c
  rw [← heq c]
  exact h c

/-! ## The order of candidates -/

theorem worse_iff {a b : B} : worse tree state a b = true ↔
    tree.nChainWork a < tree.nChainWork b ∨ tree.nChainWork a = tree.nChainWork b ∧
      (state.status b).nSequenceId < (state.status a).nSequenceId := by
  simp [worse]

theorem worse_trans {a b c : B} (hab : worse tree state a b = true)
    (hbc : worse tree state b c = true) : worse tree state a c = true := by
  rw [worse_iff] at hab hbc ⊢
  omega

theorem worse_asymm {a b : B} (hab : worse tree state a b = true) :
    ¬ worse tree state b a = true := by
  rw [worse_iff] at hab ⊢
  omega

/-- The block that is not worse than any seen so far. -/
def Leads (tree : HeaderTree B) (state : BlockManager B) (seen : List B) : Option B → Prop
  | none => seen = []
  | some b => b ∈ seen ∧ ∀ c ∈ seen, ¬ worse tree state b c = true

theorem bestCandidate_leads (tree : HeaderTree B) (state : BlockManager B) :
    Leads tree state state.setBlockIndexCandidates (bestCandidate tree state) := by
  unfold bestCandidate
  generalize state.setBlockIndexCandidates = blocks
  induction blocks using List.reverseRecOn with
  | nil => rfl
  | append_singleton blocks x ih =>
    have hself : ¬ worse tree state x x = true := fun h => worse_asymm h h
    rw [List.foldl_append, List.foldl_cons]
    generalize blocks.foldl _ none = best at ih ⊢
    cases best with
    | none =>
      obtain rfl := ih
      simpa [Leads] using hself
    | some b =>
      obtain ⟨hb, hbest⟩ := ih
      dsimp only
      split_ifs with hworse
      · exact ⟨by simp, List.forall_mem_append.mpr
          ⟨fun c hc h => hbest c hc (worse_trans hworse h), by simpa using hself⟩⟩
      · exact ⟨List.mem_append_left _ hb, List.forall_mem_append.mpr ⟨hbest, by simpa using hworse⟩⟩

theorem bestCandidate_mem {b : B} (h : bestCandidate tree state = some b) :
    b ∈ state.setBlockIndexCandidates := by
  have hlead := bestCandidate_leads tree state
  rw [h] at hlead
  exact hlead.1

/-! ## The status of blocks -/

variable [DecidableEq B]

theorem status_setStatus (f : BlockStatus → BlockStatus) (b c : B) :
    (state.setStatus b f).status c = if c = b then f (state.status b) else state.status c := by
  simp only [BlockManager.setStatus, Function.update_apply]

/-- Flags that a change of status leaves alone. -/
def KeepsFlags (f : BlockStatus → BlockStatus) : Prop :=
  ∀ status, (f status).failedValid = status.failedValid ∧ (f status).failedChild = status.failedChild

/-- A field that the change of status keeps. -/
theorem field_setStatus {α : Type} {g : BlockStatus → α} {f : BlockStatus → BlockStatus}
    (hf : ∀ status, g (f status) = g status) (b c : B) :
    g ((state.setStatus b f).status c) = g (state.status c) := by
  rw [status_setStatus]
  split_ifs with h
  · rw [h, hf]
  · rfl

theorem sameFlags_setStatus {f : BlockStatus → BlockStatus} (hf : KeepsFlags f) (b : B) :
    SameFlags state (state.setStatus b f) :=
  ⟨rfl, fun c => ⟨field_setStatus (fun status => (hf status).1) b c,
    field_setStatus (fun status => (hf status).2) b c⟩⟩

theorem raiseValidity_flags (status : BlockStatus) (nUpTo : Nat) :
    (status.raiseValidity nUpTo).failedValid = status.failedValid ∧
      (status.raiseValidity nUpTo).failedChild = status.failedChild := by
  unfold BlockStatus.raiseValidity
  split <;> exact ⟨rfl, rfl⟩

theorem raiseValidity_failed (status : BlockStatus) (nUpTo : Nat) :
    (status.raiseValidity nUpTo).failed = status.failed := by
  rw [BlockStatus.failed, (raiseValidity_flags status nUpTo).1, (raiseValidity_flags status nUpTo).2]
  rfl

/-- Everything but the status stays when the status of blocks changes. -/
theorem setStatuses_rest (state : BlockManager B) (f : BlockStatus → BlockStatus)
    (blocks : List B) :
    ∃ status, state.setStatuses blocks f = { state with status } := by
  induction blocks generalizing state with
  | nil => exact ⟨state.status, rfl⟩
  | cons b blocks ih =>
    obtain ⟨status, h⟩ := ih (state.setStatus b f)
    exact ⟨status, h⟩

theorem setStatuses_cons (f : BlockStatus → BlockStatus) (b : B) (blocks : List B) :
    state.setStatuses (b :: blocks) f = (state.setStatus b f).setStatuses blocks f := rfl

theorem setStatuses_markChild (blocks : List B) (c : B) :
    ((state.setStatuses blocks .markChild).status c).failedValid = (state.status c).failedValid ∧
      (((state.setStatuses blocks .markChild).status c).failedChild = true ↔
        (state.status c).failedChild = true ∨ c ∈ blocks) := by
  induction blocks generalizing state with
  | nil => simp [BlockManager.setStatuses]
  | cons b blocks ih =>
    have h := @ih (state.setStatus b .markChild)
    rw [status_setStatus] at h
    rw [setStatuses_cons]
    split_ifs at h with hc
    · subst hc
      exact ⟨h.1, by rw [h.2]; simp [BlockStatus.markChild]⟩
    · exact ⟨h.1, by rw [h.2]; simp [hc]⟩

/-! ## Paths -/

theorem pathBelow_of_ne {a b p : B} (hne : b ≠ a) (hp : tree.parent b = some p) :
    pathBelow tree a b = b :: pathBelow tree a p := by
  have hpath := path_of_parent hp
  rw [pathBelow, hpath, List.takeWhile_cons_of_pos (by simpa using hne)]
  rfl

theorem pathBelow_self (a : B) : pathBelow tree a a = [] := by
  obtain ⟨above, hpath⟩ := exists_path_eq_cons tree.toRootedTree a
  simp [pathBelow, hpath]

/-- The blocks below an ancestor descend from it. -/
theorem mem_pathBelow {a b c : B} (ha : a ∈ tree.path b) (hc : c ∈ pathBelow tree a b) :
    c ∈ tree.path b ∧ a ∈ tree.path c := by
  refine ⟨(List.takeWhile_sublist _).subset hc, ?_⟩
  induction b using tree.parentInduction with
  | step b ih =>
    rcases mem_path_cases ha with rfl | ⟨p, hp, hap⟩
    · rw [pathBelow_self] at hc
      cases hc
    · by_cases hne : b = a
      · rw [hne, pathBelow_self] at hc
        cases hc
      · rw [pathBelow_of_ne hne hp, List.mem_cons] at hc
        rcases hc with rfl | hc
        · exact ha
        · exact ih p hp hap hc

theorem marked_setStatuses {a b : B} (ha : a ∈ tree.path b) (hknown : a ∈ state.mapBlockIndex)
    (hfailed : (state.status a).failed = true) :
    Marked tree (fun _ => False) (fun c => c ∈ pathBelow tree a b) state
      (state.setStatuses (pathBelow tree a b) .markChild) := by
  refine ⟨?_, fun c => ?_, fun c => (setStatuses_markChild _ c).2, fun c hc => ?_⟩
  · obtain ⟨status, h⟩ := setStatuses_rest state .markChild (pathBelow tree a b)
    rw [h]
  · rw [(setStatuses_markChild _ c).1, or_false]
  · exact ⟨a, (mem_pathBelow ha hc).2, .inl ⟨hknown, hfailed⟩⟩

/-! ## Headers and blocks -/

/-- A property of the state after a header or block was handled. -/
def HeaderResult.Satisfies (P : BlockManager B → Prop) : HeaderResult B → Prop
  | .accepted state => P state
  | .rejected _ state => P state
  | .aborted => True

theorem mem_insertCandidate {b c : B} (h : c ∈ (state.insertCandidate b).setBlockIndexCandidates) :
    c = b ∨ c ∈ state.setBlockIndexCandidates :=
  List.mem_insert_iff.mp h

theorem linkBlock_index (b : B) : (linkBlock tree state b).mapBlockIndex = state.mapBlockIndex := by
  unfold linkBlock
  dsimp only
  split <;> rfl

theorem marked_markValid (b : B) :
    Marked tree (fun c => c = b) (fun _ => False) state (state.setStatus b .markValid) := by
  refine ⟨rfl, fun c => ?_, fun c => ?_, fun c h => h.elim⟩
  · rw [status_setStatus]
    split_ifs with h
    · simp [h, BlockStatus.markValid]
    · simp [h]
  · rw [status_setStatus]
    split_ifs with h
    · simp [h, BlockStatus.markValid]
    · simp

theorem connectBlocks_index (verdict : B → ConnectVerdict) (oldTip : Option B) (blocks : List B) :
    (connectBlocks tree verdict oldTip state blocks).1.mapBlockIndex = state.mapBlockIndex := by
  induction blocks generalizing state with
  | nil => rfl
  | cons b blocks ih =>
    rw [connectBlocks]
    split
    · split
      · rfl
      · rw [ih]
        rfl
    · rfl
    · rfl

/-- The block is marked as failed and the blocks above it as its children. -/
theorem marked_invalidate {b : B} {walk : List B} (hwalk : ∀ c ∈ walk, b ∈ tree.path c) :
    Marked tree (fun c => c = b) (fun c => c ∈ walk) state
      ((state.setStatuses walk .markChild).setStatus b .markValid) := by
  obtain ⟨status, hrest⟩ := setStatuses_rest state .markChild walk
  refine ⟨by rw [hrest]; rfl, fun c => ?_, fun c => ?_, fun c hc => ⟨b, hwalk c hc, .inr rfl⟩⟩
  · rw [(marked_markValid b : Marked tree _ _ (state.setStatuses walk .markChild) _).valid,
      (setStatuses_markChild walk c).1]
  · rw [(marked_markValid b : Marked tree _ _ (state.setStatuses walk .markChild) _).child,
      (setStatuses_markChild walk c).2, or_false]

section

variable (inv : FlagInv tree strict state) {b : B}
include inv

theorem FlagInv.addToBlockIndex (hparent : ∀ p, tree.parent b = some p → p ∈ state.mapBlockIndex) :
    FlagInv tree strict (addToBlockIndex state b) ∧
      b ∈ (BlockTree.addToBlockIndex state b).mapBlockIndex := by
  unfold BlockTree.addToBlockIndex
  split_ifs with hknown
  · exact ⟨inv, by simpa using hknown⟩
  · have hknown : b ∉ state.mapBlockIndex := by simpa using hknown
    have hstatus : ∀ c ∈ state.mapBlockIndex,
        (state.setStatus b fun _ => ({} : BlockStatus).raiseValidity blockValidTree).status c =
          state.status c := by
      intro c hc
      have hne : c ≠ b := by
        rintro rfl
        exact hknown hc
      rw [status_setStatus, if_neg hne]
    refine ⟨⟨⟨?_, ?_, ?_, ?_, ?_⟩, ?_, ?_⟩, List.mem_cons_self⟩
    · intro c hc p hp
      rcases List.mem_cons.mp hc with rfl | hc
      · exact List.mem_cons_of_mem _ (hparent p hp)
      · exact List.mem_cons_of_mem _ (inv.known.parents c hc p hp)
    · exact fun c hc => List.mem_cons_of_mem _ (inv.known.tip c hc)
    · exact fun c hc => List.mem_cons_of_mem _ (inv.known.candidates c hc)
    · exact fun item hitem => List.mem_cons_of_mem _ (inv.known.unlinked item hitem)
    · exact fun c hc => List.mem_cons_of_mem _ (inv.known.failed c hc)
    · intro c hc hfailed
      rcases List.mem_cons.mp hc with rfl | hc
      · dsimp only at hfailed
        rw [status_setStatus, if_pos rfl] at hfailed
        exact absurd hfailed (by decide)
      · dsimp only at hfailed ⊢
        rw [hstatus c hc] at hfailed
        obtain ⟨a, ha, hvalid⟩ := inv.flags c hc hfailed
        exact ⟨a, ha, by rwa [hstatus a (inv.known.path hc ha)]⟩
    · intro hstrict c hc
      dsimp only
      rw [hstatus c (inv.known.failed c hc)]
      exact inv.failedBlocks hstrict c hc

theorem FlagInv.markChildren {a b : B} (ha : a ∈ tree.path b) (hb : b ∈ state.mapBlockIndex)
    (hfailed : (state.status a).failed = true) :
    FlagInv tree strict (state.setStatuses (pathBelow tree a b) .markChild) := by
  have hmarked := marked_setStatuses ha (inv.known.path hb ha) hfailed
  obtain ⟨status, hrest⟩ := setStatuses_rest state .markChild (pathBelow tree a b)
  rw [hrest] at hmarked ⊢
  exact inv.mark hmarked { inv.known with } fun _ hc => .inl hc

theorem FlagInv.checkFailedBlocks {pindexPrev b : B} (hparent : tree.parent b = some pindexPrev)
    (hprev : pindexPrev ∈ state.mapBlockIndex) :
    (checkFailedBlocks tree state pindexPrev b).Satisfies (FlagInv tree strict) ∧
      ∀ state', BlockTree.checkFailedBlocks tree state pindexPrev b = .accepted state' →
        b ∈ state'.mapBlockIndex := by
  have hadd := inv.addToBlockIndex (b := b) fun p hp => by
    rw [hparent] at hp
    cases hp
    exact hprev
  unfold BlockTree.checkFailedBlocks
  split
  · exact ⟨hadd.1, fun state' h => by cases h; exact hadd.2⟩
  · split
    · exact ⟨hadd.1, fun state' h => by cases h; exact hadd.2⟩
    · rename_i failedit hfind
      have hmem : failedit ∈ tree.path pindexPrev := by
        have := List.find?_some hfind
        rw [beq_iff_eq] at this
        exact ancestorAt_eq_iff.mp this
      split
      · rename_i hvalid
        refine ⟨inv.markChildren hmem hprev ?_, fun state' h => by cases h⟩
        exact (failed_iff _).mpr (.inl hvalid)
      · exact ⟨trivial, fun state' h => by cases h⟩

theorem FlagInv.acceptBlockHeader (headerOk : Except String Unit) (b : B) :
    (acceptBlockHeader tree headerOk state b).Satisfies (FlagInv tree strict) ∧
      ∀ state', BlockTree.acceptBlockHeader tree headerOk state b = .accepted state' →
        b ∈ state'.mapBlockIndex := by
  unfold BlockTree.acceptBlockHeader
  split
  · rename_i hgenesis
    have hadd := inv.addToBlockIndex (b := b) fun p hp => by
      rw [hgenesis, tree.parent_genesis] at hp
      cases hp
    exact ⟨hadd.1, fun state' h => by cases h; exact hadd.2⟩
  · split
    · rename_i hknown
      split
      · exact ⟨inv, fun state' h => by cases h⟩
      · exact ⟨inv, fun state' h => by cases h; simpa using hknown⟩
    · split
      · exact ⟨inv, fun state' h => by cases h⟩
      · rename_i pindexPrev hparent
        split
        · exact ⟨inv, fun state' h => by cases h⟩
        · rename_i hprev
          split
          · exact ⟨inv, fun state' h => by cases h⟩
          · split
            · exact ⟨inv, fun state' h => by cases h⟩
            · exact inv.checkFailedBlocks hparent (by simpa using hprev)

theorem FlagInv.insertCandidate (hb : b ∈ state.mapBlockIndex) :
    FlagInv tree strict (state.insertCandidate b) := by
  refine inv.keep (.refl state) { inv.known with candidates := fun c hc => ?_ } fun _ hc => hc
  rcases mem_insertCandidate hc with rfl | hc
  · exact hb
  · exact inv.known.candidates c hc

theorem FlagInv.eraseCandidates (blocks : List B) :
    FlagInv tree strict (state.eraseCandidates blocks) :=
  inv.keep (.refl state) { inv.known with
    candidates := fun c hc => inv.known.candidates c (List.mem_of_mem_filter hc) } fun _ hc => hc

theorem FlagInv.setStatus {f : BlockStatus → BlockStatus} (hf : KeepsFlags f) (b : B) :
    FlagInv tree strict (state.setStatus b f) :=
  inv.keep (sameFlags_setStatus hf b) { inv.known with } fun _ hc => hc

theorem FlagInv.linkBlock
    (hb : b ∈ state.mapBlockIndex) : FlagInv tree strict (linkBlock tree state b) := by
  unfold BlockTree.linkBlock
  dsimp only
  have hset : FlagInv tree strict (numbered tree state b) := by
    refine FlagInv.requeue (inv.setStatus ?_ b) inv.known.unlinked
    exact fun _ => ⟨rfl, rfl⟩
  split
  · exact (hset.insertCandidate hb).requeue fun item h =>
      inv.known.unlinked item (List.mem_of_mem_filter h)
  · exact hset.requeue fun item h => inv.known.unlinked item (List.mem_of_mem_filter h)

theorem FlagInv.linkBlocks {fuel : Nat} {queue : List B}
    (hqueue : ∀ b ∈ queue, b ∈ state.mapBlockIndex) :
    FlagInv tree strict (linkBlocks tree state fuel queue) := by
  induction fuel generalizing state queue with
  | zero => cases queue <;> exact inv
  | succ fuel ih =>
    cases queue with
    | nil => exact inv
    | cons b queue =>
      refine ih (inv.linkBlock (hqueue b List.mem_cons_self)) fun c hc => ?_
      rw [linkBlock_index]
      rcases List.mem_append.mp hc with hc | hc
      · exact hqueue c (List.mem_cons_of_mem _ hc)
      · obtain ⟨item, hitem, rfl⟩ := List.mem_map.mp hc
        exact inv.known.unlinked item (List.mem_of_mem_filter hitem)

theorem FlagInv.receivedBlockTransactions (hb : b ∈ state.mapBlockIndex) :
    FlagInv tree strict (receivedBlockTransactions tree state b) := by
  have hset := inv.setStatus (f := fun status => ({ status with
    nChainTx := 0, haveData := true }).raiseValidity blockValidTransactions)
    (fun status => raiseValidity_flags _ _) b
  unfold BlockTree.receivedBlockTransactions
  dsimp only
  split
  · exact hset.linkBlocks fun c hc => by
      rw [List.mem_singleton.mp hc]
      exact hb
  · split
    · split
      · exact hset.requeue
          (List.forall_mem_append.mpr ⟨inv.known.unlinked, List.forall_mem_singleton.mpr hb⟩)
      · exact hset
    · exact hset

theorem FlagInv.markValid (b : B) :
    FlagInv tree strict (state.setStatus b .markValid) :=
  inv.mark (marked_markValid b) { inv.known with } fun _ hc => .inl hc

theorem FlagInv.acceptBlock (headerOk : Except String Unit)
    (check : BlockCheck) (fRequested : Bool) (b : B) :
    (acceptBlock tree headerOk check fRequested state b).Satisfies (FlagInv tree strict) := by
  obtain ⟨hinv, hknown⟩ := inv.acceptBlockHeader headerOk b
  unfold BlockTree.acceptBlock
  cases hheader : BlockTree.acceptBlockHeader tree headerOk state b with
  | accepted state' =>
    rw [hheader] at hinv
    dsimp only
    split
    · exact hinv
    · cases check with
      | ok => exact FlagInv.receivedBlockTransactions hinv (hknown state' hheader)
      | invalid => exact FlagInv.markValid hinv b
      | corrupt => exact hinv
  | rejected reason state' =>
    rw [hheader] at hinv
    exact hinv
  | aborted => trivial

/-! ## The best chain -/

theorem FlagInv.dropCandidate {pindexNew pindexTest : B}
    (hnew : pindexNew ∈ state.mapBlockIndex) (htest : pindexTest ∈ tree.path pindexNew) :
    FlagInv tree strict (dropCandidate tree state pindexNew pindexTest) := by
  unfold BlockTree.dropCandidate
  dsimp only
  split
  · rename_i hfailed
    exact (inv.markChildren htest hnew hfailed).eraseCandidates _
  · refine (inv.requeue (n := state.nBlockSequenceId) fun item hitem => ?_).eraseCandidates _
    rcases List.mem_append.mp hitem with hitem | hitem
    · exact inv.known.unlinked item hitem
    · obtain ⟨c, hc, hitem⟩ := List.mem_filterMap.mp hitem
      obtain ⟨p, -, rfl⟩ := Option.map_eq_some_iff.mp hitem
      exact inv.known.path hnew (mem_pathBelow htest hc).1

theorem FlagInv.findMostWorkChain (fuel : Nat) :
    FlagInv tree strict (findMostWorkChain tree fuel state).2 ∧
      ∀ b, (BlockTree.findMostWorkChain tree fuel state).1 = some b →
        b ∈ (BlockTree.findMostWorkChain tree fuel state).2.mapBlockIndex := by
  induction fuel generalizing state with
  | zero => exact ⟨inv, fun b h => by cases h⟩
  | succ fuel ih =>
    rw [BlockTree.findMostWorkChain]
    split
    · exact ⟨inv, fun b h => by cases h⟩
    · rename_i pindexNew hbest
      have hnew := inv.known.candidates _ (bestCandidate_mem hbest)
      split
      · refine ⟨inv, fun b h => ?_⟩
        cases h
        exact hnew
      · rename_i pindexTest hfind
        have htest := (List.takeWhile_sublist _).subset (List.mem_of_find?_eq_some hfind)
        exact ih (inv.dropCandidate hnew htest)

variable {verdict : B → ConnectVerdict}

theorem FlagInv.connectTip (hb : b ∈ state.mapBlockIndex) :
    FlagInv tree strict (connectTip state b) :=
  (inv.setStatus (fun _ => raiseValidity_flags _ _) b).withTip fun c hc => by
    cases hc
    exact hb

/-- A block is marked and enters the set of failed blocks in one step. -/
theorem FlagInv.insertMarked (hb : b ∈ state.mapBlockIndex) :
    FlagInv tree strict ((state.setStatus b .markValid).insertFailed b) := by
  have marked : Marked tree _ _ state _ := marked_markValid b
  refine inv.mark { marked with } { inv.known with failed := fun c hc => ?_ } fun c hc => ?_
  · rcases List.mem_insert_iff.mp hc with rfl | hc
    · exact hb
    · exact inv.known.failed c hc
  · exact (List.mem_insert_iff.mp hc).symm

theorem FlagInv.connectBlocks {oldTip : Option B} {blocks : List B}
    (hblocks : ∀ b ∈ blocks, b ∈ state.mapBlockIndex) :
    FlagInv tree strict (connectBlocks tree verdict oldTip state blocks).1 := by
  induction blocks generalizing state with
  | nil => exact inv
  | cons b blocks ih =>
    obtain ⟨hb, hrest⟩ := List.forall_mem_cons.mp hblocks
    rw [BlockTree.connectBlocks]
    split
    · have hconnect := (inv.connectTip hb).prune
      dsimp only
      split
      · exact hconnect
      · exact ih hconnect hrest
    · exact (inv.insertMarked hb).eraseCandidates _
    · exact inv

theorem FlagInv.activateBestChainStep (hb : b ∈ state.mapBlockIndex) :
    FlagInv tree strict (activateBestChainStep tree verdict state b).1 := by
  unfold BlockTree.activateBestChainStep
  dsimp only
  refine (inv.withTip fun c hc => ?_).connectBlocks fun c hc => ?_
  · exact inv.known.path hb (List.mem_of_find?_eq_some hc)
  · exact inv.known.path hb ((List.takeWhile_sublist _).subset (List.mem_reverse.mp hc))

theorem FlagInv.activateRounds
    {verdict : Nat → B → ConnectVerdict} {rounds k : Nat} {pindexMostWork : Option B}
    (hmost : ∀ b, pindexMostWork = some b → b ∈ state.mapBlockIndex)
    (h : activateRounds tree verdict rounds k pindexMostWork state = some state') :
    FlagInv tree strict state' := by
  induction rounds generalizing k pindexMostWork state with
  | zero => cases h
  | succ rounds ih =>
    have hround : FlagInv tree strict (roundCandidate tree pindexMostWork state).2 ∧
        ∀ b, (roundCandidate tree pindexMostWork state).1 = some b →
          b ∈ (roundCandidate tree pindexMostWork state).2.mapBlockIndex := by
      unfold roundCandidate
      cases pindexMostWork with
      | none => exact inv.findMostWorkChain _
      | some b => exact ⟨inv, hmost⟩
    rw [BlockTree.activateRounds] at h
    split at h
    · rename_i found heq
      cases h
      rw [heq] at hround
      exact hround.1
    · rename_i b found heq
      rw [heq] at hround
      have hb := hround.2 b rfl
      split at h
      · cases h
        exact hround.1
      · have hstep : FlagInv tree strict
            (BlockTree.activateBestChainStep tree (verdict k) found b).1 :=
          FlagInv.activateBestChainStep hround.1 hb
        dsimp only at h
        generalize hnext : (if (BlockTree.activateBestChainStep tree (verdict k) found b).2 = true
          then none else some b) = next at h
        have hknown : ∀ c, next = some c → c ∈
            (BlockTree.activateBestChainStep tree (verdict k) found b).1.mapBlockIndex := by
          rintro c rfl
          rw [BlockTree.activateBestChainStep, connectBlocks_index]
          split at hnext
          · cases hnext
          · cases hnext
            exact hb
        split at h
        · cases h
          exact hstep
        · exact ih hstep hknown h

/-! ## Invalidation -/

theorem FlagInv.reconsiderCandidates {blocks : List B}
    (hblocks : ∀ b ∈ blocks, b ∈ state.mapBlockIndex) :
    FlagInv tree strict (blocks.foldl (reconsiderCandidate tree) state) := by
  induction blocks generalizing state with
  | nil => exact inv
  | cons b blocks ih =>
    obtain ⟨hb, hrest⟩ := List.forall_mem_cons.mp hblocks
    rw [List.foldl_cons]
    unfold reconsiderCandidate
    split
    · have hinsert := inv.insertCandidate hb
      refine ih (hinsert.keep (.refl _) { hinsert.known with failed := fun c hc => ?_ }
        fun c hc => ?_) hrest
      · exact inv.known.failed c (List.mem_of_mem_filter hc)
      · exact List.mem_of_mem_filter hc
    · exact ih inv hrest

theorem FlagInv.invalidateBlock
    (hb : b ∈ state.mapBlockIndex) : FlagInv tree strict (invalidateBlock tree state b) := by
  unfold BlockTree.invalidateBlock
  dsimp only
  generalize hwalkEq : (if inActiveChain tree state b then (state.tip.map (pathBelow tree b)).getD []
    else []) = walk
  have hwalk : ∀ c ∈ walk, b ∈ tree.path c := by
    intro c hc
    rw [← hwalkEq] at hc
    split at hc
    · rename_i hin
      cases htip : state.tip with
      | none =>
        rw [htip] at hc
        cases hc
      | some tip =>
        rw [htip] at hc
        rw [inActiveChain, htip] at hin
        have hmem : b ∈ tree.path tip := ancestorAt_eq_iff.mp (by simpa using hin)
        exact (mem_pathBelow hmem hc).2
    · cases hc
  have htip : FlagInv tree strict
      (if inActiveChain tree state b then { state with tip := tree.parent b } else state) := by
    split
    · exact inv.withTip fun c hc => inv.known.parents b hb c hc
    · exact inv
  have hindex : (if inActiveChain tree state b then { state with tip := tree.parent b }
      else state).mapBlockIndex = state.mapBlockIndex := by
    split <;> rfl
  generalize (if inActiveChain tree state b then { state with tip := tree.parent b } else state) =
    moved at htip hindex ⊢
  obtain ⟨status, hrest⟩ := setStatuses_rest moved .markChild walk
  have hmarked : FlagInv tree strict
      (((((moved.setStatuses walk .markChild).eraseCandidates walk).setStatus b .markValid)
        |>.eraseCandidates [b]).insertFailed b) := by
    have marked : Marked tree _ _ moved _ := marked_invalidate hwalk
    refine htip.mark { marked with } ?_ fun c hc => ?_
    · rw [hrest]
      refine { htip.known with candidates := fun c hc => ?_, failed := fun c hc => ?_ }
      · exact htip.known.candidates c (List.mem_of_mem_filter (List.mem_of_mem_filter hc))
      · rcases List.mem_insert_iff.mp hc with rfl | hc
        · exact hindex ▸ hb
        · exact htip.known.failed c hc
    · rw [hrest] at hc
      exact (List.mem_insert_iff.mp hc).symm
  exact hmarked.reconsiderCandidates fun _ hc => hc

end

/-! ## Reconsideration -/

/-- The blocks whose flags `ResetBlockFailureFlags` clears: the line through the block. -/
def OnLine (tree : HeaderTree B) (pindex b : B) : Prop := pindex ∈ tree.path b ∨ b ∈ tree.path pindex

theorem clearedAt_setStatus (b : B) :
    ClearedAt state (state.setStatus b .clearFailed) fun c => c = b := by
  intro c
  rw [status_setStatus]
  exact ⟨fun h => by rw [if_pos h]; exact ⟨rfl, rfl⟩, fun h => by rw [if_neg h]; exact ⟨rfl, rfl⟩⟩

theorem clearedAt_setStatuses (state : BlockManager B) (blocks : List B) :
    ClearedAt state (state.setStatuses blocks .clearFailed) fun c => c ∈ blocks := by
  induction blocks generalizing state with
  | nil => exact fun c => ⟨fun h => absurd h (by simp), fun _ => ⟨rfl, rfl⟩⟩
  | cons b blocks ih =>
    exact ((clearedAt_setStatus b).trans (ih _)).congr fun c => List.mem_cons.symm

/-- Flags are cleared in `C` and candidates added from `D`; the rest stays. -/
structure Resets (state state' : BlockManager B) (C D : B → Prop) : Prop where
  cleared : ClearedAt state state' C
  index : state'.mapBlockIndex = state.mapBlockIndex
  tip : state'.tip = state.tip
  unlinked : state'.mapBlocksUnlinked = state.mapBlocksUnlinked
  failed : state'.gFailedBlocks = state.gFailedBlocks
  candidates : ∀ c ∈ state'.setBlockIndexCandidates, D c ∨ c ∈ state.setBlockIndexCandidates

theorem resets_resetDescendant (tree : HeaderTree B) (state : BlockManager B) (pindex b : B) :
    Resets state (resetDescendant tree pindex state b) (fun c => c = b ∧ pindex ∈ tree.path c)
      (· = b) := by
  unfold resetDescendant
  split_ifs with hcond
  · have hpath : pindex ∈ tree.path b := by
      rw [Bool.and_eq_true, beq_iff_eq] at hcond
      exact ancestorAt_eq_iff.mp hcond.2
    have hclear : ClearedAt state (state.setStatus b .clearFailed) fun c =>
        c = b ∧ pindex ∈ tree.path c :=
      (clearedAt_setStatus b).congr fun c => ⟨fun h => ⟨h, h ▸ hpath⟩, fun h => h.1⟩
    dsimp only
    split
    · exact ⟨hclear, rfl, rfl, rfl, rfl, fun c hc => mem_insertCandidate hc⟩
    · exact ⟨hclear, rfl, rfl, rfl, rfl, fun c hc => .inr hc⟩
  · refine ⟨fun c => ⟨?_, fun _ => ⟨rfl, rfl⟩⟩, rfl, rfl, rfl, rfl, fun c hc => .inr hc⟩
    rintro ⟨rfl, hpath⟩
    -- A descendant that the loop skips is valid, and so not failed.
    have hvalid : (state.status c).isValid blockValidTransactions = true := by
      by_contra hinvalid
      refine hcond ?_
      rw [Bool.and_eq_true, beq_iff_eq]
      exact ⟨by simpa using hinvalid, ancestorAt_eq_iff.mpr hpath⟩
    simp only [BlockStatus.isValid, BlockStatus.failed, Bool.and_eq_true, Bool.not_eq_true',
      Bool.or_eq_false_iff] at hvalid
    exact hvalid.1

/-- The loop over the index. -/
theorem resets_resetDescendants (tree : HeaderTree B) (state : BlockManager B) (pindex : B)
    (blocks : List B) :
    Resets state (blocks.foldl (resetDescendant tree pindex) state)
      (fun c => c ∈ blocks ∧ pindex ∈ tree.path c) (· ∈ blocks) := by
  induction blocks generalizing state with
  | nil => exact ⟨fun c => ⟨fun h => absurd h.1 (by simp), fun _ => ⟨rfl, rfl⟩⟩, rfl, rfl, rfl, rfl,
      fun c hc => .inr hc⟩
  | cons b blocks ih =>
    have first := resets_resetDescendant tree state pindex b
    have later := ih (resetDescendant tree pindex state b)
    refine ⟨(first.cleared.trans later.cleared).congr fun c => ?_, later.index.trans first.index,
      later.tip.trans first.tip, later.unlinked.trans first.unlinked,
      later.failed.trans first.failed, fun c hc => ?_⟩
    · rw [List.mem_cons]
      tauto
    · rcases later.candidates c hc with hc | hc
      · exact .inl (List.mem_cons_of_mem _ hc)
      · exact (first.candidates c hc).imp_left fun h => List.mem_cons.mpr (.inl h)

/-- `ResetBlockFailureFlags` clears the flags of one line and changes nothing else that matters
here; in particular it keeps `gFailedBlocks`. -/
theorem reset_spec (tree : HeaderTree B) (state : BlockManager B) (pindex : B) :
    ClearedAt state (resetBlockFailureFlags tree state pindex)
        (fun c => (c ∈ state.mapBlockIndex ∧ pindex ∈ tree.path c) ∨ c ∈ tree.path pindex) ∧
      (resetBlockFailureFlags tree state pindex).gFailedBlocks = state.gFailedBlocks ∧
      (resetBlockFailureFlags tree state pindex).mapBlockIndex = state.mapBlockIndex ∧
      (Known tree state → Known tree (resetBlockFailureFlags tree state pindex)) := by
  have resets := resets_resetDescendants tree state pindex state.mapBlockIndex
  unfold resetBlockFailureFlags
  have hlast := clearedAt_setStatuses
    (state.mapBlockIndex.foldl (resetDescendant tree pindex) state) (tree.path pindex)
  obtain ⟨status, hrest⟩ := setStatuses_rest
    (state.mapBlockIndex.foldl (resetDescendant tree pindex) state) .clearFailed (tree.path pindex)
  refine ⟨resets.cleared.trans hlast, ?_, ?_, fun known => ?_⟩
  · rw [hrest]
    exact resets.failed
  · rw [hrest]
    exact resets.index
  · rw [hrest]
    refine ⟨?_, ?_, ?_, ?_, ?_⟩ <;> dsimp only <;> rw [resets.index]
    · exact known.parents
    · rw [resets.tip]
      exact known.tip
    · exact fun c hc => (resets.candidates c hc).elim id fun hc => known.candidates c hc
    · rw [resets.unlinked]
      exact known.unlinked
    · rw [resets.failed]
      exact known.failed

end Flags

end KubuCore.BlockTree
