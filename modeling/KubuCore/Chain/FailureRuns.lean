import KubuCore.Chain.FailureFlags

/-!
# Runs of the block index

Any sequence of headers, blocks, activations of the best chain, invalidations
and reconsiderations. The flags keep their meaning in a run whose
reconsiderations leave no failed block beside their line without a failed
ancestor, and the set of failed blocks keeps its meaning as long as no
reconsideration touches a member of it.
-/

namespace KubuCore.BlockTree

open KubuCore.RootedTree

section Runs

variable {B : Type} [DecidableEq B] {tree : HeaderTree B} {state : BlockManager B}

inductive TreeLabel (B : Type) where
  | header (b : B)
  | block (b : B)
  | activate
  | invalidate (b : B)
  | reset (b : B)

/-- The state after a header or block, unless the node stopped. -/
def HeaderResult.after : HeaderResult B → Option (BlockManager B)
  | .accepted state => some state
  | .rejected _ state => some state
  | .aborted => none

/-- The calls of a run; `invalidateblock` and `reconsiderblock` look their block up in the index. -/
inductive TreeStep (tree : HeaderTree B) :
    BlockManager B → TreeLabel B → BlockManager B → Prop where
  | header {state state' b} (headerOk : Except String Unit) :
    (acceptBlockHeader tree headerOk state b).after = some state' →
    TreeStep tree state (.header b) state'
  | block {state state' b} (headerOk : Except String Unit) (check : BlockCheck)
      (fRequested : Bool) :
    (acceptBlock tree headerOk check fRequested state b).after = some state' →
    TreeStep tree state (.block b) state'
  | activate {state state'} (verdict : Nat → B → ConnectVerdict) (rounds : Nat) :
    activateBestChain tree verdict rounds state = some state' →
    TreeStep tree state .activate state'
  | invalidate {state b} : b ∈ state.mapBlockIndex →
    TreeStep tree state (.invalidate b) (invalidateBlock tree state b)
  | reset {state b} : b ∈ state.mapBlockIndex →
    TreeStep tree state (.reset b) (resetBlockFailureFlags tree state b)

/-- Runs from an index that holds the genesis block only. -/
inductive TreeRun (tree : HeaderTree B) (cond : BlockManager B → TreeLabel B → Prop) :
    BlockManager B → Prop where
  | start : TreeRun tree cond (genesisState tree)
  | next {state label state'} : TreeRun tree cond state → cond state label →
    TreeStep tree state label state' → TreeRun tree cond state'

/-- Every failed block off the line of the reconsidered one has a failed ancestor that is not an
ancestor of it. -/
def SparesSiblings (tree : HeaderTree B) (state : BlockManager B) (pindex : B) : Prop :=
  ∀ b ∈ state.mapBlockIndex, (state.status b).failed = true → ¬ OnLine tree pindex b →
    ∃ a ∈ tree.path b, (state.status a).failedValid = true ∧ a ∉ tree.path pindex

/-- No member of `gFailedBlocks` is on the line of the reconsidered block. -/
def SparesFailedBlocks (tree : HeaderTree B) (state : BlockManager B) (pindex : B) : Prop :=
  ∀ b ∈ state.gFailedBlocks, ¬ OnLine tree pindex b

/-- A failed block is, or descends from, a block that failed itself. -/
def FlagsMean (tree : HeaderTree B) (state : BlockManager B) : Prop :=
  ∀ b ∈ state.mapBlockIndex, (state.status b).failed = true →
    ∃ a ∈ tree.path b, (state.status a).failedValid = true

/-- After a reconsideration the flags mean what they say exactly if it spared the siblings. -/
theorem flagsMean_reset_iff (pindex : B) :
    FlagsMean tree (resetBlockFailureFlags tree state pindex) ↔ SparesSiblings tree state pindex := by
  obtain ⟨hclear, -, hindex, -⟩ := reset_spec tree state pindex
  constructor
  · intro h b hb hfailed hoff
    have hkept := (hclear b).2 fun hc => hoff (hc.imp And.right id)
    obtain ⟨a, ha, hvalid⟩ := h b (hindex ▸ hb) (by
      rw [BlockStatus.failed, hkept.1, hkept.2]
      exact hfailed)
    have hnot : a ∉ tree.path pindex := fun hmem => by
      rw [((hclear a).1 (.inr hmem)).1] at hvalid
      cases hvalid
    refine ⟨a, ha, ?_, hnot⟩
    rw [← ((hclear a).2 ?_).1]
    · exact hvalid
    · rintro (⟨-, hmem⟩ | hmem)
      · exact hoff (.inl (mem_path_trans ha hmem))
      · exact hnot hmem
  · intro h b hb hfailed
    have hb : b ∈ state.mapBlockIndex := hindex ▸ hb
    by_cases hline : (b ∈ state.mapBlockIndex ∧ pindex ∈ tree.path b) ∨ b ∈ tree.path pindex
    · rw [BlockStatus.failed, ((hclear b).1 hline).1, ((hclear b).1 hline).2] at hfailed
      cases hfailed
    · have hkept := (hclear b).2 hline
      have hoff : ¬ OnLine tree pindex b := fun hon => hline (hon.imp (fun h => ⟨hb, h⟩) id)
      rw [BlockStatus.failed, hkept.1, hkept.2] at hfailed
      obtain ⟨a, ha, hvalid, hnot⟩ := h b hb hfailed hoff
      refine ⟨a, ha, ?_⟩
      rw [((hclear a).2 ?_).1]
      · exact hvalid
      · rintro (⟨-, hmem⟩ | hmem)
        · exact hoff (.inl (mem_path_trans ha hmem))
        · exact hnot hmem

variable {strict : Prop}

theorem FlagInv.reset (inv : FlagInv tree strict state) {pindex : B}
    (siblings : SparesSiblings tree state pindex)
    (failedBlocks : strict → SparesFailedBlocks tree state pindex) :
    FlagInv tree strict (resetBlockFailureFlags tree state pindex) := by
  obtain ⟨hclear, hfailed, -, hknown⟩ := reset_spec tree state pindex
  refine ⟨hknown inv.known, (flagsMean_reset_iff pindex).mpr siblings, fun hstrict b hb => ?_⟩
  rw [hfailed] at hb
  have hoff := failedBlocks hstrict b hb
  rw [((hclear b).2 fun hc => hoff (hc.imp And.right id)).1]
  exact inv.failedBlocks hstrict b hb

theorem flagInv_genesis : FlagInv tree strict (genesisState tree) := by
  refine ⟨⟨?_, ?_, ?_, ?_, ?_⟩, ?_, ?_⟩
  · intro b hb p hp
    rw [List.mem_singleton.mp hb, tree.parent_genesis] at hp
    cases hp
  · intro b hb
    cases hb
    exact List.mem_singleton.mpr rfl
  · exact fun b hb => hb
  · exact fun item hitem => by cases hitem
  · exact fun b hb => by cases hb
  · intro b hb hfailed
    rw [List.mem_singleton.mp hb] at hfailed
    simp [genesisState, BlockStatus.failed] at hfailed
  · exact fun _ b hb => by cases hb

omit [DecidableEq B] in
theorem HeaderResult.Satisfies.after {P : BlockManager B → Prop} {result : HeaderResult B}
    (h : result.Satisfies P) {state' : BlockManager B} (hafter : result.after = some state') :
    P state' := by
  cases result with
  | accepted state => cases hafter; exact h
  | rejected reason state => cases hafter; exact h
  | aborted => cases hafter

/-- The condition on reconsiderations. -/
def SparingReset (strict : Prop) (tree : HeaderTree B) (state : BlockManager B) :
    TreeLabel B → Prop
  | .reset b => SparesSiblings tree state b ∧ (strict → SparesFailedBlocks tree state b)
  | _ => True

theorem FlagInv.step (inv : FlagInv tree strict state) {label : TreeLabel B}
    {state' : BlockManager B} (cond : SparingReset strict tree state label)
    (step : TreeStep tree state label state') : FlagInv tree strict state' := by
  cases step with
  | header headerOk h => exact (inv.acceptBlockHeader headerOk _).1.after h
  | block headerOk check fRequested h => exact (inv.acceptBlock headerOk check fRequested _).after h
  | activate verdict rounds h => exact inv.activateRounds (fun b hb => by cases hb) h
  | invalidate hb => exact inv.invalidateBlock hb
  | reset hb => exact inv.reset cond.1 cond.2

theorem TreeRun.flagInv (run : TreeRun tree (SparingReset strict tree) state) :
    FlagInv tree strict state := by
  induction run with
  | start => exact flagInv_genesis
  | next _ cond step ih => exact ih.step cond step

/-- In a run whose reconsiderations spare the siblings of their line, a failed block is or
descends from one that failed itself, so that a block without such an ancestor is not excluded. -/
theorem failure_flags_mean (tree : HeaderTree B) {state : BlockManager B}
    (run : TreeRun tree (SparingReset False tree) state) :
    FlagsMean tree state ∧
      (∀ b ∈ state.mapBlockIndex, (∀ a ∈ tree.path b, (state.status a).failedValid = false) →
        (state.status b).failed = false) ∧
      ∀ pindex ∈ state.mapBlockIndex,
        (FlagsMean tree (resetBlockFailureFlags tree state pindex) ↔
          SparesSiblings tree state pindex) := by
  have hflags := run.flagInv.flags
  refine ⟨hflags, fun b hb hnone => ?_, fun pindex _ => flagsMean_reset_iff pindex⟩
  by_contra hfailed
  obtain ⟨a, ha, hvalid⟩ := hflags b hb (by simpa using hfailed)
  rw [hnone a ha] at hvalid
  cases hvalid

/-- In a run whose reconsiderations also spare the failed blocks, the assertion on them never
fails, and a header is rejected for its ancestors only if one of them failed. -/
theorem failed_blocks_flagged (tree : HeaderTree B) {state : BlockManager B}
    (run : TreeRun tree (SparingReset True tree) state) :
    (∀ b ∈ state.gFailedBlocks, (state.status b).failedValid = true) ∧
      (∀ headerOk b, acceptBlockHeader tree headerOk state b ≠ .aborted) ∧
      ∀ b pindexPrev state', b ∉ state.mapBlockIndex → b ≠ tree.genesis →
        tree.parent b = some pindexPrev → pindexPrev ∈ state.mapBlockIndex →
        acceptBlockHeader tree (.ok ()) state b = .rejected "bad-prevblk" state' →
        ∃ a ∈ tree.path pindexPrev, (state.status a).failedValid = true := by
  have inv := run.flagInv
  refine ⟨inv.failedBlocks trivial, fun headerOk b habort => ?_, ?_⟩
  · unfold acceptBlockHeader at habort
    split_ifs at habort
    split at habort
    · cases habort
    · split_ifs at habort
      split at habort
      · cases habort
      · unfold checkFailedBlocks at habort
        split_ifs at habort
        split at habort
        · cases habort
        · rename_i failedit hfind
          split_ifs at habort with hflag
          exact hflag (inv.failedBlocks trivial _ (List.mem_of_find?_eq_some hfind))
  · intro b pindexPrev state' hnew hgenesis hparent hprev hreject
    rw [acceptBlockHeader, if_neg hgenesis, if_neg (by simpa using hnew), hparent] at hreject
    dsimp only at hreject
    rw [if_neg (by simpa using hprev)] at hreject
    split at hreject
    · rename_i hfailed
      exact inv.flags pindexPrev hprev hfailed
    · unfold checkFailedBlocks at hreject
      split at hreject
      · cases hreject
      · split at hreject
        · cases hreject
        · rename_i failedit hfind
          split at hreject
          · rename_i hflag
            have hmem := List.find?_some hfind
            rw [beq_iff_eq] at hmem
            exact ⟨failedit, ancestorAt_eq_iff.mp hmem, hflag⟩
          · cases hreject

end Runs

/-! ## A fork -/

/-- The state after the header of a block. -/
def withHeader (state : BlockManager Nat) (b : Nat) : BlockManager Nat :=
  ((acceptBlockHeader forkTree (.ok ()) state b).after).getD state

variable {cond : BlockManager Nat → TreeLabel Nat → Prop}

/-- A header step of the fork. -/
theorem fork_header {state : BlockManager Nat} {b : Nat} (run : TreeRun forkTree cond state)
    (hcond : cond state (.header b))
    (h : (acceptBlockHeader forkTree (.ok ()) state b).after.isSome = true) :
    TreeRun forkTree cond (withHeader state b) := by
  obtain ⟨state', hafter⟩ := Option.isSome_iff_exists.mp h
  rw [withHeader, hafter]
  exact .next run hcond (.header (.ok ()) hafter)

/-- An operator invalidates block 1 and reconsiders it; block 2 then stops the node. -/
theorem reconsidered_block_aborts :
    ∃ state, TreeRun forkTree (fun _ _ => True) state ∧
      acceptBlockHeader forkTree (.ok ()) state 2 = .aborted := by
  refine ⟨resetBlockFailureFlags forkTree (invalidateBlock forkTree
    (withHeader (genesisState forkTree) 1) 1) 1, ?_, rfl⟩
  have hheader : TreeRun forkTree (fun _ _ => True) (withHeader (genesisState forkTree) 1) :=
    fork_header .start trivial rfl
  exact .next (.next hheader trivial (.invalidate (by decide))) trivial (.reset (by decide))

/-- The headers of blocks 1, 2 and 3 are known. -/
def forkedState : BlockManager Nat :=
  withHeader (withHeader (withHeader (genesisState forkTree) 1) 2) 3

theorem forkedState_run (hcond : ∀ state b, cond state (.header b)) :
    TreeRun forkTree cond forkedState :=
  fork_header (fork_header (fork_header .start (hcond _ 1) rfl) (hcond _ 2) rfl) (hcond _ 3) rfl

/-- Block 1 is invalidated, a header on block 2 marks block 2 as its child, and block 3 is
reconsidered: block 2 stays excluded although none of its ancestors failed. -/
theorem reconsidered_sibling_stays_failed :
    ∃ state, TreeRun forkTree (fun _ _ => True) state ∧ 2 ∈ state.mapBlockIndex ∧
      (state.status 2).failed = true ∧
      ∀ a ∈ forkTree.path 2, (state.status a).failedValid = false := by
  refine ⟨resetBlockFailureFlags forkTree (withHeader (invalidateBlock forkTree forkedState 1) 4) 3,
    ?_, by decide, by decide, by decide⟩
  have hinvalid : TreeRun forkTree (fun _ _ => True) (invalidateBlock forkTree forkedState 1) :=
    .next (forkedState_run fun _ _ => trivial) trivial (.invalidate (by decide))
  exact .next (fork_header hinvalid trivial rfl) trivial (.reset (by decide))

instance (tree : HeaderTree Nat) (pindex b : Nat) : Decidable (OnLine tree pindex b) :=
  inferInstanceAs (Decidable (_ ∨ _))

/-- Block 2 is invalidated and its sibling 3 is reconsidered. -/
def siblingState : BlockManager Nat :=
  resetBlockFailureFlags forkTree (invalidateBlock forkTree forkedState 2) 3

theorem siblingState_run (strict : Prop) :
    TreeRun forkTree (SparingReset strict forkTree) siblingState := by
  have hinvalidate : SparingReset strict forkTree forkedState (.invalidate 2) := trivial
  have siblings : SparesSiblings forkTree (invalidateBlock forkTree forkedState 2) 3 := by
    unfold SparesSiblings
    decide
  have failedBlocks : SparesFailedBlocks forkTree (invalidateBlock forkTree forkedState 2) 3 := by
    unfold SparesFailedBlocks
    decide
  have hreset : SparingReset strict forkTree (invalidateBlock forkTree forkedState 2) (.reset 3) :=
    ⟨siblings, fun _ => failedBlocks⟩
  exact .next (.next (forkedState_run fun _ _ => trivial) hinvalidate (.invalidate (by decide)))
    hreset (.reset (by decide))

theorem failed_blocks_flagged_sibling :
    siblingState.gFailedBlocks = [2] ∧ (siblingState.status 2).failedValid = true ∧
      acceptBlockHeader forkTree (.ok ()) siblingState 4 ≠ .aborted := by
  obtain ⟨hfailed, haborts, -⟩ := failed_blocks_flagged forkTree (siblingState_run True)
  have hset : siblingState.gFailedBlocks = [2] := by decide
  exact ⟨hset, hfailed 2 (by rw [hset]; exact List.mem_singleton.mpr rfl), haborts (.ok ()) 4⟩

theorem failure_flags_mean_sibling :
    (siblingState.status 2).failed = true ∧ FlagsMean forkTree siblingState :=
  ⟨by decide, (failure_flags_mean forkTree (siblingState_run False)).1⟩

end KubuCore.BlockTree
