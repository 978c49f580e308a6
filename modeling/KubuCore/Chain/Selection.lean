import KubuCore.Chain.BestChain

/-!
# Best-chain selection over every order of arrival

The rounds of `ActivateBestChain` come to an end: a round finds an invalid
block, of which there are finitely many, or brings the tip closer to the best
candidate. So after every block that arrives the tip is the best block there is.
-/

namespace KubuCore.BlockTree

open KubuCore.RootedTree

variable {B : Type} {tree : HeaderTree B} {valid : B → Bool}
  {state state' : BlockManager B}

/-! ## What is selected -/

/-- Among the ancestors with a property the nearest is below the others. -/
theorem mem_path_find {P : B → Bool} {b f a : B} (hf : (tree.path b).find? P = some f)
    (ha : a ∈ tree.path b) (hPa : P a = true) : a ∈ tree.path f := by
  induction b using tree.parentInduction with
  | step b ih =>
    by_cases hb : P b = true
    · have hfind : (tree.path b).find? P = some b := by
        obtain ⟨above, hpath⟩ := exists_path_eq_cons tree.toRootedTree b
        rw [hpath, List.find?_cons_of_pos hb]
      rw [hfind] at hf
      cases hf
      exact ha
    · rcases mem_path_cases ha with rfl | ⟨p, hp, hap⟩
      · exact absurd hPa hb
      · have hpath := path_of_parent hp
        rw [hpath, List.find?_cons_of_neg hb] at hf
        exact ih p hp hf hap

/-- The selection has ended: the tip is the best block. -/
structure Chosen (tree : HeaderTree B) (valid : B → Bool) (state state' : BlockManager B) : Prop where
  moves : Moves tree valid state state'
  best : ∃ m, state'.tip = some m ∧ Best tree valid state' m

theorem Moves.chosen {s t u : BlockManager B} (h : Moves tree valid s t)
    (h' : Chosen tree valid t u) : Chosen tree valid s u := ⟨h.trans h'.moves, h'.best⟩

/-- A target that is reached is the best block. -/
theorem Target.reached {b : B} (target : Target tree state b) (settled : Settled tree valid state)
    (htip : state.tip = some b) : Best tree valid state b := by
  obtain ⟨t, ht, heligible⟩ := settled.choice.tip
  rw [htip] at ht
  cases ht
  obtain ⟨m, hm, best⟩ := settled.choice.best
  have hbm : b = m := by
    by_contra hne
    exact target.best m hm (best.above b heligible hne)
  exact hbm ▸ best

theorem Target.moves {b : B} (target : Target tree state b)
    (moves : Moves tree valid state state') (same : SameMarks state state') :
    Target tree state' b := by
  refine ⟨(moves.data.linked b).mpr target.linked, fun c hc => ?_, fun c hc => ?_⟩
  · rw [worse_congr moves.data.nSequenceId]
    exact target.best c (moves.candidates c hc)
  · exact (same c).trans (target.clear c hc)

/-- Between arrivals the tip is the best block. -/
structure AtRest (tree : HeaderTree B) (valid : B → Bool) (state : BlockManager B) : Prop where
  settled : Settled tree valid state
  best : ∃ m, state.tip = some m ∧ Best tree valid state m

theorem AtRest.header (rest : AtRest tree valid state)
    (done : HeaderDone tree valid state state') : AtRest tree valid state' := by
  obtain ⟨m, hm, best⟩ := rest.best
  refine ⟨⟨done.data, done.mark, rest.settled.choice.quiet done.quiet⟩, m,
    done.quiet.tip.trans hm, ?_⟩
  refine best.congr (fun b => ?_) done.quiet.nSequenceId
  unfold Linked
  rw [done.quiet.nChainTx]

theorem genesis_path (tree : HeaderTree B) : tree.path tree.genesis = [tree.genesis] :=
  path_of_root tree.parent_genesis

/-- Stored with all its ancestors, none of which is invalid, nor is the block itself. -/
def Usable (tree : HeaderTree B) (valid : B → Bool) (state : BlockManager B) (b : B) : Prop :=
  ∀ a ∈ tree.path b, (state.status a).haveData = true ∧ valid a = true

/-- Some ancestor of the block has not been stored. -/
def Gap (tree : HeaderTree B) (state : BlockManager B) (b : B) : Prop :=
  ∃ a ∈ tree.path b, (state.status a).haveData = false

/-- What the selection promises of an index. -/
structure Selects (tree : HeaderTree B) (valid : B → Bool) (state : BlockManager B) : Prop where
  tip : ∃ m, state.tip = some m ∧ Usable tree valid state m ∧
    ∀ b, Usable tree valid state b → b ≠ m → worse tree state b m = true
  candidates : ∀ b, Usable tree valid state b → notWorseThanTip tree state b = true →
    b ∈ state.setBlockIndexCandidates
  waiting : ∀ b, (state.status b).haveData = true → Gap tree state b → Good tree valid b →
    ∃ p, tree.parent b = some p ∧ (p, b) ∈ state.mapBlocksUnlinked
  unlinked : ∀ p b, (p, b) ∈ state.mapBlocksUnlinked →
    tree.parent b = some p ∧ (state.status b).haveData = true ∧ Gap tree state b

theorem usable_iff (data : DataInv tree [] state) (b : B) :
    Usable tree valid state b ↔ Eligible tree valid state b := by
  unfold Eligible
  rw [data.linked_iff]
  exact ⟨fun h => ⟨fun a ha => (h a ha).1, fun a ha => (h a ha).2⟩,
    fun h a ha => ⟨h.1 a ha, h.2 a ha⟩⟩

theorem gap_iff (data : DataInv tree [] state) (b : B) : Gap tree state b ↔ ¬ Linked state b := by
  rw [data.linked_iff]
  push Not
  simp only [Gap, Bool.not_eq_true]

theorem AtRest.selects (rest : AtRest tree valid state) : Selects tree valid state := by
  have data := rest.settled.data
  obtain ⟨m, hm, best⟩ := rest.best
  refine ⟨⟨m, hm, (usable_iff data m).mpr best.eligible, fun b hb hne => ?_⟩, fun b hb hnot => ?_,
    fun b hb hgap hgood => ?_, fun p b hitem => ?_⟩
  · exact best.above b ((usable_iff data b).mp hb) hne
  · -- Only the tip itself does not sort below the tip.
    obtain ⟨m', hm', best'⟩ := rest.settled.choice.best
    have hmm : m' = m := by
      by_contra hne
      exact best'.not_worse best.eligible (best.above m' best'.eligible hne)
    have hbm : b = m := by
      by_contra hne
      have hworse := best.above b ((usable_iff data b).mp hb) hne
      simp only [notWorseThanTip, hm, Option.all_some, hworse] at hnot
      cases hnot
    rw [hbm, ← hmm]
    exact hm'
  · have hfree := (gap_iff data b).mp hgap
    have hparent : ¬ ∀ p, tree.parent b = some p → Linked state p := fun h =>
      hfree ((data.linked_of_data b hb h).resolve_right List.not_mem_nil)
    push Not at hparent
    obtain ⟨p, hp, hpfree⟩ := hparent
    refine ⟨p, hp, (rest.settled.mark.waiting b p hb hp hpfree).resolve_right ?_⟩
    rintro ⟨a, ha, -, hfailed⟩
    exact rest.settled.mark.failed a hfailed (hgood.path ha)
  · obtain ⟨hp, hb, hpfree⟩ := data.unlinked _ hitem
    refine ⟨hp, hb, (gap_iff data b).mpr fun h => hpfree ?_⟩
    exact (data.data_of_linked b h).2 p hp

/-! ## One round -/

variable [DecidableEq B]

/-- How one round ends: an invalid block was found, or the tip is on the way to the target. -/
structure RoundEnds (tree : HeaderTree B) (valid : B → Bool) (state : BlockManager B) (t b : B)
    (result : BlockManager B × Bool) : Prop where
  moves : Moves tree valid state result.1
  found : result.2 = true → unmarked result.1 < unmarked state
  closer : result.2 = false → SameMarks state result.1 ∧ ∃ t', result.1.tip = some t' ∧
    t' ∈ tree.path b ∧ (t' = b ∨ tree.depth t < tree.depth t')

theorem Settled.connectBlocks (settled : Settled tree valid state) {t b : B} {blocks : List B}
    (ht : state.tip = some t) (hfollows : Follows tree t blocks b)
    (hblocks : ∀ c ∈ blocks, Linked state c ∧ (state.status c).failed = false) (oldTip : Option B) :
    RoundEnds tree valid state t b
      (connectBlocks tree (fixedVerdict valid) oldTip state blocks) := by
  induction blocks generalizing state t with
  | nil =>
    refine ⟨.refl settled, fun h => (by cases h), fun _ => ⟨fun _ => rfl, t, ht, ?_, .inl hfollows⟩⟩
    exact hfollows ▸ self_mem_path t
  | cons c rest ih =>
    obtain ⟨hlinked, hclear⟩ := hblocks c List.mem_cons_self
    have hdepth := tree.depth_parent hfollows.1
    rw [BlockTree.connectBlocks, fixedVerdict]
    cases hvalid : valid c with
    | false =>
      obtain ⟨hmoves, hlt⟩ := settled.invalidBlockFound hlinked hvalid hclear
      exact ⟨hmoves, fun _ => hlt, fun h => by cases h⟩
    | true =>
      obtain ⟨hmoves, hsame⟩ := settled.connectTip ht hfollows.1 hlinked hvalid
      rw [if_pos rfl]
      dsimp only
      split
      · refine ⟨hmoves, fun h => (by cases h), fun _ => ⟨hsame, c, rfl, hfollows.2.mem_path, ?_⟩⟩
        exact .inr (by omega)
      · have hrest : ∀ d ∈ rest,
            Linked (pruneBlockIndexCandidates tree (BlockTree.connectTip state c)) d ∧
            ((pruneBlockIndexCandidates tree (BlockTree.connectTip state c)).status d).failed =
              false := by
          intro d hd
          obtain ⟨hdl, hdc⟩ := hblocks d (List.mem_cons_of_mem _ hd)
          exact ⟨(hmoves.data.linked d).mpr hdl, (hsame d).trans hdc⟩
        have hends := ih hmoves.settled rfl hfollows.2 hrest
        refine ⟨hmoves.trans hends.moves, fun h => ?_, fun h => ?_⟩
        · exact (hends.found h).trans_le hmoves.unmarked_le
        · obtain ⟨hsame', t', ht', hpath, hcloser⟩ := hends.closer h
          exact ⟨fun d => (hsame' d).trans (hsame d), t', ht', hpath, hcloser.imp_right (by omega)⟩

/-- One round towards a target: back to the fork and forward from there. -/
theorem Settled.activateBestChainStep (settled : Settled tree valid state) {t b : B}
    (ht : state.tip = some t) (target : Target tree state b) :
    ∃ f, (t ∈ tree.path b → t ∈ tree.path f) ∧ RoundEnds tree valid state f b
      (activateBestChainStep tree (fixedVerdict valid) state b) := by
  obtain ⟨t', ht', htl, htg⟩ := settled.choice.tip
  rw [ht] at ht'
  cases ht'
  have hknown : ∀ {c}, Linked state c → c ∈ state.mapBlockIndex := fun hc =>
    settled.data.known _ (settled.data.data_of_linked _ hc).1
  have hgenesis : (tree.path b).find? (fun c => inActiveChain tree state c) ≠ none := by
    intro hnone
    refine List.find?_eq_none.mp hnone tree.genesis (settled.data.roots b (hknown target.linked)) ?_
    exact (inActiveChain_iff ht).mpr (settled.data.roots t (hknown htl))
  obtain ⟨f, hf⟩ := Option.ne_none_iff_exists'.mp hgenesis
  have hfb : f ∈ tree.path b := List.mem_of_find?_eq_some hf
  have hft : f ∈ tree.path t := (inActiveChain_iff ht).mp (List.find?_some hf)
  have hfork : Moves tree valid state { state with tip := some f } :=
    settled.moves ((Marks.refl state).choose _ _) (fun _ h => h)
      ⟨f, rfl, settled.data.linked_path htl hft, htg.path hft⟩ fun _ h _ => h
  have hstep : BlockTree.activateBestChainStep tree (fixedVerdict valid) state b =
      BlockTree.connectBlocks tree (fixedVerdict valid) state.tip { state with tip := some f }
        (pathBelow tree f b).reverse := by
    unfold BlockTree.activateBestChainStep
    dsimp only
    rw [hf]
    rfl
  have hends := hfork.settled.connectBlocks (t := f) rfl (follows_pathBelow hfb) (fun c hc => by
    have hcb := (mem_pathBelow hfb (List.mem_reverse.mp hc)).1
    exact ⟨settled.data.linked_path target.linked hcb, target.clear c hcb⟩) state.tip
  refine ⟨f, fun htb => mem_path_find hf htb ((inActiveChain_iff ht).mpr
    (self_mem_path t)), ?_⟩
  rw [hstep]
  exact ⟨hfork.trans hends.moves, fun h => (hends.found h).trans_le hfork.unmarked_le, hends.closer⟩

/-! ## The rounds -/

/-- `ActivateBestChain` with fixed verdicts. -/
abbrev selectRounds (tree : HeaderTree B) (valid : B → Bool) (rounds k : Nat)
    (pindexMostWork : Option B) (state : BlockManager B) : Option (BlockManager B) :=
  activateRounds tree (fun _ => fixedVerdict valid) rounds k pindexMostWork state

/-- The loop ends from this state, with the best block as the tip. -/
def Ends (tree : HeaderTree B) (valid : B → Bool) (pindexMostWork : Option B)
    (state : BlockManager B) : Prop :=
  ∀ k, ∃ rounds state', selectRounds tree valid rounds k pindexMostWork state = some state' ∧
    Chosen tree valid state state'

/-- A round with a target leads on if what follows it ends. -/
theorem ends_of_round {pindexMostWork : Option B} {s : BlockManager B} {t b : B}
    (hcandidate : roundCandidate tree pindexMostWork state = (some b, s))
    (hmoves : Moves tree valid state s) (ht : s.tip = some t) (target : Target tree s b)
    (hfound : ∀ s', Moves tree valid s s' → unmarked s' < unmarked s → Ends tree valid none s')
    (hcloser : ∀ s' t', Moves tree valid s s' → Target tree s' b → s'.tip = some t' →
      t' ∈ tree.path b → t' ≠ b → (t ∈ tree.path b → tree.depth t < tree.depth t') →
      Ends tree valid (some b) s') :
    Ends tree valid pindexMostWork state := by
  intro k
  by_cases hdone : t = b
  · refine ⟨1, s, ?_, hmoves, b, hdone ▸ ht, target.reached hmoves.settled (hdone ▸ ht)⟩
    simp only [activateRounds, hcandidate, ht, hdone, if_true]
  · obtain ⟨f, hfork, hends⟩ := hmoves.settled.activateBestChainStep ht target
    have hround : ∀ rounds, selectRounds tree valid (rounds + 1) k pindexMostWork state =
        if (activateBestChainStep tree (fixedVerdict valid) s b).1.tip =
            (if (activateBestChainStep tree (fixedVerdict valid) s b).2 then none else some b) then
          some (activateBestChainStep tree (fixedVerdict valid) s b).1
        else selectRounds tree valid rounds (k + 1)
          (if (activateBestChainStep tree (fixedVerdict valid) s b).2 then none else some b)
          (activateBestChainStep tree (fixedVerdict valid) s b).1 := by
      intro rounds
      simp only [activateRounds, hcandidate]
      rw [if_neg (by rw [ht]; simpa using hdone)]
    generalize activateBestChainStep tree (fixedVerdict valid) s b = result at hends hround
    obtain ⟨s', fInvalidFound⟩ := result
    cases fInvalidFound with
    | true =>
      obtain ⟨rounds, final, hfinal, hchosen⟩ :=
        hfound s' hends.moves (hends.found rfl) (k + 1)
      obtain ⟨t', ht', -⟩ := hends.moves.settled.choice.tip
      refine ⟨rounds + 1, final, ?_, hmoves.chosen (hends.moves.chosen hchosen)⟩
      rw [hround, if_neg (by rw [ht']; exact fun h => by cases h)]
      exact hfinal
    | false =>
      obtain ⟨hsame, t', ht', hpath, hdepth⟩ := hends.closer rfl
      have htarget := target.moves hends.moves hsame
      by_cases hreached : t' = b
      · refine ⟨1, s', ?_, hmoves.trans hends.moves, b, hreached ▸ ht',
          htarget.reached hends.moves.settled (hreached ▸ ht')⟩
        rw [hround, if_pos (by rw [ht', hreached]; rfl)]
      · have hlt := hdepth.resolve_left hreached
        obtain ⟨rounds, final, hfinal, hchosen⟩ :=
          hcloser s' t' hends.moves htarget ht' hpath hreached (fun htb => by
            rcases depth_of_mem_path (hfork htb) with rfl | h
            · exact hlt
            · omega) (k + 1)
        refine ⟨rounds + 1, final, ?_, hmoves.chosen (hends.moves.chosen hchosen)⟩
        rw [hround, if_neg (by rw [ht']; simpa using hreached)]
        exact hfinal

/-- On the way to a target every round brings the tip closer or finds an invalid block. -/
theorem ends_towards (n : Nat) {t b : B} (settled : Settled tree valid state)
    (target : Target tree state b) (ht : state.tip = some t) (hpath : t ∈ tree.path b)
    (hn : tree.depth b - tree.depth t ≤ n)
    (hfound : ∀ s', Moves tree valid state s' → unmarked s' < unmarked state →
      Ends tree valid none s') : Ends tree valid (some b) state := by
  induction n generalizing state t with
  | zero =>
    refine ends_of_round (s := state) rfl (.refl settled) ht target hfound ?_
    intro s' t' _ _ _ hpath' hne hlt
    have := hlt hpath
    rcases depth_of_mem_path hpath' with h | h
    · exact absurd h hne
    · omega
  | succ n ih =>
    refine ends_of_round (s := state) rfl (.refl settled) ht target hfound ?_
    intro s' t' hmoves htarget ht' hpath' hne hlt
    have := hlt hpath
    refine ih hmoves.settled htarget ht' hpath' (by omega) fun s'' hmoves' hless => ?_
    exact hfound s'' (hmoves.trans hmoves') (hless.trans_le hmoves.unmarked_le)

/-- `ActivateBestChain` ends with the best block as the tip. -/
theorem Settled.ends (settled : Settled tree valid state) : Ends tree valid none state := by
  induction hn : unmarked state using Nat.strong_induction_on generalizing state with
  | _ n ih =>
    obtain ⟨b, s, hfind, hmoves, htip, target⟩ :=
      settled.findMostWorkChain (Nat.lt_succ_self state.setBlockIndexCandidates.length)
    obtain ⟨t, ht, -⟩ := hmoves.settled.choice.tip
    have hfound : ∀ s', Settled tree valid s' → unmarked s' < unmarked s →
        Ends tree valid none s' := fun s' hs' hlt =>
      ih (unmarked s') (by have := hmoves.unmarked_le; omega) hs' rfl
    refine ends_of_round hfind hmoves ht target (fun s' hs' hlt => hfound s' hs'.settled hlt) ?_
    intro s' t' hmoves' htarget ht' hpath' _ _
    refine ends_towards _ hmoves'.settled htarget ht' hpath' (Nat.le_refl _) fun s'' hs'' hlt => ?_
    exact hfound s'' hs''.settled (hlt.trans_le hmoves'.unmarked_le)

/-- More rounds give the same result. -/
theorem activateRounds_mono {verdict : Nat → B → ConnectVerdict} {rounds k : Nat}
    {pindexMostWork : Option B}
    (h : activateRounds tree verdict rounds k pindexMostWork state = some state') (more : Nat) :
    activateRounds tree verdict (rounds + more) k pindexMostWork state = some state' := by
  induction rounds generalizing k pindexMostWork state with
  | zero => cases h
  | succ rounds ih =>
    rw [Nat.succ_add]
    simp only [activateRounds] at h ⊢
    cases hcandidate : roundCandidate tree pindexMostWork state with
    | mk candidate s =>
      rw [hcandidate] at h
      cases candidate with
      | none => exact h
      | some b =>
        dsimp only at h ⊢
        split at h
        · rename_i hdone
          rw [if_pos hdone]
          exact h
        · rename_i hdone
          rw [if_neg hdone]
          generalize
            (if (activateBestChainStep tree (verdict k) s b).2 = true then none else some b) =
            next at h ⊢
          split at h
          · rename_i hend
            rw [if_pos hend]
            exact h
          · rename_i hend
            rw [if_neg hend]
            exact ih h

/-! ## Arrivals -/

theorem Storing.quiet {b : B} (storing : Storing tree state b) (data : DataInv tree [] state) :
    Quiet state (storeData state b) := by
  refine ⟨rfl, rfl, fun c => ?_, fun c => (storeData_flags c).2.2.2⟩
  rw [storeData_status]
  split_ifs with h
  · have hfree := storing.not_linked data
    rw [h, (storedStatus_fields _).2.1]
    exact (not_not.mp hfree).symm
  · rfl

/-- A stored block and what it links are taken into account. -/
theorem Settled.receivedBlockTransactions (settled : Settled tree valid state) {b : B}
    (storing : Storing tree state b) :
    Settled tree valid (receivedBlockTransactions tree state b) := by
  have hchoice := settled.choice.quiet (storing.quiet settled.data)
  have hlinked := storing.linked settled.data
  have hstore : (state.setStatus b fun status => { status with nChainTx := 0, haveData := true
      }.raiseValidity blockValidTransactions) = storeData state b := rfl
  rw [BlockTree.receivedBlockTransactions, hstore]
  by_cases hparents : ∀ p, tree.parent b = some p → Linked state p
  · have hall :
        ((tree.parent b).all fun p => ((storeData state b).status p).nChainTx != 0) = true := by
      cases hp : tree.parent b with
      | none => rfl
      | some p => simpa [Linked] using (hlinked p).mpr (hparents p hp)
    rw [if_pos hall]
    obtain ⟨data, mark⟩ := storing.ready settled.data settled.mark hparents
    obtain ⟨data', mark', choice'⟩ := linkBlocks_induction (P := ChoiceInv tree valid)
      (fun hdata _ hinv => hinv.linkBlock hdata) data mark hchoice
      (by rw [List.length_singleton, Nat.add_comm])
    exact ⟨data', mark', choice'⟩
  · push Not at hparents
    obtain ⟨p, hp, hfree⟩ := hparents
    have hpfree : ¬ Linked (storeData state b) p := fun h => hfree ((hlinked p).mp h)
    have hany : ¬ ((tree.parent b).all fun q =>
        ((storeData state b).status q).nChainTx != 0) = true := by
      simpa [hp, Linked] using hpfree
    have hknown := settled.data.parents b storing.known p hp
    have hne : p ≠ b := (parent_ne_self hp).symm
    have hstatus : (storeData state b).status p = state.status p :=
      (storeData_status p).trans (if_neg hne)
    have hvalid :
        ((storeData state b).status p).isValid blockValidTree = !(state.status p).failed := by
      rw [hstatus, BlockStatus.isValid, decide_eq_true (settled.mark.validTree p hknown),
        Bool.and_true]
    rw [if_neg hany, hp]
    dsimp only
    rw [hvalid]
    obtain ⟨data, mark⟩ := storing.wait settled.data settled.mark hp hfree rfl
    cases hfailed : (state.status p).failed <;> rw [hfailed] at data mark
    · exact ⟨data, mark, hchoice.quiet ⟨rfl, rfl, fun _ => rfl, fun _ => rfl⟩⟩
    · exact ⟨data, mark, hchoice⟩

/-- What becomes of an index at rest when a block arrives. -/
def BlockEnds (tree : HeaderTree B) (valid : B → Bool) : HeaderResult B → Prop
  | .accepted state' => Settled tree valid state'
  | .rejected _ state' => AtRest tree valid state'
  | .aborted => False

theorem AtRest.acceptBlock (rest : AtRest tree valid state) (headerOk : Except String Unit)
    {check : BlockCheck} (fRequested : Bool) {b : B} (hcheck : check = .invalid → valid b = false) :
    BlockEnds tree valid (acceptBlock tree headerOk check fRequested state b) := by
  have hends := acceptBlockHeader_ends rest.settled.data rest.settled.mark headerOk b
  unfold BlockTree.acceptBlock
  cases hheader : acceptBlockHeader tree headerOk state b with
  | aborted =>
    rw [hheader] at hends
    exact hends
  | rejected reason state' =>
    rw [hheader] at hends
    exact rest.header hends
  | accepted state' =>
    rw [hheader] at hends
    obtain ⟨done, hknown, hfailed⟩ := hends
    have hrest := rest.header done
    dsimp only
    split
    · exact hrest.settled
    · rename_i hwants
      have hmissing : (state'.status b).haveData = false := by
        simp only [wantsBlock, Bool.not_eq_true', Bool.not_eq_false, Bool.and_eq_true] at hwants
        exact hwants.1
      have hclear : (state'.status b).failed = false := by
        refine hfailed.resolve_left ?_
        rintro rfl
        rw [(done.data.data_of_linked _ done.data.genesis).1] at hmissing
        cases hmissing
      cases check with
      | ok => exact hrest.settled.receivedBlockTransactions ⟨hknown, hmissing, hclear⟩
      | corrupt => exact hrest
      | invalid =>
        have hmarks : Marks tree valid state' (state'.setStatus b .markValid) :=
          marks_markValid hknown (hcheck rfl) (.inr hmissing)
        exact hrest.header ⟨done.data.congr hmarks.data, done.mark.mark hmarks, rfl, rfl,
          hmarks.data.nChainTx, hmarks.data.nSequenceId⟩

/-! ## Runs -/

/-- Headers and blocks arrive in any order, and `ActivateBestChain` runs after each block that
`AcceptBlock` takes. `CheckBlock` finds only invalid blocks invalid. -/
inductive ArrivalRun (tree : HeaderTree B) (valid : B → Bool) : BlockManager B → Prop where
  | start : ArrivalRun tree valid (genesisState tree)
  | header {state state' headerOk b} : ArrivalRun tree valid state →
    acceptBlockHeader tree headerOk state b = .accepted state' → ArrivalRun tree valid state'
  | headerRejected {state state' headerOk b reason} : ArrivalRun tree valid state →
    acceptBlockHeader tree headerOk state b = .rejected reason state' →
    ArrivalRun tree valid state'
  | blockRejected {state state' headerOk check fRequested b reason} : ArrivalRun tree valid state →
    (check = .invalid → valid b = false) →
    acceptBlock tree headerOk check fRequested state b = .rejected reason state' →
    ArrivalRun tree valid state'
  | block {state stored state' headerOk check fRequested b rounds} : ArrivalRun tree valid state →
    (check = .invalid → valid b = false) →
    acceptBlock tree headerOk check fRequested state b = .accepted stored →
    activateBestChain tree (fun _ => fixedVerdict valid) rounds stored = some state' →
    ArrivalRun tree valid state'

theorem atRest_genesis (hvalid : valid tree.genesis = true) :
    AtRest tree valid (genesisState tree) := by
  have hlinked : ∀ b, Linked (genesisState tree) b ↔ b = tree.genesis := by
    intro b
    have hpos := tree.nTx_pos b
    unfold Linked genesisState
    dsimp only
    split_ifs with h
    · simp only [h, iff_true] at hpos ⊢
      omega
    · simp [h]
  have hdata : ∀ b, ((genesisState tree).status b).haveData = true ↔ b = tree.genesis := by
    intro b
    unfold genesisState
    dsimp only
    split_ifs with h <;> simp [h]
  have hfailed : ∀ b, ((genesisState tree).status b).failedValid = false ∧
      ((genesisState tree).status b).failed = false := by
    intro b
    unfold genesisState
    dsimp only
    split_ifs <;> exact ⟨rfl, rfl⟩
  have hparent : ∀ {b p}, b = tree.genesis → tree.parent b ≠ some p := fun hb h => by
    rw [hb, tree.parent_genesis] at h
    cases h
  have hgood : Good tree valid tree.genesis := by
    intro a ha
    rw [genesis_path, List.mem_singleton] at ha
    exact ha ▸ hvalid
  have hbest : Best tree valid (genesisState tree) tree.genesis :=
    ⟨⟨(hlinked _).mpr rfl, hgood⟩, fun b hb hne => absurd ((hlinked b).mp hb.1) hne⟩
  refine ⟨⟨⟨?_, ?_, (hlinked _).mpr rfl, ?_, ?_, ?_, ?_, List.nodup_nil, ?_, List.nodup_nil, ?_, ?_⟩,
    ⟨?_, ?_, ?_, ?_, ?_, ?_, ?_⟩, ?_, ⟨_, rfl, hbest.eligible⟩,
    ⟨_, List.mem_singleton.mpr rfl, hbest⟩⟩,
    ⟨_, rfl, hbest⟩⟩
  · exact fun b hb p hp => absurd hp (hparent (List.mem_singleton.mp hb))
  · intro b hb
    rw [List.mem_singleton.mp hb]
    exact self_mem_path _
  · exact fun b hb => List.mem_singleton.mpr ((hdata b).mp hb)
  · intro b hb
    have hb := (hlinked b).mp hb
    exact ⟨(hdata b).mpr hb, fun p hp => absurd hp (hparent hb)⟩
  · exact fun b hb _ => .inl ((hlinked b).mpr ((hdata b).mp hb))
  · exact fun b hb => absurd hb List.not_mem_nil
  · exact fun item hitem => absurd hitem List.not_mem_nil
  · intro b hb
    rw [(hlinked b).mp hb]
    simp [genesisState]
  · intro a b ha hb _
    rw [(hlinked a).mp ha, (hlinked b).mp hb]
  · intro b hb
    have hne : b ≠ tree.genesis := fun h => hb (List.mem_singleton.mpr h)
    simp [genesisState, hne]
  · intro b hb
    rw [List.mem_singleton.mp hb]
    simp [genesisState, blockValidTree, blockValidScripts]
  · exact fun b hb => by rw [(hfailed b).1] at hb; cases hb
  · exact fun b hb => by rw [(hfailed b).2] at hb; cases hb
  · exact fun b hb => by rw [(hfailed b).2] at hb; cases hb
  · exact fun b p hb hp => absurd hp (hparent ((hdata b).mp hb))
  · exact fun b hb => absurd hb List.not_mem_nil
  · exact fun b hb => (hlinked b).mpr (List.mem_singleton.mp hb)

/-- The result of `ActivateBestChain` does not depend on how many rounds it is given. -/
theorem Settled.activated {rounds : Nat} (settled : Settled tree valid state)
    (h : activateBestChain tree (fun _ => fixedVerdict valid) rounds state = some state') :
    AtRest tree valid state' := by
  obtain ⟨rounds', final, hfinal, hchosen⟩ := settled.ends 0
  have hleft := activateRounds_mono h rounds'
  have hright := activateRounds_mono hfinal rounds
  rw [Nat.add_comm, hright] at hleft
  cases hleft
  exact ⟨hchosen.moves.settled, hchosen.best⟩

theorem ArrivalRun.atRest (hvalid : valid tree.genesis = true) (run : ArrivalRun tree valid state) :
    AtRest tree valid state := by
  induction run with
  | start => exact atRest_genesis hvalid
  | @header state state' headerOk b _ h ih =>
    have hends := acceptBlockHeader_ends ih.settled.data ih.settled.mark headerOk b
    rw [h] at hends
    exact ih.header hends.1
  | @headerRejected state state' headerOk b reason _ h ih =>
    have hends := acceptBlockHeader_ends ih.settled.data ih.settled.mark headerOk b
    rw [h] at hends
    exact ih.header hends
  | @blockRejected state state' headerOk check fRequested b reason _ hcheck h ih =>
    have hends := ih.acceptBlock headerOk fRequested hcheck
    rw [h] at hends
    exact hends
  | @block state stored state' headerOk check fRequested b rounds _ hcheck h hactivate ih =>
    have hends := ih.acceptBlock headerOk fRequested hcheck
    rw [h] at hends
    exact hends.activated hactivate

/-- After every arrival the tip is the best usable block; the next block does not stop the node,
and `ActivateBestChain` ends after it. -/
theorem best_chain_selected (tree : HeaderTree B) (valid : B → Bool)
    (hvalid : valid tree.genesis = true) {state : BlockManager B}
    (run : ArrivalRun tree valid state) :
    Selects tree valid state ∧
    ∀ headerOk check fRequested b, (check = .invalid → valid b = false) →
      acceptBlock tree headerOk check fRequested state b ≠ .aborted ∧
      ∀ stored, acceptBlock tree headerOk check fRequested state b = .accepted stored →
        ∃ rounds state', activateBestChain tree (fun _ => fixedVerdict valid) rounds stored =
          some state' := by
  have rest := run.atRest hvalid
  refine ⟨rest.selects, fun headerOk check fRequested b hcheck => ⟨fun habort => ?_,
    fun stored hstored => ?_⟩⟩
  · have hends := rest.acceptBlock headerOk fRequested hcheck
    rw [habort] at hends
    exact hends
  · have hends := rest.acceptBlock headerOk fRequested hcheck
    rw [hstored] at hends
    obtain ⟨rounds, state', h, -⟩ := hends.ends 0
    exact ⟨rounds, state', h⟩

/-! ## Arrivals on a fork -/

/-- A header, or a requested block and the selection after it, which are accepted. -/
def arrive (tree : HeaderTree B) (valid : B → Bool) (state : BlockManager B) (b : B)
    (isBlock : Bool) : Option (BlockManager B) :=
  if isBlock then
    match acceptBlock tree (.ok ()) .ok true state b with
    | .accepted stored => activateBestChain tree (fun _ => fixedVerdict valid) 3 stored
    | _ => none
  else
    match acceptBlockHeader tree (.ok ()) state b with
    | .accepted state' => some state'
    | _ => none

theorem ArrivalRun.arrive {b : B} {isBlock : Bool}
    (run : ArrivalRun tree valid state) (h : arrive tree valid state b isBlock = some state') :
    ArrivalRun tree valid state' := by
  unfold BlockTree.arrive at h
  split at h
  · split at h
    · rename_i hblock
      exact .block run (fun hc => by cases hc) hblock h
    · cases h
  · split at h
    · rename_i hheader
      cases h
      exact .header run hheader
    · cases h

def arriveAll (tree : HeaderTree B) (valid : B → Bool) (state : BlockManager B) :
    List (B × Bool) → Option (BlockManager B) :=
  List.foldlM (fun state arrival => arrive tree valid state arrival.1 arrival.2) state

theorem ArrivalRun.arriveAll {arrivals : List (B × Bool)}
    (run : ArrivalRun tree valid state) (h : arriveAll tree valid state arrivals = some state') :
    ArrivalRun tree valid state' := by
  induction arrivals generalizing state with
  | nil =>
    cases h
    exact run
  | cons arrival arrivals ih =>
    obtain ⟨next, hnext, h⟩ := Option.bind_eq_some_iff.mp h
    exact ih (run.arrive hnext) h

/-- Block 1 is invalid. -/
def notFirst (b : Nat) : Bool := b != 1

/-- Three headers arrive, then block 4 and block 1, while block 2 is missing: block 4 still waits
for it after block 1 below them has been found invalid. -/
theorem invalid_descendant_waits :
    ∃ state, ArrivalRun forkTree notFirst state ∧
      ¬ ∀ p b, (p, b) ∈ state.mapBlocksUnlinked ↔ forkTree.parent b = some p ∧
        (state.status b).haveData = true ∧ Gap forkTree state b ∧ Good forkTree notFirst b := by
  have hwaits : (arriveAll forkTree notFirst (genesisState forkTree)
      [(1, false), (2, false), (4, false), (4, true), (1, true)]).any (fun state =>
        decide ((2, 4) ∈ state.mapBlocksUnlinked)) = true := by
    decide +kernel
  obtain ⟨state, hstate, hmem⟩ := (Option.any_eq_true _ _).mp hwaits
  refine ⟨state, ArrivalRun.start.arriveAll hstate, fun h => ?_⟩
  obtain ⟨-, -, -, hgood⟩ := (h 2 4).mp (of_decide_eq_true hmem)
  have hone := hgood 1 (by decide)
  cases hone

/-- Block 3 is connected, block 2 with the same work is not, and block 4 on it leads to a
reorganisation. -/
theorem best_chain_selected_fork :
    ∃ tied state, ArrivalRun forkTree (fun _ => true) tied ∧ tied.tip = some 3 ∧
      (tied.status 2).haveData = true ∧ Selects forkTree (fun _ => true) tied ∧
      arrive forkTree (fun _ => true) tied 4 true = some state ∧ state.tip = some 4 ∧
      Selects forkTree (fun _ => true) state := by
  have htips : (arriveAll forkTree (fun _ => true) (genesisState forkTree)
      [(1, false), (2, false), (3, false), (4, false), (1, true), (3, true), (2, true)]).any
      (fun tied => decide (tied.tip = some 3 ∧ (tied.status 2).haveData = true) &&
        (arrive forkTree (fun _ => true) tied 4 true).any fun state =>
          decide (state.tip = some 4)) = true := by
    decide +kernel
  obtain ⟨tied, htied, hboth⟩ := (Option.any_eq_true _ _).mp htips
  obtain ⟨htie, hlast⟩ := Bool.and_eq_true_iff.mp hboth
  obtain ⟨state, hstate, htip⟩ := (Option.any_eq_true _ _).mp hlast
  have run := ArrivalRun.start.arriveAll htied
  obtain ⟨hfirst, hdata⟩ := of_decide_eq_true htie
  exact ⟨tied, state, run, hfirst, hdata, (best_chain_selected forkTree _ rfl run).1, hstate,
    of_decide_eq_true htip, (best_chain_selected forkTree _ rfl (run.arrive hstate)).1⟩

end KubuCore.BlockTree
