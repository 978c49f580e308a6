import KubuCore.Chain.BlockArrivals

/-!
# Choosing the best chain

`ActivateBestChain` on an index whose blocks have fixed verdicts: it ends, and
its tip is then the best of the linked blocks without an invalid ancestor.
-/

namespace KubuCore.BlockTree

open KubuCore.RootedTree

variable {B : Type} {tree : HeaderTree B} {valid : B → Bool}
  {state state' : BlockManager B} {queue : List B}

/-! ## The order of candidates -/

theorem worse_congr
    (h : ∀ b, (state'.status b).nSequenceId = (state.status b).nSequenceId) (a b : B) :
    worse tree state' a b = worse tree state a b := by
  simp only [worse, h]

theorem exists_bestCandidate {c : B} (hc : c ∈ state.setBlockIndexCandidates) :
    ∃ b, bestCandidate tree state = some b ∧ b ∈ state.setBlockIndexCandidates ∧
      ∀ c ∈ state.setBlockIndexCandidates, ¬ worse tree state b c = true := by
  have hlead := bestCandidate_leads tree state
  cases h : bestCandidate tree state with
  | none =>
    rw [h] at hlead
    rw [show _ = [] from hlead] at hc
    cases hc
  | some b =>
    rw [h] at hlead
    exact ⟨b, rfl, hlead⟩

/-! ## What the choice is between -/

/-- Stored with all ancestors, and none of them invalid. -/
def Eligible (tree : HeaderTree B) (valid : B → Bool) (state : BlockManager B) (b : B) : Prop :=
  Linked state b ∧ Good tree valid b

/-- The eligible block that every other one sorts below. -/
structure Best (tree : HeaderTree B) (valid : B → Bool) (state : BlockManager B) (m : B) : Prop where
  eligible : Eligible tree valid state m
  above : ∀ b, Eligible tree valid state b → b ≠ m → worse tree state b m = true

structure ChoiceInv (tree : HeaderTree B) (valid : B → Bool) (state : BlockManager B) : Prop where
  candidates : ∀ b ∈ state.setBlockIndexCandidates, Linked state b
  tip : ∃ t, state.tip = some t ∧ Eligible tree valid state t
  best : ∃ m ∈ state.setBlockIndexCandidates, Best tree valid state m

theorem Best.not_worse {m b : B} (best : Best tree valid state m)
    (hb : Eligible tree valid state b) : ¬ worse tree state m b = true := by
  by_cases h : b = m
  · subst h
    exact fun hw => worse_asymm hw hw
  · exact worse_asymm (best.above b hb h)

theorem Best.congr {m : B} (best : Best tree valid state m)
    (hlinked : ∀ b, Linked state' b ↔ Linked state b)
    (hseq : ∀ b, (state'.status b).nSequenceId = (state.status b).nSequenceId) :
    Best tree valid state' m := by
  refine ⟨⟨(hlinked m).mpr best.eligible.1, best.eligible.2⟩, fun b hb hne => ?_⟩
  rw [worse_congr hseq]
  exact best.above b ⟨(hlinked b).mp hb.1, hb.2⟩ hne

theorem ChoiceInv.quiet (inv : ChoiceInv tree valid state)
    (quiet : Quiet state state') : ChoiceInv tree valid state' := by
  have hlinked : ∀ b, Linked state' b ↔ Linked state b := fun b => by
    unfold Linked
    rw [quiet.nChainTx]
  obtain ⟨t, ht, hlt, hgood⟩ := inv.tip
  obtain ⟨m, hm, best⟩ := inv.best
  refine ⟨fun b hb => ?_, ⟨t, quiet.tip.trans ht, (hlinked t).mpr hlt, hgood⟩, m, ?_,
    best.congr hlinked quiet.nSequenceId⟩
  · rw [quiet.candidates] at hb
    exact (hlinked b).mpr (inv.candidates b hb)
  · rw [quiet.candidates]
    exact hm

/-! ## Steps of the selection -/

/-- The invariants between two steps of the selection. -/
structure Settled (tree : HeaderTree B) (valid : B → Bool) (state : BlockManager B) : Prop where
  data : DataInv tree [] state
  mark : MarkInv tree valid state
  choice : ChoiceInv tree valid state

/-- The blocks that have not been found invalid. -/
def unmarked (state : BlockManager B) : Nat :=
  (state.mapBlockIndex.filter fun b => !(state.status b).failedValid).length

/-- A step of the selection: the stored blocks stay and candidates only go. -/
structure Moves (tree : HeaderTree B) (valid : B → Bool) (state state' : BlockManager B) : Prop where
  settled : Settled tree valid state'
  data : SameData state state'
  candidates : ∀ c ∈ state'.setBlockIndexCandidates, c ∈ state.setBlockIndexCandidates
  keepsValid : ∀ b, (state.status b).failedValid = true → (state'.status b).failedValid = true

theorem Moves.refl (settled : Settled tree valid state) : Moves tree valid state state :=
  ⟨settled, .refl state, fun _ h => h, fun _ h => h⟩

theorem Moves.trans {s t u : BlockManager B} (h : Moves tree valid s t) (h' : Moves tree valid t u) :
    Moves tree valid s u :=
  ⟨h'.settled, h.data.trans h'.data, fun c hc => h.candidates c (h'.candidates c hc),
    fun b hb => h'.keepsValid b (h.keepsValid b hb)⟩

theorem Moves.unmarked_le (moves : Moves tree valid state state') :
    unmarked state' ≤ unmarked state := by
  unfold unmarked
  rw [moves.data.index]
  refine (List.monotone_filter_right _ fun b hb => ?_).length_le
  cases h : (state.status b).failedValid with
  | false => rfl
  | true => rw [moves.keepsValid b h] at hb; cases hb

/-- A block is found invalid at most once. -/
theorem Moves.unmarked_lt (moves : Moves tree valid state state') {b : B}
    (known : b ∈ state.mapBlockIndex) (hnew : (state.status b).failedValid = false)
    (hmarked : (state'.status b).failedValid = true) : unmarked state' < unmarked state := by
  have hfilter : (state.mapBlockIndex.filter fun c => !(state'.status c).failedValid) =
      (state.mapBlockIndex.filter fun c => !(state.status c).failedValid).filter
        fun c => !(state'.status c).failedValid := by
    rw [List.filter_filter]
    refine List.filter_congr fun c _ => ?_
    cases h : (state.status c).failedValid with
    | false => simp
    | true => simp [moves.keepsValid c h]
  unfold unmarked
  rw [moves.data.index, hfilter]
  refine List.length_filter_lt_length_iff_exists.mpr ⟨b, List.mem_filter.mpr ⟨known, ?_⟩, ?_⟩
  · rw [hnew]
    rfl
  · rw [hmarked]
    exact Bool.noConfusion

/-- Marks, a smaller set of candidates and another eligible tip are a step, provided the best
candidate stays. -/
theorem Settled.moves (settled : Settled tree valid state) (marks : Marks tree valid state state')
    (hcandidates : ∀ c ∈ state'.setBlockIndexCandidates, c ∈ state.setBlockIndexCandidates)
    (htip : ∃ t, state'.tip = some t ∧ Eligible tree valid state t)
    (hbest : ∀ m ∈ state.setBlockIndexCandidates, Best tree valid state m →
      m ∈ state'.setBlockIndexCandidates) : Moves tree valid state state' := by
  have hlinked := marks.data.linked
  obtain ⟨t, ht, htl, htg⟩ := htip
  obtain ⟨m, hm, best⟩ := settled.choice.best
  refine ⟨⟨settled.data.congr marks.data, settled.mark.mark marks, ?_, ?_, ?_⟩, marks.data,
    hcandidates, marks.keepsValid⟩
  · exact fun c hc => (hlinked c).mpr (settled.choice.candidates c (hcandidates c hc))
  · exact ⟨t, ht, (hlinked t).mpr htl, htg⟩
  · exact ⟨m, hbest m hm best, best.congr hlinked marks.data.nSequenceId⟩

/-- Flags do not depend on the tip and the candidates. -/
theorem Marks.choose (marks : Marks tree valid state state')
    (tip : Option B) (candidates : List B) :
    Marks tree valid state { state' with tip, setBlockIndexCandidates := candidates } :=
  { marks with data := { marks.data with } }

theorem Marks.refl (state : BlockManager B) : Marks tree valid state state :=
  ⟨.refl state, fun _ _ => rfl, fun _ => Nat.le_refl _, fun _ h => h, fun _ h => h, fun _ h => .inl h,
    fun _ h => .inl h, fun _ h => .inl h⟩

/-- The blocks lead from `t` to `b`, each the parent of the next. -/
def Follows (tree : HeaderTree B) : B → List B → B → Prop
  | t, [], b => t = b
  | t, c :: rest, b => tree.parent c = some t ∧ Follows tree c rest b

theorem Follows.mem_path {t b : B} {blocks : List B} (h : Follows tree t blocks b) :
    t ∈ tree.path b := by
  induction blocks generalizing t with
  | nil =>
    cases h
    exact self_mem_path _
  | cons c rest ih =>
    exact mem_path_trans (ih h.2)
      (mem_path_of_parent h.1 (self_mem_path t))

theorem Follows.append {t p b : B} {blocks : List B} (h : Follows tree t blocks p)
    (hp : tree.parent b = some p) : Follows tree t (blocks ++ [b]) b := by
  induction blocks generalizing t with
  | nil =>
    cases h
    exact ⟨hp, rfl⟩
  | cons c rest ih => exact ⟨h.1, ih h.2⟩

/-! ## Linking -/

variable [DecidableEq B] {b c t : B}

theorem linkBlock_candidates (b c : B) :
    c ∈ (linkBlock tree state b).setBlockIndexCandidates ↔
      c ∈ state.setBlockIndexCandidates ∨
        c = b ∧ notWorseThanTip tree (linkBlock tree state b) b = true := by
  have heq : (linkBlock tree state b).setBlockIndexCandidates =
      (if notWorseThanTip tree (numbered tree state b) b then
        (numbered tree state b).insertCandidate b
          else numbered tree state b).setBlockIndexCandidates := rfl
  have hnot : notWorseThanTip tree (linkBlock tree state b) b =
      notWorseThanTip tree (if notWorseThanTip tree (numbered tree state b) b then
        (numbered tree state b).insertCandidate b else numbered tree state b) b := rfl
  rw [heq, hnot]
  by_cases h : notWorseThanTip tree (numbered tree state b) b = true
  · have hinsert : notWorseThanTip tree ((numbered tree state b).insertCandidate b) b = true := h
    rw [if_pos h]
    refine List.mem_insert_iff.trans ?_
    simp only [hinsert, and_true, or_comm]
    rfl
  · rw [if_neg h]
    exact ⟨fun hc => .inl hc, fun hc => hc.resolve_right fun h' => h h'.2⟩

/-- Linking a block keeps the best one among the candidates: the new block comes after all others
of its work, so it is best only if it has more. -/
theorem ChoiceInv.linkBlock (inv : ChoiceInv tree valid state)
    (data : DataInv tree (b :: queue) state) : ChoiceInv tree valid (linkBlock tree state b) := by
  obtain ⟨-, hfree, -⟩ := data.queued b List.mem_cons_self
  obtain ⟨t, ht, htl, htg⟩ := inv.tip
  obtain ⟨m, hm, best⟩ := inv.best
  have hlinked : ∀ c, Linked (BlockTree.linkBlock tree state b) c ↔ c = b ∨ Linked state c :=
    linkBlock_linked b
  have hne : ∀ {c}, Linked state c → c ≠ b := fun hc h => hfree (h ▸ hc)
  have hseq : ∀ {c}, Linked state c →
      ((BlockTree.linkBlock tree state b).status c).nSequenceId = (state.status c).nSequenceId :=
    fun hc => by rw [linkBlock_status, if_neg (hne hc)]
  have hseqb : ((BlockTree.linkBlock tree state b).status b).nSequenceId =
      state.nBlockSequenceId := by
    rw [linkBlock_status, if_pos rfl]
    rfl
  have hwork : ∀ {c}, Eligible tree valid state c → tree.nChainWork c ≤ tree.nChainWork m := by
    intro c hc
    have := best.not_worse hc
    rw [worse_iff] at this
    omega
  have htip : (BlockTree.linkBlock tree state b).tip = some t := (linkBlock_rest b).2.1.trans ht
  refine ⟨fun c hc => ?_, ⟨t, htip, (hlinked t).mpr (.inr htl), htg⟩, ?_⟩
  · rcases (linkBlock_candidates b c).mp hc with hc | ⟨rfl, -⟩
    · exact (hlinked c).mpr (.inr (inv.candidates c hc))
    · exact (hlinked c).mpr (.inl rfl)
  have hml := best.eligible.1
  have hmlt := data.seq_lt m hml
  by_cases hnew : Good tree valid b ∧ tree.nChainWork m < tree.nChainWork b
  · refine ⟨b, (linkBlock_candidates b b).mpr (.inr ⟨rfl, ?_⟩),
      ⟨(hlinked b).mpr (.inl rfl), hnew.1⟩, fun c hc hcb => ?_⟩
    · have := hwork ⟨htl, htg⟩
      simp only [notWorseThanTip, htip, Option.all_some, Bool.not_eq_true', Bool.eq_false_iff]
      rw [Ne, worse_iff]
      omega
    · have := hwork ⟨((hlinked c).mp hc.1).resolve_left hcb, hc.2⟩
      rw [worse_iff]
      omega
  · refine ⟨m, (linkBlock_candidates b m).mpr (.inl hm),
      ⟨(hlinked m).mpr (.inr hml), best.eligible.2⟩, fun c hc hcm => ?_⟩
    rw [worse_iff, hseq hml]
    rcases (hlinked c).mp hc.1 with rfl | hcl
    · have hle : ¬ tree.nChainWork m < tree.nChainWork c := fun h => hnew ⟨hc.2, h⟩
      rw [hseqb]
      omega
    · rw [hseq hcl, ← worse_iff]
      exact best.above c ⟨hcl, hc.2⟩ hcm

/-! ## Dropping a candidate -/

theorem mem_eraseCandidates {blocks : List B} :
    c ∈ (state.eraseCandidates blocks).setBlockIndexCandidates ↔
      c ∈ state.setBlockIndexCandidates ∧ c ∉ blocks := by
  simp [BlockManager.eraseCandidates]

/-- A candidate below a failed block is dropped with everything between them. -/
theorem Settled.dropCandidate (settled : Settled tree valid state) {pindexNew pindexTest : B}
    (hnew : pindexNew ∈ state.setBlockIndexCandidates) (htest : pindexTest ∈ tree.path pindexNew)
    (hfailed : (state.status pindexTest).failed = true) :
    Moves tree valid state (dropCandidate tree state pindexNew pindexTest) ∧
      (BlockTree.dropCandidate tree state pindexNew pindexTest).tip = state.tip ∧
      (BlockTree.dropCandidate tree state pindexNew pindexTest).setBlockIndexCandidates.length <
        state.setBlockIndexCandidates.length := by
  have hlinked := settled.choice.candidates pindexNew hnew
  have hknown : ∀ c ∈ tree.path pindexNew, c ∈ state.mapBlockIndex := fun c hc =>
    settled.data.known c (settled.data.data_of_linked c (settled.data.linked_path hlinked hc)).1
  have hmarks : Marks tree valid state
      (state.setStatuses (pathBelow tree pindexTest pindexNew) .markChild) := by
    refine marks_markChildren (fun c hc => hknown c (mem_pathBelow htest hc).1) fun c hc => ⟨?_, ?_⟩
    · intro hgood
      exact settled.mark.failed pindexTest hfailed (hgood.path (mem_pathBelow htest hc).2)
    · exact .inl (settled.data.linked_path hlinked (mem_pathBelow htest hc).1)
  obtain ⟨status, hrest⟩ := setStatuses_rest state .markChild (pathBelow tree pindexTest pindexNew)
  have heq : BlockTree.dropCandidate tree state pindexNew pindexTest =
      (state.setStatuses (pathBelow tree pindexTest pindexNew) .markChild).eraseCandidates
        (pindexTest :: pathBelow tree pindexTest pindexNew) := by
    unfold BlockTree.dropCandidate
    dsimp only
    rw [if_pos hfailed]
  rw [heq]
  have hcandidates : (state.setStatuses (pathBelow tree pindexTest pindexNew)
      .markChild).setBlockIndexCandidates = state.setBlockIndexCandidates := by rw [hrest]
  have htip : (state.setStatuses (pathBelow tree pindexTest pindexNew) .markChild).tip =
      state.tip := by rw [hrest]
  refine ⟨settled.moves (hmarks.choose _ _) (fun c hc => ?_) ?_ fun m hm best => ?_, htip, ?_⟩
  · rw [← hcandidates]
    exact (mem_eraseCandidates.mp hc).1
  · obtain ⟨t, ht, heligible⟩ := settled.choice.tip
    exact ⟨t, htip.trans ht, heligible⟩
  · refine mem_eraseCandidates.mpr ⟨by rwa [hcandidates], fun h => ?_⟩
    have hbelow : pindexTest ∈ tree.path m := by
      rcases List.mem_cons.mp h with rfl | h
      · exact self_mem_path _
      · exact (mem_pathBelow htest h).2
    exact settled.mark.failed _ hfailed (best.eligible.2.path hbelow)
  · rw [← hcandidates] at hnew ⊢
    refine List.length_filter_lt_length_iff_exists.mpr ⟨pindexNew, hnew, ?_⟩
    have hmem : pindexNew ∈ pindexTest :: pathBelow tree pindexTest pindexNew := by
      by_cases h : pindexNew = pindexTest
      · exact List.mem_cons.mpr (.inl h)
      · exact List.mem_cons_of_mem _ (mem_pathBelow_of (self_mem_path _) htest h)
    rw [Bool.not_eq_true', Bool.not_eq_false]
    exact List.contains_iff_mem.mpr hmem

/-! ## The search for a candidate -/

theorem inActiveChain_iff (ht : state.tip = some t) :
    inActiveChain tree state c = true ↔ c ∈ tree.path t := by
  simp only [inActiveChain, ht, Option.any_some, beq_iff_eq]
  exact ancestorAt_eq_iff

/-- A block of a chain is pending or active. -/
theorem mem_pendingPath (ht : state.tip = some t) (hc : c ∈ tree.path b) :
    c ∈ pendingPath tree state b ∨ c ∈ tree.path t := by
  induction b using tree.parentInduction with
  | step b ih =>
    by_cases hb : b ∈ tree.path t
    · exact .inr (mem_path_trans hb hc)
    · have hpending := Bool.eq_false_iff.mpr fun h => hb ((inActiveChain_iff ht).mp h)
      rcases mem_path_cases hc with rfl | ⟨p, hp, hcp⟩
      · obtain ⟨above, hpath⟩ := exists_path_eq_cons tree.toRootedTree c
        simp [pendingPath, hpath, hpending]
      · have hpath := path_of_parent hp
        refine (ih p hp hcp).imp_left fun h => ?_
        rw [pendingPath, hpath, List.takeWhile_cons_of_pos (by simp [hpending])]
        exact List.mem_cons_of_mem _ h

/-- What `FindMostWorkChain` has found: the best candidate, with no failed block below it. -/
structure Target (tree : HeaderTree B) (state : BlockManager B) (b : B) : Prop where
  linked : Linked state b
  best : ∀ c ∈ state.setBlockIndexCandidates, ¬ worse tree state b c = true
  clear : ∀ c ∈ tree.path b, (state.status c).failed = false

/-- The search ends with a target, since the best eligible block is never dropped. -/
theorem Settled.findMostWorkChain (settled : Settled tree valid state) {fuel : Nat}
    (hfuel : state.setBlockIndexCandidates.length < fuel) :
    ∃ b state', findMostWorkChain tree fuel state = (some b, state') ∧
      Moves tree valid state state' ∧ state'.tip = state.tip ∧ Target tree state' b := by
  induction fuel generalizing state with
  | zero => omega
  | succ fuel ih =>
    obtain ⟨m, hm, -⟩ := settled.choice.best
    obtain ⟨t, ht, -, htg⟩ := settled.choice.tip
    obtain ⟨b, hbest, hb, hlead⟩ := exists_bestCandidate hm
    have hbl := settled.choice.candidates b hb
    rw [BlockTree.findMostWorkChain, hbest]
    dsimp only
    split
    · rename_i hnone
      refine ⟨b, state, rfl, .refl settled, rfl, hbl, hlead, fun c hc => ?_⟩
      rcases mem_pendingPath ht hc with h | h
      · have := List.find?_eq_none.mp hnone c h
        simp only [Bool.or_eq_true, not_or] at this
        exact Bool.eq_false_iff.mpr this.1
      · exact Bool.eq_false_iff.mpr fun hf => settled.mark.failed c hf (htg.path h)
    · rename_i pindexTest hsome
      have hpending := List.mem_of_find?_eq_some hsome
      have htest : pindexTest ∈ tree.path b := (List.takeWhile_sublist _).subset hpending
      have hfailed : (state.status pindexTest).failed = true := by
        have := List.find?_some hsome
        have hdata := (settled.data.data_of_linked _ (settled.data.linked_path hbl htest)).1
        simpa [hdata] using this
      obtain ⟨hmoves, htip, hlen⟩ := settled.dropCandidate hb htest hfailed
      obtain ⟨b', state', hfind, hmoves', htip', htarget⟩ := ih hmoves.settled (by omega)
      exact ⟨b', state', hfind, hmoves.trans hmoves', htip'.trans htip, htarget⟩

/-! ## Connecting blocks -/

/-- The verdict on a block is the same whenever it is asked for. -/
def fixedVerdict (valid : B → Bool) (b : B) : ConnectVerdict := if valid b then .ok else .invalid

theorem follows_pathBelow {f : B} (hf : f ∈ tree.path b) :
    Follows tree f (pathBelow tree f b).reverse b := by
  induction b using tree.parentInduction with
  | step b ih =>
    rcases mem_path_cases hf with rfl | ⟨p, hp, hfp⟩
    · rw [pathBelow_self]
      exact rfl
    · have hne : b ≠ f := by
        rintro rfl
        have hdepth := tree.depth_parent hp
        have := depth_of_mem_path hfp
        rcases this with h | h
        · exact parent_ne_self hp h
        · omega
      rw [pathBelow_of_ne hne hp, List.reverse_cons]
      exact (ih p hp hfp).append hp

theorem marks_raiseValidity (known : b ∈ state.mapBlockIndex) (nUpTo : Nat) :
    Marks tree valid state (state.setStatus b fun status => status.raiseValidity nUpTo) := by
  have hfields : ∀ status : BlockStatus,
      (status.raiseValidity nUpTo).haveData = status.haveData ∧
      (status.raiseValidity nUpTo).nChainTx = status.nChainTx ∧
      (status.raiseValidity nUpTo).nSequenceId = status.nSequenceId := by
    intro status
    unfold BlockStatus.raiseValidity
    split <;> exact ⟨rfl, rfl, rfl⟩
  have hvalid : ∀ c, ((state.setStatus b fun status =>
      status.raiseValidity nUpTo).status c).failedValid = (state.status c).failedValid :=
    field_setStatus (fun status => (raiseValidity_flags status nUpTo).1) b
  have hfailed : ∀ c, ((state.setStatus b fun status =>
      status.raiseValidity nUpTo).status c).failed = (state.status c).failed :=
    field_setStatus (fun status => raiseValidity_failed status nUpTo) b
  refine ⟨sameData_setStatus hfields, fun c hc => ?_, fun c => ?_, fun c hc => ?_, fun c hc => ?_,
    fun c hc => ?_, fun c hc => ?_, fun c hc => .inl hc⟩
  · rw [status_setStatus, if_neg fun h : c = b => hc (h ▸ known)]
  · rw [status_setStatus]
    split_ifs with h
    · rw [h]
      unfold BlockStatus.raiseValidity
      split
      · exact Nat.le_refl _
      · exact Nat.le_max_left _ _
    · exact Nat.le_refl _
  · rwa [hvalid]
  · rwa [hfailed]
  · rw [hvalid] at hc
    exact .inl hc
  · rw [hfailed] at hc
    exact .inl hc

/-- Flags stay as they are. -/
def SameMarks (state state' : BlockManager B) : Prop :=
  ∀ b, (state'.status b).failed = (state.status b).failed

/-- A valid block on top of the tip is connected. -/
theorem Settled.connectTip (settled : Settled tree valid state) (ht : state.tip = some t)
    (hp : tree.parent c = some t) (hlinked : Linked state c) (hvalid : valid c = true) :
    Moves tree valid state (pruneBlockIndexCandidates tree (connectTip state c)) ∧
      SameMarks state (pruneBlockIndexCandidates tree (BlockTree.connectTip state c)) := by
  have hknown := settled.data.known c (settled.data.data_of_linked c hlinked).1
  have hmarks : Marks tree valid state
      (state.setStatus c fun status => status.raiseValidity blockValidScripts) :=
    marks_raiseValidity hknown blockValidScripts
  have heligible : Eligible tree valid state c := by
    obtain ⟨t', ht', -, hgood⟩ := settled.choice.tip
    rw [ht] at ht'
    cases ht'
    refine ⟨hlinked, fun a ha => ?_⟩
    rcases mem_path_cases ha with rfl | ⟨p, hp', ha⟩
    · exact hvalid
    · rw [hp] at hp'
      cases hp'
      exact hgood a ha
  refine ⟨settled.moves (hmarks.choose _ _) (fun b hb => List.mem_of_mem_filter hb)
    ⟨c, rfl, heligible⟩ fun m hm best => List.mem_filter.mpr ⟨hm, ?_⟩, fun b => ?_⟩
  · have hnot := best.not_worse heligible
    have hcongr : worse tree (BlockTree.connectTip state c) m c = worse tree state m c :=
      worse_congr hmarks.data.nSequenceId m c
    rw [← hcongr] at hnot
    simpa [notWorseThanTip, BlockTree.connectTip] using hnot
  · exact field_setStatus (fun status => raiseValidity_failed status blockValidScripts) c b

theorem Settled.invalidBlockFound (settled : Settled tree valid state) (hlinked : Linked state c)
    (hvalid : valid c = false) (hclear : (state.status c).failed = false) :
    Moves tree valid state (invalidBlockFound state c) ∧
      unmarked (BlockTree.invalidBlockFound state c) < unmarked state := by
  have hknown := settled.data.known c (settled.data.data_of_linked c hlinked).1
  have hmarks : Marks tree valid state (state.setStatus c .markValid) :=
    marks_markValid hknown hvalid (.inl hlinked)
  have hset : ((state.setStatus c .markValid).status c).failedValid = true := by
    rw [status_setStatus, if_pos rfl]
    rfl
  have hfound : Marks tree valid state ((state.setStatus c .markValid).insertFailed c) := by
    refine { hmarks with data := { hmarks.data with }, failedBlocks := fun b hb => ?_ }
    rcases List.mem_insert_iff.mp hb with rfl | hb
    · exact .inr ⟨hset, hlinked⟩
    · exact .inl hb
  have hmoves : Moves tree valid state (BlockTree.invalidBlockFound state c) := by
    refine settled.moves (hfound.choose _ _) (fun b hb => (mem_eraseCandidates.mp hb).1)
      settled.choice.tip fun m hm best => mem_eraseCandidates.mpr ⟨hm, fun h => ?_⟩
    have hgood := best.eligible.2 m (self_mem_path m)
    rw [List.mem_singleton.mp h, hvalid] at hgood
    cases hgood
  refine ⟨hmoves, hmoves.unmarked_lt hknown ?_ hset⟩
  rw [BlockStatus.failed, Bool.or_eq_false_iff] at hclear
  exact hclear.1

end KubuCore.BlockTree
