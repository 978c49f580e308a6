import KubuCore.Chain.VersionBits

/-!
# The cache of deployment states

Every answer computed through the cache is the one of the recursion from the
genesis block, for all orders of queries on all branches of a tree of headers.
The cache may hold `DEFINED` for a block that is reached before the start time
without a look at what came before: median times never fall along a branch.
-/

namespace KubuCore.VersionBits

open Median
open CBlockIndex

/-- A set of blocks with all their ancestors, where the time of a block is past the
median time of its parent. The null pointer may be asked about too. -/
structure HeaderTree where
  blocks : CBlockIndex → Prop
  closed : ∀ block rest, blocks (block :: rest) → blocks rest
  times : ∀ block rest, blocks (block :: rest) → rest ≠ [] →
    getMedianTimePast rest < block.nTime

variable {d : Deployment} {tree : HeaderTree}

/-! ## Median times -/

variable {p : CBlockIndex} {k : Nat}

theorem HeaderTree.drop (hp : tree.blocks p) (j : Nat) : tree.blocks (p.drop j) := by
  induction j generalizing p with
  | zero => exact hp
  | succ j ih =>
    cases p with
    | nil => exact hp
    | cons block rest => exact ih (tree.closed block rest hp)

theorem HeaderTree.median_drop_le (hp : tree.blocks p) (j : Nat)
    (hne : p.drop j ≠ []) : getMedianTimePast (p.drop j) ≤ getMedianTimePast p := by
  induction j generalizing p with
  | zero => exact le_refl _
  | succ j ih =>
    cases p with
    | nil => exact le_refl _
    | cons block rest =>
      have hrest : rest ≠ [] := by
        rintro rfl
        simp at hne
      exact (ih (tree.closed block rest hp) hne).trans
        (median_le_slide (by simpa using hrest) 10 (tree.times block rest hp hrest).le)

/-! ## Periods -/

theorem getAncestor_back (p : CBlockIndex) (n : Nat) : getAncestor p (nHeight p - n) = p.drop n := by
  rw [getAncestor]
  split
  · rename_i h
    have hlen : p.length ≤ n := by
      simp only [nHeight] at h
      omega
    rw [List.drop_eq_nil_of_le hlen]
  · have hdrop : (nHeight p - (nHeight p - n)).toNat = n := by omega
    rw [hdrop]

theorem previousPeriod_eq (p : CBlockIndex) : previousPeriod d p = p.drop d.nPeriod :=
  getAncestor_back p d.nPeriod

theorem periodParent_eq (p : CBlockIndex) :
    periodParent d p = p.drop (p.length % d.nPeriod) := by
  rw [periodParent]
  split
  · rename_i h
    rw [h, List.drop_nil]
  · have hmod : (nHeight p + 1) % (d.nPeriod : Int) = ((p.length % d.nPeriod : Nat) : Int) := by
      have : nHeight p + 1 = (p.length : Int) := by simp [nHeight]
      rw [this, Int.natCast_mod]
    rw [hmod, getAncestor_back]

variable {j fuel : Nat} {cache : ThresholdConditionCache} {top : CBlockIndex} {v : List CBlockIndex}

/-- The states of a branch are those of its ancestors. -/
theorem periodState_drop (p : CBlockIndex) {k : Nat} (h : k * d.nPeriod + j ≤ p.length) :
    periodState d (p.drop j) k = periodState d p k := by
  induction k with
  | zero => rfl
  | succ k ih =>
    have hle : k * d.nPeriod ≤ (k + 1) * d.nPeriod := Nat.mul_le_mul_right _ (Nat.le_succ k)
    rw [periodState, ih (by omega), List.drop_drop, List.length_drop]
    congr 2
    omega

theorem bip9State_drop (h : p.length = k * d.nPeriod + j) (hj : j < d.nPeriod) :
    bip9State d p = periodState d p k := by
  rw [bip9State, h, Nat.add_comm, Nat.add_mul_div_right _ _ d.positive, Nat.div_eq_of_lt hj,
    Nat.zero_add]

theorem bip9State_full (h : p.length = k * d.nPeriod) : bip9State d p = periodState d p k :=
  bip9State_drop (by omega) d.positive

theorem bip9State_nil : bip9State d [] = .defined := by
  rw [bip9State, List.length_nil, Nat.zero_div, periodState]

theorem bip9State_periodParent (p : CBlockIndex) :
    bip9State d (p.drop (p.length % d.nPeriod)) = bip9State d p := by
  have hdiv := Nat.div_add_mod' p.length d.nPeriod
  rw [bip9State_full (k := p.length / d.nPeriod) (by rw [List.length_drop]; omega),
    periodState_drop p (by omega), bip9State]

/-- One step of the recursion. -/
theorem bip9State_succ (h : p.length = (k + 1) * d.nPeriod) :
    bip9State d p = stateNext d (bip9State d (p.drop d.nPeriod)) p := by
  have hk : (k + 1) * d.nPeriod = k * d.nPeriod + d.nPeriod := Nat.succ_mul k d.nPeriod
  rw [bip9State_full h, bip9State_full (k := k) (by rw [List.length_drop]; omega),
    periodState_drop p (by omega), periodState, ← h, Nat.sub_self, List.drop_zero]

theorem defined_before (p : CBlockIndex) {i k : Nat} (h : i ≤ k)
    (hk : periodState d p k = .defined) : periodState d p i = .defined := by
  induction k with
  | zero =>
    rw [Nat.le_zero.mp h]
    exact hk
  | succ k ih =>
    rcases Nat.of_le_succ h with h | rfl
    · refine ih h ?_
      rw [periodState] at hk
      cases hs : periodState d p k with
      | defined => rfl
      | started =>
        rw [hs] at hk
        simp only [stateNext] at hk
        split_ifs at hk
      | lockedIn => simp [hs, stateNext] at hk
      | active => simp [hs, stateNext] at hk
      | failed => simp [hs, stateNext] at hk
    · exact hk

/-! ## The shortcut -/

/-- The timeout does not pass before the start time on any branch. -/
def StartsFirst (d : Deployment) (tree : HeaderTree) : Prop :=
  ∀ p, tree.blocks p → p ≠ [] → getMedianTimePast p < d.nTimeStart →
    getMedianTimePast p < d.nTimeTimeout

theorem defined_of_early (starts : StartsFirst d tree) {p : CBlockIndex} (hp : tree.blocks p)
    (early : getMedianTimePast p < d.nTimeStart) {k : Nat} (h : k * d.nPeriod ≤ p.length) :
    periodState d p k = .defined := by
  induction k with
  | zero => rfl
  | succ k ih =>
    have hk : (k + 1) * d.nPeriod = k * d.nPeriod + d.nPeriod := Nat.succ_mul k d.nPeriod
    have hpos := d.positive
    have hne : p.drop (p.length - (k + 1) * d.nPeriod) ≠ [] := by
      intro hnil
      have := congrArg List.length hnil
      rw [List.length_drop, List.length_nil] at this
      omega
    have hmedian := tree.median_drop_le hp _ hne
    have hstart : getMedianTimePast (p.drop (p.length - (k + 1) * d.nPeriod)) < d.nTimeStart := by
      omega
    have htimeout := starts _ (tree.drop hp _) hne hstart
    rw [periodState, ih (by omega), stateNext, if_neg (by omega), if_neg (by omega)]

/-! ## The walks -/

/-- What the cache says is true. -/
def CacheOk (d : Deployment) (cache : ThresholdConditionCache) : Prop :=
  ∀ p s, cache.lookup p = some s → s = bip9State d p

theorem CacheOk.cons (ok : CacheOk d cache) {p : CBlockIndex} {s : ThresholdState}
    (hs : s = bip9State d p) : CacheOk d ((p, s) :: cache) := by
  intro q t h
  rw [List.lookup_cons] at h
  split at h
  · rename_i he
    cases h
    rw [eq_of_beq he]
    exact hs
  · exact ok q t h

/-- The blocks to compute lead from one period boundary to another. -/
def Climbs (d : Deployment) (top : CBlockIndex) : CBlockIndex → List CBlockIndex → Prop
  | p, [] => p = top
  | p, q :: rest => (∃ k, q.length = (k + 1) * d.nPeriod) ∧ q.drop d.nPeriod = p ∧ Climbs d top q rest

theorem walkForward_spec (ok : CacheOk d cache) (climbs : Climbs d top p v) :
    CacheOk d (walkForward d cache (bip9State d p) v).1 ∧
      (walkForward d cache (bip9State d p) v).2 = bip9State d top := by
  induction v generalizing p cache with
  | nil =>
    rw [← show p = top from climbs]
    exact ⟨ok, rfl⟩
  | cons q v ih =>
    obtain ⟨⟨k, hk⟩, rfl, hrest⟩ := climbs
    rw [walkForward, ← bip9State_succ hk]
    exact ih (ok.cons rfl) hrest

theorem walkBack_spec (starts : StartsFirst d tree) {k : Nat} {p : CBlockIndex}
    (ok : CacheOk d cache) (hp : tree.blocks p) (full : p.length = k * d.nPeriod)
    (enough : k < fuel) (climbs : Climbs d top p v) :
    ∃ cache' p' v', walkBack d cache fuel p v = (cache', p', v') ∧ CacheOk d cache' ∧
      cache'.lookup p' = some (bip9State d p') ∧ Climbs d top p' v' := by
  induction fuel generalizing k p v with
  | zero => omega
  | succ fuel ih =>
    rw [walkBack]
    split
    · rename_i hsome
      obtain ⟨s, hs⟩ := Option.isSome_iff_exists.mp hsome
      exact ⟨cache, p, v, rfl, ok, by rw [hs, ok p s hs], climbs⟩
    · split_ifs with hstop
      · have hdefined : bip9State d p = .defined := by
          rcases hstop with rfl | early
          · exact bip9State_nil
          · rw [bip9State_full full]
            exact defined_of_early starts hp early (le_of_eq full.symm)
        exact ⟨_, p, v, rfl, ok.cons hdefined.symm, by simp [hdefined], climbs⟩
      · cases k with
        | zero =>
          rw [Nat.zero_mul, List.length_eq_zero_iff] at full
          exact absurd (.inl full) hstop
        | succ k =>
          have hk : (k + 1) * d.nPeriod = k * d.nPeriod + d.nPeriod := Nat.succ_mul k d.nPeriod
          have hlength : (p.drop d.nPeriod).length = k * d.nPeriod := by
            rw [List.length_drop]
            omega
          rw [previousPeriod_eq]
          exact ih (tree.drop hp _) hlength (by omega) ⟨⟨k, full⟩, rfl, climbs⟩

/-- Answers through the cache are true and keep the cache true. -/
theorem getStateFor_spec (starts : StartsFirst d tree) (ok : CacheOk d cache) {p : CBlockIndex}
    (hp : tree.blocks p) :
    CacheOk d (getStateFor d cache p).1 ∧ (getStateFor d cache p).2 = bip9State d p := by
  have hdiv := Nat.div_add_mod' p.length d.nPeriod
  have hfull : (p.drop (p.length % d.nPeriod)).length = p.length / d.nPeriod * d.nPeriod := by
    rw [List.length_drop]
    omega
  have hle : p.length / d.nPeriod ≤ p.length / d.nPeriod * d.nPeriod :=
    Nat.le_mul_of_pos_right _ d.positive
  have start : Climbs d (p.drop (p.length % d.nPeriod)) (p.drop (p.length % d.nPeriod)) [] := rfl
  have enough : p.length / d.nPeriod < (p.drop (p.length % d.nPeriod)).length + 1 := by omega
  obtain ⟨cache', p', v', hback, ok', hlookup, climbs⟩ :=
    walkBack_spec starts ok (tree.drop hp (p.length % d.nPeriod)) hfull enough start
  rw [getStateFor, periodParent_eq]
  simp only [hback, hlookup]
  rw [← bip9State_periodParent p]
  exact walkForward_spec ok' climbs

/-! ## Since when -/

theorem RunStart.of_drop (h : k * d.nPeriod + d.nPeriod ≤ p.length)
    (run : RunStart d (p.drop d.nPeriod) k j) (same : periodState d p k = periodState d p (k + 1)) :
    RunStart d p (k + 1) j := by
  have agree : ∀ i ≤ k, periodState d (p.drop d.nPeriod) i = periodState d p i := by
    intro i hi
    have := Nat.mul_le_mul_right d.nPeriod hi
    exact periodState_drop p (by omega)
  refine ⟨Nat.le_succ_of_le run.le, ?_, ?_⟩
  · intro i hji hik
    rcases Nat.of_le_succ hik with hik | rfl
    · rw [← agree i hik, run.same i hji hik, agree k (le_refl k), same]
    · rfl
  · intro i hi
    have hik : i ≤ k := by
      have := run.le
      omega
    rw [← same, ← agree i hik, ← agree k (le_refl k)]
    exact run.first i hi

theorem sinceLoop_spec (starts : StartsFirst d tree) {initialState : ThresholdState}
    (later : initialState ≠ .defined) {k : Nat} {p : CBlockIndex} (ok : CacheOk d cache)
    (hp : tree.blocks p) (full : p.length = (k + 1) * d.nPeriod) (enough : k < fuel)
    (state : bip9State d p = initialState) :
    CacheOk d (sinceLoop d initialState fuel cache p).1 ∧ ∃ j,
      (sinceLoop d initialState fuel cache p).2.length = j * d.nPeriod ∧
        RunStart d p (k + 1) j := by
  induction fuel generalizing k cache p with
  | zero => omega
  | succ fuel ih =>
    have hk : (k + 1) * d.nPeriod = k * d.nPeriod + d.nPeriod := Nat.succ_mul k d.nPeriod
    have hstate : periodState d p (k + 1) = initialState := by rw [← bip9State_full full, state]
    have hlength : (p.drop d.nPeriod).length = k * d.nPeriod := by
      rw [List.length_drop]
      omega
    -- The run starts here if the period before has another state.
    have here : periodState d p k ≠ initialState →
        RunStart d p (k + 1) (k + 1) := by
      intro hne
      refine ⟨le_refl _, ?_, ?_⟩
      · intro i hji hik
        rw [Nat.le_antisymm hik hji]
      · intro i hi
        rw [hstate, Nat.succ.inj hi]
        exact hne
    rw [sinceLoop, previousPeriod_eq]
    split_ifs with hnil
    · refine ⟨ok, k + 1, full, here ?_⟩
      rw [hnil, List.length_nil, eq_comm, Nat.mul_eq_zero] at hlength
      rw [hlength.resolve_right (Nat.ne_of_gt d.positive)]
      exact later.symm
    · obtain ⟨ok', hanswer⟩ := getStateFor_spec starts ok (tree.drop hp d.nPeriod)
      have hprevious : (getStateFor d cache (p.drop d.nPeriod)).2 = periodState d p k := by
        rw [hanswer, bip9State_full hlength, periodState_drop p (by omega)]
      dsimp only
      split
      · rename_i hsame
        cases k with
        | zero =>
          rw [Nat.zero_mul, List.length_eq_zero_iff] at hlength
          exact absurd hlength hnil
        | succ k =>
          obtain ⟨ok'', j, hj, run⟩ := ih ok' (tree.drop hp d.nPeriod) hlength (by omega)
            (by rw [← hanswer, hsame])
          refine ⟨ok'', j, hj, run.of_drop (by omega) ?_⟩
          rw [← hprevious, hsame, hstate]
      · rename_i hdiff
        exact ⟨ok', k + 1, full, here (hprevious ▸ hdiff)⟩

/-- The height from which a state has held, through the cache. -/
theorem getStateSinceHeightFor_spec (starts : StartsFirst d tree) (ok : CacheOk d cache)
    {p : CBlockIndex} (hp : tree.blocks p) :
    CacheOk d (getStateSinceHeightFor d cache p).1 ∧ ∃ j : Nat,
      (getStateSinceHeightFor d cache p).2 = ((j * d.nPeriod : Nat) : Int) ∧
        RunStart d p (p.length / d.nPeriod) j ∧ (bip9State d p = .defined → j = 0) := by
  obtain ⟨ok', hanswer⟩ := getStateFor_spec starts ok hp
  rw [getStateSinceHeightFor]
  dsimp only
  split_ifs with hdefined
  · rw [hanswer] at hdefined
    refine ⟨ok', 0, by simp, ⟨Nat.zero_le _, ?_, ?_⟩, fun _ => rfl⟩
    · intro i _ hi
      rw [defined_before p hi hdefined]
      exact hdefined.symm
    · intro i hi
      cases hi
  · rw [hanswer] at hdefined ⊢
    have hdiv := Nat.div_add_mod' p.length d.nPeriod
    obtain ⟨k, hk⟩ : ∃ k, p.length / d.nPeriod = k + 1 := by
      refine Nat.exists_eq_succ_of_ne_zero fun hzero => hdefined ?_
      rw [bip9State, hzero, periodState]
    have hle : k + 1 ≤ (k + 1) * d.nPeriod := Nat.le_mul_of_pos_right _ d.positive
    have hfull : (p.drop (p.length % d.nPeriod)).length = (k + 1) * d.nPeriod := by
      rw [List.length_drop, ← hk]
      omega
    have enough : k < (p.drop (p.length % d.nPeriod)).length := by omega
    rw [periodParent_eq]
    obtain ⟨ok'', j, hj, run⟩ := sinceLoop_spec starts hdefined ok'
      (tree.drop hp (p.length % d.nPeriod)) hfull enough (bip9State_periodParent p)
    refine ⟨ok'', j, ?_, ?_, fun h => absurd h hdefined⟩
    · rw [nHeight]
      omega
    · have agree : ∀ i ≤ k + 1,
          periodState d (p.drop (p.length % d.nPeriod)) i = periodState d p i := by
        intro i hi
        have := Nat.mul_le_mul_right d.nPeriod hi
        rw [hk] at hdiv
        exact periodState_drop p (by omega)
      rw [hk]
      refine ⟨run.le, ?_, ?_⟩
      · intro i hji hik
        rw [← agree i hik, ← agree (k + 1) (le_refl _)]
        exact run.same i hji hik
      · intro i hi
        have := run.le
        rw [← agree i (by omega), ← agree (k + 1) (le_refl _)]
        exact run.first i hi

/-! ## All orders of queries -/

/-- The caches that queries on blocks of the tree leave. -/
inductive CacheReachable (d : Deployment) (tree : HeaderTree) : ThresholdConditionCache → Prop where
  | empty : CacheReachable d tree []
  | stateFor {cache : ThresholdConditionCache} {p : CBlockIndex} : CacheReachable d tree cache →
      tree.blocks p → CacheReachable d tree (getStateFor d cache p).1
  | sinceHeight {cache : ThresholdConditionCache} {p : CBlockIndex} :
      CacheReachable d tree cache → tree.blocks p →
      CacheReachable d tree (getStateSinceHeightFor d cache p).1

theorem CacheReachable.ok (starts : StartsFirst d tree) (h : CacheReachable d tree cache) :
    CacheOk d cache := by
  induction h with
  | empty =>
    intro p s hs
    cases hs
  | stateFor _ hp ih => exact (getStateFor_spec starts ih hp).1
  | sinceHeight _ hp ih => exact (getStateSinceHeightFor_spec starts ih hp).1

/-- After any queries on any branches, each answer is the one of the definition. -/
theorem cached_states_match {d : Deployment} {tree : HeaderTree} (starts : StartsFirst d tree)
    {cache : ThresholdConditionCache} (reached : CacheReachable d tree cache) {p : CBlockIndex}
    (hp : tree.blocks p) :
    (getStateFor d cache p).2 = bip9State d p ∧ ∃ j : Nat,
      (getStateSinceHeightFor d cache p).2 = ((j * d.nPeriod : Nat) : Int) ∧
        RunStart d p (p.length / d.nPeriod) j ∧ (bip9State d p = .defined → j = 0) :=
  ⟨(getStateFor_spec starts (reached.ok starts) hp).2,
    (getStateSinceHeightFor_spec starts (reached.ok starts) hp).2⟩

/-- A deployment with periods of two blocks. -/
def sampleDeployment : Deployment :=
  { nPeriod := 2, positive := by decide, nThreshold := 2, nTimeStart := 10, nTimeTimeout := 100
    condition := versionBitsCondition 1 }

/-- Seven blocks of which all signal. -/
def sampleBranch : CBlockIndex :=
  [⟨7, 0x20000002, 70⟩, ⟨6, 0x20000002, 60⟩, ⟨5, 0x20000002, 50⟩, ⟨4, 0x20000002, 40⟩,
    ⟨3, 0x20000002, 30⟩, ⟨2, 0x20000002, 20⟩, ⟨1, 0x20000002, 10⟩]

/-- The tree of a single branch. -/
def branchTree (p : CBlockIndex)
    (times : ∀ i < p.length, p.drop (i + 1) ≠ [] →
      getMedianTimePast (p.drop (i + 1)) < ((p.drop i).map CBlockHeader.nTime).headD 0) :
    HeaderTree where
  blocks q := ∃ i ≤ p.length, q = p.drop i
  closed := by
    rintro block rest ⟨i, hi, h⟩
    have hlt : i < p.length := by
      by_contra hge
      rw [List.drop_eq_nil_of_le (by omega)] at h
      cases h
    exact ⟨i + 1, hlt, by rw [← List.drop_drop, ← h, List.drop_one, List.tail_cons]⟩
  times := by
    rintro block rest ⟨i, hi, h⟩ hrest
    have hlt : i < p.length := by
      by_contra hge
      rw [List.drop_eq_nil_of_le (by omega)] at h
      cases h
    have hdrop : p.drop (i + 1) = rest := by rw [← List.drop_drop, ← h, List.drop_one, List.tail_cons]
    have htime := times i hlt (by rwa [hdrop])
    rw [hdrop, ← h] at htime
    exact htime

def sampleTree : HeaderTree := branchTree sampleBranch (by decide +kernel)

theorem sampleTree_startsFirst : StartsFirst sampleDeployment sampleTree := by
  rintro p - - h
  exact lt_trans h (by decide)

/-- After a query on an older block, the tip's period is active since height 6. -/
theorem cached_states_match_sample :
    (getStateFor sampleDeployment
        (getStateFor sampleDeployment [] (sampleBranch.drop 2)).1 sampleBranch).2 =
      bip9State sampleDeployment sampleBranch ∧ ∃ j : Nat,
      (getStateSinceHeightFor sampleDeployment
          (getStateFor sampleDeployment [] (sampleBranch.drop 2)).1 sampleBranch).2 =
        ((j * sampleDeployment.nPeriod : Nat) : Int) ∧
        RunStart sampleDeployment sampleBranch (sampleBranch.length / sampleDeployment.nPeriod) j ∧
        (bip9State sampleDeployment sampleBranch = .defined → j = 0) :=
  cached_states_match sampleTree_startsFirst
    (.stateFor .empty ⟨2, by decide, rfl⟩) ⟨0, by decide, rfl⟩

example : bip9State sampleDeployment sampleBranch = .active ∧
    (getStateSinceHeightFor sampleDeployment [] sampleBranch).2 = 6 := by
  decide +kernel

/-- With a timeout before the start time the shortcut answers `DEFINED` for a block
that the definition calls `FAILED`. -/
theorem early_timeout_differs :
    let d : Deployment :=
      { nPeriod := 1, positive := by decide, nThreshold := 1, nTimeStart := 10, nTimeTimeout := 0
        condition := versionBitsCondition 1 }
    (getStateFor d [] [⟨1, 0x20000000, 5⟩]).2 = .defined ∧
      bip9State d [⟨1, 0x20000000, 5⟩] = .failed := by
  decide +kernel

end KubuCore.VersionBits
