import KubuCore.Base.Sets

/-!
# Worklists

Everything that can be reached from a set of elements, computed with a worklist:
the least staged element is taken, marked as done, and its successors that are
not done are staged. An element may have a cached result, which is then added
instead of walking on from it.
-/

namespace KubuCore.Worklist

open Sets
open Std

variable {α : Type} [Ord α] [TransOrd α]

/-- Look at a successor: the staged elements and the done ones after it. -/
def visit (cached : α → Option (ExtTreeSet α))
    (work : ExtTreeSet α × ExtTreeSet α) (y : α) : ExtTreeSet α × ExtTreeSet α :=
  match cached y with
  | some known => (work.1, work.2 ∪ known)
  | none => if y ∈ work.2 then work else (work.1.insert y, work.2)

/-- The loop, with a bound on the number of rounds. -/
def collectWith (next : α → ExtTreeSet α) (cached : α → Option (ExtTreeSet α)) :
    Nat → ExtTreeSet α → ExtTreeSet α → ExtTreeSet α
  | 0, _, done => done
  | fuel + 1, stage, done =>
    match first? stage with
    | none => done
    | some x =>
      let work := (next x).toList.foldl (visit cached) (stage.erase x, done.insert x)
      collectWith next cached fuel work.1 work.2

/-- The loop without cached results. -/
def collect (next : α → ExtTreeSet α) : Nat → ExtTreeSet α → ExtTreeSet α →
    ExtTreeSet α :=
  collectWith next fun _ => none

/-- One step along the successors. -/
def Edge (next : α → ExtTreeSet α) (x y : α) : Prop := y ∈ next x

variable [LawfulEqOrd α]

/-! ## One round -/

section Visit

variable {cached : α → Option (ExtTreeSet α)}

/-- What looking at a list of successors leaves. -/
structure Visited (cached : α → Option (ExtTreeSet α)) (ys : List α)
    (work work' : ExtTreeSet α × ExtTreeSet α) : Prop where
  staged : ∀ z ∈ work'.1, z ∈ work.1 ∨ (z ∈ ys ∧ cached z = none ∧ z ∉ work.2)
  stagedStay : ∀ z ∈ work.1, z ∈ work'.1
  done : ∀ z ∈ work'.2, z ∈ work.2 ∨ ∃ y ∈ ys, ∃ known, cached y = some known ∧ z ∈ known
  doneStay : ∀ z ∈ work.2, z ∈ work'.2
  looked : ∀ y ∈ ys, cached y = none → y ∈ work'.1 ∨ y ∈ work'.2
  added : ∀ y ∈ ys, ∀ known, cached y = some known → ∀ z ∈ known, z ∈ work'.2

theorem visited_visit (work : ExtTreeSet α × ExtTreeSet α) (y : α) :
    Visited cached [y] work (visit cached work y) := by
  cases hy : cached y with
  | some known =>
    simp only [visit, hy]
    refine ⟨fun z hz => .inl hz, fun z hz => hz, ?_, ?_, ?_, ?_⟩
    · intro z hz
      refine (ExtTreeSet.mem_union_iff.mp hz).imp id fun hz => ?_
      exact ⟨y, List.mem_singleton_self y, known, hy, hz⟩
    · exact fun z hz => ExtTreeSet.mem_union_of_left hz
    · intro z hz hnone
      rw [List.mem_singleton.mp hz, hy] at hnone
      cases hnone
    · intro z hz known' hknown w hw
      rw [List.mem_singleton.mp hz, hy] at hknown
      cases hknown
      exact ExtTreeSet.mem_union_of_right hw
  | none =>
    have noKnown : ∀ z ∈ [y], ∀ known, cached z = some known → False := by
      intro z hz known hknown
      rw [List.mem_singleton.mp hz, hy] at hknown
      cases hknown
    by_cases hdone : y ∈ work.2
    · simp only [visit, hy, if_pos hdone]
      refine ⟨fun z hz => .inl hz, fun z hz => hz, fun z hz => .inl hz, fun z hz => hz, ?_,
        fun z hz known hknown => (noKnown z hz known hknown).elim⟩
      intro z hz _
      rw [List.mem_singleton.mp hz]
      exact .inr hdone
    · simp only [visit, hy, if_neg hdone]
      refine ⟨?_, ?_, fun z hz => .inl hz, fun z hz => hz, ?_,
        fun z hz known hknown => (noKnown z hz known hknown).elim⟩
      · intro z hz
        rw [ExtTreeSet.mem_insert] at hz
        rcases hz with he | hz
        · have he : y = z := LawfulEqCmp.eq_of_compare he
          subst he
          exact .inr ⟨List.mem_singleton_self y, hy, hdone⟩
        · exact .inl hz
      · intro z hz
        exact ExtTreeSet.mem_insert.mpr (.inr hz)
      · intro z hz _
        rw [List.mem_singleton.mp hz]
        exact .inl ExtTreeSet.mem_insert_self

omit [LawfulEqOrd α] in
theorem Visited.trans {ys zs : List α} {a b c : ExtTreeSet α × ExtTreeSet α}
    (h : Visited cached ys a b) (h' : Visited cached zs b c) : Visited cached (ys ++ zs) a c := by
  refine ⟨?_, fun z hz => h'.stagedStay z (h.stagedStay z hz), ?_,
    fun z hz => h'.doneStay z (h.doneStay z hz), ?_, ?_⟩
  · intro z hz
    rcases h'.staged z hz with hz | ⟨hmem, hnone, hnot⟩
    · exact (h.staged z hz).imp id fun ⟨hmem, hrest⟩ => ⟨List.mem_append_left _ hmem, hrest⟩
    · exact .inr ⟨List.mem_append_right _ hmem, hnone, fun hd => hnot (h.doneStay z hd)⟩
  · intro z hz
    rcases h'.done z hz with hz | ⟨y, hy, hrest⟩
    · exact (h.done z hz).imp id fun ⟨y, hy, hrest⟩ => ⟨y, List.mem_append_left _ hy, hrest⟩
    · exact .inr ⟨y, List.mem_append_right _ hy, hrest⟩
  · intro y hy hnone
    rcases List.mem_append.mp hy with hy | hy
    · exact (h.looked y hy hnone).imp (h'.stagedStay y) (h'.doneStay y)
    · exact h'.looked y hy hnone
  · intro y hy known hknown z hz
    rcases List.mem_append.mp hy with hy | hy
    · exact h'.doneStay z (h.added y hy known hknown z hz)
    · exact h'.added y hy known hknown z hz

theorem visited_foldl (ys : List α) (work : ExtTreeSet α × ExtTreeSet α) :
    Visited cached ys work (ys.foldl (visit cached) work) := by
  induction ys generalizing work with
  | nil => exact ⟨fun z hz => .inl hz, fun z hz => hz, fun z hz => .inl hz, fun z hz => hz,
      by simp, by simp⟩
  | cons y ys ih => exact (visited_visit work y).trans (ih _)

end Visit

/-! ## The loop -/

section Loop

variable {next : α → ExtTreeSet α} {cached : α → Option (ExtTreeSet α)} {Ex : α → Prop}

/-- Only exempt elements have a cached result, and it is what can be reached
from them outside the exempt elements. -/
structure CacheOk (next : α → ExtTreeSet α) (cached : α → Option (ExtTreeSet α))
    (Ex : α → Prop) : Prop where
  exempt : ∀ y known, cached y = some known → Ex y
  known : ∀ y known, cached y = some known →
    ∀ z, z ∈ known ↔ ¬ Ex z ∧ Relation.TransGen (Edge next) y z

/-- An element that the loop need not be told about any more. -/
def Covered (cached : α → Option (ExtTreeSet α)) (stage done : ExtTreeSet α) (y : α) :
    Prop :=
  y ∈ stage ∨ y ∈ done ∨ ∃ known, cached y = some known ∧ ∀ z ∈ known, z ∈ done

variable {fuel : Nat} {stage done : ExtTreeSet α} {z : α}

/-- Everything collected was done at the start or can be reached from there. -/
theorem collectWith_sound (ok : CacheOk next cached Ex)
    (h : z ∈ collectWith next cached fuel stage done) :
    z ∈ done ∨ ∃ x ∈ stage, Relation.ReflTransGen (Edge next) x z := by
  induction fuel generalizing stage done with
  | zero => exact .inl h
  | succ fuel ih =>
    rw [collectWith] at h
    split at h
    · exact .inl h
    · rename_i x hx
      have v : Visited cached (next x).toList _ _ :=
        visited_foldl (next x).toList (stage.erase x, done.insert x)
      rcases ih h with hdone | ⟨y, hy, hpath⟩
      · rcases v.done z hdone with hdone | ⟨y, hy, known, hknown, hz⟩
        · refine (mem_insert_iff.mp hdone).symm.imp id fun he => ⟨x, mem_of_first? hx, ?_⟩
          rw [he]
        · have hedge : Edge next x y := ExtTreeSet.mem_toList.mp hy
          exact .inr ⟨x, mem_of_first? hx,
            .head hedge ((ok.known y known hknown z).mp hz).2.to_reflTransGen⟩
      · rcases v.staged y hy with hy | ⟨hmem, -⟩
        · exact .inr ⟨y, (mem_erase_iff.mp hy).2, hpath⟩
        · have hedge : Edge next x y := ExtTreeSet.mem_toList.mp hmem
          exact .inr ⟨x, mem_of_first? hx, .head hedge hpath⟩

/-- What is done stays done. -/
theorem done_subset_collectWith (hz : z ∈ done) : z ∈ collectWith next cached fuel stage done := by
  induction fuel generalizing stage done with
  | zero => exact hz
  | succ fuel ih =>
    rw [collectWith]
    split
    · exact hz
    · rename_i x hx
      have v : Visited cached (next x).toList _ _ :=
        visited_foldl (next x).toList (stage.erase x, done.insert x)
      exact ih (v.doneStay z (mem_insert_iff.mpr (.inr hz)))

/-- With at least one round the only staged element is collected. -/
theorem mem_collectWith_single (positive : 0 < fuel) (x : α) :
    x ∈ collectWith next cached fuel ((∅ : ExtTreeSet α).insert x) done := by
  cases fuel with
  | zero => cases positive
  | succ fuel =>
    rw [collectWith]
    split
    · rename_i hempty
      exact absurd (mem_insert_iff.mpr (.inl rfl)) (not_mem_of_first? hempty)
    · rename_i y hy
      have hxy : y = x := by
        rcases mem_insert_iff.mp (mem_of_first? hy) with he | he
        · exact he
        · exact absurd he ExtTreeSet.not_mem_empty
      subst hxy
      have v : Visited cached (next y).toList _ _ :=
        visited_foldl (next y).toList (((∅ : ExtTreeSet α).insert y).erase y, done.insert y)
      exact done_subset_collectWith (v.doneStay y (mem_insert_iff.mpr (.inl rfl)))

omit [LawfulEqOrd α] in
/-- With nothing staged, everything that is not exempt and can be reached is done. -/
theorem done_of_covered (ok : CacheOk next cached Ex) {stage done : ExtTreeSet α}
    (empty : ∀ x, x ∉ stage)
    (covered : ∀ x ∈ done, ∀ y ∈ next x, Covered cached stage done y) {x z : α}
    (hx : Covered cached stage done x) (hz : ¬ Ex z)
    (path : Relation.ReflTransGen (Edge next) x z) : z ∈ done := by
  induction path using Relation.ReflTransGen.head_induction_on with
  | refl =>
    rcases hx with hx | hx | ⟨known, hknown, -⟩
    · exact absurd hx (empty z)
    · exact hx
    · exact absurd (ok.exempt z known hknown) hz
  | @head x y hedge path ih =>
    rcases hx with hx | hx | ⟨known, hknown, hadded⟩
    · exact absurd hx (empty x)
    · exact ih (covered x hx y hedge)
    · exact hadded z ((ok.known x known hknown z).mpr ⟨hz, .head' hedge path⟩)

variable [DecidableEq α] {V : Finset α}

/-- The elements that the loop may still take. -/
def pending (V : Finset α) (stage done : ExtTreeSet α) : Finset α :=
  V.filter fun z => z ∉ done ∨ z ∈ stage

section

variable {stage : ExtTreeSet α} {x : α} (ok : CacheOk next cached Ex)
  (up : ∀ x y, y ∈ next x → Ex y → Ex x) (closed : ∀ x ∈ V, ∀ y ∈ next x, y ∈ V)
  (bounded : ∀ x ∈ stage, x ∈ V)
include ok up closed bounded

/-- One round: what stays covered, and that fewer elements are pending. -/
theorem round_spec {done : ExtTreeSet α}
    (covered : ∀ x ∈ done, ∀ y ∈ next x, Covered cached stage done y) (hx : x ∈ stage)
    {stage' done' : ExtTreeSet α}
    (v : Visited cached (next x).toList (stage.erase x, done.insert x) (stage', done')) :
    (∀ y, Covered cached stage done y → Covered cached stage' done' y) ∧
      (∀ y ∈ stage', y ∈ V) ∧
      (∀ y ∈ done', ∀ z ∈ next y, Covered cached stage' done' z) ∧
      pending V stage' done' ⊂ pending V stage done := by
  have stays : ∀ y, Covered cached stage done y → Covered cached stage' done' y := by
    rintro y (hy | hy | ⟨known, hknown, hadded⟩)
    · by_cases he : y = x
      · exact .inr (.inl (v.doneStay y (mem_insert_iff.mpr (.inl he))))
      · exact .inl (v.stagedStay y (mem_erase_iff.mpr ⟨he, hy⟩))
    · exact .inr (.inl (v.doneStay y (mem_insert_iff.mpr (.inr hy))))
    · exact .inr (.inr ⟨known, hknown,
        fun z hz => v.doneStay z (mem_insert_iff.mpr (.inr (hadded z hz)))⟩)
  refine ⟨stays, ?_, ?_, ?_⟩
  · intro y hy
    rcases v.staged y hy with hy | ⟨hmem, -⟩
    · exact bounded y (mem_erase_iff.mp hy).2
    · exact closed x (bounded x hx) y (ExtTreeSet.mem_toList.mp hmem)
  · intro y hy z hz
    rcases v.done y hy with hy | ⟨y', hy', known, hknown, hy⟩
    · rcases mem_insert_iff.mp hy with rfl | hy
      · have hmem : z ∈ (next y).toList := ExtTreeSet.mem_toList.mpr hz
        cases hcached : cached z with
        | none => exact (v.looked z hmem hcached).imp id .inl
        | some known => exact .inr (.inr ⟨known, hcached, v.added z hmem known hcached⟩)
      · exact stays z (covered y hy z hz)
    · -- A cached result is closed: what follows a reachable element is reachable.
      obtain ⟨hnot, hpath⟩ := (ok.known y' known hknown y).mp hy
      have hz' : z ∈ known :=
        (ok.known y' known hknown z).mpr ⟨fun h => hnot (up y z hz h), hpath.tail hz⟩
      exact .inr (.inl (v.added y' hy' known hknown z hz'))
  · refine Finset.ssubset_iff_of_subset ?_ |>.mpr ⟨x, ?_, ?_⟩
    · intro z hz
      obtain ⟨hV, hz⟩ := Finset.mem_filter.mp hz
      refine Finset.mem_filter.mpr ⟨hV, ?_⟩
      rcases hz with hz | hz
      · exact .inl fun hd => hz (v.doneStay z (mem_insert_iff.mpr (.inr hd)))
      · rcases v.staged z hz with hz | ⟨-, -, hz⟩
        · exact .inr (mem_erase_iff.mp hz).2
        · exact .inl fun hd => hz (mem_insert_iff.mpr (.inr hd))
    · exact Finset.mem_filter.mpr ⟨bounded x hx, .inr hx⟩
    · intro hpending
      rcases (Finset.mem_filter.mp hpending).2 with hnot | hstaged
      · exact hnot (v.doneStay x (mem_insert_iff.mpr (.inl rfl)))
      · rcases v.staged x hstaged with hstaged | ⟨-, -, hnot⟩
        · exact (mem_erase_iff.mp hstaged).1 rfl
        · exact hnot (mem_insert_iff.mpr (.inl rfl))

/-- With enough rounds the loop collects everything that is not exempt. -/
theorem collectWith_complete {fuel : Nat} {done : ExtTreeSet α}
    (covered : ∀ x ∈ done, ∀ y ∈ next x, Covered cached stage done y)
    (enough : (pending V stage done).card ≤ fuel) {z : α} (hx : Covered cached stage done x)
    (hz : ¬ Ex z) (path : Relation.ReflTransGen (Edge next) x z) :
    z ∈ collectWith next cached fuel stage done := by
  induction fuel generalizing stage done with
  | zero =>
    have hnone : pending V stage done = ∅ := Finset.card_eq_zero.mp (Nat.le_zero.mp enough)
    refine done_of_covered ok ?_ covered hx hz path
    intro y hy
    have hmem : y ∈ pending V stage done := Finset.mem_filter.mpr ⟨bounded y hy, .inr hy⟩
    rw [hnone] at hmem
    exact absurd hmem (Finset.notMem_empty y)
  | succ fuel ih =>
    rw [collectWith]
    split
    · rename_i hempty
      exact done_of_covered ok (fun _ => not_mem_of_first? hempty) covered hx hz path
    · rename_i y hy
      obtain ⟨stays, hbounded, hcovered, hless⟩ :=
        round_spec ok up closed bounded covered (mem_of_first? hy)
          (visited_foldl (next y).toList (stage.erase y, done.insert y))
      have hcard := Finset.card_lt_card hless
      exact ih hbounded hcovered (by omega) (stays x hx)

end

/-! ## Without cached results -/

/-- Everything that can be reached is collected, and nothing else. -/
theorem mem_collect (closed : ∀ x ∈ V, ∀ y ∈ next x, y ∈ V) {fuel : Nat}
    {stage done : ExtTreeSet α} (bounded : ∀ x ∈ stage, x ∈ V)
    (walked : ∀ x ∈ done, ∀ y ∈ next x, y ∈ stage ∨ y ∈ done)
    (enough : V.card ≤ fuel) {z : α} :
    z ∈ collect next fuel stage done ↔
      z ∈ done ∨ ∃ x ∈ stage, Relation.ReflTransGen (Edge next) x z := by
  have ok : CacheOk next (fun _ => none) (fun _ : α => False) := ⟨by simp, by simp⟩
  have hcard : (pending V stage done).card ≤ fuel :=
    (Finset.card_le_card (Finset.filter_subset _ V)).trans enough
  have covered : ∀ x ∈ done, ∀ y ∈ next x, Covered (fun _ => none) stage done y :=
    fun x hx y hy => (walked x hx y hy).imp id .inl
  constructor
  · exact collectWith_sound ok
  · rintro (hz | ⟨x, hx, path⟩)
    · exact collectWith_complete ok (by simp) closed bounded covered hcard (.inr (.inl hz)) id .refl
    · exact collectWith_complete ok (by simp) closed bounded covered hcard (.inl hx) id path

end Loop

end KubuCore.Worklist
