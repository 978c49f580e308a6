import KubuCore.Base.Loops
import KubuCore.Base.Sets

/-!
# Walks that update what they visit

A walk over the entries of a map takes the least waiting element, decides from its
entry whether to update it, and waits for its successors only if it was updated.
Each element is visited at most once, so that the walk sees every entry as it was
at the start.
-/

namespace KubuCore.Walk

open Loops
open Sets
open Std

variable {α β : Type} [Ord α] [TransOrd α]

/-- What the walk does with an entry; `fail` is a failed assertion. -/
inductive Visit (β : Type) where
  | fail
  | skip
  | update (entry : β)

structure State (α β : Type) [Ord α] where
  todo : ExtTreeSet α
  done : ExtTreeSet α
  entries : ExtTreeMap α β

/-- Wait for the successors that are not done. -/
def wait (done todo : ExtTreeSet α) (successors : List α) : ExtTreeSet α :=
  successors.foldl (fun todo y => if y ∈ done then todo else todo.insert y) todo

def round (visit : α → β → Visit β) (next : α → List α) (s : State α β) : Round (State α β) :=
  match s.todo.toList.head? with
  | none => .finished s
  | some now =>
    let todo := s.todo.erase now
    let done := s.done.insert now
    match s.entries[now]? with
    | none => .aborted
    | some entry =>
      match visit now entry with
      | .fail => .aborted
      | .skip => .next { s with todo, done }
      | .update entry =>
        .next { todo := wait done todo (next now), done, entries := s.entries.insert now entry }

/-- The walk from one element. -/
def walk (visit : α → β → Visit β) (next : α → List α) (start : α)
    (entries : ExtTreeMap α β) : Option (ExtTreeMap α β) :=
  (run (round visit next) (entries.size + 1)
    { todo := (∅ : ExtTreeSet α).insert start, done := ∅, entries }).map State.entries

/-- The entry after a visit. -/
def Visit.apply (entry : β) : Visit β → β
  | .update entry => entry
  | _ => entry

section Reach

variable (visit : α → β → Visit β) (next : α → List α) (entries : ExtTreeMap α β)

/-- The walk goes on from an element that it updates to its successors. -/
def Follows (x y : α) : Prop :=
  (∃ entry new, entries[x]? = some entry ∧ visit x entry = .update new) ∧ y ∈ next x

/-- The elements that the walk visits. -/
def Visits (start : α) : α → Prop := Relation.ReflTransGen (Follows visit next entries) start

end Reach

variable [LawfulEqOrd α]

theorem mem_wait {done todo : ExtTreeSet α} {successors : List α} {y : α} :
    y ∈ wait done todo successors ↔ y ∈ todo ∨ (y ∈ successors ∧ y ∉ done) := by
  induction successors generalizing todo with
  | nil => simp [wait]
  | cons z successors ih =>
    rw [wait, List.foldl_cons, ← wait, ih, List.mem_cons]
    split_ifs with hz
    · constructor
      · rintro (h | h)
        · exact .inl h
        · exact .inr ⟨.inr h.1, h.2⟩
      · rintro (h | ⟨rfl | h, hdone⟩)
        · exact .inl h
        · exact absurd hz hdone
        · exact .inr ⟨h, hdone⟩
    · rw [mem_insert_iff]
      constructor
      · rintro ((rfl | h) | h)
        · exact .inr ⟨.inl rfl, hz⟩
        · exact .inl h
        · exact .inr ⟨.inr h.1, h.2⟩
      · rintro (h | ⟨rfl | h, hdone⟩)
        · exact .inl (.inr h)
        · exact .inl (.inl rfl)
        · exact .inr ⟨h, hdone⟩

section Spec

variable [DecidableEq α] {visit : α → β → Visit β} {next : α → List α} {start : α}
  {entries : ExtTreeMap α β}

/-- What holds between the rounds. -/
structure Inv (visit : α → β → Visit β) (next : α → List α) (start : α)
    (entries : ExtTreeMap α β) (s : State α β) : Prop where
  todo : ∀ x ∈ s.todo, Visits visit next entries start x ∧ x ∉ s.done
  done : ∀ x ∈ s.done, Visits visit next entries start x
  begun : start ∈ s.done ∨ start ∈ s.todo
  closed : ∀ x ∈ s.done, ∀ y, Follows visit next entries x y → y ∈ s.done ∨ y ∈ s.todo
  entries : ∀ x, s.entries[x]? = if x ∈ s.done then
    entries[x]?.map fun entry => (visit x entry).apply entry else entries[x]?

/-- The entries that are not done. -/
def unvisited (entries : ExtTreeMap α β) (s : State α β) : Finset α :=
  entries.keys.toFinset.filter fun x => x ∉ s.done

/-- The state after an element was taken, with what is waiting now. -/
theorem Inv.step {s : State α β} (inv : Inv visit next start entries s) {now : α}
    (hnow : now ∈ s.todo) {entry : β} (hentry : entries[now]? = some entry)
    {todo : ExtTreeSet α} {entries' : ExtTreeMap α β}
    (htodo : ∀ x, x ∈ todo ↔ (x ≠ now ∧ x ∈ s.todo) ∨
      (Follows visit next entries now x ∧ x ≠ now ∧ x ∉ s.done))
    (hentries : ∀ x, entries'[x]? = if x = now then some ((visit now entry).apply entry)
      else s.entries[x]?) :
    Inv visit next start entries { todo, done := s.done.insert now, entries := entries' } ∧
      (unvisited entries { todo, done := s.done.insert now, entries := entries' }).card <
        (unvisited entries s).card := by
  obtain ⟨hvisits, hnot⟩ := inv.todo now hnow
  refine ⟨⟨?_, ?_, ?_, ?_, ?_⟩, ?_⟩
  · intro x hx
    simp only [mem_insert_iff, not_or]
    rcases (htodo x).mp hx with ⟨hne, hx⟩ | ⟨hfollows, hne, hdone⟩
    · exact ⟨(inv.todo x hx).1, hne, (inv.todo x hx).2⟩
    · exact ⟨hvisits.tail hfollows, hne, hdone⟩
  · intro x hx
    rcases mem_insert_iff.mp hx with rfl | hx
    · exact hvisits
    · exact inv.done x hx
  · by_cases he : start = now
    · exact .inl (mem_insert_iff.mpr (.inl he))
    · rcases inv.begun with h | h
      · exact .inl (mem_insert_iff.mpr (.inr h))
      · exact .inr ((htodo start).mpr (.inl ⟨he, h⟩))
  · intro x hx y hxy
    by_cases he : y = now
    · exact .inl (mem_insert_iff.mpr (.inl he))
    · by_cases hdone : y ∈ s.done
      · exact .inl (mem_insert_iff.mpr (.inr hdone))
      · refine .inr ((htodo y).mpr ?_)
        rcases mem_insert_iff.mp hx with rfl | hx
        · exact .inr ⟨hxy, he, hdone⟩
        · rcases inv.closed x hx y hxy with h | h
          · exact absurd h hdone
          · exact .inl ⟨he, h⟩
  · intro x
    rw [hentries]
    by_cases he : x = now
    · subst he
      rw [if_pos rfl, if_pos (mem_insert_iff.mpr (.inl rfl)), hentry, Option.map_some]
    · simp only [mem_insert_iff, he, false_or]
      exact inv.entries x
  · refine Finset.card_lt_card (Finset.ssubset_iff_of_subset ?_ |>.mpr ⟨now, ?_, ?_⟩)
    · intro x hx
      simp only [unvisited, Finset.mem_filter, mem_insert_iff, not_or] at hx ⊢
      exact ⟨hx.1, hx.2.2⟩
    · simp only [unvisited, Finset.mem_filter, List.mem_toFinset, ExtTreeMap.mem_keys]
      exact ⟨mem_iff_exists.mpr ⟨_, hentry⟩, hnot⟩
    · simp [unvisited]

section

variable
  (known : ∀ x, Visits visit next entries start x →
      ∃ entry, entries[x]? = some entry ∧ visit x entry ≠ .fail)
include known

theorem Inv.round {s : State α β} (inv : Inv visit next start entries s) :
    Progress (Inv visit next start entries)
      (fun s' => Inv visit next start entries s' ∧ ∀ x, x ∉ s'.todo)
      (fun s' => (unvisited entries s').card) s (round visit next s) := by
  rw [Walk.round]
  cases hmin : s.todo.toList.head? with
  | none =>
    refine ⟨inv, fun x hx => ?_⟩
    rw [List.head?_eq_none_iff] at hmin
    rw [← ExtTreeSet.mem_toList, hmin] at hx
    cases hx
  | some now =>
    have hnow : now ∈ s.todo := ExtTreeSet.mem_toList.mp (List.mem_of_head? hmin)
    obtain ⟨hvisits, hnot⟩ := inv.todo now hnow
    obtain ⟨entry, hentry, hfail⟩ := known now hvisits
    have hcurrent : s.entries[now]? = some entry := by rw [inv.entries, if_neg hnot, hentry]
    simp only [hcurrent]
    cases hvisit : visit now entry with
    | fail => exact absurd hvisit hfail
    | skip =>
      refine inv.step hnow hentry ?_ ?_
      · intro x
        rw [mem_erase_iff]
        refine ⟨.inl, ?_⟩
        rintro (h | ⟨⟨⟨e, new, he, hnew⟩, -⟩, -⟩)
        · exact h
        · rw [hentry] at he
          cases he
          rw [hvisit] at hnew
          cases hnew
      · intro x
        split
        · rename_i he
          rw [he, hvisit]
          exact hcurrent
        · rfl
    | update new =>
      have hlive : ∃ e n, entries[now]? = some e ∧ visit now e = .update n :=
        ⟨entry, new, hentry, hvisit⟩
      refine inv.step hnow hentry ?_ ?_
      · intro x
        rw [mem_wait, mem_erase_iff, mem_insert_iff, not_or]
        exact or_congr_right ⟨fun h => ⟨⟨hlive, h.1⟩, h.2⟩, fun h => ⟨h.1.2, h.2⟩⟩
      · intro x
        by_cases he : x = now
        · rw [he, ExtTreeMap.getElem?_insert_self, if_pos rfl, hvisit]
          rfl
        · have hne : now ≠ x := fun h => he h.symm
          simp [ExtTreeMap.getElem?_insert, he, hne]

/-- If every visited element has an entry that does not fail, the walk ends and has
updated exactly the visited elements. -/
theorem walk_spec :
    ∃ entries', walk visit next start entries = some entries' ∧
      (∀ x, Visits visit next entries start x →
        entries'[x]? = entries[x]?.map fun entry => (visit x entry).apply entry) ∧
      ∀ x, ¬ Visits visit next entries start x → entries'[x]? = entries[x]? := by
  have init : Inv visit next start entries
      { todo := (∅ : ExtTreeSet α).insert start, done := ∅, entries } := by
    refine ⟨?_, ?_, .inr (mem_insert_iff.mpr (.inl rfl)), ?_, ?_⟩
    · intro x hx
      rcases mem_insert_iff.mp hx with rfl | hx
      · exact ⟨.refl, ExtTreeSet.not_mem_empty⟩
      · exact absurd hx ExtTreeSet.not_mem_empty
    · exact fun x hx => absurd hx ExtTreeSet.not_mem_empty
    · exact fun x hx => absurd hx ExtTreeSet.not_mem_empty
    · intro x
      rw [if_neg ExtTreeSet.not_mem_empty]
  have enough : (unvisited entries
      { todo := (∅ : ExtTreeSet α).insert start, done := ∅, entries }).card <
      entries.size + 1 := by
    refine Nat.lt_succ_of_le (Nat.le_trans (Finset.card_filter_le _ _) ?_)
    refine Nat.le_trans (List.toFinset_card_le _) ?_
    rw [ExtTreeMap.length_keys]
  obtain ⟨s', hrun, hinv, hempty⟩ := run_spec (fun s inv => Inv.round known inv) init enough
  have hdone : ∀ x, Visits visit next entries start x → x ∈ s'.done := by
    intro x hx
    induction hx with
    | refl => exact hinv.begun.resolve_right (hempty _)
    | tail _ hfollows ih => exact (hinv.closed _ ih _ hfollows).resolve_right (hempty _)
  refine ⟨s'.entries, by rw [walk, hrun]; rfl, ?_, ?_⟩
  · intro x hx
    rw [hinv.entries, if_pos (hdone x hx)]
  · intro x hx
    rw [hinv.entries, if_neg fun h => hx (hinv.done x h)]

end

end Spec

end KubuCore.Walk
