import Mathlib

/-!
# Lists without blanks at the end

A list of slots in which some values are blank, kept without blanks at its end
by `rdropWhile`. Reading a slot that is not blank does not see the trimming,
and blanking a slot is undone by padding the list and writing the slot back.
-/

namespace KubuCore.Trim

variable {α : Type} {p : α → Bool}

variable {l : List α} {i : Nat} {x : α}

theorem getElem?_of_rdropWhile (h : (l.rdropWhile p)[i]? = some x) : l[i]? = some x := by
  have hsplit : l.rdropWhile p ++ l.rtakeWhile p = l := List.rdropWhile_append_rtakeWhile
  have hlt := (List.getElem?_eq_some_iff.mp h).1
  rw [← hsplit, List.getElem?_append_left hlt]
  exact h

/-- Trimming drops only blanks. -/
theorem rdropWhile_getElem? (h : l[i]? = some x) (hx : p x = false) :
    (l.rdropWhile p)[i]? = some x := by
  have hsplit : l.rdropWhile p ++ l.rtakeWhile p = l := List.rdropWhile_append_rtakeWhile
  by_cases hlt : i < (l.rdropWhile p).length
  · rw [← List.getElem?_append_left hlt, hsplit]
    exact h
  · rw [← hsplit, List.getElem?_append_right (by omega)] at h
    have hblank := List.mem_rtakeWhile_imp (List.mem_of_getElem? h)
    rw [hx] at hblank
    cases hblank

/-- The last slot of a trimmed list is not blank. -/
theorem last_of_trimmed (trimmed : l.rdropWhile p = l) (h : l[l.length - 1]? = some x) :
    p x = false := by
  have hne : l ≠ [] := by
    rintro rfl
    cases h
  have hlast := List.rdropWhile_eq_self_iff.mp trimmed hne
  rw [← List.getLast?_eq_getElem?, List.getLast?_eq_some_getLast hne] at h
  cases h
  simpa using hlast

section Restore

variable {blank : α} {l : List α} {n : Nat} {x : α}

/-- What trimming drops, when all blanks are the same. -/
theorem rdropWhile_append_replicate (blanks : ∀ y ∈ l, p y = true → y = blank) :
    ∃ k, l = l.rdropWhile p ++ List.replicate k blank := by
  have hsplit : l.rdropWhile p ++ l.rtakeWhile p = l := List.rdropWhile_append_rtakeWhile
  refine ⟨(l.rtakeWhile p).length, ?_⟩
  have hall : l.rtakeWhile p = List.replicate (l.rtakeWhile p).length blank := by
    refine List.eq_replicate_iff.mpr ⟨rfl, fun y hy => ?_⟩
    refine blanks y ?_ (List.mem_rtakeWhile_imp hy)
    rw [← hsplit]
    exact List.mem_append_right _ hy
  rw [← hall, hsplit]

/-- Padding the list after a slot was blanked gives all slots back. -/
theorem pad_rdropWhile_set (trimmed : l.rdropWhile p = l)
    (blanks : ∀ y ∈ l, p y = true → y = blank) (hn : n < l.length) :
    (l.set n blank).rdropWhile p ++
      List.replicate (n + 1 - ((l.set n blank).rdropWhile p).length) blank = l.set n blank := by
  have blanks' : ∀ y ∈ l.set n blank, p y = true → y = blank := by
    intro y hy hp
    rcases List.mem_or_eq_of_mem_set hy with hy | rfl
    · exact blanks y hy hp
    · rfl
  obtain ⟨k, hk⟩ := rdropWhile_append_replicate (p := p) blanks'
  have hlen : l.length = ((l.set n blank).rdropWhile p).length + k := by
    have := congrArg List.length hk
    simpa using this
  -- If anything was dropped, the blanked slot was the last one.
  have hcount : n + 1 - ((l.set n blank).rdropWhile p).length = k := by
    by_cases hlast : n + 1 = l.length
    · omega
    · by_contra hpos
      have hget : (l.set n blank)[l.length - 1]? = some blank := by
        rw [hk, List.getElem?_append_right (by omega), List.getElem?_replicate_of_lt (by omega)]
      have hne : n ≠ l.length - 1 := by omega
      have hold := hget
      rw [List.getElem?_set_ne hne] at hold
      have hkeep := last_of_trimmed trimmed hold
      have hself := rdropWhile_getElem? (p := p) hget hkeep
      have hlt := (List.getElem?_eq_some_iff.mp hself).1
      omega
  rw [hcount, ← hk]

/-- Writing the slot back gives the list back. -/
theorem restore_set (hx : l[n]? = some x) : (l.set n blank).set n x = l := by
  obtain ⟨hn, rfl⟩ := List.getElem?_eq_some_iff.mp hx
  rw [List.set_set, List.set_getElem_self]

end Restore

/-! ## Both ends -/

/-- `middle` is `l` without the blanks on either side of it. -/
structure Trims (p : α → Bool) (l middle : List α) : Prop where
  split : ∃ before after, l = before ++ (middle ++ after) ∧
    (∀ x ∈ before, p x = true) ∧ ∀ x ∈ after, p x = true
  head : ∀ x, middle.head? = some x → p x = false
  last : ∀ x, middle.getLast? = some x → p x = false

theorem dropWhile_of_head {l : List α} (h : ∀ x, l.head? = some x → p x = false) :
    l.dropWhile p = l := by
  cases l with
  | nil => rfl
  | cons x l => rw [List.dropWhile_cons_of_neg (by simp [h x rfl])]

theorem head_dropWhile {l : List α} {x : α} (h : (l.dropWhile p).head? = some x) : p x = false := by
  have hnot := List.head?_dropWhile_not p l
  rw [h] at hnot
  exact hnot

theorem trims_iff {l middle : List α} :
    Trims p l middle ↔ middle = ((l.dropWhile p).reverse.dropWhile p).reverse := by
  constructor
  · rintro ⟨⟨before, after, rfl, hbefore, hafter⟩, hhead, hlast⟩
    rw [List.dropWhile_append_of_pos hbefore]
    cases middle with
    | nil => rw [List.nil_append, List.dropWhile_eq_nil_iff.mpr hafter]; rfl
    | cons x middle =>
      have hfirst : (x :: middle ++ after).dropWhile p = x :: middle ++ after :=
        dropWhile_of_head fun y hy => hhead y hy
      have hrest := dropWhile_of_head fun y hy => hlast y (by rwa [List.head?_reverse] at hy)
      rw [hfirst, List.reverse_append,
        List.dropWhile_append_of_pos fun y hy => hafter y (List.mem_reverse.mp hy), hrest,
        List.reverse_reverse]
  · rintro rfl
    have hsplit : ((l.dropWhile p).reverse.dropWhile p).reverse ++
        ((l.dropWhile p).reverse.takeWhile p).reverse = l.dropWhile p := by
      rw [← List.reverse_append, List.takeWhile_append_dropWhile, List.reverse_reverse]
    refine ⟨⟨l.takeWhile p, ((l.dropWhile p).reverse.takeWhile p).reverse, ?_,
      fun x hx => List.mem_takeWhile_imp hx,
      fun x hx => List.mem_takeWhile_imp (List.mem_reverse.mp hx)⟩, fun x hx => ?_, fun x hx => ?_⟩
    · rw [hsplit, List.takeWhile_append_dropWhile]
    · refine head_dropWhile (l := l) ?_
      rw [← hsplit, List.head?_append, hx]
      rfl
    · rw [List.getLast?_reverse] at hx
      exact head_dropWhile hx

end KubuCore.Trim
