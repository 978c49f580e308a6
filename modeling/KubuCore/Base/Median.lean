import Mathlib

/-!
# The median of a sliding window

The middle element of a sorted list, characterised by counting, and a window
over the newest items of a list: a new item that is not below the median does
not lower it.
-/

namespace KubuCore.Median

/-- The element at half the length of the sorted list. -/
def median (xs : List Int) : Int := (xs.insertionSort (· ≤ ·)).getD (xs.length / 2) 0

theorem le_getD_iff {l : List Int} (sorted : l.Pairwise (· ≤ ·)) {i : Nat} (hi : i < l.length)
    (m : Int) : m ≤ l.getD i 0 ↔ l.countP (fun x => x < m) ≤ i := by
  induction l generalizing i with
  | nil => simp at hi
  | cons a l ih =>
    rw [List.pairwise_cons] at sorted
    obtain ⟨first, rest⟩ := sorted
    have none_below : m ≤ a → l.countP (fun x => x < m) = 0 := by
      intro h
      rw [List.countP_eq_zero]
      intro x hx
      have := first x hx
      simp only [decide_eq_true_eq]
      omega
    cases i with
    | zero =>
      by_cases h : m ≤ a
      · simp [none_below h, h]
      · simp [Int.not_le.mp h]
    | succ i =>
      rw [List.getD_cons_succ, ih rest (by simpa using hi)]
      by_cases h : m ≤ a
      · simp [none_below h, Int.not_lt.mpr h]
      · simp [Int.not_le.mp h]

theorem le_median_iff {xs : List Int} (nonempty : xs ≠ []) (m : Int) :
    m ≤ median xs ↔ xs.countP (fun x => x < m) ≤ xs.length / 2 := by
  have hperm := xs.perm_insertionSort (· ≤ ·)
  have hpos := List.length_pos_iff.mpr nonempty
  have hsorted := xs.pairwise_insertionSort (· ≤ ·)
  rw [median, le_getD_iff hsorted (by rw [hperm.length_eq]; omega), hperm.countP_eq]

/-- Sliding the window over an item that is not below the median. -/
theorem median_le_slide {xs : List Int} (nonempty : xs ≠ []) (k : Nat) {t : Int}
    (above : median (xs.take (k + 1)) ≤ t) :
    median (xs.take (k + 1)) ≤ median ((t :: xs).take (k + 1)) := by
  have hwindow : xs.take (k + 1) ≠ [] := by
    cases xs with
    | nil => exact absurd rfl nonempty
    | cons x xs => simp
  rw [le_median_iff (by simp)]
  have hcount := (le_median_iff hwindow _).mp (le_refl (median (xs.take (k + 1))))
  rw [List.take_succ_cons, List.countP_cons_of_neg (by simpa using above)]
  have hsub : (xs.take k).countP (fun x => x < median (xs.take (k + 1))) ≤
      (xs.take (k + 1)).countP (fun x => x < median (xs.take (k + 1))) :=
    ((List.take_prefix_take_left (Nat.le_succ k)).sublist).countP_le
  have hlength : (xs.take (k + 1)).length ≤ (t :: xs.take k).length := by
    simp only [List.length_take, List.length_cons]
    omega
  omega

end KubuCore.Median
