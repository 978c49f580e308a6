import Mathlib

/-!
# Iterations that approach a target

A step on the integers that never moves away from a target and never past it.
Its iterates are monotone, stay on their side of the target and become constant.
-/

namespace KubuCore.Approach

/-- From either side a step goes toward the target or stays, and does not pass it. -/
structure Approaches (f : Int → Int) (target : Int) : Prop where
  up : ∀ x ≤ target, x ≤ f x ∧ f x ≤ target
  down : ∀ x, target ≤ x → target ≤ f x ∧ f x ≤ x

variable {f : Int → Int} {target x : Int}

section

variable (h : Approaches f target)
include h

theorem iterate_le (hx : x ≤ target) (n : Nat) : f^[n] x ≤ target := by
  induction n with
  | zero => exact hx
  | succ n ih =>
    rw [Function.iterate_succ_apply']
    exact (h.up _ ih).2

theorem le_iterate (hx : target ≤ x) (n : Nat) : target ≤ f^[n] x := by
  induction n with
  | zero => exact hx
  | succ n ih =>
    rw [Function.iterate_succ_apply']
    exact (h.down _ ih).1

theorem iterate_monotone (hx : x ≤ target) : Monotone fun n => f^[n] x := by
  refine monotone_nat_of_le_succ fun n => ?_
  rw [Function.iterate_succ_apply']
  exact (h.up _ (iterate_le h hx n)).1

theorem iterate_antitone (hx : target ≤ x) : Antitone fun n => f^[n] x := by
  refine antitone_nat_of_succ_le fun n => ?_
  rw [Function.iterate_succ_apply']
  exact (h.down _ (le_iterate h hx n)).2

/-- The distance to the target drops with every step that moves, so the steps come to rest. -/
theorem exists_fixed (x : Int) : ∃ n, f (f^[n] x) = f^[n] x := by
  induction hd : (target - x).natAbs using Nat.strongRecOn generalizing x with
  | ind d ih =>
    by_cases hfix : f x = x
    · exact ⟨0, hfix⟩
    · have hlt : (target - f x).natAbs < d := by
        rcases le_total x target with hx | hx
        · have := h.up x hx
          omega
        · have := h.down x hx
          omega
      obtain ⟨n, hn⟩ := ih _ hlt (f x) rfl
      exact ⟨n + 1, hn⟩

end

theorem iterate_of_fixed {n : Nat} (hn : f (f^[n] x) = f^[n] x) {k : Nat} (hk : n ≤ k) :
    f^[k] x = f^[n] x := by
  obtain ⟨d, rfl⟩ := Nat.exists_eq_add_of_le' hk
  rw [Function.iterate_add_apply, Function.iterate_fixed hn]

end KubuCore.Approach
