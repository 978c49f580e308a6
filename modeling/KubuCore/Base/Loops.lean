import Mathlib

/-!
# Loops

A loop is given by what one round does: leave the loop, fail an assertion, or go
on. The rule is the usual one: an invariant with a measure that falls gives a
result.
-/

namespace KubuCore.Loops

variable {σ : Type}

/-- What one round of a loop can do. -/
inductive Round (σ : Type) where
  | finished (s : σ)
  | aborted
  | next (s : σ)

/-- The loop with a bound on its rounds. No result stands for a failed assertion,
or for a bound that is too small. -/
def run (round : σ → Round σ) : Nat → σ → Option σ
  | 0, _ => none
  | fuel + 1, s =>
    match round s with
    | .finished s' => some s'
    | .aborted => none
    | .next s' => run round fuel s'

/-- The round does not fail; it ends in a good state, or keeps the invariant and
lowers the measure. -/
def Progress (Inv Done : σ → Prop) (measure : σ → Nat) (s : σ) : Round σ → Prop
  | .finished s' => Done s'
  | .aborted => False
  | .next s' => Inv s' ∧ measure s' < measure s

theorem run_spec {round : σ → Round σ} {Inv Done : σ → Prop} {measure : σ → Nat}
    (each : ∀ s, Inv s → Progress Inv Done measure s (round s)) {fuel : Nat} {s : σ} (inv : Inv s)
    (enough : measure s < fuel) : ∃ s', run round fuel s = some s' ∧ Done s' := by
  induction fuel generalizing s with
  | zero => cases enough
  | succ fuel ih =>
    have hround := each s inv
    rw [run]
    cases h : round s with
    | finished s' =>
      rw [h] at hround
      exact ⟨s', rfl, hround⟩
    | aborted =>
      rw [h] at hround
      exact hround.elim
    | next s' =>
      rw [h] at hround
      exact ih hround.1 (by have := hround.2; omega)

end KubuCore.Loops
