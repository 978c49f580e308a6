import Mathlib

/-!
# Checked computations

Rejecting code returns `Except`: a check that fails ends the computation with
its reason. The lemmas here take a successful computation apart, one check or
one call at a time.
-/

namespace KubuCore.Checked

variable {ε α β : Type}

/-- Continue only if `c` holds. -/
def require (c : Prop) [Decidable c] (reason : ε) : Except ε Unit :=
  if c then .ok () else .error reason

@[simp] theorem require_eq_ok (c : Prop) [Decidable c] (reason : ε) (u : Unit) :
    require c reason = .ok u ↔ c := by
  unfold require
  split <;> simp_all

variable {x : Except ε α} {f : α → Except ε β} {a : α} {e : ε}

@[simp] theorem bind_eq_ok {b : β} : (x >>= f) = .ok b ↔ ∃ a, x = .ok a ∧ f a = .ok b := by
  cases x with
  | error e => simp [bind, Except.bind]
  | ok a => simp [bind, Except.bind]

@[simp] theorem pure_eq_ok {b : α} : (pure a : Except ε α) = .ok b ↔ a = b := by
  simp [pure, Except.pure]

/-- The rules above together: they take a whole computation apart. -/
theorem eq_ok :
    (∀ {ε α β : Type} {x : Except ε α} {f : α → Except ε β} {b : β},
      (x >>= f) = .ok b ↔ ∃ a, x = .ok a ∧ f a = .ok b) ∧
    (∀ {ε : Type} (c : Prop) [Decidable c] (reason : ε) (u : Unit), require c reason = .ok u ↔ c) ∧
    ∀ {ε α : Type} {a b : α}, (pure a : Except ε α) = .ok b ↔ a = b :=
  ⟨bind_eq_ok, require_eq_ok, pure_eq_ok⟩

@[simp] theorem ok_bind : ((.ok a : Except ε α) >>= f) = f a := rfl

@[simp] theorem error_bind : ((.error e : Except ε α) >>= f) = .error e := rfl

theorem exists_of_isOk (h : x.isOk = true) : ∃ a, x = .ok a := by
  cases x with
  | error e => cases h
  | ok a => exact ⟨a, rfl⟩

/-- The reason of a rejected computation. -/
def reasonOf : Except ε α → Option ε
  | .error e => some e
  | .ok _ => none

theorem reasonOf_eq_some : reasonOf x = some e ↔ x = .error e := by
  cases x <;> simp [reasonOf]

/-- A value that may be missing, and the reason to give then. -/
def orFail (reason : ε) : Option α → Except ε α
  | some a => .ok a
  | none => .error reason

@[simp] theorem orFail_eq_ok {reason : ε} {x : Option α} :
    orFail reason x = .ok a ↔ x = some a := by
  cases x <;> simp [orFail]

/-- A loop of checks accepts when every item passes. -/
theorem forM_eq_ok {f : α → Except ε Unit} {xs : List α} :
    xs.forM f = .ok () ↔ ∀ x ∈ xs, f x = .ok () := by
  induction xs with
  | nil => simp
  | cons x xs ih =>
    change (f x >>= fun _ => xs.forM f) = .ok () ↔ _
    rw [bind_eq_ok]
    constructor
    · rintro ⟨⟨⟩, hx, hrest⟩ y hy
      rcases List.mem_cons.mp hy with rfl | hy
      · exact hx
      · exact ih.mp hrest y hy
    · intro h
      exact ⟨(), h x List.mem_cons_self, ih.mpr fun y hy => h y (List.mem_cons_of_mem _ hy)⟩

end KubuCore.Checked
