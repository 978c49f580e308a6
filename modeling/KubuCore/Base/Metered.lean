import KubuCore.Base.Checked

/-!
# Counting the calls of a checked computation

A metered computation carries the number of calls it made, those before a
failure included. Code is written once for every monad that is told of its
calls (`Calls`): run as checked code it ignores them, run as metered code it
counts them, and forgetting the count gives the checked computation back.
-/

namespace KubuCore.Checked

/-- A checked result and the number of calls made on the way to it. -/
structure Metered (ε α : Type) where
  calls : Nat
  result : Except ε α

namespace Metered

variable {ε α β : Type}

/-- A computation that makes no call. -/
def ofExcept (x : Except ε α) : Metered ε α := ⟨0, x⟩

/-- One call and its answer. -/
def call (a : α) : Metered ε α := ⟨1, .ok a⟩

def bind (x : Metered ε α) (f : α → Metered ε β) : Metered ε β :=
  match x.result with
  | .error e => ⟨x.calls, .error e⟩
  | .ok a => ⟨x.calls + (f a).calls, (f a).result⟩

instance : Monad (Metered ε) where
  pure a := ofExcept (.ok a)
  bind := Metered.bind

@[simp] theorem result_pure (a : α) : (pure a : Metered ε α).result = pure a := rfl

@[simp] theorem result_bind (x : Metered ε α) (f : α → Metered ε β) :
    (x >>= f).result = x.result >>= fun a => (f a).result := by
  change (Metered.bind x f).result = _
  unfold Metered.bind
  cases x.result with
  | error e => rfl
  | ok a => rfl

variable {x : Metered ε α} {f : α → Metered ε β} {n k : Nat}

/-- The calls of two computations in a row. -/
theorem calls_bind_le (hx : x.calls ≤ n) (hf : ∀ a, x.result = .ok a → (f a).calls ≤ k) :
    (x >>= f).calls ≤ n + k := by
  change (Metered.bind x f).calls ≤ _
  unfold Metered.bind
  cases h : x.result with
  | error e => exact Nat.le_add_right_of_le hx
  | ok a => exact Nat.add_le_add hx (hf a h)

/-- A computation after one without calls. -/
theorem calls_after {x : Except ε α} (hf : ∀ a, x = .ok a → (f a).calls ≤ k) :
    (ofExcept x >>= f).calls ≤ k := by
  have := calls_bind_le (n := 0) (x := ofExcept x) (Nat.le_refl 0) hf
  omega

/-- A computation that is followed by one without calls. -/
theorem calls_before (hx : x.calls ≤ n) (hf : ∀ a, x.result = .ok a → (f a).calls = 0) :
    (x >>= f).calls ≤ n :=
  calls_bind_le (k := 0) hx fun a ha => Nat.le_of_eq (hf a ha)

theorem calls_ite {c : Prop} [Decidable c] {x y : Metered ε α} {n : Nat} (hx : x.calls ≤ n)
    (hy : y.calls ≤ n) : (if c then x else y).calls ≤ n := by
  split
  · exact hx
  · exact hy

end Metered

/-! ## Code that is told of its calls -/

/-- A monad that runs checked code and hears of every call. -/
class Calls (ε : outParam Type) (μ : Type → Type) extends Monad μ where
  /-- A computation that is no call. -/
  check {α : Type} : Except ε α → μ α
  /-- A call and its answer. -/
  call {α : Type} : α → μ α

export Calls (check call)

@[default_instance] instance {ε : Type} : Calls ε (Except ε) where
  check := id
  call := pure

instance {ε : Type} : Calls ε (Metered ε) where
  check := Metered.ofExcept
  call := Metered.call

variable {ε α : Type}

@[simp] theorem check_except (x : Except ε α) : (check x : Except ε α) = x := rfl

@[simp] theorem call_except (a : α) : (call a : Except ε α) = pure a := rfl

@[simp] theorem result_check (x : Except ε α) : (check x : Metered ε α).result = x := rfl

@[simp] theorem result_call (a : α) : (call a : Metered ε α).result = pure a := rfl

end KubuCore.Checked
