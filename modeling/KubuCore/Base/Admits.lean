import KubuCore.Base.Checked

/-!
# Computations that accept more

One checked computation admits another when the other accepts whatever it
accepts, with the same result. The rules follow the way checked code is put
together, so that a relational argument about two versions of a program goes
through its text once.
-/

namespace KubuCore.Checked

variable {ε α β : Type}

/-- Whatever `x` accepts is accepted by `y` with the same result. -/
def Admits (x y : Except ε α) : Prop := ∀ a, x = .ok a → y = .ok a

theorem Admits.refl (x : Except ε α) : Admits x x := fun _ h => h

theorem Admits.error {e : ε} (y : Except ε α) : Admits (.error e) y := fun _ h => by cases h

theorem Admits.bind {x y : Except ε α} {f g : α → Except ε β} (h : Admits x y)
    (hf : ∀ a, Admits (f a) (g a)) : Admits (x >>= f) (y >>= g) := by
  intro b hb
  obtain ⟨a, hx, ha⟩ := bind_eq_ok.mp hb
  exact bind_eq_ok.mpr ⟨a, h a hx, hf a b ha⟩

/-- A weaker check accepts more. -/
theorem Admits.require {c d : Prop} [Decidable c] [Decidable d] {reason reason' : ε} (h : c → d) :
    Admits (require c reason) (require d reason') :=
  fun u hu => (require_eq_ok d reason' u).mpr (h ((require_eq_ok c reason u).mp hu))

/-- A check in front of a computation that stays as it is. -/
theorem Admits.require_bind {c d : Prop} [Decidable c] [Decidable d] {reason reason' : ε}
    {f g : Unit → Except ε α} (h : c → d) (hf : ∀ u, Admits (f u) (g u)) :
    Admits (Checked.require c reason >>= f) (Checked.require d reason' >>= g) :=
  (Admits.require h).bind hf

theorem Admits.ite {c : Prop} [Decidable c] {x y x' y' : Except ε α} (h : Admits x x')
    (h' : Admits y y') : Admits (if c then x else y) (if c then x' else y') := by
  split
  · exact h
  · exact h'

theorem Admits.isOk {x y : Except ε α} (h : Admits x y) (hx : x.isOk = true) : y.isOk = true := by
  obtain ⟨a, ha⟩ := exists_of_isOk hx
  rw [h a ha]
  rfl

end KubuCore.Checked
