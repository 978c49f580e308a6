import Mathlib

/-!
# Cyclic redundancy checks

A shift register of `w` bits with feedback polynomial `g`, fed one bit at a time
at its high end. Feeding is linear in exclusive or (`run_xor`). When the lowest
bit of `g` is set, two messages that leave the register at 0 and differ in a
window of at most `w` bits only are equal (`eq_of_burst`); a message followed by
the register it leaves, high bit first, brings the register to 0 (`run_self`).
-/

namespace KubuCore.Crc

variable {w : Nat} {g : BitVec w}

/-- Shift in one bit: it meets the highest bit, and `g` is fed back when they differ. -/
def step (g s : BitVec w) (b : Bool) : BitVec w :=
  if s.msb ^^ b then (s <<< 1) ^^^ g else s <<< 1

def run (g : BitVec w) (s : BitVec w) (bits : List Bool) : BitVec w := bits.foldl (step g) s

@[simp] theorem run_nil (s : BitVec w) : run g s [] = s := rfl

@[simp] theorem run_cons (s : BitVec w) (b : Bool) (bits : List Bool) :
    run g s (b :: bits) = run g (step g s b) bits := rfl

theorem run_append (s : BitVec w) (a b : List Bool) : run g s (a ++ b) = run g (run g s a) b :=
  List.foldl_append

/-! ## Linearity -/

theorem step_xor (s t : BitVec w) (b c : Bool) :
    step g (s ^^^ t) (b ^^ c) = step g s b ^^^ step g t c := by
  have hshift : (s ^^^ t) <<< 1 = s <<< 1 ^^^ t <<< 1 := BitVec.shiftLeft_xor_distrib s t 1
  have hbit : ((s ^^^ t).msb ^^ (b ^^ c)) = ((s.msb ^^ b) ^^ (t.msb ^^ c)) := by
    rw [BitVec.msb_xor]
    cases s.msb <;> cases t.msb <;> cases b <;> cases c <;> rfl
  rw [step, step, step, hbit, hshift]
  cases s.msb ^^ b <;> cases t.msb ^^ c <;> simp only [Bool.xor_true, Bool.xor_false, Bool.not_true,
    Bool.not_false, if_true, Bool.false_eq_true, if_false]
  · rw [BitVec.xor_assoc]
  · rw [BitVec.xor_assoc, BitVec.xor_assoc, BitVec.xor_comm (t <<< 1) g]
  · rw [BitVec.xor_assoc, ← BitVec.xor_assoc g, BitVec.xor_comm g (t <<< 1),
      BitVec.xor_assoc (t <<< 1),
      BitVec.xor_self, BitVec.xor_zero]

/-- The difference of two runs is the run of the difference. -/
theorem run_xor {a b : List Bool} (hlen : a.length = b.length) (s t : BitVec w) :
    run g (s ^^^ t) (List.zipWith xor a b) = run g s a ^^^ run g t b := by
  induction a generalizing b s t with
  | nil =>
    obtain rfl := List.eq_nil_of_length_eq_zero hlen.symm
    rfl
  | cons x a ih =>
    cases b with
    | nil => cases hlen
    | cons y b =>
      rw [List.zipWith_cons_cons, run_cons, run_cons, run_cons, ← ih (Nat.succ.inj hlen), step_xor]

theorem zipWith_xor_zeros (bits : List Bool) :
    List.zipWith xor (List.replicate bits.length false) bits = bits := by
  induction bits with
  | nil => rfl
  | cons b bits ih =>
    rw [List.length_cons, List.replicate_succ, List.zipWith_cons_cons, ih, Bool.false_xor]

/-- What the bits contribute, apart from what the register does by itself. -/
theorem run_eq_xor (s : BitVec w) (bits : List Bool) :
    run g s bits = run g s (List.replicate bits.length false) ^^^ run g 0#w bits := by
  rw [← run_xor List.length_replicate, zipWith_xor_zeros, BitVec.xor_zero]

/-- Without input the register is linear. -/
theorem run_zeros_xor (n : Nat) (s t : BitVec w) :
    run g (s ^^^ t) (List.replicate n false) =
      run g s (List.replicate n false) ^^^ run g t (List.replicate n false) := by
  have hzeros := zipWith_xor_zeros (List.replicate n false)
  rw [List.length_replicate] at hzeros
  rw [← run_xor rfl, hzeros]

theorem step_zero_false : step g 0#w false = 0#w := by
  simp [step]

theorem run_zeros (n : Nat) : run g 0#w (List.replicate n false) = 0#w := by
  induction n with
  | zero => rfl
  | succ n ih => rw [List.replicate_succ, run_cons, step_zero_false, ih]

/-! ## Bursts -/

section Burst

variable (odd : g.getLsbD 0 = true)
include odd

/-- A feedback shows in the lowest bit. -/
theorem step_low_bit (s : BitVec w) (b : Bool) : (step g s b).getLsbD 0 = (s.msb ^^ b) := by
  rw [step]
  split_ifs with hfeed
  · rw [BitVec.getLsbD_xor, odd, hfeed]
    simp
  · simpa using hfeed

variable {bits : List Bool} {s : BitVec w} {n : Nat}

/-- A register that `bits` bring to 0 has zeros in all the places they do not reach. -/
theorem low_bits_of_run_eq_zero (h : run g s bits = 0#w) {i : Nat} (hi : i + bits.length < w) :
    s.getLsbD i = false := by
  induction bits generalizing s i with
  | nil =>
    rw [run_nil] at h
    rw [h, BitVec.getLsbD_zero]
  | cons b bits ih =>
    rw [List.length_cons] at hi
    have hlow := ih h (i := 0) (by omega)
    have hnext := ih h (i := i + 1) (by omega)
    rw [step_low_bit odd] at hlow
    rw [step, hlow, if_neg (by decide), BitVec.getLsbD_shiftLeft] at hnext
    simpa [show i + 1 < w by omega] using hnext

theorem eq_zero_of_run_zeros (h : run g s (List.replicate n false) = 0#w) : s = 0#w := by
  induction n generalizing s with
  | zero => exact h
  | succ n ih =>
    have hstep := ih h
    have hmsb : s.msb = false := by
      have hlow := step_low_bit odd s false
      rw [hstep, BitVec.getLsbD_zero, Bool.xor_false] at hlow
      exact hlow.symm
    rw [step, hmsb, if_neg (by decide)] at hstep
    apply BitVec.eq_of_getLsbD_eq
    intro i hi
    rw [BitVec.getLsbD_zero]
    by_cases hlast : i + 1 < w
    · have hbit := congrArg (fun x : BitVec w => x.getLsbD (i + 1)) hstep
      simp only [BitVec.getLsbD_shiftLeft] at hbit
      simpa [hlast] using hbit
    · have htop : i = w - 1 := by omega
      rw [BitVec.msb_eq_getLsbD_last] at hmsb
      rw [htop, hmsb]

/-- At most `w` bits that keep the register at 0 are all zero. -/
theorem zeros_of_short_run (hlen : bits.length ≤ w) (h : run g 0#w bits = 0#w) :
    ∀ b ∈ bits, b = false := by
  induction bits with
  | nil => simp
  | cons b bits ih =>
    rw [List.length_cons] at hlen
    rw [run_cons] at h
    cases b with
    | false =>
      rw [step_zero_false] at h
      exact List.forall_mem_cons.mpr ⟨rfl, ih (by omega) h⟩
    | true =>
      -- the first one sets the lowest bit, and the bits that follow do not reach it
      have hlow := low_bits_of_run_eq_zero odd h (i := 0) (by omega)
      rw [step_low_bit odd] at hlow
      simp at hlow

omit odd in
/-- The difference of two messages is set where they differ. -/
theorem zipWith_xor_set_iff {a b : List Bool} (hlen : a.length = b.length) (j : Nat) :
    (List.zipWith xor a b)[j]? = some true ↔ a[j]? ≠ b[j]? := by
  rw [List.getElem?_zipWith]
  by_cases hj : j < a.length
  · rw [List.getElem?_eq_getElem hj, List.getElem?_eq_getElem (hlen ▸ hj)]
    simp
  · rw [List.getElem?_eq_none (by omega), List.getElem?_eq_none (by omega)]
    simp

omit odd in
/-- A difference that is zero outside a window, cut at the window. -/
theorem split_at_window {d : List Bool} {start : Nat}
    (hwindow : ∀ j : Nat, d[j]? = some true → start ≤ j ∧ j < start + w) :
    d = List.replicate (d.take start).length false ++ ((d.drop start).take w ++
      List.replicate ((d.drop start).drop w).length false) := by
  have hzero : ∀ (j : Nat) (x : Bool), d[j]? = some x → ¬ (start ≤ j ∧ j < start + w) →
      x = false := by
    intro j x hx hout
    cases x with
    | false => rfl
    | true => exact absurd (hwindow j hx) hout
  have hbefore : d.take start = List.replicate (d.take start).length false := by
    refine List.eq_replicate_iff.mpr ⟨rfl, fun x hx => ?_⟩
    obtain ⟨j, hj, hjx⟩ := List.mem_take_iff_getElem.mp hx
    exact hzero j x (List.getElem?_eq_some_iff.mpr ⟨by omega, hjx⟩) (by omega)
  have hafter : (d.drop start).drop w = List.replicate ((d.drop start).drop w).length false := by
    refine List.eq_replicate_iff.mpr ⟨rfl, fun x hx => ?_⟩
    obtain ⟨j, hj⟩ := List.mem_iff_getElem?.mp hx
    rw [List.getElem?_drop, List.getElem?_drop] at hj
    exact hzero _ x hj (by omega)
  rw [← hbefore, ← hafter, List.take_append_drop, List.take_append_drop]

/-- Messages of one length that differ in a window of `w` bits and both bring the register to 0
are equal. -/
theorem eq_of_burst {a b : List Bool} (hlen : a.length = b.length) (ha : run g s a = 0#w)
    (hb : run g s b = 0#w) {start : Nat}
    (hwindow : ∀ j : Nat, a[j]? ≠ b[j]? → start ≤ j ∧ j < start + w) : a = b := by
  have hset := zipWith_xor_set_iff hlen
  have hdiff : run g 0#w (List.zipWith xor a b) = 0#w := by
    have hxor : run g (s ^^^ s) (List.zipWith xor a b) = _ := run_xor hlen s s
    rw [ha, hb, BitVec.xor_self, BitVec.xor_self] at hxor
    exact hxor
  generalize List.zipWith xor a b = d at hset hdiff
  have hmiddle : ∀ x ∈ (d.drop start).take w, x = false := by
    rw [split_at_window fun j hj => hwindow j ((hset j).mp hj)] at hdiff
    -- A burst of at most `w` bits that leaves the register at 0 is no burst.
    rw [run_append, run_zeros, run_append] at hdiff
    exact zeros_of_short_run odd (List.length_take_le _ _) (eq_zero_of_run_zeros odd hdiff)
  refine List.ext_getElem? fun j => ?_
  by_contra hne
  obtain ⟨hlow, hhigh⟩ := hwindow j hne
  have hmem : ((d.drop start).take w)[j - start]? = some true := by
    rw [List.getElem?_take_of_lt (by omega), List.getElem?_drop, Nat.add_sub_cancel' hlow,
      (hset j).mpr hne]
  exact absurd (hmiddle true (List.mem_of_getElem? hmem)) (by decide)

end Burst

/-! ## Check values -/

/-- The bits of a register, highest first. -/
def bitsOf (s : BitVec w) : List Bool := (List.range w).map s.getMsbD

/-- A register that is fed its own bits is shifted out. -/
theorem run_self (s : BitVec w) : run g s (bitsOf s) = 0#w := by
  have hfrom : ∀ n k, n + k = w → run g (s <<< k) ((List.range' k n).map s.getMsbD) = 0#w := by
    intro n
    induction n with
    | zero =>
      intro k hk
      exact BitVec.shiftLeft_eq_zero (by omega)
    | succ n ih =>
      intro k hk
      have hstep : step g (s <<< k) (s.getMsbD k) = s <<< (k + 1) := by
        rw [step, BitVec.msb_shiftLeft, Bool.xor_self, if_neg (by decide), BitVec.shiftLeft_add]
      rw [List.range'_succ, List.map_cons, run_cons, hstep]
      exact ih (k + 1) (by omega)
  have hall := hfrom w 0 rfl
  rwa [BitVec.shiftLeft_zero, ← List.range_eq_range'] at hall

end KubuCore.Crc
