import KubuCore.Base.Checked

/-!
# Reading sequences from a stream

A reader takes an item off a stream or fails. `readMany` takes a number of items
one after the other; `readRounds` does the same in rounds, each of which makes
room for a bounded number of items before it reads them, so that a length that
lies does not reserve memory. The rounds change nothing about the result
(`readRounds_all`).
-/

namespace KubuCore.Stream

open Checked

variable {ε α β σ : Type}

def readMany (read : σ → Except ε (α × σ)) : Nat → σ → Except ε (List α × σ)
  | 0, stream => .ok ([], stream)
  | n + 1, stream => do
    let (a, stream) ← read stream
    let (items, stream) ← readMany read n stream
    pure (a :: items, stream)

/-- Rounds of at most `step` items until there are `size`; every round reads an item, so that
`size` rounds are enough. -/
def readRounds (read : σ → Except ε (α × σ)) (step size : Nat) :
    Nat → List α → σ → Except ε (List α × σ)
  | 0, items, stream => .ok (items, stream)
  | fuel + 1, items, stream =>
    if items.length < size then do
      let room := min (step + items.length) size
      let (chunk, stream) ← readMany read (room - items.length) stream
      readRounds read step size fuel (items ++ chunk) stream
    else .ok (items, stream)

section Rounds

variable {read : σ → Except ε (α × σ)} {stream rest : σ}

variable {n step size : Nat} {items result : List α}

theorem length_readMany (h : readMany read n stream = .ok (items, rest)) : items.length = n := by
  induction n generalizing stream items with
  | zero =>
    cases h
    rfl
  | succ n ih =>
    simp only [readMany, eq_ok, Prod.exists] at h
    obtain ⟨a, stream', -, tail, _, htail, rfl, rfl⟩ := h
    rw [List.length_cons, ih htail]

theorem readMany_add {m : Nat} :
    readMany read (m + n) stream = .ok (items, rest) ↔
      ∃ chunk stream', readMany read m stream = .ok (chunk, stream') ∧
        ∃ more, readMany read n stream' = .ok (more, rest) ∧ items = chunk ++ more := by
  induction m generalizing stream items with
  | zero =>
    rw [Nat.zero_add]
    constructor
    · exact fun h => ⟨[], stream, rfl, items, h, rfl⟩
    · rintro ⟨_, _, ⟨⟩, more, h, rfl⟩
      exact h
  | succ m ih =>
    rw [Nat.add_right_comm]
    simp only [readMany, eq_ok, Prod.exists, Prod.mk.injEq]
    constructor
    · rintro ⟨a, stream', hread, tail, _, htail, rfl, rfl⟩
      obtain ⟨chunk, last, hchunk, more, hmore, rfl⟩ := ih.mp htail
      exact ⟨a :: chunk, last, ⟨a, stream', hread, chunk, last, hchunk, rfl, rfl⟩, more, hmore, rfl⟩
    · rintro ⟨_, _, ⟨a, stream', hread, chunk, last, hchunk, rfl, rfl⟩, more, hmore, rfl⟩
      exact ⟨a, stream', hread, chunk ++ more, rest, ih.mpr ⟨chunk, last, hchunk, more, hmore, rfl⟩,
        rfl, rfl⟩

theorem readMany_zero :
    (∃ more, readMany read 0 stream = .ok (more, rest) ∧ result = items ++ more) ↔
      items = result ∧ stream = rest := by
  constructor
  · rintro ⟨more, hmore, rfl⟩
    cases hmore
    exact ⟨(List.append_nil _).symm, rfl⟩
  · rintro ⟨rfl, rfl⟩
    exact ⟨[], rfl, (List.append_nil _).symm⟩

theorem readRounds_iff {fuel : Nat} (hstep : 0 < step) (hle : items.length ≤ size)
    (hfuel : size ≤ fuel + items.length) :
    readRounds read step size fuel items stream = .ok (result, rest) ↔
      ∃ more, readMany read (size - items.length) stream = .ok (more, rest) ∧
        result = items ++ more := by
  induction fuel generalizing items stream with
  | zero =>
    have hsize : size - items.length = 0 := by omega
    rw [readRounds, hsize, readMany_zero, Except.ok.injEq, Prod.mk.injEq]
  | succ fuel ih =>
    rw [readRounds]
    by_cases hlt : items.length < size
    · -- one round reads `taken` of them and leaves the others to the next rounds
      obtain ⟨taken, htaken⟩ :
          ∃ taken, min (step + items.length) size - items.length = taken := ⟨_, rfl⟩
      have hsum : size - items.length = taken + (size - (items.length + taken)) := by omega
      rw [if_pos hlt]
      dsimp only
      rw [htaken, hsum]
      simp only [bind_eq_ok, Prod.exists, readMany_add]
      constructor
      · rintro ⟨chunk, stream', hchunk, hrest⟩
        have hlen := length_readMany hchunk
        obtain ⟨more, hmore, rfl⟩ := (ih (by rw [List.length_append]; omega)
          (by rw [List.length_append]; omega)).mp hrest
        rw [List.length_append, hlen] at hmore
        exact ⟨_, ⟨chunk, stream', hchunk, more, hmore, rfl⟩, List.append_assoc _ _ _⟩
      · rintro ⟨_, ⟨chunk, stream', hchunk, more, hmore, rfl⟩, rfl⟩
        have hlen := length_readMany hchunk
        refine ⟨chunk, stream', hchunk, (ih (by rw [List.length_append]; omega)
          (by rw [List.length_append]; omega)).mpr ⟨more, ?_, (List.append_assoc _ _ _).symm⟩⟩
        rw [List.length_append, hlen, hmore]
    · have hsize : size - items.length = 0 := by omega
      rw [if_neg hlt, hsize, readMany_zero, Except.ok.injEq, Prod.mk.injEq]

/-- Reading by rounds reads the items one after the other. -/
theorem readRounds_all (hstep : 0 < step) :
    readRounds read step size size [] stream = .ok (result, rest) ↔
      readMany read size stream = .ok (result, rest) := by
  have hnil : ([] : List α).length ≤ size := Nat.zero_le size
  have hfuel : size ≤ size + ([] : List α).length := le_rfl
  rw [readRounds_iff hstep hnil hfuel]
  constructor
  · rintro ⟨more, hmore, rfl⟩
    exact hmore
  · exact fun h => ⟨result, h, rfl⟩

end Rounds

section Written

variable {read : List β → Except ε (α × List β)} {write : α → List β}

/-- Items that read back one by one read back as a sequence. -/
theorem readMany_write {items : List α}
    (h : ∀ a ∈ items, ∀ rest, read (write a ++ rest) = .ok (a, rest)) (rest : List β) :
    readMany read items.length (items.flatMap write ++ rest) = .ok (items, rest) := by
  induction items with
  | nil => rfl
  | cons a items ih =>
    have htail := ih fun b hb => h b (List.mem_cons_of_mem a hb)
    rw [List.length_cons, readMany, List.flatMap_cons, List.append_assoc,
      h a List.mem_cons_self, ok_bind]
    dsimp only
    rw [htail]
    rfl

/-- A reader that accepts what is written, and nothing else, does so for sequences. -/
theorem readMany_iff (h : ∀ {stream a rest}, read stream = .ok (a, rest) ↔ stream = write a ++ rest)
    {n : Nat} {stream rest : List β} {items : List α} :
    readMany read n stream = .ok (items, rest) ↔
      items.length = n ∧ stream = items.flatMap write ++ rest := by
  constructor
  · intro hread
    refine ⟨length_readMany hread, ?_⟩
    induction n generalizing stream items with
    | zero =>
      cases hread
      rfl
    | succ n ih =>
      simp only [readMany, eq_ok, Prod.exists] at hread
      obtain ⟨a, stream', ha, tail, _, htail, rfl, rfl⟩ := hread
      rw [h.mp ha, ih htail, List.flatMap_cons, List.append_assoc]
  · rintro ⟨rfl, rfl⟩
    exact readMany_write (fun a _ rest => h.mpr rfl) rest

end Written

end KubuCore.Stream
