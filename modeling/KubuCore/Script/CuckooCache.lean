import Mathlib

/-!
# The cuckoo cache

`CuckooCache::cache` of cuckoocache.h: a table of `2 ^ d` slots, for the depth
limit `d`, in which an element may lie at eight locations. Erasing only flags a
slot for collection. An insertion takes a flagged slot, or else displaces an
element, which then looks for a slot of its own. A fresh slot holds the default
`0`.
-/

namespace KubuCore.CuckooCache

abbrev Slot (d : Nat) := Fin (2 ^ d)

structure Cache (E : Type) (d : Nat) where
  hashFunction : Fin 8 → E → UInt32
  table : Slot d → E
  collectionFlags : Slot d → Bool
  epochFlags : Slot d → Bool
  epochHeuristicCounter : Nat
  epochSize : Nat

/-- The variables of the loop of `insert`; `invalid()` is no last location. -/
structure Eviction (E : Type) (d : Nat) where
  cache : Cache E d
  e : E
  lastLoc : Option (Slot d)
  lastEpoch : Bool

variable {E : Type} {d : Nat}

namespace Cache

def computeHashes (c : Cache E d) (e : E) (select : Fin 8) : Slot d :=
  ⟨(c.hashFunction select e).toNat &&& (2 ^ d - 1),
    Nat.and_lt_two_pow _ (Nat.sub_lt (Nat.two_pow_pos _) Nat.one_pos)⟩

/-- The first location of `e` with a property, as the loops over `locs` find it. -/
def findLoc (c : Cache E d) (e : E) (p : Slot d → Bool) : Option (Slot d) :=
  (List.ofFn (c.computeHashes e)).find? p

def allowErase (c : Cache E d) (n : Slot d) : Cache E d :=
  { c with collectionFlags := Function.update c.collectionFlags n true }

def pleaseKeep (c : Cache E d) (n : Slot d) : Cache E d :=
  { c with collectionFlags := Function.update c.collectionFlags n false }

def epochUnusedCount (c : Cache E d) : Nat :=
  (List.finRange (2 ^ d)).countP fun i => c.epochFlags i && !c.collectionFlags i

def epochCheck (c : Cache E d) : Cache E d :=
  if c.epochHeuristicCounter ≠ 0 then
    { c with epochHeuristicCounter := c.epochHeuristicCounter - 1 }
  else if c.epochSize ≤ c.epochUnusedCount then
    { c with
      epochFlags := fun _ => false
      collectionFlags := fun i => c.collectionFlags i || !c.epochFlags i
      epochHeuristicCounter := c.epochSize }
  else
    { c with
      epochHeuristicCounter := max 1 (max (c.epochSize / 16) (c.epochSize - c.epochUnusedCount)) }

/-- `setup`; `log2` stands for the logarithm of a `float`, cut to an integer. -/
def setup [Zero E] (hashFunction : Fin 8 → E → UInt32) (log2 : Nat → Nat) (newSize : Nat) :
    Cache E (log2 (max 2 newSize)) :=
  let epochSize := max 1 (45 * 2 ^ log2 (max 2 newSize) % 2 ^ 32 / 100)
  ⟨hashFunction, fun _ => 0, fun _ => true, fun _ => false, epochSize, epochSize⟩

/-- The two writes of `insert` to a slot. -/
def put (c : Cache E d) (loc : Slot d) (e : E) (epoch : Bool) : Cache E d :=
  { c with
    table := Function.update c.table loc e
    epochFlags := Function.update c.epochFlags loc epoch }

end Cache

def Eviction.start (c : Cache E d) (e : E) : Eviction E d := ⟨c, e, none, true⟩

/-- The location after the last one looked at; the second one to begin with. -/
def Eviction.nextLoc (s : Eviction E d) : Slot d :=
  let locs := s.cache.computeHashes s.e
  locs (Fin.ofNat 8 (1 + (List.ofFn locs).findIdx fun loc => some loc == s.lastLoc))

def Eviction.swap (s : Eviction E d) : Eviction E d where
  cache := s.cache.put s.nextLoc s.e s.lastEpoch
  e := s.cache.table s.nextLoc
  lastLoc := s.nextLoc
  lastEpoch := s.cache.epochFlags s.nextLoc

def insertLoop : Nat → Eviction E d → Cache E d
  | 0, s => s.cache
  | depth + 1, s =>
    match s.cache.findLoc s.e s.cache.collectionFlags with
    | some loc => (s.cache.put loc s.e s.lastEpoch).pleaseKeep loc
    | none => insertLoop depth s.swap

namespace Cache

def insert [DecidableEq E] (c : Cache E d) (e : E) : Cache E d :=
  let c := c.epochCheck
  match c.findLoc e (c.table · == e) with
  | some loc => { c.pleaseKeep loc with epochFlags := Function.update c.epochFlags loc true }
  | none => insertLoop d (.start c e)

/-- `contains`: the answer, and the cache with the slot flagged if asked. -/
def contains [DecidableEq E] (c : Cache E d) (e : E) (erase : Bool) : Bool × Cache E d :=
  match c.findLoc e (c.table · == e) with
  | some loc => (true, if erase then c.allowErase loc else c)
  | none => (false, c)

/-! ## What a cache keeps -/

def Stored (c : Cache E d) (x : E) : Prop := ∃ loc, c.table loc = x

structure Sound [Zero E] (c : Cache E d) : Prop where
  placed : ∀ loc, c.table loc ≠ 0 → ∃ k, c.computeHashes (c.table loc) k = loc
  once : ∀ loc loc', c.table loc ≠ 0 → c.table loc' = c.table loc → loc' = loc
  kept : ∀ loc, c.collectionFlags loc = false → c.table loc ≠ 0

variable {c : Cache E d} {e x : E} {loc : Slot d} {p : Slot d → Bool}

theorem findLoc_some (h : c.findLoc e p = some loc) :
    p loc = true ∧ ∃ k, c.computeHashes e k = loc :=
  ⟨List.find?_some h, List.mem_ofFn.mp (List.mem_of_find?_eq_some h)⟩

theorem findLoc_none (h : c.findLoc e p = none) (k : Fin 8) : p (c.computeHashes e k) = false := by
  rw [findLoc, List.find?_eq_none] at h
  simpa using h _ (List.mem_ofFn.mpr ⟨k, rfl⟩)

section

variable [DecidableEq E] [Zero E]

/-- An element in no location of its own is nowhere. -/
theorem Sound.absent (h : c.Sound) (he : e ≠ 0) (hnone : c.findLoc e (c.table · == e) = none) :
    ¬ c.Stored e := by
  rintro ⟨loc, rfl⟩
  obtain ⟨k, hk⟩ := h.placed loc he
  have := findLoc_none hnone k
  simp [hk] at this

theorem contains_iff (h : c.Sound) (hx : x ≠ 0) (erase : Bool) :
    (c.contains x erase).1 = true ↔ c.Stored x := by
  unfold contains
  split
  · rename_i loc hloc
    exact iff_of_true rfl ⟨loc, by simpa using (findLoc_some hloc).1⟩
  · rename_i hnone
    exact iff_of_false (by simp) (h.absent hx hnone)

omit [Zero E] in
theorem contains_table (e : E) (erase : Bool) : (c.contains e erase).2.table = c.table := by
  unfold contains
  split
  · cases erase <;> rfl
  · rfl

theorem Sound.contains (h : c.Sound) (erase : Bool) : (c.contains e erase).2.Sound := by
  unfold Cache.contains
  split
  · rename_i loc _
    cases erase with
    | false => exact h
    | true =>
      refine ⟨h.placed, h.once, fun i hi => h.kept i ?_⟩
      by_cases hloc : i = loc
      · simp [allowErase, hloc] at hi
      · simpa [allowErase, hloc] using hi
  · exact h

end

theorem epochCheck_table (c : Cache E d) : c.epochCheck.table = c.table := by
  unfold epochCheck
  split_ifs <;> rfl

variable [Zero E]

theorem Sound.epochCheck (h : c.Sound) : c.epochCheck.Sound := by
  unfold Cache.epochCheck
  split_ifs
  · exact ⟨h.placed, h.once, h.kept⟩
  · exact ⟨h.placed, h.once, fun i hi => h.kept i (Bool.or_eq_false_iff.mp hi).1⟩
  · exact ⟨h.placed, h.once, h.kept⟩

theorem Sound.pleaseKeep (h : c.Sound) (hne : c.table loc ≠ 0) : (c.pleaseKeep loc).Sound := by
  refine ⟨h.placed, h.once, fun i hi => ?_⟩
  by_cases hloc : i = loc
  · rwa [hloc]
  · exact h.kept i (by simpa [Cache.pleaseKeep, hloc] using hi)

/-- A new element in a location of its own takes the place of what was there. -/
theorem Sound.put (h : c.Sound) (hx : x ≠ 0) (absent : ¬ c.Stored x)
    (own : ∃ k, c.computeHashes x k = loc) (epoch : Bool) :
    (c.put loc x epoch).Sound ∧
      ∀ y, y ≠ 0 → ((c.put loc x epoch).Stored y ↔ (c.Stored y ∨ y = x) ∧ y ≠ c.table loc) := by
  have absent : ∀ i, c.table i ≠ x := fun i hi => absent ⟨i, hi⟩
  have table : ∀ i, (c.put loc x epoch).table i = if i = loc then x else c.table i := fun i =>
    Function.update_apply _ _ _ i
  refine ⟨⟨fun i hi => ?_, fun i j hi hsame => ?_, fun i hi => ?_⟩, fun y hy => ?_⟩
  · rw [table] at hi ⊢
    split_ifs at hi ⊢ with hloc
    · exact hloc ▸ own
    · exact h.placed i hi
  · have := h.once i j
    grind
  · have := h.kept i hi
    grind
  · constructor
    · rintro ⟨i, rfl⟩
      have := h.once loc i
      grind [Stored]
    · rintro ⟨⟨i, rfl⟩ | rfl, hne⟩
      · exact ⟨i, by grind⟩
      · exact ⟨loc, by rw [table, if_pos rfl]⟩

end Cache

/-! ## Displacing -/

variable [Zero E]

/-- What the loop of an insertion of `e` into `c` keeps. -/
structure Displaces (c : Cache E d) (e : E) (s : Eviction E d) : Prop where
  sound : s.cache.Sound
  nonzero : s.e ≠ 0
  absent : ¬ s.cache.Stored s.e
  conserved : ∀ y, y ≠ 0 → (s.cache.Stored y ∨ y = s.e ↔ c.Stored y ∨ y = e)
  flags : s.cache.collectionFlags = c.collectionFlags
  flagged : ∀ i, c.collectionFlags i = true → s.cache.table i = c.table i

variable {c : Cache E d} {e x : E} {s : Eviction E d}

theorem Displaces.swap (h : Displaces c e s)
    (full : s.cache.findLoc s.e s.cache.collectionFlags = none) : Displaces c e s.swap := by
  have hflag : s.cache.collectionFlags s.nextLoc = false := Cache.findLoc_none full _
  have hold := h.sound.kept _ hflag
  obtain ⟨sound, stored⟩ := h.sound.put h.nonzero h.absent ⟨_, rfl⟩ s.lastEpoch
  refine ⟨sound, hold, fun hin => ((stored _ hold).mp hin).2 rfl, ?_, h.flags, ?_⟩
  · intro y hy
    rw [← h.conserved y hy]
    by_cases hout : y = s.cache.table s.nextLoc
    · exact iff_of_true (.inr hout) (.inl ⟨_, hout.symm⟩)
    · exact (or_iff_left hout).trans ((stored y hy).trans (and_iff_left hout))
  · intro i hi
    rw [← h.flagged i hi]
    apply Function.update_of_ne
    rintro rfl
    rw [h.flags, hi] at hflag
    exact absurd hflag (by decide)

/-- After an insertion of `e` into `c` one element may be lost: one of a flagged
slot, or the last one displaced. -/
structure Loses (c : Cache E d) (e : E) (result : Cache E d) (last : Eviction E d)
    (lost : E) : Prop where
  stored : ∀ y, y ≠ 0 → (result.Stored y ↔ (c.Stored y ∨ y = e) ∧ y ≠ lost)
  how : lost = 0 ∨ (∃ loc, c.collectionFlags loc = true ∧ c.table loc = lost) ∨
    result = last.cache ∧ lost = last.e

theorem Displaces.insertLoop (depth : Nat) (h : Displaces c e s) :
    (insertLoop depth s).Sound ∧
      ∃ lost, Loses c e (CuckooCache.insertLoop depth s) (Eviction.swap^[depth] s) lost := by
  induction depth generalizing s with
  | zero =>
    refine ⟨h.sound, s.e, fun y hy => ?_, .inr (.inr ⟨rfl, rfl⟩)⟩
    rw [← h.conserved y hy]
    constructor
    · intro hin
      exact ⟨.inl hin, fun heq => h.absent (heq ▸ hin)⟩
    · rintro ⟨hin | heq, hne⟩
      · exact hin
      · exact absurd heq hne
  | succ depth ih =>
    rw [CuckooCache.insertLoop]
    split
    · rename_i loc hfound
      obtain ⟨hflag, own⟩ := Cache.findLoc_some hfound
      obtain ⟨sound, stored⟩ := h.sound.put h.nonzero h.absent own s.lastEpoch
      have hplace : (s.cache.put loc s.e s.lastEpoch).table loc = s.e := Function.update_self ..
      rw [h.flags] at hflag
      refine ⟨sound.pleaseKeep (by rw [hplace]; exact h.nonzero), c.table loc, fun y hy => ?_,
        .inr (.inl ⟨loc, hflag, rfl⟩)⟩
      rw [← h.conserved y hy, ← h.flagged loc hflag]
      exact stored y hy
    · rename_i full
      exact ih (h.swap full)

theorem Cache.Sound.insert [DecidableEq E] (h : c.Sound) (he : e ≠ 0) :
    (c.insert e).Sound ∧ ∃ lost, Loses c.epochCheck e (c.insert e)
      (Eviction.swap^[d] (.start c.epochCheck e)) lost := by
  unfold Cache.insert
  dsimp only
  split
  · rename_i loc hloc
    have htable : c.epochCheck.table loc = e := by simpa using (findLoc_some hloc).1
    have hkeep := h.epochCheck.pleaseKeep (htable.trans_ne he)
    refine ⟨⟨hkeep.placed, hkeep.once, hkeep.kept⟩, 0, fun y hy => ?_, .inl rfl⟩
    rw [and_iff_left hy]
    exact (or_iff_left_of_imp fun heq => ⟨loc, htable.trans heq.symm⟩).symm
  · rename_i hnone
    have hstart : Displaces c.epochCheck e (.start c.epochCheck e) :=
      ⟨h.epochCheck, he, h.epochCheck.absent he hnone, fun _ _ => Iff.rfl, rfl, fun _ _ => rfl⟩
    exact hstart.insertLoop d

/-! ## Whole runs -/

section

variable [DecidableEq E] (hashFunction : Fin 8 → E → UInt32) (log2 : Nat → Nat) (newSize : Nat)

/-- The caches that calls with elements other than the default one lead to. -/
inductive Reachable : Cache E (log2 (max 2 newSize)) → Prop where
  | setup : Reachable (.setup hashFunction log2 newSize)
  | insert {c : Cache E _} {e : E} : Reachable c → e ≠ 0 → Reachable (c.insert e)
  | contains {c : Cache E _} {e : E} (erase : Bool) :
      Reachable c → e ≠ 0 → Reachable (c.contains e erase).2

omit [DecidableEq E] in
theorem sound_setup : (Cache.setup hashFunction log2 newSize).Sound :=
  ⟨fun _ hne => absurd rfl hne, fun _ _ hne => absurd rfl hne, fun _ hflag => nomatch hflag⟩

variable {hashFunction log2 newSize} {c : Cache E (log2 (max 2 newSize))}

theorem Reachable.sound (h : Reachable hashFunction log2 newSize c) : c.Sound := by
  induction h with
  | setup => exact sound_setup hashFunction log2 newSize
  | insert _ he ih => exact (ih.insert he).1
  | contains erase _ _ ih => exact ih.contains erase

/-- In every run each element lies once, in a location of its own, `contains`
finds what is stored, and an insertion loses at most one element. -/
theorem insert_loses_one (h : Reachable hashFunction log2 newSize c) :
    (∀ loc, c.table loc ≠ 0 → (∃ k, c.computeHashes (c.table loc) k = loc) ∧
        ∀ loc', c.table loc' = c.table loc → loc' = loc) ∧
      (∀ x erase, x ≠ 0 → ((c.contains x erase).1 = true ↔ c.Stored x)) ∧
      c.epochCheck.table = c.table ∧
      ∀ e, e ≠ 0 → ∃ lost, Loses c.epochCheck e (c.insert e)
        (Eviction.swap^[log2 (max 2 newSize)] (.start c.epochCheck e)) lost := by
  refine ⟨?_, ?_, c.epochCheck_table, ?_⟩
  · intro loc hne
    exact ⟨h.sound.placed loc hne, fun loc' => h.sound.once loc loc' hne⟩
  · intro x erase hx
    exact Cache.contains_iff h.sound hx erase
  · intro e he
    exact (h.sound.insert he).2

end

/-- A cache of two slots that has taken in an element, and takes in another. -/
theorem insert_loses_one_two :
    let c := (Cache.setup (fun k (e : Nat) => UInt32.ofNat (e + k)) Nat.log2 2).insert 3
    c.Stored 3 ∧ ∃ lost, Loses c.epochCheck 5 (c.insert 5)
      (Eviction.swap^[1] (.start c.epochCheck 5)) lost := by
  have reached : Reachable (fun k (e : Nat) => UInt32.ofNat (e + k)) Nat.log2 2 _ := .setup
  exact ⟨⟨1, by decide⟩,
    (insert_loses_one (reached.insert (show 3 ≠ 0 by decide))).2.2.2 5 (by decide)⟩

end KubuCore.CuckooCache
