import Mathlib.Data.List.Induction
import Mathlib.Data.List.Sort
import Mathlib.Data.List.Perm.Basic

/-!
# Maps that keep a limited number of entries

`limitedmap`: a map, and a multimap from its values back into it. A full map drops its entry of least
value for a new one, whatever the value of that.
-/

namespace KubuCore.Net

/-- The order of `map` means nothing, `rmap` is ordered by value. An iterator into `map` is its
key. -/
structure LimitedMap (K V : Type) where
  map : List (K × V)
  rmap : List (V × K)
  nMaxSize : Nat
  deriving DecidableEq

namespace LimitedMap

variable {K V : Type} [LinearOrder V] {m : LimitedMap K V} {k : K} {v : V}

/-- Both containers get an entry, `rmap` behind those of the same value. -/
def add (k : K) (v : V) (m : LimitedMap K V) : LimitedMap K V :=
  { m with map := (k, v) :: m.map, rmap := m.rmap.orderedInsert (·.1 < ·.1) (v, k) }

structure Mirror (m : LimitedMap K V) : Prop where
  same : m.map.Perm (m.rmap.map Prod.swap)
  sorted : m.rmap.Pairwise (·.1 ≤ ·.1)
  unique : (m.map.map Prod.fst).Nodup

theorem Mirror.mem_iff (h : m.Mirror) : (v, k) ∈ m.rmap ↔ (k, v) ∈ m.map := by
  simp [h.same.mem_iff]

theorem sorted_orderedInsert {rmap : List (V × K)} (sorted : rmap.Pairwise (·.1 ≤ ·.1)) :
    (rmap.orderedInsert (·.1 < ·.1) (v, k)).Pairwise (·.1 ≤ ·.1) := by
  induction rmap with
  | nil => simp
  | cons e rmap ih =>
    obtain ⟨first, rest⟩ := List.pairwise_cons.1 sorted
    rw [List.orderedInsert]
    split
    next lt =>
      refine .cons (fun e' he => ?_) sorted
      obtain rfl | he := List.mem_cons.1 he
      · exact lt.le
      · exact lt.le.trans (first e' he)
    next ge =>
      refine .cons (fun e' he => ?_) (ih rest)
      obtain rfl | he := (List.mem_orderedInsert ..).1 he
      · exact not_lt.1 ge
      · exact first e' he

theorem Mirror.add (h : m.Mirror) (fresh : k ∉ m.map.map Prod.fst) : (m.add k v).Mirror where
  same := (h.same.cons _).trans ((List.perm_orderedInsert _ (v, k) m.rmap).map Prod.swap).symm
  sorted := sorted_orderedInsert h.sorted
  unique := List.nodup_cons.2 ⟨fresh, h.unique⟩

variable [DecidableEq K]

def remove (m : LimitedMap K V) (v : V) (k : K) : LimitedMap K V :=
  { m with map := m.map.filter (·.1 ≠ k), rmap := m.rmap.erase (v, k) }

/-- Removes the entry at `rmap.begin()`. Here and below `none` is a failed assertion. -/
def dropFirst (m : LimitedMap K V) : Option (LimitedMap K V) :=
  m.rmap.head?.map fun (v, k) => m.remove v k

/-- The new entry is not in `rmap` yet when one is dropped. -/
def insert (m : LimitedMap K V) (k : K) (v : V) : Option (LimitedMap K V) :=
  if k ∈ m.map.map Prod.fst then some m
  else (if m.map.length + 1 > m.nMaxSize then m.dropFirst else some m).map (add k v)

/-- `erase` and `update` look for the entry of the key in `rmap`, and assert that it is there. -/
def atTarget (m : LimitedMap K V) (k : K) (f : LimitedMap K V → LimitedMap K V) :
    Option (LimitedMap K V) :=
  match m.map.lookup k with
  | none => some m
  | some v => if (v, k) ∈ m.rmap then some (f (m.remove v k)) else none

def erase (m : LimitedMap K V) (k : K) : Option (LimitedMap K V) := m.atTarget k id

/-- `update` at the iterator that `find` gives for the key. -/
def update (m : LimitedMap K V) (k : K) (v : V) : Option (LimitedMap K V) := m.atTarget k (add k v)

def shrink (s : Nat) : Nat → LimitedMap K V → Option (LimitedMap K V)
  | 0, m => if m.map.length > s then none else some m
  | fuel + 1, m => if m.map.length > s then m.dropFirst.bind (shrink s fuel) else some m

def maxSize (m : LimitedMap K V) (s : Nat) : Option (LimitedMap K V) :=
  if s = 0 then none else (shrink s m.map.length m).map ({ · with nMaxSize := s })

inductive Reachable : LimitedMap K V → Prop
  | empty (n : Nat) (pos : 0 < n) : Reachable ⟨[], [], n⟩
  | insert {m m' : LimitedMap K V} {k : K} {v : V} :
      Reachable m → m.insert k v = some m' → Reachable m'
  | erase {m m' : LimitedMap K V} {k : K} : Reachable m → m.erase k = some m' → Reachable m'
  | update {m m' : LimitedMap K V} {k : K} {v : V} :
      Reachable m → m.update k v = some m' → Reachable m'
  | maxSize {m m' : LimitedMap K V} {s : Nat} :
      Reachable m → m.maxSize s = some m' → Reachable m'

structure Valid (m : LimitedMap K V) : Prop where
  mirror : m.Mirror
  size : m.map.length ≤ m.nMaxSize
  pos : 0 < m.nMaxSize

/-- What is gone from the map is of no higher value than what is left. -/
def Keeps (m m' : LimitedMap K V) : Prop :=
  ∀ gone ∈ m.map, gone ∉ m'.map → ∀ left ∈ m'.map, gone.2 ≤ left.2

theorem Mirror.remove (h : m.Mirror) (mem : (v, k) ∈ m.rmap) :
    (m.remove v k).Mirror ∧ (m.remove v k).map.length + 1 = m.map.length := by
  have same := h.same.trans ((List.perm_cons_erase mem).map Prod.swap)
  have unique := (same.map Prod.fst).nodup_iff.1 h.unique
  rw [List.map_cons, List.map_cons, List.nodup_cons] at unique
  have kept : (m.remove v k).map.Perm ((m.rmap.erase (v, k)).map Prod.swap) := by
    refine (same.filter _).trans (.of_eq ?_)
    rw [List.map_cons, List.filter_cons_of_neg (by simp), List.filter_eq_self]
    intro e he
    exact decide_eq_true fun same => unique.1 (List.mem_map.2 ⟨e, he, same⟩)
  refine ⟨⟨kept, h.sorted.sublist List.erase_sublist,
    h.unique.sublist (List.filter_sublist.map _)⟩, ?_⟩
  rw [kept.length_eq, same.length_eq, List.map_cons, List.length_cons]

/-- The first entry of `rmap` is one of least value, and the only one gone without it. -/
theorem dropFirst_spec (h : m.Mirror) (nonempty : 0 < m.map.length) :
    ∃ v k, (v, k) ∈ m.rmap ∧ m.dropFirst = some (m.remove v k) ∧ (∀ e ∈ m.map, v ≤ e.2) ∧
      ∀ gone ∈ m.map, gone ∉ (m.remove v k).map → gone = (k, v) := by
  cases entries : m.rmap with
  | nil =>
    exact absurd (h.same.length_eq.trans (by rw [entries]; rfl)) nonempty.ne'
  | cons entry rest =>
    obtain ⟨v, k⟩ := entry
    have mem : (v, k) ∈ m.rmap := entries ▸ List.mem_cons_self
    refine ⟨v, k, List.mem_cons_self, by simp [dropFirst, entries], fun e he => ?_, ?_⟩
    · have he := h.mem_iff.2 he
      have sorted := h.sorted
      rw [entries] at he sorted
      obtain same | he := List.mem_cons.1 he
      · exact (congrArg Prod.fst same).ge
      · exact (List.pairwise_cons.1 sorted).1 _ he
    · intro gone hgone out
      refine List.inj_on_of_nodup_map h.unique hgone (h.mem_iff.1 mem) ?_
      by_contra ne
      exact out (List.mem_filter.2 ⟨hgone, decide_eq_true ne⟩)

theorem shrink_spec (s fuel : Nat) (h : m.Mirror) (enough : m.map.length ≤ s + fuel) :
    ∃ m', shrink s fuel m = some m' ∧ m'.Mirror ∧ m'.map.length ≤ s ∧
      m'.map ⊆ m.map ∧ Keeps m m' := by
  induction fuel generalizing m with
  | zero => exact ⟨m, if_neg (by omega), h, enough, fun _ he => he, fun _ he out => absurd he out⟩
  | succ fuel ih =>
    rw [shrink]
    split
    next large =>
      obtain ⟨v, k, mem, drop, least, first⟩ := dropFirst_spec h (by omega)
      obtain ⟨mirror, length⟩ := h.remove mem
      obtain ⟨m', run, mirror', size, sub, keeps⟩ := ih mirror (by omega)
      have sub' : m'.map ⊆ m.map := fun _ he => List.mem_of_mem_filter (sub he)
      refine ⟨m', by rw [drop]; exact run, mirror', size, sub', fun gone hgone out left hleft => ?_⟩
      by_cases later : gone ∈ (m.remove v k).map
      · exact keeps gone later out left hleft
      · rw [first gone hgone later]
        exact least left (sub' hleft)
    next small => exact ⟨m, rfl, h, not_lt.1 small, fun _ he => he, fun _ he out => absurd he out⟩

/-- The new entry of a full map is of a lower value than all it has. -/
def Underbids (m : LimitedMap K V) (k : K) (v : V) : Prop :=
  k ∉ m.map.map Prod.fst ∧ m.map.length = m.nMaxSize ∧ ∀ e ∈ m.map, v < e.2

theorem Valid.insert_fresh (valid : m.Valid) (fresh : k ∉ m.map.map Prod.fst) (v : V) :
    ∃ m', m.insert k v = some m' ∧ m'.Valid ∧ m'.nMaxSize = m.nMaxSize ∧
      m'.map.length = min m.nMaxSize (m.map.length + 1) ∧ (k, v) ∈ m'.map ∧
      m'.map ⊆ (k, v) :: m.map ∧ (Keeps m m' ↔ ¬ m.Underbids k v) := by
  obtain ⟨mirror, size, pos⟩ := valid
  rw [LimitedMap.insert, if_neg fresh]
  by_cases full : m.map.length = m.nMaxSize
  · obtain ⟨v', k', mem, drop, least, first⟩ := dropFirst_spec mirror (by omega)
    obtain ⟨mirror', length⟩ := mirror.remove mem
    have mem := mirror.mem_iff.1 mem
    have fresh' : k ∉ (m.remove v' k').map.map Prod.fst :=
      fun h => fresh ((List.filter_sublist.map _).subset h)
    rw [if_pos (by omega), drop]
    refine ⟨_, rfl, ⟨mirror'.add fresh', length.trans_le size, pos⟩, rfl, ?_, List.mem_cons_self,
      List.cons_subset_cons _ (List.filter_subset_self _), ?_, ?_⟩
    · rw [full, Nat.min_eq_left (Nat.le_succ _), ← full]
      exact length
    · rintro keeps ⟨-, -, low⟩
      have out : (k', v') ∉ ((m.remove v' k').add k v).map := by
        rintro (_ | ⟨_, h⟩)
        · exact fresh (List.mem_map_of_mem mem)
        · exact absurd (List.mem_filter.1 h).2 (by simp)
      exact (keeps _ mem out (k, v) List.mem_cons_self).not_gt (low _ mem)
    · intro high gone hgone out left hleft
      rw [first gone hgone fun h => out (List.mem_cons_of_mem _ h)]
      obtain rfl | hleft := List.mem_cons.1 hleft
      · by_contra low
        exact high ⟨fresh, full, fun e he => (not_le.1 low).trans_le (least e he)⟩
      · exact least left (List.mem_of_mem_filter hleft)
  · rw [if_neg (by omega)]
    refine ⟨_, rfl, ⟨mirror.add fresh, lt_of_le_of_ne size full, pos⟩, rfl, ?_,
      List.mem_cons_self, List.Subset.refl _,
      iff_of_true (fun _ he out => absurd (List.mem_cons_of_mem _ he) out) (full ·.2.1)⟩
    rw [Nat.min_eq_right (by omega)]
    rfl

theorem Valid.insert (valid : m.Valid) (k : K) (v : V) :
    ∃ m', m.insert k v = some m' ∧ m'.Valid ∧ m'.nMaxSize = m.nMaxSize ∧
      (Keeps m m' ↔ ¬ m.Underbids k v) := by
  by_cases known : k ∈ m.map.map Prod.fst
  · exact ⟨m, if_pos known, valid, rfl,
      iff_of_true (fun _ he out => absurd he out) (absurd known ·.1)⟩
  · obtain ⟨m', run, valid', same, -, -, -, keeps⟩ := valid.insert_fresh known v
    exact ⟨m', run, valid', same, keeps⟩

theorem Valid.atTarget (valid : m.Valid) (k : K) {f : LimitedMap K V → LimitedMap K V}
    (kept : ∀ {v}, (m.remove v k).Mirror → (m.remove v k).map.length + 1 ≤ m.nMaxSize →
      (f (m.remove v k)).Valid) :
    ∃ m', m.atTarget k f = some m' ∧ m'.Valid := by
  unfold LimitedMap.atTarget
  split
  · exact ⟨m, rfl, valid⟩
  next v found =>
    obtain ⟨before, after, entries, -⟩ := List.lookup_eq_some_iff.1 found
    have mem : (v, k) ∈ m.rmap :=
      valid.mirror.mem_iff.2 (entries ▸ List.mem_append_right _ List.mem_cons_self)
    obtain ⟨mirror, length⟩ := valid.mirror.remove mem
    exact ⟨_, if_pos mem, kept mirror (length.trans_le valid.size)⟩

theorem Valid.erase (valid : m.Valid) (k : K) : ∃ m', m.erase k = some m' ∧ m'.Valid :=
  valid.atTarget k fun mirror size => ⟨mirror, Nat.le_of_succ_le size, valid.pos⟩

theorem Valid.update (valid : m.Valid) (k : K) (v : V) :
    ∃ m', m.update k v = some m' ∧ m'.Valid :=
  valid.atTarget k fun mirror size =>
    ⟨mirror.add (by simp [LimitedMap.remove]), size, valid.pos⟩

theorem Valid.maxSize (valid : m.Valid) {s : Nat} (pos : s ≠ 0) :
    ∃ m', m.maxSize s = some m' ∧ m'.Valid ∧ Keeps m m' := by
  obtain ⟨m', run, mirror, size, -, keeps⟩ :=
    shrink_spec s m.map.length valid.mirror (Nat.le_add_left _ _)
  refine ⟨{ m' with nMaxSize := s }, ?_, ⟨⟨mirror.1, mirror.2, mirror.3⟩, size,
    Nat.pos_of_ne_zero pos⟩, keeps⟩
  rw [LimitedMap.maxSize, if_neg pos, run, Option.map_some]

theorem Reachable.valid (h : Reachable m) : m.Valid := by
  induction h with
  | empty n pos => exact ⟨⟨.nil, .nil, .nil⟩, n.zero_le, pos⟩
  | @insert m _ k v _ done ih =>
    obtain ⟨_, run, valid, -⟩ := ih.insert k v
    exact Option.some.inj (run.symm.trans done) ▸ valid
  | @erase m _ k _ done ih =>
    obtain ⟨_, run, valid⟩ := ih.erase k
    exact Option.some.inj (run.symm.trans done) ▸ valid
  | @update m _ k v _ done ih =>
    obtain ⟨_, run, valid⟩ := ih.update k v
    exact Option.some.inj (run.symm.trans done) ▸ valid
  | @maxSize m _ s _ done ih =>
    obtain ⟨_, run, valid, -⟩ := ih.maxSize (s := s) (by rintro rfl; cases done)
    exact Option.some.inj (run.symm.trans done) ▸ valid

/-! ## Insertions into an empty map -/

def insertAll (n : Nat) (entries : List (K × V)) : Option (LimitedMap K V) :=
  entries.foldlM (fun m e => m.insert e.1 e.2) ⟨[], [], n⟩

theorem insertAll_append (n : Nat) (before : List (K × V)) (e : K × V) :
    insertAll n (before ++ [e]) = (insertAll n before).bind (·.insert e.1 e.2) := by
  simp [insertAll]

/-- The map has as many of the entries as it may, and none left out is of higher value. -/
structure Highest (n : Nat) (entries : List (K × V)) (m : LimitedMap K V) : Prop where
  size : m.map.length = min n entries.length
  sub : m.map ⊆ entries
  high : ∀ out ∈ entries, out ∉ m.map → ∀ left ∈ m.map, out.2 ≤ left.2

variable {n : Nat} {before entries : List (K × V)} {e : K × V}

/-- A map with the highest entries is underbid by a value below `n` of those inserted before. -/
theorem Highest.underbids_iff (h : Highest n before m) (nodup : m.map.Nodup)
    (limit : m.nMaxSize = n) (distinct : (before.map Prod.fst).Nodup)
    (fresh : k ∉ before.map Prod.fst) :
    m.Underbids k v ↔ n ≤ before.countP (v < ·.2) := by
  have sub := List.subperm_of_subset nodup h.sub
  constructor
  · rintro ⟨-, full, low⟩
    have all : m.map.countP (v < ·.2) = m.map.length :=
      List.countP_eq_length.2 fun e he => decide_eq_true (low e he)
    have := sub.countP_le (v < ·.2)
    omega
  · intro count
    have full : m.map.length = n := by
      have := List.countP_le_length (p := (v < ·.2)) (l := before)
      have := h.size
      omega
    refine ⟨fun known => fresh (List.map_subset _ h.sub known), full.trans limit.symm, ?_⟩
    intro e he
    by_contra high
    -- those of higher value are in the map, and they are not all of it
    have inside : before.filter (v < ·.2) ⊆ m.map.erase e := by
      intro e' he'
      obtain ⟨he', above⟩ := List.mem_filter.1 he'
      have above : v < e'.2 := of_decide_eq_true above
      have ne : e' ≠ e := by
        rintro rfl
        exact high above
      by_contra out
      have out : e' ∉ m.map := fun h => out ((List.mem_erase_of_ne ne).2 h)
      exact high (above.trans_le (h.high e' he' out e he))
    have less := (List.subperm_of_subset ((distinct.of_map _).filter _) inside).length_le
    rw [List.length_erase_of_mem he, ← List.countP_eq_length_filter] at less
    have := List.length_pos_of_mem he
    omega

theorem Highest.insert (h : Highest n before m) (valid : m.Valid) (limit : m.nMaxSize = n)
    (distinct : (before.map Prod.fst).Nodup) (fresh : e.1 ∉ before.map Prod.fst) :
    ∃ m', m.insert e.1 e.2 = some m' ∧ m'.Valid ∧ m'.nMaxSize = n ∧
      (Highest n (before ++ [e]) m' ↔ before.countP (e.2 < ·.2) < n) := by
  have nodup := valid.mirror.unique.of_map
  have fresh' : e.1 ∉ m.map.map Prod.fst := fun known => fresh (List.map_subset _ h.sub known)
  obtain ⟨m', run, valid', same, size, mem, sub, keeps⟩ := valid.insert_fresh fresh' e.2
  refine ⟨m', run, valid', same.trans limit, ?_⟩
  rw [← not_le, ← h.underbids_iff nodup limit distinct fresh, ← keeps]
  constructor
  · intro high gone hgone
    exact high.high gone (List.mem_append_left _ (h.sub hgone))
  · intro keeps
    refine ⟨?_, ?_, ?_⟩
    · have := h.size
      rw [List.length_append, List.length_singleton]
      omega
    · intro e' he'
      obtain rfl | he' := List.mem_cons.1 (sub he')
      · exact List.mem_append_right _ List.mem_cons_self
      · exact List.mem_append_left _ (h.sub he')
    · intro out hout outside left hleft
      by_cases there : out ∈ m.map
      · exact keeps out there outside left hleft
      obtain hout | hout := List.mem_append.1 hout
      · obtain rfl | hleft := List.mem_cons.1 (sub hleft)
        · -- the map was full, so an entry no lower than `out` is gone for the new one
          obtain ⟨gone, hgone, gone'⟩ : ∃ gone ∈ m.map, gone ∉ m'.map := by
            by_contra! all
            have more : e :: m.map ⊆ m'.map := List.cons_subset.2 ⟨mem, all⟩
            have new : e ∉ m.map := fun he => fresh' (List.mem_map_of_mem he)
            have long := (List.subperm_of_subset (List.nodup_cons.2 ⟨new, nodup⟩) more).length_le
            rw [List.length_cons] at long
            have short : m.map.length < before.length := by
              by_contra long
              have perm := (List.subperm_of_subset nodup h.sub).perm_of_length_le (not_lt.1 long)
              exact there (perm.mem_iff.2 hout)
            have := h.size
            omega
          exact (h.high out hout there gone hgone).trans (keeps gone hgone gone' _ mem)
        · exact h.high out hout there left hleft
      · rw [List.mem_singleton.1 hout] at outside
        exact absurd mem outside

theorem insertAll_valid (pos : 0 < n) (entries : List (K × V)) :
    ∃ m, insertAll n entries = some m ∧ m.Valid ∧ m.nMaxSize = n := by
  induction entries using List.reverseRecOn with
  | nil => exact ⟨_, rfl, (Reachable.empty n pos).valid, rfl⟩
  | append_singleton before e ih =>
    obtain ⟨m, run, valid, limit⟩ := ih
    obtain ⟨m', run', valid', same, -⟩ := valid.insert e.1 e.2
    exact ⟨m', by rw [insertAll_append, run]; exact run', valid', same.trans limit⟩

/-- The last of the insertions leaves the highest entries just when fewer than `n` entries inserted
before it are of higher value. -/
theorem insertAll_highest_iff (pos : 0 < n) (distinct : ((before ++ [e]).map Prod.fst).Nodup)
    (h : ∃ m, insertAll n before = some m ∧ Highest n before m) :
    (∃ m, insertAll n (before ++ [e]) = some m ∧ Highest n (before ++ [e]) m) ↔
      before.countP (e.2 < ·.2) < n := by
  rw [List.map_append, List.nodup_append] at distinct
  have fresh : e.1 ∉ before.map Prod.fst :=
    fun known => distinct.2.2 _ known _ List.mem_cons_self rfl
  obtain ⟨m, run, high⟩ := h
  obtain ⟨_, run', valid, limit⟩ := insertAll_valid pos before
  obtain rfl := Option.some.inj (run.symm.trans run')
  obtain ⟨m', insert, -, -, iff⟩ := high.insert valid limit distinct.1 fresh
  have next : insertAll n (before ++ [e]) = some m' := by
    rw [insertAll_append, run]
    exact insert
  simp [next, iff]

theorem highest_iff (pos : 0 < n) (distinct : (entries.map Prod.fst).Nodup) :
    (∀ first, first <+: entries → ∃ m, insertAll n first = some m ∧ Highest n first m) ↔
      ∀ before e, before ++ [e] <+: entries → before.countP (e.2 < ·.2) < n := by
  have distinct : ∀ first, first <+: entries → (first.map Prod.fst).Nodup :=
    fun first hfirst => distinct.sublist (hfirst.sublist.map _)
  constructor
  · intro high before e hfirst
    exact (insertAll_highest_iff pos (distinct _ hfirst)
      (high before ((List.prefix_append ..).trans hfirst))).1 (high _ hfirst)
  · intro count first hfirst
    induction first using List.reverseRecOn with
    | nil => exact ⟨_, rfl, by simp, List.Subset.refl _, by simp⟩
    | append_singleton before e ih =>
      exact (insertAll_highest_iff pos (distinct _ hfirst)
        (ih ((List.prefix_append ..).trans hfirst))).2 (count before e hfirst)

/-- On a reachable map no assertion fails and `map` and `rmap` are in step. What a call drops is of no
higher value than what it leaves, except that an insertion may underbid a full map. So the insertions
of entries with distinct keys into an empty map leave those of highest value all the way just when
each of them is preceded by fewer than `n` of higher value. -/
theorem keeps_iff (h : Reachable m) :
    m.Valid ∧ (∀ k v, ∃ m', m.insert k v = some m' ∧ (Keeps m m' ↔ ¬ m.Underbids k v)) ∧
      (∀ k, ∃ m', m.erase k = some m') ∧ (∀ k v, ∃ m', m.update k v = some m') ∧
      (∀ s ≠ 0, ∃ m', m.maxSize s = some m' ∧ Keeps m m') ∧
      ∀ n entries, 0 < n → (entries.map Prod.fst).Nodup →
        ((∀ first, first <+: entries →
            ∃ m' : LimitedMap K V, insertAll n first = some m' ∧ Highest n first m') ↔
          ∀ before e, before ++ [e] <+: entries → before.countP (e.2 < ·.2) < n) := by
  refine ⟨h.valid, fun k v => ?_, fun k => ?_, fun k v => ?_, fun s pos => ?_,
    fun n entries => highest_iff⟩
  · obtain ⟨m', run, -, -, keeps⟩ := h.valid.insert k v
    exact ⟨m', run, keeps⟩
  · exact (h.valid.erase k).imp fun _ => And.left
  · exact (h.valid.update k v).imp fun _ => And.left
  · obtain ⟨m', run, -, keeps⟩ := h.valid.maxSize pos
    exact ⟨m', run, keeps⟩

/-- A full map. -/
def pairMap : LimitedMap Nat Nat := ⟨[(1, 1), (0, 2)], [(1, 1), (2, 0)], 2⟩

/-- A full map gives up its least value for a higher one, and then has the two highest. -/
theorem keeps_higher :
    (∃ m', pairMap.insert 2 3 = some m' ∧ Keeps pairMap m' ∧ (1, 1) ∉ m'.map) ∧
      ∃ m' : LimitedMap Nat Nat, insertAll 2 [(0, 2), (1, 1), (2, 3)] = some m' ∧
        Highest 2 [(0, 2), (1, 1), (2, 3)] m' := by
  have one : Reachable (⟨[(0, 2)], [(2, 0)], 2⟩ : LimitedMap Nat Nat) :=
    .insert (k := 0) (v := 2) (.empty 2 (by decide)) (by decide)
  have reachable : Reachable pairMap := .insert (k := 1) (v := 1) one (by decide)
  obtain ⟨-, insert, -, -, -, high⟩ := keeps_iff reachable
  obtain ⟨m', run, keeps⟩ := insert 2 3
  have room : ¬ pairMap.Underbids 2 3 := fun low => absurd (low.2.2 (1, 1) (by decide)) (by decide)
  refine ⟨⟨m', run, keeps.2 room, ?_⟩, ?_⟩
  · obtain rfl : _ = m' := Option.some.inj ((show _ = some _ from rfl).symm.trans run)
    decide
  · refine (high 2 _ (by decide) (by decide)).2 ?_ _ (List.prefix_refl _)
    rintro before e ⟨rest, eq⟩
    rcases before with _ | ⟨_, _ | ⟨_, _ | _⟩⟩ <;> simp_all

/-- A map of one entry gives up the value 2 for the value 1. -/
theorem insert_drops_higher :
    (LimitedMap.mk [] [] 1).insert 0 2 = some ⟨[(0, 2)], [(2, 0)], 1⟩ ∧
      (LimitedMap.mk [(0, 2)] [(2, 0)] 1).insert 1 1 = some ⟨[(1, 1)], [(1, 1)], 1⟩ := by
  decide

end LimitedMap

end KubuCore.Net
