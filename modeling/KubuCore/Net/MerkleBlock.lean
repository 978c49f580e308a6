import Mathlib

/-!
# Partial merkle trees

`CPartialMerkleTree` of `merkleblock.h`: a tree of transaction ids cut off where
nothing below matches, as one bit for each visited node and one hash for each
node where the visit stops. `ExtractMatches` walks the tree with the two streams
and returns its root, or the null hash where something does not fit; the matches
made by then are returned all the same.
-/

namespace KubuCore.Net

structure CPartialMerkleTree (α : Type) where
  nTransactions : Nat
  vBits : List Bool
  vHash : List α
  fBad : Bool

/-- What is left of the streams, the ids matched with their positions, and the
failure flag. -/
structure Visit (α : Type) where
  vBits : List Bool
  vHash : List α
  matched : List (α × Nat)
  fBad : Bool

variable {α : Type} [DecidableEq α] (hash : α → α → α) (null : α)

def calcTreeWidth (nTransactions height : Nat) : Nat :=
  (nTransactions + 2 ^ height - 1) / 2 ^ height

/-- Stop at a node and use a stored hash. -/
def Visit.stop (v : Visit α) (isMatch : Bool) (pos : Nat) : α × Visit α :=
  match v.vHash with
  | [] => (null, { v with fBad := true })
  | h :: vHash =>
    (h, { v with vHash, matched := if isMatch then v.matched ++ [(h, pos)] else v.matched })

def traverseAndExtract (nTransactions : Nat) : Nat → Nat → Visit α → α × Visit α
  | 0, pos, v =>
    match v.vBits with
    | [] => (null, { v with fBad := true })
    | fParentOfMatch :: vBits => { v with vBits }.stop null fParentOfMatch pos
  | height + 1, pos, v =>
    match v.vBits with
    | [] => (null, { v with fBad := true })
    | false :: vBits => { v with vBits }.stop null false pos
    | true :: vBits =>
      let left := traverseAndExtract nTransactions height (pos * 2) { v with vBits }
      if pos * 2 + 1 < calcTreeWidth nTransactions height then
        let right := traverseAndExtract nTransactions height (pos * 2 + 1) left.2
        (hash left.1 right.1, { right.2 with fBad := right.2.fBad || right.1 = left.1 })
      else (hash left.1 left.1, left.2)

theorem lt_calcTreeWidth {n height pos : Nat} :
    pos < calcTreeWidth n height ↔ pos * 2 ^ height < n := by
  have hpow := Nat.two_pow_pos height
  rw [calcTreeWidth, Nat.lt_iff_add_one_le, Nat.le_div_iff_mul_le hpow, Nat.succ_mul]
  omega

theorem exists_narrow (n : Nat) : ∃ height, ¬ 1 < calcTreeWidth n height :=
  ⟨n, by simpa [lt_calcTreeWidth] using Nat.lt_two_pow_self.le⟩

/-- The loop that raises the height until the tree has a single node there. -/
def treeHeight (n : Nat) : Nat := Nat.find (exists_narrow n)

def maxBlockBaseSize : Nat := 1000000

/-- `ExtractMatches` with empty vectors for the ids and their positions. -/
def extractMatches (tree : CPartialMerkleTree α) : α × List (α × Nat) :=
  if tree.nTransactions = 0 then (null, [])
  else if maxBlockBaseSize / 60 < tree.nTransactions then (null, [])
  else if tree.nTransactions < tree.vHash.length then (null, [])
  else if tree.vBits.length < tree.vHash.length then (null, [])
  else
    let (hashMerkleRoot, v) := traverseAndExtract hash null tree.nTransactions
      (treeHeight tree.nTransactions) 0 ⟨tree.vBits, tree.vHash, [], tree.fBad⟩
    let nBitsUsed := tree.vBits.length - v.vBits.length
    if v.fBad then (null, v.matched)
    else if (nBitsUsed + 7) / 8 ≠ (tree.vBits.length + 7) / 8 then (null, v.matched)
    else if v.vHash ≠ [] then (null, v.matched)
    else (hashMerkleRoot, v.matched)

/-! ## The tree of a block -/

/-- A node combines the two below it, or the last one below with itself. -/
def IsNode (vTxid : List α) : Nat → Nat → α → Prop
  | 0, pos, x => vTxid[pos]? = some x
  | height + 1, pos, x => ∃ a b, x = hash a b ∧ IsNode vTxid height (pos * 2) a ∧
      (IsNode vTxid height (pos * 2 + 1) b ∨ vTxid.length ≤ (pos * 2 + 1) * 2 ^ height ∧ b = a)

/-- The root is the first node of the lowest level that has no other. -/
def IsRoot (vTxid : List α) (x : α) : Prop :=
  ∃ height, vTxid.length ≤ 2 ^ height ∧ (∀ lower < height, 2 ^ lower < vTxid.length) ∧
    IsNode hash vTxid height 0 x

/-- The two nodes that a node of the tree combines. -/
def AreBelow (vTxid : List α) (height pos : Nat) (pair : α × α) : Prop :=
  IsNode hash vTxid height (pos * 2) pair.1 ∧ (IsNode hash vTxid height (pos * 2 + 1) pair.2 ∨
    vTxid.length ≤ (pos * 2 + 1) * 2 ^ height ∧ pair.2 = pair.1)

/-- The pairs that the walk combines. -/
def walkedPairs (nTransactions : Nat) : Nat → Nat → Visit α → List (α × α)
  | 0, _, _ => []
  | height + 1, pos, v =>
    match v.vBits with
    | true :: vBits =>
      let left := traverseAndExtract hash null nTransactions height (pos * 2) { v with vBits }
      let below := walkedPairs nTransactions height (pos * 2) { v with vBits }
      if pos * 2 + 1 < calcTreeWidth nTransactions height then
        let right := traverseAndExtract hash null nTransactions height (pos * 2 + 1) left.2
        (left.1, right.1) :: below ++ walkedPairs nTransactions height (pos * 2 + 1) left.2
      else (left.1, left.1) :: below
    | _ => []

/-- No pair of the list has the digest of another pair of the block's tree. -/
def NoCollision (vTxid : List α) (pairs : List (α × α)) : Prop :=
  ∀ pair ∈ pairs, ∀ height pos other, AreBelow hash vTxid height pos other →
    hash pair.1 pair.2 = hash other.1 other.2 → pair = other

theorem treeHeight_eq {n height : Nat} (fits : n ≤ 2 ^ height)
    (least : ∀ lower < height, 2 ^ lower < n) : treeHeight n = height := by
  refine (Nat.find_eq_iff _).mpr ⟨?_, fun lower hlower => not_not.mpr ?_⟩
  · rw [lt_calcTreeWidth, one_mul]
    exact not_lt.mpr fits
  · rw [lt_calcTreeWidth, one_mul]
    exact least lower hlower

variable {hash null} {vTxid : List α}

omit [DecidableEq α] in
theorem mem_stop {v : Visit α} {isMatch : Bool} {pos : Nat} {m : α × Nat}
    (h : m ∈ (v.stop null isMatch pos).2.matched) :
    m ∈ v.matched ∨ isMatch = true ∧ m = ((v.stop null isMatch pos).1, pos) := by
  unfold Visit.stop at h ⊢
  cases hhash : v.vHash with
  | nil =>
    rw [hhash] at h
    exact .inl h
  | cons first rest =>
    rw [hhash] at h
    cases isMatch with
    | false => exact .inl h
    | true =>
      rcases List.mem_append.mp h with h | h
      · exact .inl h
      · exact .inr ⟨rfl, List.mem_singleton.mp h⟩

/-- Below a node of the tree, whatever the streams hold, only ids of the tree
are matched. -/
theorem traverseAndExtract_sound {height pos : Nat} {v : Visit α} {m : α × Nat}
    (noCollision : NoCollision hash vTxid (walkedPairs hash null vTxid.length height pos v))
    (node : IsNode hash vTxid height pos (traverseAndExtract hash null vTxid.length height pos v).1)
    (hm : m ∈ (traverseAndExtract hash null vTxid.length height pos v).2.matched) :
    m ∈ v.matched ∨ vTxid[m.2]? = some m.1 := by
  induction height generalizing pos v with
  | zero =>
    rw [traverseAndExtract] at node hm
    split at hm
    · exact .inl hm
    · rename_i hbits
      simp only [hbits] at node
      rcases mem_stop hm with hm | ⟨-, rfl⟩
      · exact .inl hm
      · exact .inr node
  | succ height ih =>
    rw [traverseAndExtract] at node hm
    split at hm
    · exact .inl hm
    · exact .inl ((mem_stop hm).resolve_right fun h => Bool.false_ne_true h.1)
    · rename_i vBits hbits
      simp only [walkedPairs, hbits, lt_calcTreeWidth] at node hm noCollision
      split_ifs at hm with hright
      · rw [if_pos hright] at node noCollision
        obtain ⟨a, b, hpair, hbelow⟩ := node
        obtain ⟨rfl, rfl⟩ := Prod.mk.inj
          (noCollision _ List.mem_cons_self height pos (a, b) hbelow hpair)
        have hb := hbelow.2.resolve_right fun h => absurd hright (not_lt.mpr h.1)
        rcases ih (fun pair hp => noCollision pair (List.mem_append_right _ hp)) hb hm with hm | hm
        · exact ih (v := { v with vBits }) (fun pair hp => noCollision pair
            (List.mem_append_left _ (List.mem_cons_of_mem _ hp))) hbelow.1 hm
        · exact .inr hm
      · rw [if_neg hright] at node noCollision
        obtain ⟨a, b, hpair, hbelow⟩ := node
        obtain ⟨rfl, -⟩ := Prod.mk.inj
          (noCollision _ List.mem_cons_self height pos (a, b) hbelow hpair)
        exact ih (v := { v with vBits })
          (fun pair hp => noCollision pair (List.mem_cons_of_mem _ hp)) hbelow.1 hm

/-- The streams and marks that a walk begins with. -/
def CPartialMerkleTree.visit (tree : CPartialMerkleTree α) : Visit α :=
  ⟨tree.vBits, tree.vHash, [], tree.fBad⟩

/-- Unless it returns the null hash, `ExtractMatches` returns what the walk found. -/
theorem extractMatches_walk (tree : CPartialMerkleTree α) :
    (extractMatches hash null tree).1 = null ∨
      let walk := traverseAndExtract hash null tree.nTransactions (treeHeight tree.nTransactions) 0
        tree.visit
      extractMatches hash null tree = (walk.1, walk.2.matched) := by
  rw [extractMatches]
  iterate 4
    split
    · exact .inl rfl
  dsimp only
  iterate 3
    split
    · exact .inl rfl
  exact .inr rfl

/-- Whatever bits and hashes a tree carries: if `ExtractMatches` returns the
merkle root of a block with as many transactions, and this is not the null hash,
then every match is the id of the block's transaction at its position, unless the
walk found another pair with the digest of a node of the block. -/
theorem extractMatches_sound (tree : CPartialMerkleTree α) (vTxid : List α)
    (noCollision : NoCollision hash vTxid (walkedPairs hash null tree.nTransactions
      (treeHeight tree.nTransactions) 0 tree.visit))
    (count : tree.nTransactions = vTxid.length)
    (root : IsRoot hash vTxid (extractMatches hash null tree).1)
    (notNull : (extractMatches hash null tree).1 ≠ null) (m : α × Nat)
    (hm : m ∈ (extractMatches hash null tree).2) : vTxid[m.2]? = some m.1 := by
  obtain ⟨height, hfits, hleast, hnode⟩ := root
  have hwalk := (extractMatches_walk tree).resolve_left notNull
  rw [count, treeHeight_eq hfits hleast] at hwalk noCollision
  rw [hwalk] at hnode hm
  exact (traverseAndExtract_sound noCollision hnode hm).resolve_left List.not_mem_nil

/-- Two transactions, the first of them matched; one byte of bits. -/
def twoTree : CPartialMerkleTree Nat := ⟨2, true :: true :: List.replicate 6 false, [2, 3], false⟩

theorem extractMatches_twoTree :
    extractMatches Nat.pair 0 twoTree = (Nat.pair 2 3, [(2, 0)]) := by
  decide +kernel

theorem extractMatches_sound_two :
    IsRoot Nat.pair [2, 3] (extractMatches Nat.pair 0 twoTree).1 ∧ [2, 3][0]? = some 2 := by
  have hroot : IsRoot Nat.pair [2, 3] (extractMatches Nat.pair 0 twoTree).1 := by
    rw [extractMatches_twoTree]
    exact ⟨1, by decide, by decide, 2, 3, rfl, rfl, .inl rfl⟩
  have noCollision : NoCollision Nat.pair [2, 3] (walkedPairs Nat.pair 0 2 (treeHeight 2) 0
      twoTree.visit) :=
    fun _ _ _ _ _ _ h => Prod.ext_iff.mpr (Nat.pair_eq_pair.mp h)
  exact ⟨hroot, extractMatches_sound twoTree [2, 3] noCollision rfl hroot
    (by rw [extractMatches_twoTree]; decide +kernel) (2, 0)
    (by rw [extractMatches_twoTree]; decide)⟩

/-- Where the root of the block is the null hash, a failed walk returns it too:
two bytes of bits for a tree of one node match an id that is not in the block. -/
theorem extractMatches_null_root :
    ∃ (hash : Nat → Nat → Nat) (tree : CPartialMerkleTree Nat) (vTxid : List Nat),
      (∀ a b c d, hash a b = hash c d → a = c ∧ b = d) ∧ tree.vBits.length = 16 ∧
      tree.fBad = false ∧ vTxid.Nodup ∧ tree.nTransactions = vTxid.length ∧
      IsRoot hash vTxid (extractMatches hash 0 tree).1 ∧
      ∃ m ∈ (extractMatches hash 0 tree).2, vTxid[m.2]? ≠ some m.1 := by
  have hfailed : extractMatches Nat.pair 0 ⟨1, true :: List.replicate 15 false, [5], false⟩ =
      (0, [(5, 0)]) := by
    decide +kernel
  refine ⟨Nat.pair, ⟨1, true :: List.replicate 15 false, [5], false⟩, [0],
    fun _ _ _ _ => Nat.pair_eq_pair.mp, rfl, rfl, by decide, rfl, ?_⟩
  rw [hfailed]
  exact ⟨⟨0, by decide, by decide, rfl⟩, (5, 0), by decide, by decide⟩

end KubuCore.Net
