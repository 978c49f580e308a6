import Mathlib

/-!
# Consensus parameters by height

The parameter sets of a chain form a search tree on the height from which they
are in use, and `Consensus::Params::GetConsensus` looks for the set that holds
at a height. A branch may answer with a set that is not yet in use; the node
above rejects it.
-/

namespace KubuCore.Chain

/-- `Consensus::Params`: the height, the branches, and the other parameters. -/
inductive Params (α : Type) where
  | null
  | node (others : α) (nHeightEffective : Nat) (pLeft pRight : Params α)

namespace Params

variable {α : Type} {nTargetHeight : Nat} {tree : Params α}

def isNull : Params α → Bool
  | null => true
  | node .. => false

/-- The sets of a tree with their heights. -/
def sets : Params α → List (Nat × α)
  | null => []
  | node others nHeightEffective pLeft pRight =>
    pLeft.sets ++ (nHeightEffective, others) :: pRight.sets

/-- `GetConsensus`, which is called on nodes only. -/
def getConsensus (nTargetHeight : Nat) : Params α → Option (Nat × α)
  | null => none
  | node others nHeightEffective pLeft pRight =>
    if nTargetHeight < nHeightEffective ∧ pLeft.isNull = false then
      pLeft.getConsensus nTargetHeight
    else if nHeightEffective < nTargetHeight ∧ pRight.isNull = false then do
      let pCandidate ← pRight.getConsensus nTargetHeight
      if pCandidate.1 ≤ nTargetHeight then some pCandidate else some (nHeightEffective, others)
    else some (nHeightEffective, others)

/-- A binary search tree whose keys are distinct. -/
def Ordered : Params α → Prop
  | null => True
  | node _ nHeightEffective pLeft pRight =>
    (∀ set ∈ pLeft.sets, set.1 < nHeightEffective) ∧
      (∀ set ∈ pRight.sets, nHeightEffective < set.1) ∧ pLeft.Ordered ∧ pRight.Ordered

/-- The last of some sets to come into use by a height, if one of them has. -/
def Latest (sets : List (Nat × α)) (nTargetHeight : Nat) (found : Nat × α) : Prop :=
  found ∈ sets ∧ ((∃ set ∈ sets, set.1 ≤ nTargetHeight) → found.1 ≤ nTargetHeight) ∧
    ∀ set ∈ sets, set.1 ≤ nTargetHeight → set.1 ≤ found.1

theorem isNull_of_mem {set : Nat × α} (h : set ∈ tree.sets) : tree.isNull = false := by
  cases tree with
  | null => cases h
  | node => rfl

theorem getConsensus_latest (ordered : tree.Ordered) (node : tree.isNull = false) :
    ∃ found, tree.getConsensus nTargetHeight = some found ∧
      Latest tree.sets nTargetHeight found := by
  induction tree with
  | null => cases node
  | node others height left right ihLeft ihRight =>
    obtain ⟨below, above, hleft, hright⟩ := ordered
    have hmem : ∀ set, set ∈ (Params.node others height left right).sets ↔
        set ∈ left.sets ∨ set = (height, others) ∨ set ∈ right.sets := by
      simp [sets]
    simp only [getConsensus]
    split
    · -- Only the left branch can hold sets that are in use.
      rename_i hgo
      obtain ⟨found, hfound, hin, huse, hlast⟩ := ihLeft hleft hgo.2
      have hbelow : ∀ set ∈ (Params.node others height left right).sets,
          set.1 ≤ nTargetHeight → set ∈ left.sets := by
        intro set hset hle
        rcases (hmem set).mp hset with hset | rfl | hset
        · exact hset
        · exact absurd hgo.1 (not_lt.mpr hle)
        · have := above set hset
          omega
      refine ⟨found, hfound, (hmem _).mpr (.inl hin), ?_, ?_⟩
      · rintro ⟨set, hset, hle⟩
        exact huse ⟨set, hbelow set hset hle, hle⟩
      · intro set hset hle
        exact hlast set (hbelow set hset hle) hle
    · rename_i hstay
      split_ifs with hgo
      · obtain ⟨found, hfound, hin, huse, hlast⟩ := ihRight hright hgo.2
        have hover := above found hin
        simp only [hfound, Option.bind_eq_bind, Option.bind_some]
        split
        · rename_i hle
          refine ⟨found, rfl, (hmem _).mpr (.inr (.inr hin)), fun _ => hle, ?_⟩
          intro set hset hset'
          rcases (hmem set).mp hset with hset | rfl | hset
          · exact ((below set hset).trans hover).le
          · exact hover.le
          · exact hlast set hset hset'
        · -- Nothing of the right branch is in use yet, so this set is the last.
          rename_i hnot
          refine ⟨_, rfl, (hmem _).mpr (.inr (.inl rfl)), fun _ => hgo.1.le, ?_⟩
          intro set hset hset'
          rcases (hmem set).mp hset with hset | rfl | hset
          · exact (below set hset).le
          · exact le_rfl
          · exact absurd (huse ⟨set, hset, hset'⟩) hnot
      · refine ⟨_, rfl, (hmem _).mpr (.inr (.inl rfl)), ?_, ?_⟩
        · rintro ⟨set, hset, hle⟩
          by_contra hlt
          rcases (hmem set).mp hset with hset | rfl | hset
          · exact hstay ⟨not_le.mp hlt, isNull_of_mem hset⟩
          · exact hlt hle
          · exact hlt ((above set hset).le.trans hle)
        · intro set hset hle
          rcases (hmem set).mp hset with hset | rfl | hset
          · exact (below set hset).le
          · exact le_rfl
          · exact absurd ⟨lt_of_lt_of_le (above set hset) hle, isNull_of_mem hset⟩ hgo

/-- With a set that is in use from the start, the lookup gives the set with the greatest height
that is not above the target. -/
theorem getConsensus_greatest (tree : Params α) (ordered : tree.Ordered)
    (genesis : ∃ set ∈ tree.sets, set.1 = 0) (nTargetHeight : Nat) :
    ∃ found ∈ tree.sets, tree.getConsensus nTargetHeight = some found ∧
      found.1 ≤ nTargetHeight ∧ ∀ set ∈ tree.sets, set.1 ≤ nTargetHeight → set.1 ≤ found.1 := by
  obtain ⟨first, hmem, hzero⟩ := genesis
  obtain ⟨found, hfound, hin, huse, hlast⟩ := getConsensus_latest ordered (isNull_of_mem hmem)
  exact ⟨found, hin, hfound, huse ⟨first, hmem, hzero ▸ Nat.zero_le _⟩, hlast⟩

/-- The tree of the main network. -/
def mainTree : Params Unit :=
  node () 1000 (node () 0 null null) (node () 39000 null null)

theorem mainTree_genesis_greatest :
    ∃ found ∈ mainTree.sets, mainTree.getConsensus 999 = some found ∧
      found.1 ≤ 999 ∧ ∀ set ∈ mainTree.sets, set.1 ≤ 999 → set.1 ≤ found.1 :=
  getConsensus_greatest mainTree (by simp [mainTree, Ordered, sets])
    ⟨(0, ()), by simp [mainTree, sets]⟩ 999

end Params

end KubuCore.Chain
