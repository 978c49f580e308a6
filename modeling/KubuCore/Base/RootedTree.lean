import Mathlib

/-!
# Trees given by parent pointers

A node knows its parent and its depth. The path of a node leads from it to a
node without a parent; the nodes on it are the node and its ancestors.
-/

namespace KubuCore

structure RootedTree (N : Type) where
  parent : N → Option N
  depth : N → Nat
  depth_parent : ∀ {a p}, parent a = some p → depth a = depth p + 1

namespace RootedTree

variable {N : Type} (tree : RootedTree N)

/-- The nodes met on the way up, at most as many steps as the number says. -/
def pathFrom : Nat → N → List N
  | 0, a => [a]
  | steps + 1, a =>
    match tree.parent a with
    | some p => a :: pathFrom steps p
    | none => [a]

/-- The node and its ancestors, nearest first. -/
def path (a : N) : List N := tree.pathFrom (tree.depth a) a

/-- The node of a depth on the path. -/
def ancestorAt (a : N) (d : Nat) : Option N := (tree.path a).find? fun b => tree.depth b == d

variable {tree}

variable {a p b : N}

theorem path_of_parent (h : tree.parent a = some p) : tree.path a = a :: tree.path p := by
  rw [path, tree.depth_parent h, pathFrom, h]
  rfl

theorem path_of_root (h : tree.parent a = none) : tree.path a = [a] := by
  rw [path]
  cases tree.depth a with
  | zero => rfl
  | succ d => rw [pathFrom, h]

/-- Induction from a node to its parent. -/
theorem parentInduction (tree : RootedTree N) {motive : N → Prop}
    (step : ∀ a, (∀ p, tree.parent a = some p → motive p) → motive a) (a : N) : motive a := by
  induction hd : tree.depth a using Nat.strong_induction_on generalizing a with
  | _ d ih =>
    refine step a fun p hp => ih (tree.depth p) ?_ p rfl
    rw [← hd, tree.depth_parent hp]
    exact Nat.lt_succ_self _

theorem exists_path_eq_cons (tree : RootedTree N) (a : N) : ∃ above, tree.path a = a :: above := by
  cases h : tree.parent a with
  | none => exact ⟨[], path_of_root h⟩
  | some p => exact ⟨tree.path p, path_of_parent h⟩

@[simp] theorem self_mem_path (a : N) : a ∈ tree.path a := by
  obtain ⟨above, h⟩ := exists_path_eq_cons tree a
  rw [h]
  exact List.mem_cons_self

theorem mem_path_of_parent (h : tree.parent a = some p) (hb : b ∈ tree.path p) :
    b ∈ tree.path a := by
  rw [path_of_parent h]
  exact List.mem_cons_of_mem _ hb

theorem mem_path_cases (h : b ∈ tree.path a) :
    b = a ∨ ∃ p, tree.parent a = some p ∧ b ∈ tree.path p := by
  cases hp : tree.parent a with
  | none =>
    rw [path_of_root hp, List.mem_singleton] at h
    exact .inl h
  | some p =>
    rw [path_of_parent hp, List.mem_cons] at h
    exact h.imp_right fun h => ⟨p, rfl, h⟩

/-- What passes from a node to its parent holds of all ancestors. -/
theorem of_mem_path {P : N → Prop} (step : ∀ {a p}, tree.parent a = some p → P a → P p) (ha : P a)
    (hb : b ∈ tree.path a) : P b := by
  induction a using tree.parentInduction with
  | step a ih =>
    rcases mem_path_cases hb with rfl | ⟨p, hp, hb⟩
    · exact ha
    · exact ih p hp (step hp ha) hb

theorem mem_path_trans {c : N} (hb : b ∈ tree.path a) (hc : c ∈ tree.path b) : c ∈ tree.path a := by
  induction a using tree.parentInduction with
  | step a ih =>
    rcases mem_path_cases hb with rfl | ⟨p, hp, hb⟩
    · exact hc
    · exact mem_path_of_parent hp (ih p hp hb)

theorem depth_of_mem_path (h : b ∈ tree.path a) : b = a ∨ tree.depth b < tree.depth a := by
  induction a using tree.parentInduction with
  | step a ih =>
    rcases mem_path_cases h with rfl | ⟨p, hp, hb⟩
    · exact .inl rfl
    · refine .inr ?_
      rw [tree.depth_parent hp]
      rcases ih p hp hb with rfl | hlt
      · exact Nat.lt_succ_self _
      · exact Nat.lt_succ_of_lt hlt

theorem path_antisymm (hab : a ∈ tree.path b) (hba : b ∈ tree.path a) : a = b := by
  rcases depth_of_mem_path hab with rfl | hlt
  · rfl
  · rcases depth_of_mem_path hba with rfl | hgt
    · rfl
    · exact absurd (hlt.trans hgt) (lt_irrefl _)

section

variable {a b c : N} (hb : b ∈ tree.path a) (hc : c ∈ tree.path a)
include hb hc

/-- Two nodes of a path are comparable. -/
theorem path_linear : b ∈ tree.path c ∨ c ∈ tree.path b := by
  induction a using tree.parentInduction with
  | step a ih =>
    rcases mem_path_cases hb with rfl | ⟨p, hp, hb'⟩
    · exact .inr hc
    · rcases mem_path_cases hc with rfl | ⟨q, hq, hc'⟩
      · exact .inl hb
      · rw [hp] at hq
        cases hq
        exact ih p hp hb' hc'

theorem eq_of_depth (h : tree.depth b = tree.depth c) : b = c := by
  rcases path_linear hb hc with hle | hle
  · exact (depth_of_mem_path hle).resolve_right (by omega)
  · exact ((depth_of_mem_path hle).resolve_right (by omega)).symm

end

theorem ancestorAt_eq_iff {a b : N} :
    tree.ancestorAt a (tree.depth b) = some b ↔ b ∈ tree.path a := by
  constructor
  · exact fun h => List.mem_of_find?_eq_some h
  · intro h
    cases hfind : tree.ancestorAt a (tree.depth b) with
    | none =>
      have := List.find?_eq_none.mp hfind b h
      simp at this
    | some c =>
      have hdepth := List.find?_some hfind
      rw [eq_of_depth (List.mem_of_find?_eq_some hfind) h (by simpa using hdepth)]

end RootedTree

end KubuCore
