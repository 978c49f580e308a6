import Mathlib

/-!
# Merkle branches

A branch leads from a leaf to a root: at each level the node is combined with
the next sibling, on the right or on the left as the lowest bit of the index
says. The combination need only be injective on the pairs that the branches at
hand combine, so the results apply to a digest without known collisions.
-/

namespace KubuCore.Merkle

variable {α : Type} (node : α → α → α)

/-- One level up from a node, with its sibling. -/
def parent (index : Int) (hash sibling : α) : α :=
  if index % 2 = 1 then node sibling hash else node hash sibling

/-- The pair combined one level up. -/
def pairAt (index : Int) (hash sibling : α) : α × α :=
  if index % 2 = 1 then (sibling, hash) else (hash, sibling)

/-- The node at the end of a branch. -/
def climb (hash : α) : List α → Int → α
  | [], _ => hash
  | sibling :: rest, index => climb (parent node index hash sibling) rest (index / 2)

/-- The pairs combined on the way. -/
def pairs (hash : α) : List α → Int → List (α × α)
  | [], _ => []
  | sibling :: rest, index =>
    pairAt index hash sibling :: pairs (parent node index hash sibling) rest (index / 2)

theorem parent_eq (index : Int) (hash sibling : α) :
    parent node index hash sibling =
      node (pairAt index hash sibling).1 (pairAt index hash sibling).2 := by
  unfold parent pairAt
  split <;> rfl

theorem pairAt_inj {index : Int} {hash sibling hash' sibling' : α}
    (h : pairAt index hash sibling = pairAt index hash' sibling') :
    hash = hash' ∧ sibling = sibling' := by
  unfold pairAt at h
  split at h
  · exact ⟨(Prod.mk.inj h).2, (Prod.mk.inj h).1⟩
  · exact Prod.mk.inj h

variable {node} {P : α × α → Prop}

variable {hash hash' : α} {branch branch' : List α}

/-- Two branches of one length and index with the same end have the same leaf. -/
theorem climb_inj (inj : ∀ p q, P p → P q → node p.1 p.2 = node q.1 q.2 → p = q) {index : Int}
    (length : branch.length = branch'.length) (used : ∀ p ∈ pairs node hash branch index, P p)
    (used' : ∀ p ∈ pairs node hash' branch' index, P p)
    (same : climb node hash branch index = climb node hash' branch' index) :
    hash = hash' ∧ branch = branch' := by
  induction branch generalizing hash hash' branch' index with
  | nil =>
    cases branch' with
    | nil => exact ⟨same, rfl⟩
    | cons => cases length
  | cons sibling rest ih =>
    cases branch' with
    | nil => cases length
    | cons sibling' rest' =>
      have htail := ih (Nat.succ.inj length) (fun p hp => used p (List.mem_cons_of_mem _ hp))
        (fun p hp => used' p (List.mem_cons_of_mem _ hp)) same
      have hparent := htail.1
      rw [parent_eq, parent_eq] at hparent
      have hpair := inj _ _ (used _ List.mem_cons_self) (used' _ List.mem_cons_self) hparent
      obtain ⟨rfl, rfl⟩ := pairAt_inj hpair
      exact ⟨rfl, by rw [htail.2]⟩

/-! ## The leftmost branch -/

theorem climb_zero_concat (hash : α) (branch : List α) (sibling : α) :
    climb node hash (branch ++ [sibling]) 0 = node (climb node hash branch 0) sibling := by
  induction branch generalizing hash with
  | nil => rfl
  | cons first rest ih => exact ih (parent node 0 hash first)

theorem pairs_zero_concat (hash : α) (branch : List α) (sibling : α) :
    pairs node hash (branch ++ [sibling]) 0 =
      pairs node hash branch 0 ++ [(climb node hash branch 0, sibling)] := by
  induction branch generalizing hash with
  | nil => rfl
  | cons first rest ih => exact congrArg _ (ih (parent node 0 hash first))

/-- Two leftmost branches with the same end have the same leaf, unless the leaf
of one is a combined pair of the other. -/
theorem climb_zero_inj (inj : ∀ p q, P p → P q → node p.1 p.2 = node q.1 q.2 → p = q)
    (used : ∀ p ∈ pairs node hash branch 0, P p) (used' : ∀ p ∈ pairs node hash' branch' 0, P p)
    (same : climb node hash branch 0 = climb node hash' branch' 0) :
    hash = hash' ∨ (∃ p ∈ pairs node hash' branch' 0, hash = node p.1 p.2) ∨
      ∃ p ∈ pairs node hash branch 0, hash' = node p.1 p.2 := by
  induction branch using List.reverseRecOn generalizing branch' with
  | nil =>
    rcases List.eq_nil_or_concat' branch' with rfl | ⟨rest', sibling', rfl⟩
    · exact .inl same
    · refine .inr (.inl ⟨(climb node hash' rest' 0, sibling'), ?_,
        same.trans (climb_zero_concat _ _ _)⟩)
      rw [pairs_zero_concat]
      exact List.mem_append_right _ List.mem_cons_self
  | append_singleton rest sibling ih =>
    rcases List.eq_nil_or_concat' branch' with rfl | ⟨rest', sibling', rfl⟩
    · refine .inr (.inr ⟨(climb node hash rest 0, sibling), ?_,
        same.symm.trans (climb_zero_concat _ _ _)⟩)
      rw [pairs_zero_concat]
      exact List.mem_append_right _ List.mem_cons_self
    · simp only [pairs_zero_concat, List.mem_append] at used used' ⊢
      rw [climb_zero_concat, climb_zero_concat] at same
      have hpair := inj _ _ (used _ (.inr List.mem_cons_self))
        (used' _ (.inr List.mem_cons_self)) same
      rcases ih (fun p hp => used p (.inl hp)) (fun p hp => used' p (.inl hp))
        (Prod.mk.inj hpair).1 with heq | ⟨p, hp, he⟩ | ⟨p, hp, he⟩
      · exact .inl heq
      · exact .inr (.inl ⟨p, .inl hp, he⟩)
      · exact .inr (.inr ⟨p, .inl hp, he⟩)

end KubuCore.Merkle
