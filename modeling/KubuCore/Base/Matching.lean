import Mathlib

/-!
# Matching in order

Items are assigned to slots so that the order of both is kept. Taking the first
slot that fits finds an assignment whenever there is one.
-/

namespace KubuCore.Matching

variable {κ σ : Type} (fits : σ → κ → Bool)

/-- The items fit slots that stand in the same order. -/
def Assigned (slots : List κ) (items : List σ) : Prop :=
  ∃ picked, picked.Sublist slots ∧ List.Forall₂ (fun item slot => fits item slot = true) items picked

/-- Each item takes the first slot left that it fits. -/
def greedy : List κ → List σ → Bool
  | _, [] => true
  | [], _ :: _ => false
  | slot :: slots, item :: items =>
    if fits item slot then greedy slots items else greedy slots (item :: items)

variable {fits}

variable {slots : List κ} {items : List σ} {item : σ} {slot : κ}

theorem Assigned.length (h : Assigned fits slots items) : items.length ≤ slots.length := by
  obtain ⟨picked, hsub, hfits⟩ := h
  rw [hfits.length_eq]
  exact hsub.length_le

theorem Assigned.tail (h : Assigned fits slots (item :: items)) : Assigned fits slots items := by
  obtain ⟨picked, hsub, hfits⟩ := h
  cases hfits with
  | cons _ hfits => exact ⟨_, (List.sublist_cons_self _ _).trans hsub, hfits⟩

theorem Assigned.skip (h : Assigned fits slots items) : Assigned fits (slot :: slots) items := by
  obtain ⟨picked, hsub, hfits⟩ := h
  exact ⟨picked, hsub.cons slot, hfits⟩

theorem Assigned.take (hfit : fits item slot = true) (h : Assigned fits slots items) :
    Assigned fits (slot :: slots) (item :: items) := by
  obtain ⟨picked, hsub, hfits⟩ := h
  exact ⟨slot :: picked, hsub.cons_cons slot, .cons hfit hfits⟩

/-- The first slot is taken by the first item or not at all. -/
theorem Assigned.cases (h : Assigned fits (slot :: slots) (item :: items)) :
    (fits item slot = true ∧ Assigned fits slots items) ∨ Assigned fits slots (item :: items) := by
  obtain ⟨picked, hsub, hfits⟩ := h
  cases hsub with
  | cons _ hsub => exact .inr ⟨picked, hsub, hfits⟩
  | cons_cons _ hsub =>
    cases hfits with
    | cons hfit hfits => exact .inl ⟨hfit, _, hsub, hfits⟩

theorem greedy_iff : greedy fits slots items = true ↔ Assigned fits slots items := by
  induction slots generalizing items with
  | nil =>
    cases items with
    | nil => exact iff_of_true rfl ⟨[], List.nil_sublist _, .nil⟩
    | cons item items =>
      refine iff_of_false Bool.false_ne_true fun h => ?_
      exact absurd h.length (by simp)
  | cons slot slots ih =>
    cases items with
    | nil => exact iff_of_true rfl ⟨[], List.nil_sublist _, .nil⟩
    | cons item items =>
      rw [greedy]
      by_cases hfit : fits item slot = true
      · rw [if_pos hfit, ih]
        refine ⟨fun h => h.take hfit, fun h => ?_⟩
        rcases h.cases with ⟨-, h⟩ | h
        · exact h
        · exact h.tail
      · rw [if_neg hfit, ih]
        refine ⟨Assigned.skip, fun h => ?_⟩
        rcases h.cases with ⟨hyes, -⟩ | h
        · exact absurd hyes hfit
        · exact h

/-- Both orders may be turned round. -/
theorem Assigned.reverse (h : Assigned fits slots items) :
    Assigned fits slots.reverse items.reverse := by
  obtain ⟨picked, hsub, hfits⟩ := h
  exact ⟨picked.reverse, hsub.reverse, List.rel_reverse hfits⟩

/-- An assignment needs as many slots of a kind as it has items that only fit that kind. -/
theorem Assigned.length_le_countP (h : Assigned fits slots items) {kind : κ → Bool}
    (hkind : ∀ item ∈ items, ∀ slot, fits item slot = true → kind slot = true) :
    items.length ≤ slots.countP kind := by
  obtain ⟨picked, hsub, hfits⟩ := h
  have hall : ∀ slot ∈ picked, kind slot = true := by
    intro slot hslot
    obtain ⟨i, hi, rfl⟩ := List.getElem_of_mem hslot
    have hitem : i < items.length := by
      rw [hfits.length_eq]
      exact hi
    exact hkind items[i] (List.getElem_mem hitem) picked[i] (List.Forall₂.get hfits hitem hi)
  calc items.length = picked.countP kind := by
        rw [hfits.length_eq, List.countP_eq_length.mpr hall]
    _ ≤ slots.countP kind := hsub.countP_le

/-! ## Items found slot by slot -/

variable (find : κ → Option σ)

/-- The items found for the slots in their order, until there are enough. -/
def firstSome : Nat → List κ → List σ
  | 0, _ => []
  | _, [] => []
  | missing + 1, slot :: slots =>
    match find slot with
    | some item => item :: firstSome missing slots
    | none => firstSome (missing + 1) slots

variable {find}

theorem length_firstSome (slots : List κ) (missing : Nat) :
    (firstSome find missing slots).length =
      min missing (slots.countP fun slot => (find slot).isSome) := by
  induction slots generalizing missing with
  | nil => cases missing <;> simp [firstSome]
  | cons slot slots ih =>
    cases missing with
    | zero => simp [firstSome]
    | succ missing =>
      rw [firstSome, List.countP_cons]
      cases hfind : find slot with
      | some item =>
        simp only [List.length_cons, ih, Option.isSome_some, if_true]
        omega
      | none => simp [ih]

theorem mem_firstSome {slots : List κ} {missing : Nat} {item : σ}
    (h : item ∈ firstSome find missing slots) : ∃ slot ∈ slots, find slot = some item := by
  induction slots generalizing missing with
  | nil => cases missing <;> cases h
  | cons slot slots ih =>
    cases missing with
    | zero => cases h
    | succ missing =>
      rw [firstSome] at h
      split at h
      · rename_i item' hfind
        rcases List.mem_cons.mp h with rfl | h
        · exact ⟨slot, List.mem_cons_self, hfind⟩
        · obtain ⟨slot', hmem, hfind'⟩ := ih h
          exact ⟨slot', List.mem_cons_of_mem _ hmem, hfind'⟩
      · obtain ⟨slot', hmem, hfind'⟩ := ih h
        exact ⟨slot', List.mem_cons_of_mem _ hmem, hfind'⟩

/-- What is found in order is assigned in order. -/
theorem assigned_firstSome {slots : List κ}
    (hfits : ∀ slot ∈ slots, ∀ item, find slot = some item → fits item slot = true) (missing : Nat) :
    Assigned fits slots (firstSome find missing slots) := by
  induction slots generalizing missing with
  | nil => cases missing <;> exact ⟨[], List.nil_sublist _, .nil⟩
  | cons slot slots ih =>
    rw [List.forall_mem_cons] at hfits
    have hrest := ih hfits.2
    cases missing with
    | zero => exact ⟨[], List.nil_sublist _, .nil⟩
    | succ missing =>
      rw [firstSome]
      split
      · rename_i item hfind
        exact (hrest missing).take (hfits.1 item hfind)
      · exact (hrest (missing + 1)).skip

end KubuCore.Matching
