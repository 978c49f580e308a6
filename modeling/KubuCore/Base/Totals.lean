import KubuCore.Base.Maps

/-!
# Totals

The total of a weight over the entries of an ordered map, with its change under
insertion and erasure, and the running totals of a list of amounts.
-/

namespace KubuCore.Totals

open Maps
open Std

/-! ## Maps -/

section Map

variable {α β : Type} [Ord α] [TransOrd α] [LawfulEqOrd α]

/-- The sum of a weight over the entries. -/
def total (weight : β → Int) (t : ExtTreeMap α β) : Int :=
  (t.toList.map fun entry => weight entry.2).sum

@[simp] theorem total_empty (weight : β → Int) : total weight (∅ : ExtTreeMap α β) = 0 := by
  have hnil : (∅ : ExtTreeMap α β).toList = [] := by
    rw [List.eq_nil_iff_forall_not_mem]
    rintro ⟨k, v⟩ hmem
    rw [ExtTreeMap.mem_toList_iff_getElem?_eq_some] at hmem
    simp at hmem
  rw [total, hnil]
  rfl

theorem total_nonneg {weight : β → Int} {t : ExtTreeMap α β}
    (h : ∀ (k : α) (v : β), t[k]? = some v → 0 ≤ weight v) : 0 ≤ total weight t := by
  apply List.sum_nonneg
  intro x hx
  obtain ⟨⟨k, v⟩, hmem, rfl⟩ := List.mem_map.mp hx
  exact h k v (ExtTreeMap.mem_toList_iff_getElem?_eq_some.mp hmem)

variable [DecidableEq α]

theorem toList_erase_perm {t : ExtTreeMap α β} {k : α} {v : β} (h : t[k]? = some v) :
    t.toList.Perm ((k, v) :: (t.erase k).toList) := by
  have absent : (k, v) ∉ (t.erase k).toList := by
    simp
  rw [List.perm_ext_iff_of_nodup (toList_nodup t) (List.nodup_cons.mpr ⟨absent, toList_nodup _⟩)]
  rintro ⟨a, b⟩
  rw [List.mem_cons, ExtTreeMap.mem_toList_iff_getElem?_eq_some,
    ExtTreeMap.mem_toList_iff_getElem?_eq_some, ExtTreeMap.getElem?_erase]
  by_cases he : a = k
  · subst he
    simp [h, eq_comm]
  · have hne : ¬ k = a := fun hk => he hk.symm
    simp [he, hne]

section

variable (weight : β → Int) (t : ExtTreeMap α β) (k : α)

/-- The total is the weight under one key and the total of the other entries. -/
theorem total_eq_erase : total weight t = (t[k]?.map weight).getD 0 + total weight (t.erase k) := by
  cases h : t[k]? with
  | some v => simp [total, ((toList_erase_perm h).map _).sum_eq]
  | none =>
    have same : t.erase k = t := by
      apply ExtTreeMap.ext_getElem?
      intro a
      rw [ExtTreeMap.getElem?_erase]
      by_cases he : a = k
      · simp [he, h]
      · have hne : ¬ k = a := fun hk => he hk.symm
        simp [hne]
    simp [same]

theorem total_insert (v : β) :
    total weight (t.insert k v) = weight v + total weight (t.erase k) := by
  have same : (t.insert k v).erase k = t.erase k := by
    apply ExtTreeMap.ext_getElem?
    intro a
    rw [ExtTreeMap.getElem?_erase, ExtTreeMap.getElem?_erase,
      ExtTreeMap.getElem?_insert]
    split <;> simp_all
  rw [total_eq_erase weight _ k, same]
  simp

end

end Map

/-! ## Lists -/

/-- The values that an accumulator takes. -/
def runningTotals (start : Int) (amounts : List Int) : List Int :=
  amounts.scanl (· + ·) start

/-- The running totals of amounts that are not negative lie between the start
and the end. -/
theorem runningTotals_bounds {start : Int} {amounts : List Int} (h : ∀ x ∈ amounts, 0 ≤ x) :
    ∀ t ∈ runningTotals start amounts, start ≤ t ∧ t ≤ start + amounts.sum := by
  induction amounts generalizing start with
  | nil => simp [runningTotals]
  | cons x xs ih =>
    have hx := h x List.mem_cons_self
    have htail := fun y hy => h y (List.mem_cons_of_mem x hy)
    have hsum : 0 ≤ xs.sum := List.sum_nonneg htail
    intro t ht
    rw [runningTotals, List.scanl_cons, List.mem_cons] at ht
    rw [List.sum_cons]
    rcases ht with rfl | ht
    · omega
    · have := ih htail t ht
      omega

end KubuCore.Totals
