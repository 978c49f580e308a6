import Mathlib

/-!
# Ordered sets

Facts about `Std.ExtTreeSet` over a lawful order, and about loops over such a
set that change a map.
-/

namespace KubuCore.Sets

open Std

variable {α β : Type} [Ord α] [TransOrd α]

theorem nodup_toList (s : ExtTreeSet α) : s.toList.Nodup := by
  refine s.distinct_toList.imp ?_
  rintro a b hne rfl
  exact hne ReflCmp.compare_self

theorem nodup_keys (t : ExtTreeMap α β) : t.keys.Nodup := by
  refine t.distinct_keys.imp ?_
  rintro a b hne rfl
  exact hne ReflCmp.compare_self

theorem mem_iff_exists {t : ExtTreeMap α β} {a : α} : a ∈ t ↔ ∃ v, t[a]? = some v := by
  rw [ExtTreeMap.mem_iff_isSome_getElem?, Option.isSome_iff_exists]

variable [LawfulEqOrd α]

variable {s : ExtTreeSet α} {x z : α}

/-- The least element, at the beginning of the set. -/
def first? (s : ExtTreeSet α) : Option α := s.toList.head?

theorem mem_of_first? (h : first? s = some x) : x ∈ s :=
  ExtTreeSet.mem_toList.mp (List.mem_of_head? h)

theorem not_mem_of_first? (h : first? s = none) : z ∉ s := by
  rw [first?, List.head?_eq_none_iff] at h
  rw [← ExtTreeSet.mem_toList, h]
  exact List.not_mem_nil

@[simp] theorem mem_insert_iff : z ∈ s.insert x ↔ z = x ∨ z ∈ s := by
  rw [ExtTreeSet.mem_insert, LawfulEqCmp.compare_eq_iff_eq, eq_comm]

@[simp] theorem mem_erase_iff : z ∈ s.erase x ↔ z ≠ x ∧ z ∈ s := by
  rw [ExtTreeSet.mem_erase, ne_eq, LawfulEqCmp.compare_eq_iff_eq, eq_comm]

/-- Inserting the items of a list that qualify. -/
theorem mem_foldl_insert {γ : Type} (items : List γ) (key : γ → Option α) (s : ExtTreeSet α)
    (z : α) :
    z ∈ items.foldl (fun s item => match key item with
        | some x => s.insert x
        | none => s) s ↔ z ∈ s ∨ ∃ item ∈ items, key item = some z := by
  induction items generalizing s with
  | nil => simp
  | cons item items ih =>
    rw [List.foldl_cons, ih]
    cases hkey : key item with
    | none => simp [hkey]
    | some x =>
      simp only [mem_insert_iff, List.mem_cons, exists_eq_or_imp, hkey, Option.some.injEq]
      rw [eq_comm, or_assoc]
      exact or_left_comm

theorem mem_insertAll (xs : List α) (s : ExtTreeSet α) (z : α) :
    z ∈ xs.foldl (fun s x => s.insert x) s ↔ z ∈ s ∨ z ∈ xs := by
  simpa using mem_foldl_insert xs some s z

variable [DecidableEq α]

/-- Updating the values of a list of keys. -/
theorem getElem?_foldl_modify {keys : List α} (nodup : keys.Nodup) (update : β → β)
    (t : ExtTreeMap α β) (a : α) :
    (keys.foldl (fun t k => t.modify k update) t)[a]? =
      if a ∈ keys then t[a]?.map update else t[a]? := by
  induction keys generalizing t with
  | nil => simp
  | cons k keys ih =>
    rw [List.nodup_cons] at nodup
    rw [List.foldl_cons, ih nodup.2, ExtTreeMap.getElem?_modify]
    by_cases he : k = a
    · subst he
      simp [nodup.1]
    · have hne : a ≠ k := fun h => he h.symm
      simp [he, hne]

theorem getElem?_foldl_erase (keys : List α) (t : ExtTreeMap α β) (a : α) :
    (keys.foldl (fun t k => t.erase k) t)[a]? = if a ∈ keys then none else t[a]? := by
  induction keys generalizing t with
  | nil => simp
  | cons k keys ih =>
    rw [List.foldl_cons, ih, ExtTreeMap.getElem?_erase]
    by_cases he : k = a
    · simp [he]
    · have hne : a ≠ k := fun h => he h.symm
      simp [he, hne]

end KubuCore.Sets
