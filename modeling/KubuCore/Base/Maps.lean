import Mathlib

/-!
# Ordered maps

Facts about `Std.ExtTreeMap` over a lawful order that the development uses in
several places.
-/

namespace KubuCore.Maps

open Std

variable {α β : Type} [Ord α] [TransOrd α]

theorem toList_nodup (t : ExtTreeMap α β) : t.toList.Nodup := by
  refine t.distinct_keys_toList.imp ?_
  rintro a b hne rfl
  exact hne ReflCmp.compare_self

variable [LawfulEqOrd α] [DecidableEq α]

/-- `emplace` keeps the value of a key that has one. -/
theorem getElem?_insertIfNew (t : ExtTreeMap α β) (k : α) (v : β) (a : α) :
    (t.insertIfNew k v)[a]? = if k = a then some (t[a]?.getD v) else t[a]? := by
  simp only [ExtTreeMap.getElem?_insertIfNew, ExtTreeMap.mem_iff_isSome_getElem?]
  by_cases he : k = a
  · subst he
    cases t[k]? <;> simp
  · simp [he]

theorem getElem?_insertIfNew_of_absent {t : ExtTreeMap α β} {k : α} (h : t[k]? = none)
    (v : β) (a : α) : (t.insertIfNew k v)[a]? = if k = a then some v else t[a]? := by
  rw [getElem?_insertIfNew]
  split
  · subst a
    rw [h, Option.getD_none]
  · rfl

theorem getElem?_foldl_insertIfNew (keys : List α) (value : α → β) (t : ExtTreeMap α β) (a : α) :
    (keys.foldl (fun t k => t.insertIfNew k (value k)) t)[a]? =
      if a ∈ keys then some (t[a]?.getD (value a)) else t[a]? := by
  induction keys generalizing t with
  | nil => simp
  | cons k keys ih =>
    rw [List.foldl_cons, ih, getElem?_insertIfNew]
    by_cases he : k = a
    · subst he
      simp
    · have hne : a ≠ k := fun h => he h.symm
      simp [he, hne]

/-! ## Writing one map into another -/

/-- Set or remove the value of a key. -/
def put (t : ExtTreeMap α β) (k : α) : Option β → ExtTreeMap α β
  | some v => t.insert k v
  | none => t.erase k

theorem getElem?_put (t : ExtTreeMap α β) (k : α) (v : Option β) (a : α) :
    (put t k v)[a]? = if k = a then v else t[a]? := by
  cases v with
  | none => simp [put, ExtTreeMap.getElem?_erase]
  | some v => simp [put, ExtTreeMap.getElem?_insert]

variable {γ ε : Type} {write : Option β → γ → Except ε (Option β)}

/-- Write items into a map one after the other. What is written may depend on
the value that is there, and a write may fail. -/
def writeAll (write : Option β → γ → Except ε (Option β)) (t : ExtTreeMap α β)
    (items : List (α × γ)) : Except ε (ExtTreeMap α β) :=
  items.foldlM (fun t item => do pure (put t item.1 (← write t[item.1]? item.2))) t

/-- Under distinct keys every item meets the value that was there at the start. -/
theorem writeAll_spec {items : List (α × γ)} (nodup : (items.map Prod.fst).Nodup)
    (t : ExtTreeMap α β) (total : ∀ item ∈ items, ∃ v, write t[item.1]? item.2 = .ok v) :
    ∃ t', writeAll write t items = .ok t' ∧
      (∀ item ∈ items, write t[item.1]? item.2 = .ok t'[item.1]?) ∧
      ∀ k, k ∉ items.map Prod.fst → t'[k]? = t[k]? := by
  induction items generalizing t with
  | nil => exact ⟨t, rfl, by simp, fun _ _ => rfl⟩
  | cons item items ih =>
    obtain ⟨k, g⟩ := item
    rw [List.map_cons, List.nodup_cons] at nodup
    obtain ⟨hfresh, nodup⟩ := nodup
    obtain ⟨v, hv⟩ := total (k, g) List.mem_cons_self
    have others : ∀ item ∈ items, (put t k v)[item.1]? = t[item.1]? := by
      intro item hitem
      have hne : k ≠ item.1 := by
        intro he
        exact hfresh (List.mem_map.mpr ⟨item, hitem, he.symm⟩)
      rw [getElem?_put, if_neg hne]
    obtain ⟨t', hrun, hwritten, hrest⟩ := ih nodup (put t k v) (by
      intro item hitem
      rw [others item hitem]
      exact total item (List.mem_cons_of_mem _ hitem))
    refine ⟨t', ?_, ?_, ?_⟩
    · rw [writeAll, List.foldlM_cons, hv]
      exact hrun
    · intro item hitem
      rcases List.mem_cons.mp hitem with rfl | hitem
      · rw [hrest k hfresh, getElem?_put, if_pos rfl, hv]
      · rw [← others item hitem]
        exact hwritten item hitem
    · intro a ha
      rw [List.map_cons, List.mem_cons, not_or] at ha
      rw [hrest a ha.2, getElem?_put, if_neg (Ne.symm ha.1)]

/-- Writing a map into another. -/
theorem writeAll_toList (write : Option β → γ → Except ε (Option β))
    {s : ExtTreeMap α γ} {t : ExtTreeMap α β}
    (total : ∀ (k : α) (g : γ), s[k]? = some g → ∃ v, write t[k]? g = .ok v) :
    ∃ t', writeAll write t s.toList = .ok t' ∧
      (∀ (k : α) (g : γ), s[k]? = some g → write t[k]? g = .ok t'[k]?) ∧
      ∀ k : α, s[k]? = none → t'[k]? = t[k]? := by
  have nodup : (s.toList.map Prod.fst).Nodup := by
    rw [List.nodup_iff_pairwise_ne, List.pairwise_map]
    refine s.distinct_keys_toList.imp ?_
    intro a b hne he
    rw [he] at hne
    exact hne ReflCmp.compare_self
  have member : ∀ (k : α) (g : γ), (k, g) ∈ s.toList ↔ s[k]? = some g := fun k g =>
    ExtTreeMap.mem_toList_iff_getElem?_eq_some
  obtain ⟨t', hrun, hwritten, hrest⟩ := writeAll_spec nodup t (by
    intro item hitem
    exact total item.1 item.2 ((member _ _).mp hitem))
  refine ⟨t', hrun, fun k g hk => hwritten (k, g) ((member k g).mpr hk), ?_⟩
  intro k hk
  refine hrest k ?_
  intro hmem
  obtain ⟨item, hitem, rfl⟩ := List.mem_map.mp hmem
  have := (member item.1 item.2).mp hitem
  rw [hk] at this
  cases this

end KubuCore.Maps
