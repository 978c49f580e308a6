import Mathlib

/-!
# Lineages

A finite graph of parents and children. The lineage of a node is the node with
its ancestors, its progeny the node with its descendants. The lemmas say how both
change when a node without children is added and when nodes are cut off.
-/

namespace KubuCore.Lineage

/-- Finitely many nodes, with edges from parents to children among them. -/
structure Graph (α : Type) where
  nodes : Finset α
  Parent : α → α → Prop
  parent_mem : ∀ {p c}, Parent p c → p ∈ nodes
  child_mem : ∀ {p c}, Parent p c → c ∈ nodes

namespace Graph

variable {α : Type} (g : Graph α)

/-- The first node is the second or an ancestor of it. -/
def Above : α → α → Prop := Relation.ReflTransGen g.Parent

open Classical in
noncomputable def lineage (x : α) : Finset α := g.nodes.filter fun a => g.Above a x

open Classical in
noncomputable def progeny (x : α) : Finset α := g.nodes.filter fun d => g.Above x d

@[simp] theorem mem_lineage {a x : α} : a ∈ g.lineage x ↔ a ∈ g.nodes ∧ g.Above a x := by
  simp [lineage]

@[simp] theorem mem_progeny {x d : α} : d ∈ g.progeny x ↔ d ∈ g.nodes ∧ g.Above x d := by
  simp [progeny]

/-- The graph with its edges turned round. -/
def reverse : Graph α := ⟨g.nodes, fun c p => g.Parent p c, g.child_mem, g.parent_mem⟩

theorem above_reverse {a x : α} : g.reverse.Above a x ↔ g.Above x a :=
  Relation.reflTransGen_swap

theorem lineage_reverse (x : α) : g.reverse.lineage x = g.progeny x := by
  ext a
  rw [mem_lineage, mem_progeny, above_reverse]
  rfl

theorem progeny_reverse (x : α) : g.reverse.progeny x = g.lineage x := by
  ext a
  rw [mem_lineage, mem_progeny, above_reverse]
  rfl

variable {g}

/-- Only a node of the graph is above a node of the graph. -/
theorem Above.mem {a x : α} (h : g.Above a x) (hx : x ∈ g.nodes) : a ∈ g.nodes := by
  rcases Relation.ReflTransGen.cases_head h with rfl | ⟨b, hb, -⟩
  · exact hx
  · exact g.parent_mem hb

theorem Above.mem_below {a x : α} (h : g.Above a x) (ha : a ∈ g.nodes) : x ∈ g.nodes := by
  rcases Relation.ReflTransGen.cases_tail h with rfl | ⟨b, -, hb⟩
  · exact ha
  · exact g.child_mem hb

/-- What follows a node of a closed set is in the set. -/
theorem Above.closed {S : Set α} (closed : ∀ p c, g.Parent p c → p ∈ S → c ∈ S) {a x : α}
    (h : g.Above a x) (ha : a ∈ S) : x ∈ S := by
  induction h with
  | refl => exact ha
  | tail _ hedge ih => exact closed _ _ hedge ih

/-! ## A new leaf -/

/-- A new node without children, below some nodes of the graph. -/
structure AddsLeaf (x : α) (P : Set α) (g g' : Graph α) : Prop where
  fresh : x ∉ g.nodes
  nodes : ∀ z, z ∈ g'.nodes ↔ z = x ∨ z ∈ g.nodes
  parents : ∀ p c, g'.Parent p c ↔ g.Parent p c ∨ (c = x ∧ p ∈ P)
  inside : ∀ p ∈ P, p ∈ g.nodes

namespace AddsLeaf

variable {x : α} {P : Set α} {g' : Graph α} (h : AddsLeaf x P g g')

include h

theorem above_old {a z : α} (hz : z ≠ x) : g'.Above a z ↔ g.Above a z := by
  constructor
  · intro path
    induction path with
    | refl => exact .refl
    | @tail y z _ hedge ih =>
      rcases (h.parents y z).mp hedge with hold | ⟨he, -⟩
      · have hy : y ≠ x := fun he => h.fresh (he ▸ g.parent_mem hold)
        exact (ih hy).tail hold
      · exact absurd he hz
  · intro path
    exact Relation.ReflTransGen.mono (fun p c hedge => (h.parents p c).mpr (.inl hedge)) a z path

theorem above_new {a : α} : g'.Above a x ↔ a = x ∨ ∃ p ∈ P, g.Above a p := by
  constructor
  · intro path
    rcases Relation.ReflTransGen.cases_tail path with rfl | ⟨y, path, hedge⟩
    · exact .inl rfl
    · rcases (h.parents y x).mp hedge with hold | ⟨-, hy⟩
      · exact absurd (g.child_mem hold) h.fresh
      · have hne : y ≠ x := fun he => h.fresh (he ▸ h.inside y hy)
        exact .inr ⟨y, hy, (h.above_old hne).mp path⟩
  · rintro (rfl | ⟨p, hp, path⟩)
    · exact .refl
    · have hne : p ≠ x := fun he => h.fresh (he ▸ h.inside p hp)
      exact ((h.above_old hne).mpr path).tail ((h.parents p x).mpr (.inr ⟨rfl, hp⟩))

theorem lineage_old {z : α} (hz : z ∈ g.nodes) : g'.lineage z = g.lineage z := by
  have hne : z ≠ x := fun he => h.fresh (he ▸ hz)
  ext a
  rw [mem_lineage, mem_lineage, h.above_old hne, h.nodes]
  constructor
  · rintro ⟨-, path⟩
    exact ⟨path.mem hz, path⟩
  · rintro ⟨ha, path⟩
    exact ⟨.inr ha, path⟩

theorem lineage_new [DecidableEq α] {S : Finset α} (hS : ∀ a, a ∈ S ↔ ∃ p ∈ P, g.Above a p) :
    g'.lineage x = insert x S := by
  ext a
  rw [mem_lineage, h.above_new, h.nodes, Finset.mem_insert, hS]
  refine ⟨And.right, ?_⟩
  rintro (rfl | ⟨p, hp, path⟩)
  · exact ⟨.inl rfl, .inl rfl⟩
  · exact ⟨.inr (path.mem (h.inside p hp)), .inr ⟨p, hp, path⟩⟩

theorem notMem_progeny (z : α) : x ∉ g.progeny z := fun hx => h.fresh ((mem_progeny _).mp hx).1

theorem progeny_new : g'.progeny x = {x} := by
  ext d
  rw [mem_progeny, Finset.mem_singleton]
  constructor
  · rintro ⟨-, path⟩
    rcases Relation.ReflTransGen.cases_head path with rfl | ⟨y, hedge, -⟩
    · rfl
    · -- An edge that leaves the new node would have been there before.
      rcases (h.parents x y).mp hedge with hold | ⟨-, hx⟩
      · exact absurd (g.parent_mem hold) h.fresh
      · exact absurd (h.inside x hx) h.fresh
  · rintro rfl
    exact ⟨(h.nodes d).mpr (.inl rfl), .refl⟩

theorem progeny_above [DecidableEq α] {z : α} (above : ∃ p ∈ P, g.Above z p) :
    g'.progeny z = insert x (g.progeny z) := by
  ext d
  rw [Finset.mem_insert, mem_progeny, h.nodes]
  by_cases hd : d = x
  · subst hd
    exact iff_of_true ⟨.inl rfl, h.above_new.mpr (.inr above)⟩ (.inl rfl)
  · rw [h.above_old hd]
    simp [hd]

theorem progeny_aside {z : α} (hz : z ∈ g.nodes) (aside : ¬ ∃ p ∈ P, g.Above z p) :
    g'.progeny z = g.progeny z := by
  have hne : z ≠ x := fun he => h.fresh (he ▸ hz)
  ext d
  rw [mem_progeny, mem_progeny, h.nodes]
  by_cases hd : d = x
  · subst hd
    refine iff_of_false ?_ fun hc => h.fresh hc.1
    rintro ⟨-, path⟩
    exact (h.above_new.mp path).elim hne aside
  · rw [h.above_old hd]
    simp [hd]

end AddsLeaf

/-! ## Cutting nodes off -/

/-- Nodes are gone together with everything below them. -/
structure Cuts (S : Set α) (g g' : Graph α) : Prop where
  closed : ∀ p c, g.Parent p c → p ∈ S → c ∈ S
  nodes : ∀ z, z ∈ g'.nodes ↔ z ∈ g.nodes ∧ z ∉ S
  parents : ∀ p c, g'.Parent p c ↔ g.Parent p c ∧ c ∉ S

namespace Cuts

variable {S : Set α} {g' : Graph α} (h : Cuts S g g')

include h

theorem above {a z : α} (hz : z ∉ S) : g'.Above a z ↔ g.Above a z := by
  constructor
  · intro path
    exact Relation.ReflTransGen.mono (fun p c hedge => ((h.parents p c).mp hedge).1) a z path
  · intro path
    induction path with
    | refl => exact .refl
    | @tail y z _ hedge ih =>
      have hy : y ∉ S := fun hy => hz (h.closed y z hedge hy)
      exact (ih hy).tail ((h.parents y z).mpr ⟨hedge, hz⟩)

theorem lineage {z : α} (hz : z ∉ S) : g'.lineage z = g.lineage z := by
  ext a
  rw [mem_lineage, mem_lineage, h.above hz, h.nodes]
  constructor
  · rintro ⟨⟨ha, -⟩, path⟩
    exact ⟨ha, path⟩
  · rintro ⟨ha, path⟩
    exact ⟨⟨ha, fun hS => hz (path.closed h.closed hS)⟩, path⟩

theorem mem_progeny_iff {z d : α} : d ∈ g'.progeny z ↔ d ∈ g.progeny z ∧ d ∉ S := by
  rw [mem_progeny, mem_progeny, h.nodes]
  by_cases hd : d ∈ S
  · exact iff_of_false (fun hc => hc.1.2 hd) fun hc => hc.2 hd
  · rw [h.above hd]
    tauto

end Cuts

/-! ## Parents first -/

/-- Each node of the list is new, and comes after all its parents. -/
inductive Listed (g : Graph α) : List α → Prop where
  | nil : Listed g []
  | snoc {l : List α} {x : α} (listed : Listed g l) (node : x ∈ g.nodes) (new : x ∉ l)
      (ready : ∀ p, g.Parent p x → p ∈ l) : Listed g (l ++ [x])

variable {l xs : List α}

theorem Listed.spec (h : g.Listed l) :
    l.Nodup ∧ (∀ x ∈ l, x ∈ g.nodes) ∧ ∀ p c, g.Parent p c → c ∈ l → p ∈ l := by
  induction h with
  | nil => simp
  | @snoc l x _ node new ready ih =>
    obtain ⟨nodup, nodes, closed⟩ := ih
    refine ⟨?_, List.forall_mem_append.mpr ⟨nodes, by simpa using node⟩, ?_⟩
    · refine List.nodup_append.mpr ⟨nodup, List.nodup_singleton x, fun y hy z hz => ?_⟩
      exact ne_of_mem_of_not_mem hy (List.mem_singleton.mp hz ▸ new)
    intro p c hp hc
    refine List.mem_append_left _ ?_
    rcases List.mem_append.mp hc with hc | hc
    · exact closed p c hp hc
    · exact ready p (List.mem_singleton.mp hc ▸ hp)

theorem Listed.above (h : g.Listed l) {a c : α} (path : g.Above a c) (hc : c ∈ l) : a ∈ l :=
  Above.closed (g := g.reverse) (S := {x | x ∈ l}) (fun _ _ hp hc => h.spec.2.2 _ _ hp hc)
    ((above_reverse g).mpr path) hc

/-- Nodes in the order of a rank that rises from parents to children. -/
theorem Listed.append_sorted {rank : α → Int} (rises : ∀ p c, g.Parent p c → rank p < rank c)
    (h : g.Listed l) (nodup : xs.Nodup) (outside : ∀ x ∈ xs, x ∈ g.nodes ∧ x ∉ l)
    (ready : ∀ x ∈ xs, ∀ p, g.Parent p x → p ∈ l ∨ p ∈ xs)
    (sorted : xs.Pairwise fun a b => rank a ≤ rank b) : g.Listed (l ++ xs) := by
  induction xs generalizing l with
  | nil => rwa [List.append_nil]
  | cons x xs ih =>
    obtain ⟨hx, hrest⟩ := List.forall_mem_cons.mp outside
    obtain ⟨hfirst, hsorted⟩ := List.pairwise_cons.mp sorted
    obtain ⟨hfresh, hnodup⟩ := List.nodup_cons.mp nodup
    have hready : ∀ p, g.Parent p x → p ∈ l := by
      intro p hp
      have hless := rises p x hp
      refine (ready x List.mem_cons_self p hp).resolve_right fun h => ?_
      rcases List.mem_cons.mp h with rfl | h
      · exact lt_irrefl _ hless
      · exact not_lt.mpr (hfirst p h) hless
    rw [List.append_cons]
    refine ih (h.snoc hx.1 hx.2 hready) hnodup (fun y hy => ⟨(hrest y hy).1, ?_⟩) ?_ hsorted
    · simp [(hrest y hy).2, ne_of_mem_of_not_mem hy hfresh]
    · intro y hy p hp
      rcases ready y (List.mem_cons_of_mem _ hy) p hp with h | h
      · exact .inl (List.mem_append_left _ h)
      · exact (List.mem_cons.mp h).imp_left fun h => by simp [h]

end Graph

end KubuCore.Lineage
