import Mathlib

/-!
# Row stores and write batches

A store of typed rows, and batches of row operations applied in the order in
which they were queued. A batch is built against the store as it was before
the batch, so every fact about it is a fact about the last operation that
names a row:

* `get?_of_untouched`: a row no operation names keeps its value;
* `get?_write_last`, `get?_erase_last`: the last operation naming a row
  decides it;
* `get?_flatMap_of_unique`: in a batch assembled from blocks of operations,
  one block per item, a row named by one block only has the value that block
  alone gives it;
* `get?_writes`, `get?_erases`: batches of one kind of operation.
-/

namespace KubuCore.Rows

open Std

variable {K : Type} {V : K → Type}

/-- One queued operation of a write batch. -/
inductive RowOp (V : K → Type) where
  | write (k : K) (v : V k)
  | erase (k : K)

def RowOp.key : RowOp V → K
  | .write k _ => k
  | .erase k => k

/-- Some operation of the batch names the row `k`. -/
def Touches (ops : List (RowOp V)) (k : K) : Prop := ∃ op ∈ ops, op.key = k

@[simp] theorem key_write (k : K) (v : V k) : (RowOp.write k v).key = k := rfl

@[simp] theorem key_erase (k : K) : (RowOp.erase (V := V) k).key = k := rfl

@[simp] theorem touches_append {a b : List (RowOp V)} {k : K} :
    Touches (a ++ b) k ↔ Touches a k ∨ Touches b k := by
  simp only [Touches, List.mem_append, or_and_right, exists_or]

@[simp] theorem touches_cons {op : RowOp V} {ops : List (RowOp V)} {k : K} :
    Touches (op :: ops) k ↔ op.key = k ∨ Touches ops k := by
  simp only [Touches, List.mem_cons, exists_eq_or_imp]

@[simp] theorem not_touches_nil (k : K) : ¬ Touches ([] : List (RowOp V)) k := by
  simp [Touches]

@[simp] theorem touches_map {α : Type} {items : List α} {f : α → RowOp V} {k : K} :
    Touches (items.map f) k ↔ ∃ x ∈ items, (f x).key = k := by
  simp [Touches]

@[simp] theorem touches_flatMap {α : Type} {items : List α} {f : α → List (RowOp V)} {k : K} :
    Touches (items.flatMap f) k ↔ ∃ x ∈ items, Touches (f x) k := by
  simp only [Touches, List.mem_flatMap]
  grind

variable [Ord K] [TransOrd K]

/-- Rows keyed by `K`, the row at `k` holding a `V k`. -/
abbrev Store (V : K → Type) := ExtDTreeMap K V compare

def RowOp.apply (db : Store V) : RowOp V → Store V
  | .write k v => db.insert k v
  | .erase k => db.erase k

/-- Apply the queued operations, oldest first. -/
def writeBatch (db : Store V) (ops : List (RowOp V)) : Store V :=
  ops.foldl RowOp.apply db

@[simp] theorem writeBatch_nil (db : Store V) : writeBatch db [] = db := rfl

@[simp] theorem writeBatch_cons (db : Store V) (op : RowOp V) (ops : List (RowOp V)) :
    writeBatch db (op :: ops) = writeBatch (op.apply db) ops := rfl

theorem writeBatch_append (db : Store V) (a b : List (RowOp V)) :
    writeBatch db (a ++ b) = writeBatch (writeBatch db a) b := by
  simp only [writeBatch, List.foldl_append]

variable [LawfulEqOrd K]

section

variable (db : Store V)

@[simp] theorem get?_apply_write_self (k : K) (v : V k) :
    ((RowOp.write k v).apply db).get? k = some v := by
  simp [RowOp.apply]

@[simp] theorem get?_apply_erase_self (k : K) :
    ((RowOp.erase k : RowOp V).apply db).get? k = none := by
  simp [RowOp.apply]

theorem get?_apply_of_ne {op : RowOp V} {k : K} (h : op.key ≠ k) :
    (op.apply db).get? k = db.get? k := by
  cases op with
  | write j v =>
    have hc : compare j k ≠ .eq := fun e => h (LawfulEqOrd.eq_of_compare e)
    simp [RowOp.apply, ExtDTreeMap.get?_insert, hc]
  | erase j =>
    have hc : compare j k ≠ .eq := fun e => h (LawfulEqOrd.eq_of_compare e)
    simp [RowOp.apply, ExtDTreeMap.get?_erase, hc]

theorem get?_of_untouched {ops : List (RowOp V)} {k : K} (h : ¬ Touches ops k) :
    (writeBatch db ops).get? k = db.get? k := by
  induction ops generalizing db with
  | nil => rfl
  | cons op ops ih =>
    rw [touches_cons, not_or] at h
    rw [writeBatch_cons, ih _ h.2, get?_apply_of_ne db h.1]

/-- A later part of a batch that does not name `k` leaves the row to the
earlier part. -/
theorem get?_append_of_untouched {a b : List (RowOp V)} {k : K} (h : ¬ Touches b k) :
    (writeBatch db (a ++ b)).get? k = (writeBatch db a).get? k := by
  rw [writeBatch_append, get?_of_untouched _ h]

end

/-- What a batch makes of the row `k` depends only on that row. -/
theorem get?_congr {db db' : Store V} {k : K} (h : db.get? k = db'.get? k)
    (ops : List (RowOp V)) : (writeBatch db ops).get? k = (writeBatch db' ops).get? k := by
  induction ops generalizing db db' with
  | nil => exact h
  | cons op ops ih =>
    apply ih
    by_cases ho : op.key = k
    · subst ho
      cases op <;> simp
    · rw [get?_apply_of_ne _ ho, get?_apply_of_ne _ ho, h]

section

variable (db : Store V)

variable {a b : List (RowOp V)} {k : K}

/-- An earlier part of a batch that does not name `k` can be skipped. -/
theorem get?_append_of_untouched_left (h : ¬ Touches a k) :
    (writeBatch db (a ++ b)).get? k = (writeBatch db b).get? k := by
  rw [writeBatch_append]
  exact get?_congr (get?_of_untouched db h) b

/-- So can a part in the middle. -/
theorem get?_append_of_untouched_middle {c : List (RowOp V)} (h : ¬ Touches b k) :
    (writeBatch db (a ++ b ++ c)).get? k = (writeBatch db (a ++ c)).get? k := by
  rw [List.append_assoc, writeBatch_append, get?_append_of_untouched_left _ h, writeBatch_append]

theorem get?_write_last (a b : List (RowOp V)) (v : V k) (h : ¬ Touches b k) :
    (writeBatch db (a ++ .write k v :: b)).get? k = some v := by
  rw [writeBatch_append, writeBatch_cons, get?_of_untouched _ h, get?_apply_write_self]

theorem get?_erase_last (a b : List (RowOp V)) (h : ¬ Touches b k) :
    (writeBatch db (a ++ .erase k :: b)).get? k = none := by
  rw [writeBatch_append, writeBatch_cons, get?_of_untouched _ h, get?_apply_erase_self]

/-- A row that only the block of `x` names has the value that block alone
gives it, wherever the block stands in the batch. -/
theorem get?_flatMap_of_unique {α : Type} {items : List α} {f : α → List (RowOp V)} {x : α}
    (hd : items.Nodup) (hx : x ∈ items) (hu : ∀ y ∈ items, y ≠ x → ¬ Touches (f y) k) :
    (writeBatch db (items.flatMap f)).get? k = (writeBatch db (f x)).get? k := by
  obtain ⟨before, after, rfl⟩ := List.append_of_mem hx
  rw [List.nodup_append] at hd
  obtain ⟨-, hd, hne⟩ := hd
  have hb : ¬ Touches (before.flatMap f) k := by
    rw [touches_flatMap]
    rintro ⟨y, hy, ht⟩
    exact hu y (by simp [hy]) (hne y hy x (by simp)) ht
  have ha : ¬ Touches (after.flatMap f) k := by
    rw [touches_flatMap]
    rintro ⟨y, hy, ht⟩
    refine hu y (by simp [hy]) ?_ ht
    rintro rfl
    exact (List.nodup_cons.mp hd).1 hy
  rw [List.flatMap_append, List.flatMap_cons, get?_append_of_untouched_left db hb,
    get?_append_of_untouched db ha]

/-- Every key of a batch of erasures ends up absent. -/
theorem get?_erases {keys : List K} (h : k ∈ keys) :
    (writeBatch db (keys.map .erase)).get? k = none := by
  induction keys generalizing db with
  | nil => cases h
  | cons j keys ih =>
    rw [List.map_cons, writeBatch_cons]
    by_cases hk : k ∈ keys
    · exact ih _ hk
    · obtain rfl := (List.mem_cons.mp h).resolve_right hk
      rw [get?_of_untouched, get?_apply_erase_self]
      rintro ⟨op, ho, he⟩
      obtain ⟨j, hj, rfl⟩ := List.mem_map.mp ho
      exact hk (he ▸ hj)

/-- Every key of a batch of writes ends up with one of the values written
under it. -/
theorem get?_writes {α : Type} {items : List α} (key : α → K) (val : (x : α) → V (key x))
    (h : ∃ x ∈ items, key x = k) :
    ∃ x ∈ items, ∃ e : key x = k,
      (writeBatch db (items.map fun x => .write (key x) (val x))).get? k = some (e ▸ val x) := by
  induction items generalizing db with
  | nil => simp at h
  | cons y items ih =>
    rw [List.map_cons, writeBatch_cons]
    by_cases hk : ∃ x ∈ items, key x = k
    · obtain ⟨x, hx, e, he⟩ := ih ((RowOp.write (key y) (val y)).apply db) hk
      exact ⟨x, List.mem_cons_of_mem _ hx, e, he⟩
    · obtain ⟨x, hx, rfl⟩ := h
      obtain rfl | hx := List.mem_cons.mp hx
      · refine ⟨x, List.mem_cons_self, rfl, ?_⟩
        rw [get?_of_untouched, get?_apply_write_self]
        rintro ⟨op, ho, he⟩
        obtain ⟨z, hz, rfl⟩ := List.mem_map.mp ho
        exact hk ⟨z, hz, he⟩
      · exact absurd ⟨x, hx, rfl⟩ hk

end

/-! ## Iterators -/

/-- An iterator placed at `key`: the keys from the first one not below it. -/
def seek (db : Store V) (key : K) : List K :=
  db.keys.dropWhile fun k => compare k key == .lt

section

variable {α : Type} {items : List α} {p : α → Bool}
  (closed : items.Pairwise fun x y => p y = true → p x = true)
include closed

/-- Where `p` holds before what it holds of, a scan stops after all of them. -/
theorem takeWhile_eq_filter : items.takeWhile p = items.filter p := by
  induction closed with
  | nil => rfl
  | @cons x items hx _ ih =>
    by_cases hp : p x = true
    · rw [List.takeWhile_cons_of_pos hp, List.filter_cons_of_pos hp, ih]
    · rw [List.takeWhile_cons_of_neg hp, List.filter_cons_of_neg hp, eq_comm,
        List.filter_eq_nil_iff]
      exact fun y hy hpy => hp (hx y hy hpy)

theorem dropWhile_eq_filter : items.dropWhile p = items.filter fun x => !p x := by
  induction closed with
  | nil => rfl
  | @cons x items hx _ ih =>
    by_cases hp : p x = true
    · simp [hp, ih]
    · rw [List.dropWhile_cons_of_neg hp, List.filter_eq_self.mpr]
      refine List.forall_mem_cons.mpr ⟨by simpa using hp, fun y hy => ?_⟩
      simpa using fun hpy => hp (hx y hy hpy)

end

omit [LawfulEqOrd K] in
/-- A scan that starts at `key` and stops at the first key without `p` meets
every key with `p` from there on, if the keys with `p` are adjacent. -/
theorem mem_seek_takeWhile (db : Store V) {key : K} {p : K → Bool}
    (convex : ∀ x y, compare x key ≠ .lt → compare x y = .lt → p y = true → p x = true) {k : K} :
    k ∈ (seek db key).takeWhile p ↔ k ∈ db.keys ∧ compare k key ≠ .lt ∧ p k = true := by
  have ordered := ExtDTreeMap.ordered_keys (t := db)
  rw [seek, dropWhile_eq_filter (ordered.imp fun hlt hy => ?_), takeWhile_eq_filter]
  · rw [List.mem_filter, List.mem_filter, and_assoc]
    simp
  · refine (ordered.filter _).imp_of_mem fun hx _ => convex _ _ ?_
    simpa using (List.mem_filter.mp hx).2
  · simpa using TransCmp.lt_trans hlt (by simpa using hy)

end KubuCore.Rows
