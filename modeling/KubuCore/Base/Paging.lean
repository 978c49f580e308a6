import Mathlib.Data.List.Basic

/-!
# Reading a listing in pages

A client reads a listing page by page. The first page is the start of the
listing; each later one is asked for from the last row of the page before it,
so its first row is a repetition and is dropped. A page with fewer rows than
the limit is the last.

The rows are listed in one order and filtered in another: `after s x` says that
the server, asked to start at `s`, still shows `x`. The client reads the whole
listing exactly when the two orders agree at each row where a page begins.
-/

namespace KubuCore.Paging

variable {α : Type}

/-- The client's loop; `none` when the fuel runs out before a short page. -/
def readPages (page : Option α → List α) (limit : Nat) : Nat → Option α → Option (List α)
  | 0, _ => none
  | fuel + 1, start =>
    let rows := page start
    let fresh := if start.isSome then rows.drop 1 else rows
    if rows.length < limit then some fresh
    else (readPages page limit fuel rows.getLast?).map (fresh ++ ·)

/-- The page that starts at a row: the rows not before it, in the order of the
listing. -/
def pageOf (rows : List α) (after : α → α → Bool) (limit : Nat) : Option α → List α
  | none => rows.take limit
  | some s => (rows.filter (after s)).take limit

/-- At the row `s` between `before` and `rest` the filter cuts where the listing
does. -/
structure Agrees (after : α → α → Bool) (before : List α) (s : α) (rest : List α) : Prop where
  hidden : ∀ x ∈ before, after s x = false
  shown : ∀ x ∈ rest, after s x = true

theorem Agrees.filter {after : α → α → Bool} {before rest : List α} {s : α}
    (h : Agrees after before s rest) (self : after s s = true) :
    (before ++ s :: rest).filter (after s) = s :: rest := by
  have hbefore : before.filter (after s) = [] := by
    rw [List.filter_eq_nil_iff]
    intro x hx
    simp [h.hidden x hx]
  rw [List.filter_append, hbefore, List.nil_append, List.filter_cons, if_pos self,
    List.filter_eq_self.mpr h.shown]

/-- A list with more than `n` elements, split at the `n`-th. -/
theorem exists_split {rows : List α} {n : Nat} (h : n < rows.length) :
    ∃ before s rest, rows = before ++ s :: rest ∧ before.length = n :=
  ⟨rows.take n, rows[n], rows.drop (n + 1), by simp, by simp; omega⟩

/-! ## One page -/

section
variable {page : Option α → List α} {limit fuel : Nat} {start : Option α} {out : List α}

theorem readPages_short (h : (page start).length < limit) :
    readPages page limit (fuel + 1) start =
      some (if start.isSome then (page start).drop 1 else page start) := by
  rw [readPages, if_pos h]

theorem readPages_full (h : limit ≤ (page start).length) :
    readPages page limit (fuel + 1) start =
      (readPages page limit fuel (page start).getLast?).map
        ((if start.isSome then (page start).drop 1 else page start) ++ ·) := by
  rw [readPages, if_neg (by omega)]

/-- What the client takes from a page stands first in what it reads. -/
theorem readPages_fresh (h : readPages page limit (fuel + 1) start = some out) :
    ∃ more, out = (if start.isSome then (page start).drop 1 else page start) ++ more := by
  rcases Nat.lt_or_ge (page start).length limit with hlen | hlen
  · rw [readPages_short hlen] at h
    exact ⟨[], by simpa using (Option.some.inj h).symm⟩
  · rw [readPages_full hlen] at h
    obtain ⟨more, -, rfl⟩ := Option.map_eq_some_iff.mp h
    exact ⟨more, rfl⟩

end

/-! ## All pages

The limit is `k + 2`: a page after the first repeats one row and brings at most
`k + 1` new ones. -/

section
variable {rows : List α} {after : α → α → Bool} {k : Nat}

/-- A full page that begins with `s` ends with the row `k + 1` further on. -/
theorem readPages_step {mid more : List α} {s t : α} {fuel : Nat}
    (h : rows.filter (after s) = s :: (mid ++ t :: more)) (hmid : mid.length = k) :
    readPages (pageOf rows after (k + 2)) (k + 2) (fuel + 1) (some s) =
      (readPages (pageOf rows after (k + 2)) (k + 2) fuel (some t)).map (mid ++ [t] ++ ·) := by
  have hpage : pageOf rows after (k + 2) (some s) = s :: (mid ++ [t]) := by
    rw [pageOf, h, List.take_succ_cons, ← hmid, List.take_length_add_append]
    rfl
  have hlast : (s :: (mid ++ [t])).getLast? = some t := by
    rw [← List.cons_append, List.getLast?_concat]
  rw [readPages_full (by simp [hpage, hmid]), hpage, hlast]
  rfl

/-- A page with all that is left brings it. -/
theorem readPages_end {shown : List α} {s : α} {fuel : Nat}
    (h : rows.filter (after s) = s :: shown) (hlen : shown.length ≤ k) :
    readPages (pageOf rows after (k + 2)) (k + 2) (fuel + 1) (some s) = some shown := by
  have hpage : pageOf rows after (k + 2) (some s) = s :: shown := by
    rw [pageOf, h, List.take_of_length_le (by simp; omega)]
  rw [readPages_short (by simp [hpage]; omega), hpage]
  rfl

/-- If the orders agree at every page that follows, the client reads the rest of
the listing. -/
theorem readPages_of_agrees (self : ∀ s ∈ rows, after s s = true) (fuel : Nat) :
    ∀ {before rest : List α} {s : α}, rows = before ++ s :: rest → rest.length < fuel →
      (∀ j b t r, rows = b ++ t :: r → b.length = before.length + j * (k + 1) →
        Agrees after b t r) →
      readPages (pageOf rows after (k + 2)) (k + 2) fuel (some s) = some rest := by
  induction fuel with
  | zero =>
    omega
  | succ fuel ih =>
    intro before rest s hrows hfuel agrees
    have hfilter : rows.filter (after s) = s :: rest := by
      have hagrees := agrees 0 before s rest hrows (by omega)
      have hself := self s (by simp [hrows])
      rw [hrows, hagrees.filter hself]
    rcases Nat.lt_or_ge k rest.length with hlen | hlen
    · obtain ⟨mid, t, rest', rfl, hmid⟩ := exists_split hlen
      have hrows' : rows = (before ++ s :: mid) ++ t :: rest' := by simp [hrows]
      have hrest : readPages (pageOf rows after (k + 2)) (k + 2) fuel (some t) = some rest' := by
        refine ih hrows' (by simp at hfuel; omega) fun j b u r hb hlength => ?_
        refine agrees (j + 1) b u r hb ?_
        simp only [List.length_append, List.length_cons] at hlength
        rw [Nat.succ_mul]
        omega
      rw [readPages_step hfilter hmid, hrest]
      simp
    · exact readPages_end hfilter hlen

section
variable (nodup : rows.Nodup) (self : ∀ s ∈ rows, after s s = true)
include nodup self

/-- A row before `s` would push `s`, or another such row, into the new part of the page. -/
theorem hidden_of_readPages {before rest : List α} {s : α} {fuel : Nat}
    (hrows : rows = before ++ s :: rest)
    (h : readPages (pageOf rows after (k + 2)) (k + 2) (fuel + 1) (some s) = some rest) :
    before.filter (after s) = [] := by
  cases hf : before.filter (after s) with
  | nil => rfl
  | cons f hidden =>
    have hsplit : rows.filter (after s) = f :: (hidden ++ s :: rest.filter (after s)) := by
      rw [hrows, List.filter_append, hf, List.filter_cons, if_pos (self s (by simp [hrows])),
        List.cons_append]
    obtain ⟨y, ys, hy⟩ : ∃ y ys, hidden ++ s :: rest.filter (after s) = y :: ys := by
      cases hidden <;> simp
    obtain ⟨more, hout⟩ := readPages_fresh h
    have hrest : y ∈ rest := by
      rw [hout, pageOf, hsplit, hy]
      simp
    have hbefore : y ∈ before ∨ y = s := by
      cases hidden with
      | nil => exact .inr (List.cons.inj hy).1.symm
      | cons g hidden =>
        refine .inl (List.mem_of_mem_filter (p := after s) ?_)
        rw [hf, ← (List.cons.inj hy).1]
        simp
    rw [hrows, List.nodup_append, List.nodup_cons] at nodup
    rcases hbefore with hbefore | rfl
    · exact absurd rfl (nodup.2.2 y hbefore y (List.mem_cons_of_mem _ hrest))
    · exact absurd hrest nodup.2.1.1

/-- A client that reads exactly the rest of the listing found the orders in
agreement at every page that followed. -/
theorem agrees_of_readPages (trans : ∀ a ∈ rows, ∀ b ∈ rows, ∀ c ∈ rows,
      after a b = true → after b c = true → after a c = true) (fuel : Nat) :
    ∀ {before rest : List α} {s : α}, rows = before ++ s :: rest →
      readPages (pageOf rows after (k + 2)) (k + 2) fuel (some s) = some rest →
      ∀ j b t r, rows = b ++ t :: r → b.length = before.length + j * (k + 1) →
        Agrees after b t r := by
  induction fuel with
  | zero =>
    intro before rest s _ h
    cases h
  | succ fuel ih =>
    intro before rest s hrows h
    have hidden := hidden_of_readPages nodup self hrows h
    have hsplit : rows.filter (after s) = s :: rest.filter (after s) := by
      rw [hrows, List.filter_append, hidden, List.filter_cons, if_pos (self s (by simp [hrows])),
        List.nil_append]
    -- the page that begins with `s`, and the pages after it
    suffices hall : (∀ x ∈ rest, after s x = true) ∧ ∀ j b t r, rows = b ++ t :: r →
        b.length = before.length + (j + 1) * (k + 1) → Agrees after b t r by
      intro j b t r hb hlength
      cases j with
      | zero =>
        obtain ⟨rfl, hr⟩ := List.append_inj (hb.symm.trans hrows) (by simpa using hlength)
        obtain ⟨rfl, rfl⟩ := List.cons.inj hr
        exact ⟨by simpa using hidden, hall.1⟩
      | succ j => exact hall.2 j b t r hb hlength
    rcases Nat.lt_or_ge k (rest.filter (after s)).length with hlen | hlen
    · obtain ⟨mid, t, more, hshown, hmid⟩ := exists_split hlen
      rw [hshown] at hsplit
      rw [readPages_step hsplit hmid] at h
      obtain ⟨rest', hrest', rfl⟩ := Option.map_eq_some_iff.mp h
      have hrows' : rows = (before ++ s :: mid) ++ t :: rest' := by simp [hrows]
      have later := ih hrows' hrest'
      have hmore : ∀ x ∈ mid ++ [t], after s x = true := by
        intro x hx
        have hx' : x ∈ mid ++ t :: more := by
          rw [List.append_cons]
          exact List.mem_append_left _ hx
        rw [← hshown] at hx'
        exact (List.mem_filter.mp hx').2
      have hnext := later 0 _ t rest' hrows' (by simp)
      refine ⟨fun x hx => ?_, fun j b u r hb hlength => later j b u r hb ?_⟩
      · rcases List.mem_append.mp hx with hx | hx
        · exact hmore x hx
        · exact trans _ (by simp [hrows]) t (by simp [hrows]) x (by simp [hrows, hx])
            (hmore t (by simp)) (hnext.shown x hx)
      · rw [hlength, Nat.succ_mul]
        simp
        omega
    · rw [readPages_end hsplit hlen] at h
      have hrest := Option.some.inj h
      refine ⟨fun x hx => ?_, fun j b u r hb hlength => ?_⟩
      · rw [← hrest] at hx
        exact (List.mem_filter.mp hx).2
      · have hlast : b.length < rows.length := by simp [hb]
        rw [hrows, List.length_append, List.length_cons, ← hrest, hlength, Nat.succ_mul] at hlast
        omega

end

end

/-- The client reads the listing exactly when the filter cuts where the listing
does at each row a page may begin with. -/
theorem readPages_iff {rows : List α} {after : α → α → Bool} {limit : Nat} (nodup : rows.Nodup)
    (self : ∀ s ∈ rows, after s s = true)
    (trans : ∀ a ∈ rows, ∀ b ∈ rows, ∀ c ∈ rows,
      after a b = true → after b c = true → after a c = true)
    (hlimit : 2 ≤ limit) :
    (∃ fuel, readPages (pageOf rows after limit) limit fuel none = some rows) ↔
      ∀ i before s rest, 0 < i → rows = before ++ s :: rest →
        before.length = i * (limit - 1) → Agrees after before s rest := by
  obtain ⟨k, rfl⟩ := Nat.exists_eq_add_of_le' hlimit
  rw [show k + 2 - 1 = k + 1 by omega]
  rcases Nat.lt_or_ge (k + 1) rows.length with hlen | hlen
  · obtain ⟨first, t, rest, hrows, hfirst⟩ := exists_split hlen
    have hpage : pageOf rows after (k + 2) none = first ++ [t] := by
      rw [pageOf, hrows, show k + 2 = first.length + 1 by omega, List.take_length_add_append]
      rfl
    have hread (fuel : Nat) : readPages (pageOf rows after (k + 2)) (k + 2) (fuel + 1) none =
        (readPages (pageOf rows after (k + 2)) (k + 2) fuel (some t)).map
          (first ++ [t] ++ ·) := by
      rw [readPages_full (by simp [hpage, hfirst]), hpage, List.getLast?_concat]
      rfl
    constructor
    · rintro ⟨fuel, h⟩ i before s tail hi hsplit hlength
      cases fuel with
      | zero => cases h
      | succ fuel =>
        rw [hread] at h
        obtain ⟨out, hout, he⟩ := Option.map_eq_some_iff.mp h
        have hrest : out = rest := by
          rw [hrows, List.append_cons first t rest] at he
          exact List.append_cancel_left he
        subst hrest
        refine agrees_of_readPages nodup self trans fuel hrows hout (i - 1) before s tail hsplit ?_
        rw [hfirst, Nat.sub_one_mul]
        have := Nat.le_mul_of_pos_left (k + 1) hi
        omega
    · intro agrees
      refine ⟨rest.length + 2, ?_⟩
      have hrest : readPages (pageOf rows after (k + 2)) (k + 2) (rest.length + 1) (some t) =
          some rest := by
        refine readPages_of_agrees self _ hrows (by omega) fun j b u r hb hlength => ?_
        refine agrees (j + 1) b u r (by omega) hb ?_
        rw [hlength, Nat.succ_mul]
        omega
      rw [hread, hrest, hrows]
      simp
  · have hpage : pageOf rows after (k + 2) none = rows := by
      rw [pageOf, List.take_of_length_le (by omega)]
    constructor
    · intro _ i before s rest hi hsplit hlength
      have hlast : before.length < rows.length := by simp [hsplit]
      have := Nat.le_mul_of_pos_left (k + 1) hi
      omega
    · intro _
      refine ⟨1, ?_⟩
      rw [readPages_short (by rw [hpage]; omega), hpage]
      rfl

end KubuCore.Paging
