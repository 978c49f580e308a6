import KubuCore.Base.Checked
import KubuCore.Base.Sets

/-!
# The key pool

`NewKeyPool`, `TopUpKeyPool`, `ReserveKeyFromKeyPool`, `KeepKey`, `ReturnKey`,
`GetKeyFromPool` and `GetOldestKeyPoolTime` of `wallet.cpp`. The indexes of new keys are
taken from `setKeyPool`, which does not hold the indexes that are reserved, so that an
index can be given away twice.

Keys are abstract; `GenerateNewKey` returns one that is not in the key store. All writes
to the wallet file succeed.
-/

namespace KubuCore.Wallet

open Checked
open Sets
open Std

/-- A record of the pool in the wallet file. -/
structure CKeyPool (K : Type) where
  nTime : Int
  vchPubKey : K
deriving DecidableEq, Repr

/-- Where new keys come from. -/
structure KeySource (K : Type) where
  /-- `GenerateNewKey`, given the keys of the store. -/
  generateNewKey : List K → K
  fresh : ∀ keys, generateNewKey keys ∉ keys

structure KeyPool (K : Type) where
  setKeyPool : ExtTreeSet Int := ∅
  /-- The records of the wallet file by their index. -/
  records : ExtTreeMap Int (CKeyPool K) := ∅
  /-- The key store. -/
  keys : List K := []
  locked : Bool := false

namespace KeyPool

variable {K : Type} (source : KeySource K) (keypool now : Int)

/-- The index after the last one, or 1. -/
def nextIndex (setKeyPool : ExtTreeSet Int) : Int :=
  match setKeyPool.toList.getLast? with
  | none => 1
  | some last => last + 1

/-- `WritePool` of a new key. -/
def writeKey (pool : KeyPool K) (nIndex : Int) : KeyPool K :=
  let key := source.generateNewKey pool.keys
  { pool with
    setKeyPool := pool.setKeyPool.insert nIndex
    records := pool.records.insert nIndex ⟨now, key⟩
    keys := key :: pool.keys }

/-- The number of keys a refill aims at, as an `unsigned int`; `keypool` is the setting. -/
def targetSize (kpSize : Nat) : Nat :=
  ((if 0 < kpSize then kpSize else (max keypool 0).toNat) + 1) % 2 ^ 32

/-- The loop of `TopUpKeyPool`, which adds one key a round. -/
def topUpLoop (target : Nat) : Nat → KeyPool K → KeyPool K
  | 0, pool => pool
  | fuel + 1, pool =>
    if pool.setKeyPool.size < target then
      topUpLoop target fuel (pool.writeKey source now (nextIndex pool.setKeyPool))
    else pool

def topUpKeyPool (kpSize : Nat) (pool : KeyPool K) : Bool × KeyPool K :=
  if pool.locked then (false, pool)
  else (true, topUpLoop source now (targetSize keypool kpSize) (targetSize keypool kpSize) pool)

def newKeyPool (pool : KeyPool K) : Bool × KeyPool K :=
  let pool := { pool with
    records := pool.setKeyPool.toList.foldl (fun records nIndex => records.erase nIndex)
      pool.records
    setKeyPool := ∅ }
  if pool.locked then (false, pool)
  else (true, (List.range (max keypool 0).toNat).foldl
    (fun pool (i : Nat) => pool.writeKey source now (i + 1)) pool)

variable [DecidableEq K]

def reserveKeyFromKeyPool (pool : KeyPool K) :
    Except String (Option (Int × CKeyPool K) × KeyPool K) :=
  let pool := if pool.locked then pool else (topUpKeyPool source keypool now 0 pool).2
  match pool.setKeyPool.toList.head? with
  | none => .ok (none, pool)
  | some nIndex =>
    let pool := { pool with setKeyPool := pool.setKeyPool.erase nIndex }
    match pool.records[nIndex]? with
    | none => .error "ReserveKeyFromKeyPool: read failed"
    | some record => do
      require (record.vchPubKey ∈ pool.keys) "ReserveKeyFromKeyPool: unknown key in key pool"
      pure (some (nIndex, record), pool)

def keepKey (nIndex : Int) (pool : KeyPool K) : KeyPool K :=
  { pool with records := pool.records.erase nIndex }

def returnKey (nIndex : Int) (pool : KeyPool K) : KeyPool K :=
  { pool with setKeyPool := pool.setKeyPool.insert nIndex }

def getKeyFromPool (pool : KeyPool K) : Except String (Option K × KeyPool K) := do
  let (reserved, pool) ← reserveKeyFromKeyPool source keypool now pool
  match reserved with
  | none =>
    if pool.locked then pure (none, pool)
    else
      let key := source.generateNewKey pool.keys
      pure (some key, { pool with keys := key :: pool.keys })
  | some (nIndex, record) => pure (some record.vchPubKey, pool.keepKey nIndex)

def getOldestKeyPoolTime (pool : KeyPool K) : Except String Int :=
  match pool.setKeyPool.toList.head? with
  | none => .ok now
  | some nIndex =>
    match pool.records[nIndex]? with
    | none => .error "GetOldestKeyPoolTime: read oldest key in keypool failed"
    | some record => .ok record.nTime

end KeyPool

/-! ## Runs -/

/-- The pool with its users: the reservations that are open, and the keys that were kept or
handed out for good. -/
structure PoolUse (K : Type) where
  pool : KeyPool K
  outstanding : List (Int × K) := []
  spent : List K := []

inductive PoolOp where
  | topUp (kpSize : Nat)
  | newPool
  | reserve
  | keep (nIndex : Int)
  | giveBack (nIndex : Int)
  | getKey
  | lock
  | unlock

namespace PoolUse

variable {K : Type} [DecidableEq K] (source : KeySource K) (keypool now : Int)

/-- Close the reservation of an index. -/
def release (use : PoolUse K) (nIndex : Int) : List (Int × K) :=
  use.outstanding.eraseP fun reserved => reserved.1 == nIndex

/-- One call. An index can be kept or returned only while it is reserved. -/
def apply (use : PoolUse K) : PoolOp → Except String (PoolUse K)
  | .topUp kpSize => .ok { use with pool := (use.pool.topUpKeyPool source keypool now kpSize).2 }
  | .newPool => .ok { use with pool := (use.pool.newKeyPool source keypool now).2 }
  | .reserve => do
    let (reserved, pool) ← use.pool.reserveKeyFromKeyPool source keypool now
    match reserved with
    | none => pure { use with pool }
    | some (nIndex, record) =>
      pure { use with pool, outstanding := (nIndex, record.vchPubKey) :: use.outstanding }
  | .keep nIndex =>
    match use.outstanding.find? fun reserved => reserved.1 == nIndex with
    | none => .ok use
    | some reserved =>
      .ok { pool := use.pool.keepKey nIndex, outstanding := use.release nIndex,
            spent := reserved.2 :: use.spent }
  | .giveBack nIndex =>
    match use.outstanding.find? fun reserved => reserved.1 == nIndex with
    | none => .ok use
    | some _ =>
      .ok { use with pool := use.pool.returnKey nIndex, outstanding := use.release nIndex }
  | .getKey => do
    let (key, pool) ← use.pool.getKeyFromPool source keypool now
    pure { use with pool, spent := key.toList ++ use.spent }
  | .lock => .ok { use with pool := { use.pool with locked := true } }
  | .unlock => .ok { use with pool := { use.pool with locked := false } }

/-- None of some indexes that follow each other is reserved. -/
def Unreserved (use : PoolUse K) (first : Int) (count : Nat) : Prop :=
  ∀ reserved ∈ use.outstanding, reserved.1 < first ∨ first + count ≤ reserved.1

instance (use : PoolUse K) (first : Int) (count : Nat) : Decidable (use.Unreserved first count) :=
  inferInstanceAs (Decidable (∀ reserved ∈ use.outstanding, _))

/-- A refill, if there is one, writes no index that is reserved. -/
def RefillApart (use : PoolUse K) (kpSize : Nat) : Prop :=
  use.pool.locked = false → use.Unreserved (KeyPool.nextIndex use.pool.setKeyPool)
    (KeyPool.targetSize keypool kpSize - use.pool.setKeyPool.size)

instance (use : PoolUse K) (kpSize : Nat) : Decidable (use.RefillApart keypool kpSize) :=
  inferInstanceAs (Decidable (_ → _))

/-- The call writes no index that is reserved. -/
def Apart (use : PoolUse K) : PoolOp → Prop
  | .topUp kpSize => use.RefillApart keypool kpSize
  | .reserve | .getKey => use.RefillApart keypool 0
  | .newPool => use.pool.locked = false → use.Unreserved 1 (max keypool 0).toNat
  | _ => True

/-- The states that calls lead to from an empty pool, if each of them meets a condition. -/
inductive Run (cond : PoolUse K → PoolOp → Prop) : PoolUse K → Prop where
  | start (keys : List K) (locked : Bool) : Run cond { pool := { keys, locked } }
  | step {use use' : PoolUse K} (op : PoolOp) (now : Int) (run : Run cond use)
      (meets : cond use op) (done : use.apply source keypool now op = .ok use') : Run cond use'

end PoolUse

/-! ## What holds while indexes stay apart -/

variable {setKeyPool : ExtTreeSet Int} {i : Int}

/-- The next index follows the last one of a pool that is not empty. -/
theorem nextIndex_spec (h : i ∈ setKeyPool) :
    ∃ last ∈ setKeyPool, KeyPool.nextIndex setKeyPool = last + 1 ∧ ∀ j ∈ setKeyPool, j ≤ last := by
  simp only [← ExtTreeSet.mem_toList, KeyPool.nextIndex] at h ⊢
  cases hlast : setKeyPool.toList.getLast? with
  | none =>
    rw [List.getLast?_eq_none_iff] at hlast
    rw [hlast] at h
    cases h
  | some last =>
    obtain ⟨init, hinit⟩ := List.getLast?_eq_some_iff.mp hlast
    have hsorted : setKeyPool.toList.Pairwise fun a b => compare a b = .lt :=
      ExtTreeSet.ordered_toList
    rw [hinit] at hsorted ⊢
    refine ⟨last, List.mem_append_right _ List.mem_cons_self, rfl, fun j hj => ?_⟩
    rcases List.mem_append.mp hj with hj | hj
    · have hless := (List.pairwise_append.mp hsorted).2.2 j hj last List.mem_cons_self
      rw [compare_lt_iff_lt] at hless
      exact Int.le_of_lt hless
    · exact Int.le_of_eq (List.mem_singleton.mp hj)

theorem lt_nextIndex (h : i ∈ setKeyPool) : i < KeyPool.nextIndex setKeyPool := by
  obtain ⟨last, -, hnext, hlast⟩ := nextIndex_spec h
  have := hlast i h
  omega

theorem nextIndex_insert :
    KeyPool.nextIndex (setKeyPool.insert (KeyPool.nextIndex setKeyPool)) =
      KeyPool.nextIndex setKeyPool + 1 := by
  obtain ⟨last, hmem, hnext, hlast⟩ := nextIndex_spec
    (mem_insert_iff.mpr (.inl rfl) : _ ∈ setKeyPool.insert (KeyPool.nextIndex setKeyPool))
  have hle := hlast _ (mem_insert_iff.mpr (.inl rfl))
  rcases mem_insert_iff.mp hmem with rfl | hmem
  · exact hnext
  · exact absurd (lt_nextIndex hmem) (by omega)

namespace PoolUse

variable {K : Type}

/-- The records are those of the pooled and of the reserved indexes, which are apart, and
no key is in two of them or spent. -/
structure Consistent (use : PoolUse K) : Prop where
  pooled : ∀ i ∈ use.pool.setKeyPool, i ∈ use.pool.records
  held : ∀ reserved ∈ use.outstanding, ∃ nTime,
    use.pool.records[reserved.1]? = some ⟨nTime, reserved.2⟩
  owned : ∀ i ∈ use.pool.records, i ∈ use.pool.setKeyPool ∨ i ∈ use.outstanding.map Prod.fst
  apart : ∀ i ∈ use.outstanding.map Prod.fst, i ∉ use.pool.setKeyPool
  nodup : (use.outstanding.map Prod.fst).Nodup
  unspent : ∀ (i : Int) record, use.pool.records[i]? = some record →
    record.vchPubKey ∈ use.pool.keys ∧ record.vchPubKey ∉ use.spent
  distinct : ∀ (i j : Int) record record', use.pool.records[i]? = some record →
    use.pool.records[j]? = some record' → record.vchPubKey = record'.vchPubKey → i = j
  known : ∀ key ∈ use.spent, key ∈ use.pool.keys

variable {source : KeySource K} {keypool now : Int} {use : PoolUse K}

section

variable (ok : use.Consistent)
include ok

/-- Writing a new key at an index that nobody has. -/
theorem Consistent.writeKey {i : Int} (free : i ∉ use.pool.setKeyPool)
    (unreserved : i ∉ use.outstanding.map Prod.fst) :
    Consistent { use with pool := use.pool.writeKey source now i } := by
  have hfresh := source.fresh use.pool.keys
  have other : ∀ (j : Int) record, (use.pool.writeKey source now i).records[j]? = some record →
      (j = i ∧ record.vchPubKey = source.generateNewKey use.pool.keys) ∨
        (j ≠ i ∧ use.pool.records[j]? = some record) := by
    intro j record hrecord
    by_cases he : j = i
    · subst he
      simp only [KeyPool.writeKey, ExtTreeMap.getElem?_insert_self, Option.some.injEq] at hrecord
      exact .inl ⟨rfl, by rw [← hrecord]⟩
    · have hne : ¬ i = j := fun h => he h.symm
      refine .inr ⟨he, ?_⟩
      simpa [KeyPool.writeKey, ExtTreeMap.getElem?_insert, hne] using hrecord
  refine ⟨?_, ?_, ?_, ?_, ok.nodup, ?_, ?_, ?_⟩
  · intro j hj
    simp only [KeyPool.writeKey, mem_insert_iff, ExtTreeMap.mem_insert,
      LawfulEqCmp.compare_eq_iff_eq] at hj ⊢
    exact hj.imp Eq.symm (ok.pooled j)
  · intro reserved hreserved
    obtain ⟨nTime, hrecord⟩ := ok.held reserved hreserved
    have hne : ¬ i = reserved.1 := by
      rintro rfl
      exact unreserved (List.mem_map_of_mem hreserved)
    exact ⟨nTime, by simpa [KeyPool.writeKey, ExtTreeMap.getElem?_insert, hne] using hrecord⟩
  · intro j hj
    simp only [KeyPool.writeKey, mem_insert_iff, ExtTreeMap.mem_insert,
      LawfulEqCmp.compare_eq_iff_eq] at hj ⊢
    rcases hj with rfl | hj
    · exact .inl (.inl rfl)
    · exact (ok.owned j hj).imp .inr id
  · intro j hj hmem
    simp only [KeyPool.writeKey, mem_insert_iff] at hmem
    rcases hmem with rfl | hmem
    · exact unreserved hj
    · exact ok.apart j hj hmem
  · intro j record hrecord
    rcases other j record hrecord with ⟨-, hkey⟩ | ⟨-, hold⟩
    · rw [hkey]
      exact ⟨List.mem_cons_self, fun h => hfresh (ok.known _ h)⟩
    · exact ⟨List.mem_cons_of_mem _ (ok.unspent j record hold).1, (ok.unspent j record hold).2⟩
  · intro j j' record record' hrecord hrecord' hkey
    rcases other j record hrecord with ⟨hj, hnew⟩ | ⟨-, hold⟩
    · rcases other j' record' hrecord' with ⟨hj', -⟩ | ⟨-, hold'⟩
      · rw [hj, hj']
      · rw [← hnew, hkey] at hfresh
        exact absurd (ok.unspent j' record' hold').1 hfresh
    · rcases other j' record' hrecord' with ⟨-, hnew'⟩ | ⟨-, hold'⟩
      · rw [← hnew', ← hkey] at hfresh
        exact absurd (ok.unspent j record hold).1 hfresh
      · exact ok.distinct j j' record record' hold hold' hkey
  · exact fun key hkey => List.mem_cons_of_mem _ (ok.known key hkey)

theorem Consistent.topUpLoop {target fuel : Nat}
    (free : use.Unreserved (KeyPool.nextIndex use.pool.setKeyPool)
      (target - use.pool.setKeyPool.size)) :
    Consistent { use with pool := use.pool.topUpLoop source now target fuel } := by
  induction fuel generalizing use with
  | zero => exact ok
  | succ fuel ih =>
    rw [KeyPool.topUpLoop]
    split
    · rename_i hless
      have hnew : KeyPool.nextIndex use.pool.setKeyPool ∉ use.pool.setKeyPool :=
        fun h => Int.lt_irrefl _ (lt_nextIndex h)
      refine @ih { use with pool := _ } (ok.writeKey hnew ?_) ?_
      · intro h
        obtain ⟨reserved, hreserved, he⟩ := List.mem_map.mp h
        have := free reserved hreserved
        omega
      · intro reserved hreserved
        have := free reserved hreserved
        simp only [nextIndex_insert, ExtTreeSet.size_insert, ← ExtTreeSet.mem_iff_contains, hnew,
          if_false]
        omega
    · exact ok

theorem Consistent.topUpKeyPool {kpSize : Nat} (apart : use.RefillApart keypool kpSize) :
    Consistent { use with pool := (use.pool.topUpKeyPool source keypool now kpSize).2 } := by
  rw [KeyPool.topUpKeyPool]
  split
  · exact ok
  · rename_i hlocked
    exact ok.topUpLoop (apart (Bool.not_eq_true _ ▸ hlocked))

/-- The first index of the pool becomes a reservation. -/
theorem Consistent.take {i : Int} (hi : i ∈ use.pool.setKeyPool) {record : CKeyPool K}
    (hrecord : use.pool.records[i]? = some record) :
    Consistent { use with
      pool := { use.pool with setKeyPool := use.pool.setKeyPool.erase i }
      outstanding := (i, record.vchPubKey) :: use.outstanding } := by
  refine ⟨?_, ?_, ?_, ?_, ?_, ok.unspent, ok.distinct, ok.known⟩
  · exact fun j hj => ok.pooled j (mem_erase_iff.mp hj).2
  · exact List.forall_mem_cons.mpr ⟨⟨record.nTime, hrecord⟩, ok.held⟩
  · intro j hj
    by_cases he : j = i
    · exact .inr (by simp [he])
    · rcases ok.owned j hj with h | h
      · exact .inl (mem_erase_iff.mpr ⟨he, h⟩)
      · exact .inr (List.mem_cons_of_mem _ h)
  · intro j hj hmem
    rw [mem_erase_iff] at hmem
    rcases List.mem_cons.mp hj with rfl | hj
    · exact hmem.1 rfl
    · exact ok.apart j hj hmem.2
  · exact List.nodup_cons.mpr ⟨fun h => ok.apart i h hi, ok.nodup⟩

/-- Closing a reservation leaves the others. -/
theorem Consistent.mem_release {i : Int} {reserved : Int × K} :
    reserved ∈ use.release i ↔ reserved ∈ use.outstanding ∧ reserved.1 ≠ i := by
  by_cases he : reserved.1 = i
  · refine iff_of_false (fun h => ?_) fun h => h.2 he
    have hnodup := ok.nodup
    obtain ⟨first, before, after, -, hfirst, hsplit, herase⟩ := List.exists_of_eraseP
      (p := fun reserved => reserved.1 == i) (List.mem_of_mem_eraseP h) (beq_iff_eq.mpr he)
    rw [beq_iff_eq] at hfirst
    rw [release, herase, List.mem_append] at h
    rw [hsplit, List.map_append, List.map_cons, List.nodup_middle, List.nodup_cons] at hnodup
    refine hnodup.1 ?_
    rw [← List.map_append, hfirst, ← he]
    exact List.mem_map_of_mem (List.mem_append.mpr h)
  · rw [release, List.mem_eraseP_of_neg (by simpa using he)]
    exact (and_iff_left he).symm

theorem Consistent.mem_map_release {i j : Int} :
    j ∈ (use.release i).map Prod.fst ↔ j ∈ use.outstanding.map Prod.fst ∧ j ≠ i := by
  simp only [List.mem_map, ok.mem_release]
  constructor
  · rintro ⟨reserved, ⟨hmem, hne⟩, rfl⟩
    exact ⟨⟨reserved, hmem, rfl⟩, hne⟩
  · rintro ⟨⟨reserved, hmem, rfl⟩, hne⟩
    exact ⟨reserved, ⟨hmem, hne⟩, rfl⟩

theorem Consistent.nodup_release (i : Int) : ((use.release i).map Prod.fst).Nodup :=
  ok.nodup.sublist (List.eraseP_sublist.map _)

theorem Consistent.keepKey [DecidableEq K] {reserved : Int × K}
    (hreserved : reserved ∈ use.outstanding) :
    Consistent { pool := use.pool.keepKey reserved.1, outstanding := use.release reserved.1,
                 spent := reserved.2 :: use.spent } := by
  obtain ⟨nTime, hrecord⟩ := ok.held reserved hreserved
  have hrecords : ∀ j : Int, (use.pool.keepKey reserved.1).records[j]? =
      if j = reserved.1 then none else use.pool.records[j]? := by
    simp [KeyPool.keepKey, ExtTreeMap.getElem?_erase, @eq_comm _ reserved.1]
  have other (j : Int) record (h : (use.pool.keepKey reserved.1).records[j]? = some record) :=
    Option.ite_none_left_eq_some.mp ((hrecords j).symm.trans h)
  refine ⟨?_, ?_, ?_, ?_, ok.nodup_release _, ?_, ?_, ?_⟩
  · intro j hj
    have hne : j ≠ reserved.1 := by
      rintro rfl
      exact ok.apart _ (List.mem_map_of_mem hreserved) hj
    rw [mem_iff_exists, hrecords, if_neg hne]
    exact mem_iff_exists.mp (ok.pooled j hj)
  · intro r hr
    obtain ⟨hmem, hne⟩ := ok.mem_release.mp hr
    obtain ⟨t, ht⟩ := ok.held r hmem
    exact ⟨t, by rw [hrecords, if_neg hne, ht]⟩
  · intro j hj
    obtain ⟨record, hj⟩ := mem_iff_exists.mp hj
    obtain ⟨hne, hold⟩ := other j record hj
    exact (ok.owned j (mem_iff_exists.mpr ⟨_, hold⟩)).imp id fun h => ok.mem_map_release.mpr ⟨h, hne⟩
  · exact fun j hj => ok.apart j (ok.mem_map_release.mp hj).1
  · intro j record h
    obtain ⟨hne, hold⟩ := other j record h
    obtain ⟨hkey, hunspent⟩ := ok.unspent j record hold
    refine ⟨hkey, ?_⟩
    rw [List.mem_cons, not_or]
    exact ⟨fun he => hne (ok.distinct j _ _ _ hold hrecord he), hunspent⟩
  · intro i j record record' h h' hkey
    exact ok.distinct i j record record' (other i record h).2 (other j record' h').2 hkey
  · exact List.forall_mem_cons.mpr ⟨(ok.unspent _ _ hrecord).1, ok.known⟩

theorem Consistent.returnKey [DecidableEq K] {reserved : Int × K}
    (hreserved : reserved ∈ use.outstanding) :
    Consistent { use with
      pool := use.pool.returnKey reserved.1, outstanding := use.release reserved.1 } := by
  obtain ⟨nTime, hrecord⟩ := ok.held reserved hreserved
  refine ⟨?_, ?_, ?_, ?_, ok.nodup_release _, ok.unspent, ok.distinct, ok.known⟩
  · intro j hj
    rcases mem_insert_iff.mp hj with rfl | hj
    · exact mem_iff_exists.mpr ⟨_, hrecord⟩
    · exact ok.pooled j hj
  · exact fun r hr => ok.held r (ok.mem_release.mp hr).1
  · intro j hj
    by_cases he : j = reserved.1
    · exact .inl (mem_insert_iff.mpr (.inl he))
    · exact (ok.owned j hj).imp (fun h => mem_insert_iff.mpr (.inr h)) fun h =>
        ok.mem_map_release.mpr ⟨h, he⟩
  · intro j hj hmem
    obtain ⟨hj, hne⟩ := ok.mem_map_release.mp hj
    exact (mem_insert_iff.mp hmem).elim hne (ok.apart j hj)

/-! ## A new pool -/

/-- `NewKeyPool` before it writes. -/
theorem Consistent.clear :
    Consistent { use with pool := { use.pool with
      records := use.pool.setKeyPool.toList.foldl (fun records nIndex => records.erase nIndex)
        use.pool.records
      setKeyPool := ∅ } } := by
  have hrecords : ∀ j : Int, (use.pool.setKeyPool.toList.foldl
      (fun records nIndex => records.erase nIndex) use.pool.records)[j]? =
      if j ∈ use.pool.setKeyPool then none else use.pool.records[j]? := by
    intro j
    rw [getElem?_foldl_erase]
    simp only [ExtTreeSet.mem_toList]
  generalize use.pool.setKeyPool.toList.foldl _ use.pool.records = records at hrecords ⊢
  have other (j : Int) record (h : records[j]? = some record) :=
    Option.ite_none_left_eq_some.mp ((hrecords j).symm.trans h)
  refine ⟨?_, ?_, ?_, ?_, ok.nodup, ?_, ?_, ok.known⟩
  · exact fun j hj => absurd hj ExtTreeSet.not_mem_empty
  · intro reserved hreserved
    obtain ⟨nTime, hrecord⟩ := ok.held reserved hreserved
    refine ⟨nTime, ?_⟩
    rw [hrecords, if_neg (ok.apart _ (List.mem_map_of_mem hreserved)), hrecord]
  · intro j hj
    obtain ⟨record, hj⟩ := mem_iff_exists.mp hj
    obtain ⟨hnot, hold⟩ := other j record hj
    exact .inr ((ok.owned j (mem_iff_exists.mpr ⟨_, hold⟩)).resolve_left hnot)
  · exact fun j _ hj => absurd hj ExtTreeSet.not_mem_empty
  · exact fun j record h => ok.unspent j record (other j record h).2
  · exact fun i j record record' h h' =>
      ok.distinct i j record record' (other i record h).2 (other j record' h').2

theorem Consistent.newKeyPool
    (apart : use.pool.locked = false → use.Unreserved 1 (max keypool 0).toNat) :
    Consistent { use with pool := (use.pool.newKeyPool source keypool now).2 } := by
  rw [KeyPool.newKeyPool]
  split
  · exact ok.clear
  · rename_i hlocked
    have hcleared := ok.clear
    generalize hpool : ({ use.pool with
      records := use.pool.setKeyPool.toList.foldl (fun records nIndex => records.erase nIndex)
        use.pool.records
      setKeyPool := ∅ } : KeyPool K) = pool at hcleared ⊢
    have hempty : ∀ j, j ∉ pool.setKeyPool := by
      rw [← hpool]
      exact fun j => ExtTreeSet.not_mem_empty
    have hfree := apart (Bool.not_eq_true _ ▸ hlocked)
    -- After some rounds the indexes run from 1 to the number of rounds.
    have rounds : ∀ n : Nat, (n : Int) ≤ max keypool 0 →
        Consistent { use with
          pool := (List.range n).foldl (fun pool (i : Nat) => pool.writeKey source now (i + 1))
            pool } ∧
        ∀ j ∈ ((List.range n).foldl (fun pool (i : Nat) => pool.writeKey source now (i + 1))
          pool).setKeyPool, j ≤ n := by
      intro n
      induction n with
      | zero => exact fun _ => ⟨hcleared, fun j hj => absurd hj (hempty j)⟩
      | succ n ih =>
        intro hn
        obtain ⟨hok, hset⟩ := ih (by omega)
        rw [List.range_succ, List.foldl_append, List.foldl_cons]
        refine ⟨hok.writeKey ?_ ?_, ?_⟩
        · intro h
          have := hset _ h
          omega
        · intro h
          obtain ⟨reserved, hreserved, he⟩ := List.mem_map.mp h
          have := hfree reserved hreserved
          omega
        · intro j hj
          rcases mem_insert_iff.mp hj with rfl | hj
          · exact Int.le_of_eq (by push_cast; ring)
          · exact Int.le_trans (hset j hj) (by omega)
    exact (rounds (max keypool 0).toNat (by omega)).1

end

/-! ## Reserving -/

/-- What reserving needs: every pooled key is in the store and was not spent. -/
structure Usable (use : PoolUse K) : Prop where
  pooled : ∀ i ∈ use.pool.setKeyPool, ∃ record, use.pool.records[i]? = some record ∧
    record.vchPubKey ∈ use.pool.keys ∧ record.vchPubKey ∉ use.spent
  known : ∀ key ∈ use.spent, key ∈ use.pool.keys

theorem Consistent.usable (ok : use.Consistent) : use.Usable := by
  refine ⟨?_, ok.known⟩
  intro i hi
  obtain ⟨record, hrecord⟩ := mem_iff_exists.mp (ok.pooled i hi)
  exact ⟨record, hrecord, ok.unspent i record hrecord⟩

theorem Usable.writeKey (ok : use.Usable) (i : Int) :
    Usable { use with pool := use.pool.writeKey source now i } := by
  refine ⟨?_, fun key hkey => List.mem_cons_of_mem _ (ok.known key hkey)⟩
  intro j hj
  by_cases he : i = j
  · subst he
    refine ⟨⟨now, source.generateNewKey use.pool.keys⟩, ?_, List.mem_cons_self, ?_⟩
    · simp [KeyPool.writeKey]
    · exact fun h => source.fresh _ (ok.known _ h)
  · obtain ⟨record, hrecord, hkey, hunspent⟩ :=
      ok.pooled j ((mem_insert_iff.mp hj).resolve_left fun h => he h.symm)
    refine ⟨record, ?_, List.mem_cons_of_mem _ hkey, hunspent⟩
    simpa [KeyPool.writeKey, ExtTreeMap.getElem?_insert, he] using hrecord

theorem Usable.topUpLoop (ok : use.Usable) (target fuel : Nat) :
    Usable { use with pool := use.pool.topUpLoop source now target fuel } := by
  induction fuel generalizing use with
  | zero => exact ok
  | succ fuel ih =>
    rw [KeyPool.topUpLoop]
    split
    · exact @ih { use with pool := _ } (ok.writeKey _)
    · exact ok

/-- The pool as `ReserveKeyFromKeyPool` finds it after the refill. -/
def refilled (source : KeySource K) (keypool now : Int) (pool : KeyPool K) : KeyPool K :=
  if pool.locked then pool else (pool.topUpKeyPool source keypool now 0).2

theorem Usable.refilled (ok : use.Usable) :
    Usable { use with pool := refilled source keypool now use.pool } := by
  rw [PoolUse.refilled]
  split
  · exact ok
  · rw [KeyPool.topUpKeyPool]
    split
    · exact ok
    · exact ok.topUpLoop _ _

theorem Consistent.refilled (ok : use.Consistent) (apart : use.RefillApart keypool 0) :
    Consistent { use with pool := refilled source keypool now use.pool } := by
  rw [PoolUse.refilled]
  split
  · exact ok
  · exact ok.topUpKeyPool apart

/-- The two ways to reserve: the pool is empty, or its first key is taken. -/
inductive Reserves (use : PoolUse K) (pool : KeyPool K) :
    Option (Int × CKeyPool K) × KeyPool K → Prop where
  | empty : Reserves use pool (none, pool)
  | taken (i : Int) (record : CKeyPool K) (pooled : i ∈ pool.setKeyPool)
      (stored : pool.records[i]? = some record) (unspent : record.vchPubKey ∉ use.spent) :
      Reserves use pool
        (some (i, record), { pool with setKeyPool := pool.setKeyPool.erase i })

theorem Usable.reserve [DecidableEq K] (ok : use.Usable) :
    ∃ result, use.pool.reserveKeyFromKeyPool source keypool now = .ok result ∧
      use.Reserves (PoolUse.refilled source keypool now use.pool) result := by
  have hok : Usable { use with pool := PoolUse.refilled source keypool now use.pool } := ok.refilled
  rw [KeyPool.reserveKeyFromKeyPool, ← PoolUse.refilled]
  generalize PoolUse.refilled source keypool now use.pool = pool at hok ⊢
  cases hhead : pool.setKeyPool.toList.head? with
  | none => exact ⟨_, rfl, .empty⟩
  | some i =>
    have hi : i ∈ pool.setKeyPool := ExtTreeSet.mem_toList.mp (List.mem_of_head? hhead)
    obtain ⟨record, hrecord, hkey, hunspent⟩ := hok.pooled i hi
    refine ⟨_, ?_, .taken i record hi hrecord hunspent⟩
    simp only [hrecord]
    rw [require, if_pos (by simpa using hkey)]
    rfl

theorem Usable.getKey [DecidableEq K] (ok : use.Usable) :
    ∃ result, use.pool.getKeyFromPool source keypool now = .ok result ∧
      ∀ key, result.1 = some key → key ∉ use.spent := by
  have hknown := (ok.refilled : Usable
    { use with pool := PoolUse.refilled source keypool now use.pool }).known
  obtain ⟨result, hresult, hreserves⟩ := @Usable.reserve _ source keypool now use _ ok
  rw [KeyPool.getKeyFromPool, hresult]
  cases hreserves with
  | empty =>
    generalize PoolUse.refilled source keypool now use.pool = pool at hknown ⊢
    change ∃ result, (if pool.locked then _ else _) = _ ∧ _
    split
    · exact ⟨_, rfl, fun key h => by cases h⟩
    · refine ⟨_, rfl, ?_⟩
      rintro key ⟨⟩ h
      exact source.fresh _ (hknown _ h)
  | taken i record _ _ hunspent =>
    refine ⟨_, rfl, ?_⟩
    rintro key ⟨⟩
    exact hunspent

theorem Consistent.reserve (ok : use.Consistent) (apart : use.RefillApart keypool 0)
    {result : Option (Int × CKeyPool K) × KeyPool K}
    (h : use.Reserves (PoolUse.refilled source keypool now use.pool) result) :
    (result.1 = none → Consistent { use with pool := result.2 }) ∧
      ∀ i record, result.1 = some (i, record) → Consistent { use with
        pool := result.2, outstanding := (i, record.vchPubKey) :: use.outstanding } := by
  have hok : Consistent { use with pool := PoolUse.refilled source keypool now use.pool } :=
    ok.refilled apart
  cases h with
  | empty => exact ⟨fun _ => hok, fun i record he => by cases he⟩
  | taken i record pooled stored unspent =>
    refine ⟨fun he => (by cases he), ?_⟩
    rintro i record ⟨⟩
    exact hok.take pooled stored

/-! ## Whole runs -/

section Run

variable [DecidableEq K]

/-- A key that is handed out for good without a reservation. -/
theorem Consistent.getKey (ok : use.Consistent) (apart : use.RefillApart keypool 0)
    {result : Option K × KeyPool K}
    (h : use.pool.getKeyFromPool source keypool now = .ok result) :
    Consistent { use with pool := result.2, spent := result.1.toList ++ use.spent } := by
  obtain ⟨reserved, hreserved, hreserves⟩ :=
    @Usable.reserve _ source keypool now use _ ok.usable
  obtain ⟨hnone, hsome⟩ := ok.reserve apart hreserves
  obtain ⟨found, pool⟩ := reserved
  rw [KeyPool.getKeyFromPool, hreserved] at h
  cases found with
  | none =>
    have hok := hnone rfl
    change (if pool.locked then _ else _) = _ at h
    split at h
    · cases h
      exact hok
    · cases h
      have hfresh := source.fresh pool.keys
      refine ⟨hok.pooled, hok.held, hok.owned, hok.apart, hok.nodup, ?_, hok.distinct, ?_⟩
      · intro i record hrecord
        obtain ⟨hkey, hunspent⟩ := hok.unspent i record hrecord
        refine ⟨List.mem_cons_of_mem _ hkey, ?_⟩
        rintro hmem
        rcases List.mem_cons.mp hmem with he | hmem
        · exact hfresh (he ▸ hkey)
        · exact hunspent hmem
      · intro key hkey
        rcases List.mem_cons.mp hkey with rfl | hkey
        · exact List.mem_cons_self
        · exact List.mem_cons_of_mem _ (hok.known key hkey)
  | some found =>
    obtain ⟨i, record⟩ := found
    have hok := hsome i record rfl
    have hkept := hok.keepKey List.mem_cons_self
    simp only [release, List.eraseP_cons, beq_self_eq_true] at hkept
    cases h
    exact hkept

/-- A call that writes no reserved index keeps the pool consistent. -/
theorem Consistent.apply (ok : use.Consistent) {op : PoolOp} (apart : use.Apart keypool op)
    {use' : PoolUse K} (h : use.apply source keypool now op = .ok use') : use'.Consistent := by
  cases op with
  | topUp kpSize =>
    cases h
    exact ok.topUpKeyPool apart
  | newPool =>
    cases h
    exact ok.newKeyPool apart
  | reserve =>
    obtain ⟨⟨found, pool⟩, hresult, hreserves⟩ :=
      @Usable.reserve _ source keypool now use _ ok.usable
    obtain ⟨hnone, hsome⟩ := ok.reserve apart hreserves
    rw [PoolUse.apply, hresult] at h
    cases found with
    | none =>
      cases h
      exact hnone rfl
    | some found =>
      cases h
      exact hsome found.1 found.2 rfl
  | keep nIndex =>
    rw [PoolUse.apply] at h
    split at h
    · cases h
      exact ok
    · rename_i reserved hfind
      cases h
      have he : reserved.1 = nIndex := by simpa using List.find?_some hfind
      subst he
      exact ok.keepKey (List.mem_of_find?_eq_some hfind)
  | giveBack nIndex =>
    rw [PoolUse.apply] at h
    split at h
    · cases h
      exact ok
    · rename_i reserved hfind
      cases h
      have he : reserved.1 = nIndex := by simpa using List.find?_some hfind
      subst he
      exact ok.returnKey (List.mem_of_find?_eq_some hfind)
  | getKey =>
    simp only [PoolUse.apply, bind_eq_ok] at h
    obtain ⟨result, hresult, h⟩ := h
    cases h
    exact ok.getKey apart hresult
  | lock =>
    cases h
    exact { ok with }
  | unlock =>
    cases h
    exact { ok with }

theorem Run.consistent (run : Run source keypool (Apart keypool) use) : use.Consistent := by
  induction run with
  | start keys locked =>
    refine ⟨?_, by simp, ?_, by simp, List.nodup_nil, ?_, ?_, by simp⟩
    · exact fun i hi => absurd hi ExtTreeSet.not_mem_empty
    · exact fun i hi => absurd hi ExtTreeMap.not_mem_empty
    · exact fun i record h => by simp at h
    · exact fun i j record record' h => by simp at h
  | step op now _ meets done ih => exact ih.apply meets done

/-- As long as no call writes an index that is reserved, every pooled index has its record,
reservations have different indexes, and no call fails or hands out a spent key. -/
theorem keypool_consistent (run : Run source keypool (Apart keypool) use) :
    (∀ i ∈ use.pool.setKeyPool, i ∈ use.pool.records) ∧
      (use.outstanding.map Prod.fst).Nodup ∧
      (∀ now, ∃ result, use.pool.reserveKeyFromKeyPool source keypool now = .ok result ∧
        ∀ i record, result.1 = some (i, record) → record.vchPubKey ∉ use.spent) ∧
      (∀ now, ∃ result, use.pool.getKeyFromPool source keypool now = .ok result ∧
        ∀ key, result.1 = some key → key ∉ use.spent) ∧
      ∀ now, ∃ nTime, use.pool.getOldestKeyPoolTime now = .ok nTime := by
  have ok := run.consistent
  refine ⟨ok.pooled, ok.nodup, ?_, fun now => ok.usable.getKey, ?_⟩
  · intro now
    obtain ⟨result, hresult, hreserves⟩ := @Usable.reserve _ source keypool now use _ ok.usable
    refine ⟨result, hresult, ?_⟩
    intro i record he
    cases hreserves with
    | empty => cases he
    | taken _ _ _ _ unspent =>
      cases he
      exact unspent
  · intro now
    rw [KeyPool.getOldestKeyPoolTime]
    cases hhead : use.pool.setKeyPool.toList.head? with
    | none => exact ⟨now, rfl⟩
    | some i =>
      have hmem := ExtTreeSet.mem_toList.mp (List.mem_of_head? hhead)
      obtain ⟨record, hrecord⟩ := mem_iff_exists.mp (ok.pooled i hmem)
      simp only [hrecord]
      exact ⟨record.nTime, rfl⟩

end Run

/-! ## A reserved index written again -/

/-- Keys that are numbers. -/
def numberedKeys : KeySource Nat where
  generateNewKey keys := keys.sum + 1
  fresh keys h := by
    have := List.le_sum_of_mem h
    omega

section Calls

variable (cond : PoolUse Nat → PoolOp → Prop) [∀ use op, Decidable (cond use op)] (keypool : Int)

/-- Several calls at time 0, as long as they meet a condition. -/
def applyAll (ops : List PoolOp) (use : PoolUse Nat) : Except String (PoolUse Nat) :=
  ops.foldlM (fun use op => if cond use op then use.apply numberedKeys keypool 0 op else .error "")
    use

theorem Run.applyAll {ops : List PoolOp} {use use' : PoolUse Nat}
    (run : Run numberedKeys keypool cond use) (h : PoolUse.applyAll cond keypool ops use = .ok use') :
    Run numberedKeys keypool cond use' := by
  induction ops generalizing use with
  | nil =>
    cases h
    exact run
  | cons op ops ih =>
    simp only [PoolUse.applyAll, List.foldlM_cons, bind_eq_ok] at h
    obtain ⟨next, hnext, h⟩ := h
    split at hnext
    · rename_i meets
      exact ih (.step op 0 run meets hnext) h
    · cases hnext

/-- The calls run through, and what they lead to has a property that can be decided. -/
theorem Run.exists_of_applyAll (ops : List PoolOp) (p : PoolUse Nat → Prop) [DecidablePred p]
    (h : (PoolUse.applyAll cond keypool ops { pool := {} }).toOption.any fun use => decide (p use)) :
    ∃ use, Run numberedKeys keypool cond use ∧ p use := by
  cases hall : PoolUse.applyAll cond keypool ops { pool := {} } with
  | error text =>
    rw [hall] at h
    cases h
  | ok use =>
    rw [hall] at h
    exact ⟨use, (Run.start [] false).applyAll cond keypool hall, of_decide_eq_true h⟩

end Calls

/-- The call throws this text. -/
def throws {α : Type} (text : String) : Except String α → Bool
  | .error thrown => thrown == text
  | .ok _ => false

/-- The reservation of the only key is refilled under the same index and then kept: the pool
has an index without a record, and the next reservation throws. -/
theorem reserved_index_lost :
    ∃ use : PoolUse Nat, Run numberedKeys 0 (fun _ _ => True) use ∧
      (1 : Int) ∈ use.pool.setKeyPool ∧ (1 : Int) ∉ use.pool.records ∧
      throws "ReserveKeyFromKeyPool: read failed"
        (use.pool.reserveKeyFromKeyPool numberedKeys 0 0) = true := by
  exact Run.exists_of_applyAll _ 0 [.reserve, .topUp 0, .keep 1] _ (by decide +kernel)

/-- The condition can be checked before a call. -/
instance (keypool : Int) (use : PoolUse Nat) (op : PoolOp) : Decidable (Apart keypool use op) :=
  match op with
  | .topUp kpSize => inferInstanceAs (Decidable (use.RefillApart keypool kpSize))
  | .reserve | .getKey => inferInstanceAs (Decidable (use.RefillApart keypool 0))
  | .newPool => inferInstanceAs (Decidable (_ → _))
  | .keep _ | .giveBack _ | .lock | .unlock => .isTrue trivial

/-- Two keys are reserved, one of them before the pool is refilled. -/
theorem keypool_consistent_reserved :
    ∃ use : PoolUse Nat, Run numberedKeys 1 (Apart 1) use ∧
      use.outstanding.map Prod.fst = [2, 1] ∧ use.pool.setKeyPool.toList = [3, 4, 5] ∧
      ∀ i ∈ use.pool.setKeyPool, i ∈ use.pool.records := by
  obtain ⟨use, run, hreserved, hpooled⟩ := Run.exists_of_applyAll (Apart 1) 1
    [.topUp 2, .reserve, .topUp 3, .reserve] (fun use => use.outstanding.map Prod.fst = [2, 1] ∧
      use.pool.setKeyPool.toList = [3, 4, 5]) (by decide +kernel)
  exact ⟨use, run, hreserved, hpooled, (keypool_consistent run).1⟩

end PoolUse

end KubuCore.Wallet
