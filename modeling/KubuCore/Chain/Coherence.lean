import KubuCore.Chain.Cache

/-!
# What the flags of a cache entry say

The flags are facts about the levels below (`EntryCoherent`): an entry that is
not dirty agrees with them, and for a fresh one they have nothing unspent. Here
every function of the caches is shown to keep these facts, with what it does to
the logical view, which is what a read at the top finds.
-/

namespace KubuCore.Chain

open Checked
open Maps
open Std

/-! ## The logical view -/

/-- What a read of the top view finds, without filling the caches. -/
def lookup (db : CCoinsViewDB) : List CCoinsViewCache → Uint256 → Option CCoins
  | [], txid => db.coins[txid]?
  | cache :: lower, txid =>
    match cache.cacheCoins[txid]? with
    | some entry => some entry.coins
    | none => lookup db lower txid

def logical (db : CCoinsViewDB) (caches : List CCoinsViewCache) (txid : Uint256) :
    Option CCoins :=
  live (lookup db caches txid)

/-- What the flags of an entry say about the view below. -/
structure EntryCoherent (below : Option CCoins) (entry : CCoinsCacheEntry) : Prop where
  clean : entry.dirty = false → live (some entry.coins) = below
  fresh : entry.fresh = true → below = none

def Coherent (db : CCoinsViewDB) : List CCoinsViewCache → Prop
  | [] => True
  | cache :: lower =>
    Coherent db lower ∧ ∀ (txid : Uint256) (entry : CCoinsCacheEntry),
      cache.cacheCoins[txid]? = some entry → EntryCoherent (logical db lower txid) entry

/-- The coins that a modified entry leaves. -/
def kept (coins : CCoins) : Option CCoins := live (some coins.cleanup)

theorem live_some (coins : CCoins) :
    live (some coins) = if coins.isPruned then none else some coins := by
  rw [live, Option.filter_some]
  cases coins.isPruned <;> rfl

variable {coins : CCoins} {lower' : List CCoinsViewCache} {grand : Option CCoins}
  {top : CCoinsViewCache}

theorem live_eq_none : live (some coins) = none ↔ coins.isPruned = true := by
  rw [live_some]
  split <;> simp_all

theorem live_unspent {coins : Option CCoins} {stored : CCoins} (h : live coins = some stored) :
    stored.isPruned = false := by
  simpa using (Option.filter_eq_some_iff.mp h).2

variable {lower : List CCoinsViewCache} {cache : CCoinsViewCache} {txid : Uint256}
  {it : CCoinsCacheEntry}

theorem lookup_cons_some {db : CCoinsViewDB} {entry : CCoinsCacheEntry}
    (h : cache.cacheCoins[txid]? = some entry) :
    lookup db (cache :: lower) txid = some entry.coins := by
  simp [lookup, h]

theorem lookup_cons_none {db : CCoinsViewDB} (h : cache.cacheCoins[txid]? = none) :
    lookup db (cache :: lower) txid = lookup db lower txid := by
  simp [lookup, h]

theorem getElem?_storeCoins_kept (view : CoinsView) (txid : Uint256) (coins : CCoins)
    (other : Uint256) :
    (storeCoins view txid coins)[other]? = if other = txid then kept coins else view[other]? := by
  rw [getElem?_storeCoins, kept, live_some]

variable {db : CCoinsViewDB}

theorem lookup_congr (cache : CCoinsViewCache) {lower lower' : List CCoinsViewCache}
    (same : ∀ txid, lookup db lower' txid = lookup db lower txid) (txid : Uint256) :
    lookup db (cache :: lower') txid = lookup db (cache :: lower) txid := by
  simp only [lookup, same]

theorem Coherent.congr (coherent : Coherent db (cache :: lower)) (below : Coherent db lower')
    (same : ∀ txid, lookup db lower' txid = lookup db lower txid) :
    Coherent db (cache :: lower') := by
  refine ⟨below, ?_⟩
  intro txid entry hentry
  rw [logical, same]
  exact coherent.2 txid entry hentry

/-! ## Reading -/

theorem fetched_coherent (coins : CCoins) : EntryCoherent (live (some coins)) (fetched coins) where
  clean _ := rfl
  fresh h := live_eq_none.mpr h

/-- A read finds what is there, and leaves it there. -/
theorem fetchCoins_spec (db : CCoinsViewDB) (caches : List CCoinsViewCache) (txid : Uint256) :
    (fetchCoins db caches txid).1 = lookup db caches txid ∧
      (∀ other, lookup db (fetchCoins db caches txid).2 other = lookup db caches other) ∧
      (Coherent db caches → Coherent db (fetchCoins db caches txid).2) := by
  induction caches with
  | nil => exact ⟨rfl, fun _ => rfl, id⟩
  | cons cache lower ih =>
    cases hentry : cache.cacheCoins[txid]? with
    | some entry =>
      simp only [fetchCoins, hentry, lookup_cons_some hentry, implies_true, true_and]
      exact id
    | none =>
      obtain ⟨hread, hsame, hcoherent⟩ := ih
      cases hfetch : fetchCoins db lower txid with
      | mk found lower' =>
        rw [hfetch] at hread hsame hcoherent
        cases found with
        | none =>
          simp only [fetchCoins, hentry, hfetch, lookup_cons_none hentry]
          exact ⟨hread, lookup_congr cache hsame,
            fun coherent => coherent.congr (hcoherent coherent.1) hsame⟩
        | some coins =>
          simp only [fetchCoins, hentry, hfetch, lookup_cons_none hentry]
          refine ⟨hread, ?_, ?_⟩
          · intro other
            rw [← lookup_congr cache hsame other]
            simp only [lookup, ExtTreeMap.getElem?_insert, LawfulEqCmp.compare_eq_iff_eq]
            split_ifs with he
            · rw [← he, hentry, hsame, ← hread]
              rfl
            · rfl
          · intro coherent
            refine ⟨hcoherent coherent.1, ?_⟩
            intro other entry hother
            rw [logical, hsame]
            simp only [ExtTreeMap.getElem?_insert, LawfulEqCmp.compare_eq_iff_eq] at hother
            split at hother
            · rename_i he
              cases hother
              rw [← he, ← hread]
              exact fetched_coherent coins
            · exact coherent.2 other entry hother

/-! ## Modifying -/

theorem getElem?_releaseModifier (cacheCoins : CCoinsMap) (txid : Uint256)
    (entry : CCoinsCacheEntry) (other : Uint256) :
    (releaseModifier cacheCoins txid entry)[other]? =
      if other = txid then
        if entry.fresh && entry.coins.cleanup.isPruned then none
        else some { entry with coins := entry.coins.cleanup }
      else cacheCoins[other]? := by
  have hput : releaseModifier cacheCoins txid entry = put cacheCoins txid
      (if entry.fresh && entry.coins.cleanup.isPruned then none
        else some { entry with coins := entry.coins.cleanup }) := by
    rw [releaseModifier]
    split <;> rfl
  rw [hput, getElem?_put]
  simp only [eq_comm]

/-- A dirty entry left at the top. If it is dropped, there was nothing below. -/
theorem releaseModifier_spec (entry : CCoinsCacheEntry) (top : CCoinsViewCache)
    (coherent : Coherent db (cache :: lower)) (below : Coherent db lower')
    (same : ∀ txid, lookup db lower' txid = lookup db lower txid) (dirty : entry.dirty = true)
    (fresh : entry.fresh = true → logical db lower txid = none)
    (htop : top.cacheCoins = releaseModifier cache.cacheCoins txid entry) :
    Coherent db (top :: lower') ∧ ∀ other, logical db (top :: lower') other =
      if other = txid then kept entry.coins else logical db (cache :: lower) other := by
  constructor
  · refine ⟨below, ?_⟩
    intro other stored hstored
    rw [htop, getElem?_releaseModifier] at hstored
    rw [logical, same]
    split at hstored
    · rename_i he
      split at hstored
      · cases hstored
      · cases hstored
        subst he
        exact ⟨fun h => absurd (dirty.symm.trans h) (by decide), fresh⟩
    · exact coherent.2 other stored hstored
  · intro other
    simp only [logical, lookup, htop, getElem?_releaseModifier, same]
    by_cases he : other = txid
    · subst he
      rw [if_pos rfl, if_pos rfl]
      by_cases hdrop : (entry.fresh && entry.coins.cleanup.isPruned) = true
      · rw [if_pos hdrop]
        rw [Bool.and_eq_true] at hdrop
        exact (fresh hdrop.1).trans (live_eq_none.mpr hdrop.2).symm
      · rw [if_neg hdrop]
        rfl
    · rw [if_neg he, if_neg he]

/-- The entry that `ModifyCoins` hands out holds the coins of the logical view. -/
theorem entryToModify_spec (coherent : Coherent db (cache :: lower)) (txid : Uint256) :
    Coherent db (entryToModify db cache lower txid).2 ∧
      (∀ other, lookup db (entryToModify db cache lower txid).2 other = lookup db lower other) ∧
      ((entryToModify db cache lower txid).1.fresh = true → logical db lower txid = none) ∧
      live (some (entryToModify db cache lower txid).1.coins) =
        logical db (cache :: lower) txid := by
  cases hentry : cache.cacheCoins[txid]? with
  | some entry =>
    simp only [entryToModify, hentry, logical, lookup_cons_some hentry]
    exact ⟨coherent.1, fun _ => trivial, (coherent.2 txid entry hentry).fresh, trivial⟩
  | none =>
    obtain ⟨hread, hsame, hcoherent⟩ := fetchCoins_spec db lower txid
    cases hfetch : fetchCoins db lower txid with
    | mk found lower' =>
      rw [hfetch] at hread hsame hcoherent
      cases found with
      | none =>
        simp only [entryToModify, hentry, hfetch, logical, lookup_cons_none hentry, ← hread]
        exact ⟨hcoherent coherent.1, hsame, fun _ => rfl, rfl⟩
      | some coins =>
        simp only [entryToModify, hentry, hfetch, logical, lookup_cons_none hentry, ← hread]
        exact ⟨hcoherent coherent.1, hsame, (fetched_coherent coins).fresh, rfl⟩

/-- New coins are marked fresh only where there is nothing below. -/
theorem modifyNewCoins_spec {coinbase : Bool} (modify : CCoins → CCoins)
    (coherent : Coherent db (cache :: lower))
    (new : coinbase = true ∨ logical db (cache :: lower) txid = none) :
    ∃ top, cache.modifyNewCoins txid coinbase modify = .ok top ∧ Coherent db (top :: lower) ∧
      ∀ other, logical db (top :: lower) other =
        if other = txid then kept (modify {}) else logical db (cache :: lower) other := by
  have pruned : coinbase = true ∨ (cache.cacheCoins[txid]?.getD {}).coins.isPruned = true := by
    refine new.imp id ?_
    intro hnone
    cases hentry : cache.cacheCoins[txid]? with
    | none => rfl
    | some entry =>
      rw [logical, lookup_cons_some hentry] at hnone
      exact live_eq_none.mp hnone
  have fresh : ((cache.cacheCoins[txid]?.getD {}).fresh ||
      (!coinbase && !(cache.cacheCoins[txid]?.getD {}).dirty)) = true →
      logical db lower txid = none := by
    simp only [Bool.or_eq_true, Bool.and_eq_true, Bool.not_eq_true']
    intro hfresh
    cases hentry : cache.cacheCoins[txid]? with
    | none =>
      rw [hentry] at hfresh
      rcases hfresh with hfresh | ⟨hnot, -⟩
      · cases hfresh
      · have hnone := new.resolve_left (by simp [hnot])
        rwa [logical, lookup_cons_none hentry] at hnone
    | some entry =>
      rw [hentry] at hfresh
      rcases hfresh with hfresh | ⟨hnot, hclean⟩
      · exact (coherent.2 txid entry hentry).fresh hfresh
      · have hnone := new.resolve_left (by simp [hnot])
        rw [logical, lookup_cons_some hentry] at hnone
        exact ((coherent.2 txid entry hentry).clean hclean).symm.trans hnone
  let entry : CCoinsCacheEntry :=
    { coins := modify {}
      dirty := true
      fresh := (cache.cacheCoins[txid]?.getD {}).fresh ||
        (!coinbase && !(cache.cacheCoins[txid]?.getD {}).dirty) }
  let top := { cache with cacheCoins := releaseModifier cache.cacheCoins txid entry }
  refine ⟨top, ?_, releaseModifier_spec entry top coherent coherent.1 (fun _ => rfl) rfl fresh rfl⟩
  rw [CCoinsViewCache.modifyNewCoins, (require_eq_ok _ _ ()).mpr pruned]
  rfl

theorem uncache_spec (coherent : Coherent db (cache :: lower)) (txid : Uint256) :
    Coherent db (cache.uncache txid :: lower) ∧
      ∀ other, logical db (cache.uncache txid :: lower) other =
        logical db (cache :: lower) other := by
  unfold CCoinsViewCache.uncache
  split
  · rename_i entry hentry
    split
    · rename_i hflags
      simp only [Bool.and_eq_true, Bool.not_eq_true'] at hflags
      have clean := (coherent.2 txid entry hentry).clean hflags.1
      constructor
      · refine ⟨coherent.1, ?_⟩
        intro other stored hstored
        rw [ExtTreeMap.getElem?_erase] at hstored
        split at hstored
        · cases hstored
        · exact coherent.2 other stored hstored
      · intro other
        by_cases he : txid = other
        · subst he
          rw [logical, logical, lookup_cons_some hentry, clean, lookup_cons_none (by simp)]
          rfl
        · simp [logical, lookup, ExtTreeMap.getElem?_erase, he]
    · exact ⟨coherent, fun _ => rfl⟩
  · exact ⟨coherent, fun _ => rfl⟩

/-! ## Flushing -/

theorem writeEntry_clean (us : Option CCoinsCacheEntry)
    (clean : it.dirty = false) : writeEntry us it = .ok us := by
  simp only [writeEntry, clean]
  rfl

theorem writeEntry_new (dirty : it.dirty = true) :
    writeEntry none it = .ok (if it.fresh && it.coins.isPruned then none
      else some { coins := it.coins, dirty := true, fresh := it.fresh }) := by
  simp only [writeEntry, dirty, Bool.not_true, Bool.false_eq_true, if_false]
  split <;> rfl

theorem writeEntry_over {us : CCoinsCacheEntry} (dirty : it.dirty = true)
    (applied : ¬ (it.fresh = true ∧ us.coins.isPruned = false)) :
    writeEntry (some us) it = .ok (if us.fresh && it.coins.isPruned then none
      else some { us with coins := it.coins, dirty := true }) := by
  simp only [writeEntry, dirty, Bool.not_true, Bool.false_eq_true, if_false]
  rw [(require_eq_ok _ _ ()).mpr applied]
  split <;> rfl

/-- What a level shows with this entry, over the level below. -/
def shown (grand : Option CCoins) (us : Option CCoinsCacheEntry) : Option CCoins :=
  live (us.elim grand fun entry => some entry.coins)

/-- An entry that is dirty shows its coins, also if it is dropped as fresh and
fully spent. -/
theorem shown_dirty {fresh : Bool} (hfresh : fresh = true → live grand = none) :
    let us : Option CCoinsCacheEntry :=
      if fresh && coins.isPruned then none else some { coins, dirty := true, fresh }
    (∀ entry, us = some entry → EntryCoherent (live grand) entry) ∧
      shown grand us = live (some coins) := by
  by_cases hdrop : (fresh && coins.isPruned) = true
  · simp only [if_pos hdrop]
    rw [Bool.and_eq_true] at hdrop
    exact ⟨by simp, (hfresh hdrop.1).trans (live_eq_none.mpr hdrop.2).symm⟩
  · simp only [if_neg hdrop]
    refine ⟨?_, rfl⟩
    rintro entry ⟨⟩
    exact ⟨fun h => absurd h (by simp), hfresh⟩

/-- A coherent entry can be written over the parent's entry; the result is
coherent with the grandparent and shows the coins of the child. -/
theorem writeEntry_spec {us : Option CCoinsCacheEntry}
    (parent : ∀ entry, us = some entry → EntryCoherent (live grand) entry)
    (child : EntryCoherent (shown grand us) it) :
    ∃ us', writeEntry us it = .ok us' ∧
      (∀ entry, us' = some entry → EntryCoherent (live grand) entry) ∧
      shown grand us' = live (some it.coins) := by
  cases hdirty : it.dirty with
  | false => exact ⟨us, writeEntry_clean us hdirty, parent, (child.clean hdirty).symm⟩
  | true =>
    cases us with
    | none => exact ⟨_, writeEntry_new hdirty, shown_dirty child.fresh⟩
    | some us =>
      have applied : ¬ (it.fresh = true ∧ us.coins.isPruned = false) := by
        rintro ⟨hfresh, hunspent⟩
        have := live_eq_none.mp (child.fresh hfresh)
        rw [hunspent] at this
        cases this
      exact ⟨_, writeEntry_over hdirty applied, shown_dirty (parent us rfl).fresh⟩

theorem logical_cons (cache : CCoinsViewCache) (lower : List CCoinsViewCache) (txid : Uint256) :
    logical db (cache :: lower) txid = shown (lookup db lower txid) cache.cacheCoins[txid]? := by
  rw [logical, lookup]
  cases cache.cacheCoins[txid]? with
  | none => rfl
  | some entry => rfl

/-- A level written into the next. -/
theorem batchWrite_cache {next : CCoinsViewCache} (coherent : Coherent db (top :: next :: lower))
    (hashBlock : Uint256) :
    ∃ next', next.batchWrite top.cacheCoins hashBlock = .ok next' ∧
      Coherent db (next' :: lower) ∧
      ∀ txid, logical db (next' :: lower) txid = logical db (top :: next :: lower) txid := by
  obtain ⟨hbelow, htop⟩ := coherent
  have each := fun txid it (hit : top.cacheCoins[txid]? = some it) =>
    writeEntry_spec (hbelow.2 txid) (logical_cons next lower txid ▸ htop txid it hit)
  obtain ⟨cacheCoins, hrun, hwritten, hrest⟩ := writeAll_toList writeEntry
    (fun txid it hit => (each txid it hit).imp fun _ h => h.1)
  refine ⟨{ hashBlock, cacheCoins }, ?_, ⟨hbelow.1, ?_⟩, ?_⟩
  · rw [CCoinsViewCache.batchWrite, hrun]
    rfl
  · intro txid entry hentry
    cases hit : top.cacheCoins[txid]? with
    | none => exact hbelow.2 txid entry ((hrest txid hit).symm.trans hentry)
    | some it =>
      obtain ⟨us', hus, hcoherent, -⟩ := each txid it hit
      rw [hwritten txid it hit] at hus
      cases hus
      exact hcoherent entry hentry
  · intro txid
    rw [logical_cons]
    cases hit : top.cacheCoins[txid]? with
    | none =>
      rw [logical, lookup_cons_none hit, ← logical, logical_cons, hrest txid hit]
    | some it =>
      obtain ⟨us', hus, -, hshown⟩ := each txid it hit
      rw [hwritten txid it hit] at hus
      cases hus
      rw [logical, lookup_cons_some hit]
      exact hshown

/-- The database has no entry for coins that are fully spent. -/
def CCoinsViewDB.Unspent (db : CCoinsViewDB) : Prop :=
  ∀ (txid : Uint256) (coins : CCoins), db.coins[txid]? = some coins → coins.isPruned = false

theorem CCoinsViewDB.Unspent.live (unspent : db.Unspent) (txid : Uint256) :
    KubuCore.Chain.live db.coins[txid]? = db.coins[txid]? := by
  cases hcoins : db.coins[txid]? with
  | none => rfl
  | some coins =>
    rw [live_some, unspent txid coins hcoins]
    rfl

/-- The lowest level written into the database. -/
theorem batchWrite_db (unspent : db.Unspent) (coherent : Coherent db [top]) (hashBlock : Uint256) :
    ∃ db', db.batchWrite top.cacheCoins hashBlock = .ok db' ∧ db'.Unspent ∧
      ∀ txid : Uint256, db'.coins[txid]? = logical db [top] txid := by
  have each : ∀ (txid : Uint256) (it : CCoinsCacheEntry), top.cacheCoins[txid]? = some it →
      writeCoins db.coins[txid]? it = .ok (live (some it.coins)) := by
    intro txid it hit
    rw [writeCoins]
    split
    · rw [live_some]
      rfl
    · rename_i hdirty
      rw [(coherent.2 txid it hit).clean (by simpa using hdirty), logical, lookup, unspent.live]
      rfl
  obtain ⟨coins, hrun, hwritten, hrest⟩ := writeAll_toList writeCoins
    (fun txid it hit => ⟨_, each txid it hit⟩)
  have same : ∀ txid : Uint256, coins[txid]? = logical db [top] txid := by
    intro txid
    cases hit : top.cacheCoins[txid]? with
    | none =>
      rw [hrest txid hit, logical, lookup_cons_none hit, lookup, unspent.live]
    | some it =>
      have hboth := (hwritten txid it hit).symm.trans (each txid it hit)
      rw [Except.ok.inj hboth, logical, lookup_cons_some hit]
  refine ⟨⟨if hashBlock = 0 then db.hashBestBlock else hashBlock, coins⟩, ?_, ?_, same⟩
  · rw [CCoinsViewDB.batchWrite, hrun]
    rfl
  · intro txid stored hstored
    exact live_unspent ((same txid).symm.trans hstored)

end KubuCore.Chain
