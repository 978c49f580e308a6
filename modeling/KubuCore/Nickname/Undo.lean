import KubuCore.Nickname.Ledger

/-!
# Disconnecting a block

`ApplyNicknameUndo` on the database a block left gives back the database
before it, row by row: names and their indexes from the undo entries, the rows
on the side lists of the bond index from its own undo table, the pricing state
from a third.
-/

namespace KubuCore.Nickname

open Chain
open Maps
open Rows
open Std

/-! ## The undo entries of names -/

/-- Put the record of a name back as it was, with its index rows. -/
def restoreName (env : Env) (db : NicknameStateDB) (name : Bytes) : DbBatch :=
  match storedRecords db name with
  | some old => .write (.nickname name) old :: writeNicknameIndexEntries env old name
  | none => [.erase (.nickname name)]

section Names

variable {env : Env} {height before : Int} {db : NicknameStateDB} {scan : BlockScan}

theorem BlockDone.restoreOps_eq (done : BlockDone env height db scan) (dbOk : DbOk env before db)
    {name : Bytes} {state : NicknameWorkingState} (hd : (name, state) ∈ scan.dirty) :
    restoreOps env (undoEntryOf name state) = restoreName env db name := by
  obtain ⟨-, -, hbefore⟩ := done.dirty_record hd
  have normal := (done.ok.states name state (mem_dirty.mp hd).1).normal
  cases he : state.existedBefore with
  | false =>
    have hstored : storedRecords db name = none := by
      simp [← hbefore, NicknameWorkingState.beforeRecord, he]
    simp [restoreOps, restoreName, undoEntryOf, he, normal, hstored]
  | true =>
    have hstored : storedRecords db name = some state.before := by
      simp [← hbefore, NicknameWorkingState.beforeRecord, he]
    have hname : { state.before with nickname := name } = state.before := by
      rw [← (dbOk.records name _ hstored).name]
    simp [restoreOps, restoreName, undoEntryOf, he, normal, hstored, hname]

/-- The part of the undo batch about names: first every index row of a changed
record is erased, then the old records are put back. -/
def namesUndo (env : Env) (db db' : NicknameStateDB) (scan : BlockScan) : DbBatch :=
  (scan.dirty.flatMap fun entry => eraseIndexEntries env db' entry.1) ++
    scan.dirty.reverse.flatMap fun entry => restoreName env db entry.1

/-- The undo operations of one name. -/
abbrev undoName (env : Env) (db db' : NicknameStateDB) (name : Bytes) : DbBatch :=
  eraseIndexEntries env db' name ++ restoreName env db name

theorem undoName_eq (db' : NicknameStateDB) (name : Bytes) :
    undoName env db db' name = replaceName env db' (storedRecords db name) name := by
  rw [undoName, restoreName, replaceName]
  cases storedRecords db name <;> simp [nameOp]

theorem namesUndo_touches {db' : NicknameStateDB} {key : DbKey}
    (h : Touches (namesUndo env db db' scan) key) :
    ∃ name state, (name, state) ∈ scan.dirty ∧
      Touches (replaceName env db' (storedRecords db name) name) key := by
  simp only [← undoName_eq, namesUndo, touches_append, touches_flatMap, List.mem_reverse] at h ⊢
  rcases h with ⟨⟨name, state⟩, hd, ht⟩ | ⟨⟨name, state⟩, hd, ht⟩
  · exact ⟨name, state, hd, .inl ht⟩
  · exact ⟨name, state, hd, .inr ht⟩

/-- At a row that is named only for one name, the undo of that name decides, if it was changed. -/
theorem namesUndo_cases {db' : NicknameStateDB} {name : Bytes} {key : DbKey}
    (only : ∀ m, Touches (replaceName env db' (storedRecords db m) m) key → m = name) :
    (writeBatch db' (namesUndo env db db' scan)).get? key =
        (writeBatch db' (replaceName env db' (storedRecords db name) name)).get? key ∨
      (∀ state, (name, state) ∉ scan.dirty) ∧
        (writeBatch db' (namesUndo env db db' scan)).get? key = db'.get? key := by
  by_cases hex : ∃ state, (name, state) ∈ scan.dirty
  · obtain ⟨state, hd⟩ := hex
    have hne : ∀ entry ∈ scan.dirty, entry ≠ (name, state) →
        ¬ Touches (undoName env db db' entry.1) key := by
      rintro ⟨m, t⟩ hm hne ht
      obtain rfl : m = name := only m (by rwa [← undoName_eq])
      exact hne (by rw [dirty_unique hm hd])
    simp only [touches_append, not_or] at hne
    rw [← undoName_eq, namesUndo, writeBatch_append, writeBatch_append,
      get?_flatMap_of_unique _ (List.nodup_reverse.mpr (dirty_nodup scan)) (List.mem_reverse.mpr hd)]
    · left
      apply get?_congr
      rw [get?_flatMap_of_unique db' (dirty_nodup scan) hd]
      exact fun entry he hx => (hne entry he hx).1
    · exact fun entry he hx => (hne entry (List.mem_reverse.mp he) hx).2
  · refine .inr ⟨fun state hd => hex ⟨state, hd⟩, get?_of_untouched _ fun ht => ?_⟩
    obtain ⟨m, t, hm, ht⟩ := namesUndo_touches ht
    exact hex ⟨t, only m ht ▸ hm⟩

end Names

/-! ## The side lists of the bond index -/

theorem bondIndexUndoEntry_outpoint (db : NicknameStateDB) (o : COutPoint) :
    (bondIndexUndoEntry db o).outpoint = o := by
  unfold bondIndexUndoEntry
  split <;> rfl

theorem restoreBondIndexOp_key (entry : NicknameBondIndexUndoEntry) :
    (restoreBondIndexOp entry).key = .bondOutpoint entry.outpoint := by
  unfold restoreBondIndexOp
  split <;> rfl

theorem restoreBondIndexOp_get? (db db' : NicknameStateDB) (o : COutPoint) :
    (writeBatch db' [restoreBondIndexOp (bondIndexUndoEntry db o)]).get? (.bondOutpoint o) =
      bondIndex db o := by
  have hread : readNicknameByBondOutpoint db o = bondIndex db o := rfl
  unfold bondIndexUndoEntry restoreBondIndexOp
  rw [hread]
  cases hi : bondIndex db o <;> simp

theorem mem_bondIndexUndoMap {db : NicknameStateDB} {outpoints : List COutPoint} {o : COutPoint}
    {entry : NicknameBondIndexUndoEntry} :
    (o, entry) ∈ (bondIndexUndoMap db outpoints).toList ↔
      o ∈ outpoints ∧ entry = bondIndexUndoEntry db o := by
  rw [ExtTreeMap.mem_toList_iff_getElem?_eq_some, bondIndexUndoMap, getElem?_foldl_insertIfNew]
  by_cases h : o ∈ outpoints
  · simp [eq_comm]
  · simp [h]

/-- The bond-index undo entries put back the rows of the outpoints remembered
and touch no other row. -/
theorem sideLists_get? (db db' : NicknameStateDB) (scan : BlockScan) (o : COutPoint) :
    (writeBatch db' ((bondIndexUndoRow db scan).map restoreBondIndexOp)).get? (.bondOutpoint o) =
      if o ∈ remembered scan then bondIndex db o else bondIndex db' o := by
  have hkey : ∀ p ∈ (bondIndexUndoMap db (remembered scan)).toList,
      (restoreBondIndexOp p.2).key = .bondOutpoint p.1 := by
    rintro ⟨a, entry⟩ h
    obtain ⟨-, rfl⟩ := mem_bondIndexUndoMap.mp h
    rw [restoreBondIndexOp_key, bondIndexUndoEntry_outpoint]
  rw [bondIndexUndoRow, List.map_map, List.map_eq_flatMap]
  split_ifs with ho
  · have hmem : (o, bondIndexUndoEntry db o) ∈ (bondIndexUndoMap db (remembered scan)).toList :=
      mem_bondIndexUndoMap.mpr ⟨ho, rfl⟩
    rw [get?_flatMap_of_unique db' (toList_nodup _) hmem]
    · exact restoreBondIndexOp_get? db db' o
    · rintro ⟨a, entry⟩ ha hne ht
      simp only [Function.comp_apply, touches_cons, not_touches_nil, or_false, hkey _ ha] at ht
      cases ht
      obtain ⟨-, rfl⟩ := mem_bondIndexUndoMap.mp ha
      exact hne rfl
  · apply get?_of_untouched
    simp only [touches_flatMap, Function.comp_apply, touches_cons, not_touches_nil, or_false]
    rintro ⟨⟨a, entry⟩, ha, ht⟩
    rw [hkey _ ha] at ht
    cases ht
    exact ho (mem_bondIndexUndoMap.mp ha).1

/-! ## The whole batch -/

/-- The rest of the undo batch: the undo rows and counts of the block, the
side lists of the bond index and the pricing state. -/
def closingUndo (db : NicknameStateDB) (blockHash : Uint256) (scan : BlockScan)
    (blockHeight : Int) : DbBatch :=
  [.erase (.undo blockHash), .erase (.regCount blockHeight)] ++
    (bondIndexUndoRow db scan).map restoreBondIndexOp ++
    [.erase (.bondIndexUndo blockHash),
      if (readNicknamePricingState db).1 then .write .pricingState (readNicknamePricingState db).2
        else .erase .pricingState,
      .erase (.pricingUndo blockHash)]

section Block

variable {env : Env} {ledger : Ledger} {block : CBlock} {items : List BlockItem} {scan : BlockScan}

theorem Connected.undo_eq (c : Connected env ledger block items scan) (ok : LedgerOk env ledger)
    {blockHash : Uint256} {blockHeight : Int} :
    applyNicknameUndo env (writeBlock env ledger.db blockHash scan blockHeight) blockHash
        blockHeight (undoRow scan) =
      writeBatch (writeBlock env ledger.db blockHash scan blockHeight)
        (namesUndo env ledger.db (writeBlock env ledger.db blockHash scan blockHeight) scan ++
          closingUndo ledger.db blockHash scan blockHeight) := by
  have hnormal : ∀ entry ∈ scan.dirty, normalizeKeyName entry.1 = entry.1 := by
    rintro ⟨name, state⟩ hd
    exact (c.done.ok.states name state (mem_dirty.mp hd).1).normal
  have herase : ∀ db', (undoRow scan).flatMap (fun undo =>
      eraseIndexEntries env db' (normalizeKeyName undo.nickname)) =
      scan.dirty.flatMap fun entry => eraseIndexEntries env db' entry.1 := by
    intro db'
    rw [undoRow, List.flatMap_map]
    refine List.flatMap_congr fun entry he => ?_
    simp only [undoEntryOf, hnormal entry he]
  have hrestore : (undoRow scan).reverse.flatMap (restoreOps env) =
      scan.dirty.reverse.flatMap fun entry => restoreName env ledger.db entry.1 := by
    rw [undoRow, ← List.map_reverse, List.flatMap_map]
    refine List.flatMap_congr fun entry he => ?_
    exact c.done.restoreOps_eq ok.db (List.mem_reverse.mp he)
  have hside : readNicknameBondIndexUndo (writeBlock env ledger.db blockHash scan blockHeight)
      blockHash = some (bondIndexUndoRow ledger.db scan) := by
    rw [readNicknameBondIndexUndo, c.done.block_bondIndexUndo ok.db, if_pos rfl]
  have hpricing : (writeBlock env ledger.db blockHash scan blockHeight).get?
      (.pricingUndo blockHash) = some
        { existedBefore := (readNicknamePricingState ledger.db).1
          previousState := if (readNicknamePricingState ledger.db).1 then
            (readNicknamePricingState ledger.db).2 else {} } := by
    rw [c.done.block_pricingUndo ok.db, if_pos rfl]
  simp only [applyNicknameUndo, herase, hrestore, restoreBondIndexOps, hside, restorePricingOps,
    hpricing, namesUndo, closingUndo, List.append_assoc]
  cases (readNicknamePricingState ledger.db).1 <;> rfl

/-- The database a block leaves. -/
abbrev after (env : Env) (ledger : Ledger) (block : CBlock) (scan : BlockScan) : NicknameStateDB :=
  writeBlock env ledger.db block.hash scan (ledger.height + 1)

section

variable (c : Connected env ledger block items scan) (ok : LedgerOk env ledger)
include c ok

theorem Connected.records_after :
    storedRecords (after env ledger block scan) = scan.records ledger.db :=
  c.done.block_nickname ok.db

theorem Connected.undo_nickname (name : Bytes) :
    (writeBatch (after env ledger block scan)
      (namesUndo env ledger.db (after env ledger block scan) scan)).get? (.nickname name) =
      storedRecords ledger.db name := by
  rcases namesUndo_cases fun m ht =>
    replace_only ((c.dbOk ok _ _).records m) (ok.db.records m) ht (.inl rfl) with h | ⟨clean, h⟩
  · rw [h, replace_nickname (ok.db.records name)]
  · rw [h, ← c.done.clean_record clean, ← c.records_after ok]
    rfl

theorem Connected.undo_owner (keyID : Uint160) (name : Bytes) :
    (writeBatch (after env ledger block scan)
      (namesUndo env ledger.db (after env ledger block scan) scan)).get? (.ownerKeyID keyID name) =
      ownerRow env (storedRecords ledger.db name) keyID := by
  have exact' : OwnerExact env (after env ledger block scan) := c.done.block_owner ok.db ok.owner
  rcases namesUndo_cases fun m ht =>
    replace_only ((c.dbOk ok _ _).records m) (ok.db.records m) ht (.inr ⟨_, rfl⟩)
    with h | ⟨clean, h⟩
  · rw [h, replace_owner ((c.dbOk ok _ _).records name) (ok.db.records name)
      fun k => exact' k name]
  · rw [h, exact', c.records_after ok, c.done.clean_record clean]

/-- A bond held after the block was held before it or was not indexed. -/
theorem Connected.held_new {name : Bytes} {o : COutPoint}
    (holds : Holds (scan.records ledger.db) name o) :
    Holds (storedRecords ledger.db) name o ∨ bondIndex ledger.db o = none := by
  rcases c.run.holds_origin (ok.db.startOk (by omega) c.fresh) holds with ⟨item, hi, hid⟩ | hold
  · cases hidx : bondIndex ledger.db o with
    | none => exact .inr rfl
    | some m => exact absurd hid (c.fresh.unknown o (.inl ⟨m, hidx⟩) item hi)
  · exact .inl hold

/-- Outside the side lists, undoing the names gives the bond index back. -/
theorem Connected.undo_bond {o : COutPoint} (ho : o ∉ remembered scan) :
    (writeBatch (after env ledger block scan)
      (namesUndo env ledger.db (after env ledger block scan) scan)).get? (.bondOutpoint o) =
      bondIndex ledger.db o := by
  have hr : ∀ m, (o, m) ∉ scan.bondIndexUpserts := fun m hm =>
    ho (List.mem_append_right _ (List.mem_map.mpr ⟨(o, m), hm, rfl⟩))
  have hc : o ∉ scan.bondIndexErases := fun hc => ho (List.mem_append_left _ hc)
  have hafter : bondIndex (after env ledger block scan) o = _ := c.done.block_bond_unlisted hr hc
  obtain ⟨hheld, -, hsame⟩ := c.done.upserts_bond ok.db o
  have touched : ∀ m, Touches (replaceName env (after env ledger block scan)
      (storedRecords ledger.db m) m) (.bondOutpoint o) →
      Holds (scan.records ledger.db) m o ∨ Holds (storedRecords ledger.db) m o := by
    intro m ht
    rcases replace_touches ((c.dbOk ok _ _).records m) (ok.db.records m) ht with
      h | ⟨_, h⟩ | ⟨_, h, holds⟩ <;> cases h
    rwa [c.records_after ok] at holds
  by_cases hold : ∃ n, Holds (storedRecords ledger.db) n o
  · obtain ⟨n, hold⟩ := hold
    rw [ok.db.indexed n o hold]
    rcases namesUndo_cases fun m ht => (touched m ht).elim
      (fun h => c.done.stable m n o h hold) fun h => ok.db.uniqueBonds m n o h hold
      with h | ⟨clean, h⟩
    · rw [h, replace_bond ((c.dbOk ok _ _).records n) (ok.db.records n)]
      exact if_pos hold
    · have hnow : Holds (scan.records ledger.db) n o := by
        rw [Holds, c.done.clean_record clean]
        exact hold
      rw [h]
      exact hafter.trans (hheld n hnow)
  · have hold' : ∀ m, ¬ Holds (storedRecords ledger.db) m o := fun m hm => hold ⟨m, hm⟩
    by_cases hnow : ∃ n, Holds (scan.records ledger.db) n o
    · obtain ⟨n, hnow⟩ := hnow
      rw [(c.held_new ok hnow).resolve_left (hold' n)]
      rcases namesUndo_cases fun m ht => (touched m ht).elim
        (fun h => c.done.records.unique m n o h hnow) fun h => absurd h (hold' m)
        with h | ⟨clean, -⟩
      · rw [h, replace_bond ((c.dbOk ok _ _).records n) (ok.db.records n), c.records_after ok]
        exact (if_neg (hold' n)).trans (if_pos hnow)
      · rw [Holds, c.done.clean_record clean] at hnow
        exact absurd hnow (hold' n)
    · rw [get?_of_untouched]
      · exact hafter.trans (hsame (fun m hm => hnow ⟨m, hm⟩) hold')
      · intro ht
        obtain ⟨m, t, hm, ht⟩ := namesUndo_touches ht
        exact (touched m ht).elim (fun h => hnow ⟨m, h⟩) (hold' m)

end

/-- The pricing state read with its bounds enforced is the state stored. -/
theorem LedgerOk.pricing_read (ok : LedgerOk env ledger) :
    readNicknamePricingState ledger.db = ((ledger.db.get? .pricingState).isSome,
      (ledger.db.get? .pricingState).getD {}) := by
  unfold readNicknamePricingState
  cases hp : ledger.db.get? .pricingState with
  | none => rfl
  | some state =>
    obtain ⟨hclamp, hrolling⟩ := ok.pricing state hp
    have hneg : ¬ state.rollingRegistrations < 0 := by omega
    simp only [hclamp, hneg, if_false, Option.isSome_some, Option.getD_some]

theorem closingUndo_touches {db : NicknameStateDB} {blockHash : Uint256} {blockHeight : Int}
    {key : DbKey} (h : Touches (closingUndo db blockHash scan blockHeight) key) :
    key.isLog = true ∨ ∃ o, key = .bondOutpoint o := by
  simp only [closingUndo, touches_append, touches_cons, touches_map, not_touches_nil,
    restoreBondIndexOp_key, or_false] at h
  rcases h with ((rfl | rfl) | ⟨entry, -, rfl⟩) | rfl | h | rfl
  · exact .inl rfl
  · exact .inl rfl
  · exact .inr ⟨_, rfl⟩
  · exact .inl rfl
  · split at h <;> exact .inl (h ▸ rfl)
  · exact .inl rfl

/-- The undo batch as far as the other tables go. -/
def logUndo (db : NicknameStateDB) (blockHash : Uint256) (blockHeight : Int) : DbBatch :=
  [.erase (.undo blockHash), .erase (.regCount blockHeight), .erase (.bondIndexUndo blockHash),
    if (readNicknamePricingState db).1 then .write .pricingState (readNicknamePricingState db).2
      else .erase .pricingState,
    .erase (.pricingUndo blockHash)]

section

variable (c : Connected env ledger block items scan) (ok : LedgerOk env ledger)
include c ok

theorem Connected.undo_log {key : DbKey} (log : key.isLog = true) :
    (writeBatch (after env ledger block scan)
      (namesUndo env ledger.db (after env ledger block scan) scan ++
        closingUndo ledger.db block.hash scan (ledger.height + 1))).get? key =
      (writeBatch (after env ledger block scan)
        (logUndo ledger.db block.hash (ledger.height + 1))).get? key := by
  have hnames : ¬ Touches (namesUndo env ledger.db (after env ledger block scan) scan) key := by
    intro ht
    obtain ⟨m, t, -, ht⟩ := namesUndo_touches ht
    rcases replace_touches ((c.dbOk ok _ _).records m) (ok.db.records m) ht with
      rfl | ⟨_, rfl⟩ | ⟨_, rfl, -⟩ <;> cases log
  have hside : ¬ Touches ((bondIndexUndoRow ledger.db scan).map restoreBondIndexOp) key := by
    intro ht
    simp only [touches_map, restoreBondIndexOp_key] at ht
    obtain ⟨entry, -, rfl⟩ := ht
    cases log
  rw [get?_append_of_untouched_left _ hnames, closingUndo, get?_append_of_untouched_middle _ hside]
  rfl

/-- Undoing the other tables gives back their rows. -/
theorem Connected.logUndo_get? (fresh : FreshBlock env ledger block) {key : DbKey}
    (log : key.isLog = true) :
    (writeBatch (after env ledger block scan)
      (logUndo ledger.db block.hash (ledger.height + 1))).get? key = ledger.db.get? key := by
  have hop : ∀ other : DbKey, other ≠ .pricingState →
      (if (readNicknamePricingState ledger.db).1 then
        RowOp.write (V := Row) .pricingState (readNicknamePricingState ledger.db).2
        else .erase .pricingState).key ≠ other := by
    intro other hne
    split <;> exact hne.symm
  cases key with
  | nickname | bondOutpoint | ownerKeyID => cases log
  | undo hash =>
    by_cases he : hash = block.hash
    · subst he
      rw [(ok.undo _).mpr fresh.hash]
      exact get?_erase_last _ [] _ (by simp [hop])
    · rw [get?_of_untouched _ (by simp [logUndo, Ne.symm he, hop]), c.done.block_undo ok.db,
        if_neg he]
  | bondIndexUndo hash =>
    by_cases he : hash = block.hash
    · subst he
      rw [ok.bondIndexUndo _ fresh.hash]
      exact get?_erase_last _ [_, _] _ (by simp [hop])
    · rw [get?_of_untouched _ (by simp [logUndo, Ne.symm he, hop]),
        c.done.block_bondIndexUndo ok.db, if_neg he]
  | pricingUndo hash =>
    by_cases he : hash = block.hash
    · subst he
      rw [ok.pricingUndo _ fresh.hash]
      exact get?_erase_last _ [_, _, _, _] _ (by simp)
    · rw [get?_of_untouched _ (by simp [logUndo, Ne.symm he, hop]),
        c.done.block_pricingUndo ok.db, if_neg he]
  | regCount height =>
    by_cases he : height = ledger.height + 1
    · subst he
      rw [ok.counts _ (by omega)]
      exact get?_erase_last _ [_] _ (by simp [hop])
    · rw [get?_of_untouched _ (by simp [logUndo, Ne.symm he, hop]), c.done.block_regCount ok.db,
        if_neg he]
  | pricingState =>
    rw [logUndo, ok.pricing_read]
    cases hp : ledger.db.get? .pricingState with
    | none => exact get?_erase_last _ [_, _, _] _ (by simp)
    | some state => exact get?_write_last _ [_, _, _] _ _ (by simp)
  | ownerIndexReady =>
    rw [get?_of_untouched _ (by simp [logUndo, hop]), c.done.block_ownerIndexReady ok.db]

/-- `ApplyNicknameUndo` right after `WriteNicknameBatch` gives back every row. -/
theorem Connected.undo (fresh : FreshBlock env ledger block) :
    applyNicknameUndo env (after env ledger block scan) block.hash (ledger.height + 1)
      (undoRow scan) = ledger.db := by
  rw [c.undo_eq ok]
  apply ExtDTreeMap.ext_get?
  intro key
  cases hkey : key.isLog with
  | true => rw [c.undo_log ok hkey, c.logUndo_get? ok fresh hkey]
  | false =>
    cases key with
    | nickname name =>
      rw [get?_append_of_untouched]
      · exact c.undo_nickname ok name
      · intro ht
        rcases closingUndo_touches ht with h | ⟨_, h⟩ <;> cases h
    | ownerKeyID keyID name =>
      rw [get?_append_of_untouched, ok.owner]
      · exact c.undo_owner ok keyID name
      · intro ht
        rcases closingUndo_touches ht with h | ⟨_, h⟩ <;> cases h
    | bondOutpoint o =>
      rw [closingUndo, ← List.append_assoc, get?_append_of_untouched, ← List.append_assoc,
        writeBatch_append, sideLists_get?]
      · split
        · rfl
        · rename_i ho
          rw [bondIndex, get?_append_of_untouched _ (by simp)]
          exact c.undo_bond ok ho
      · split <;> simp
    | undo | ownerIndexReady | pricingState | pricingUndo | bondIndexUndo | regCount => cases hkey

end

end Block

end KubuCore.Nickname
