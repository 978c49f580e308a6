import KubuCore.Nickname.Refinement

/-!
# The database after a block

The rows that `WriteNicknameBatch` leaves when it is given the updates of an
accepted block: the name table holds the records at the end of the block, the
owner index is theirs, and the bond index is the old one changed where bonds
were made, spent, left behind or claimed.
-/

namespace KubuCore.Nickname

open Chain
open Maps
open Rows

/-- The pass over a block has ended. A bond held now and a bond held before
the block are the same output only for the same name. -/
structure BlockDone (env : Env) (height : Int) (db : NicknameStateDB) (scan : BlockScan) : Prop where
  ok : ScanOk db scan
  records : RecordsOk env height (scan.records db)
  stable : ∀ n m outpoint, Holds (scan.records db) n outpoint →
    Holds (storedRecords db) m outpoint → n = m

/-- The working states to be written. -/
def BlockScan.dirty (scan : BlockScan) : List (Bytes × NicknameWorkingState) :=
  scan.states.toList.filter fun entry => entry.2.dirty

theorem mem_dirty {scan : BlockScan} {name : Bytes} {state : NicknameWorkingState} :
    (name, state) ∈ scan.dirty ↔ scan.states[name]? = some state ∧ state.dirty = true := by
  simp [BlockScan.dirty]

theorem dirty_nodup (scan : BlockScan) : scan.dirty.Nodup := (toList_nodup _).filter _

section Done

variable {env : Env} {height before : Int} {db : NicknameStateDB} {scan : BlockScan}

theorem BlockDone.dirty_record (done : BlockDone env height db scan) {name : Bytes}
    {state : NicknameWorkingState} (h : (name, state) ∈ scan.dirty) :
    scan.records db name = some state.current ∧ RecordOk env height name state.current ∧
      state.beforeRecord = storedRecords db name := by
  obtain ⟨hs, hd⟩ := mem_dirty.mp h
  have hstate := done.ok.states name state hs
  have hrecord : scan.records db name = some state.current := by
    rw [records_of_loaded hs, NicknameWorkingState.record, if_pos (hstate.kept hd)]
  exact ⟨hrecord, done.records.each _ _ hrecord, hstate.before⟩

/-- A name with no dirty state has its stored record. -/
theorem BlockDone.clean_record (done : BlockDone env height db scan) {name : Bytes}
    (h : ∀ state, (name, state) ∉ scan.dirty) : scan.records db name = storedRecords db name := by
  cases hs : scan.states[name]? with
  | none => exact records_of_unloaded hs
  | some state =>
    rw [records_of_loaded hs]
    refine (done.ok.states name state hs).clean ?_
    by_contra hd
    exact h state (mem_dirty.mpr ⟨hs, by simpa using hd⟩)

variable {name : Bytes} {info : NicknameInfo}

/-- Two dirty states of one name are one. -/
theorem dirty_unique {s t : NicknameWorkingState} (hs : (name, s) ∈ scan.dirty)
    (ht : (name, t) ∈ scan.dirty) : s = t := by
  have := (mem_dirty.mp hs).1.symm.trans (mem_dirty.mp ht).1
  exact Option.some.inj this

theorem BlockDone.toUpdates_eq (done : BlockDone env height db scan) (blockHeight : Int) :
    scan.toUpdates blockHeight =
      { upserts := scan.dirty.map fun entry => entry.2.current
        erases := []
        bondIndexUpserts := scan.bondIndexUpserts
        bondIndexErases := scan.bondIndexErases
        undoEntries := scan.dirty.map fun entry => undoEntryOf entry.1 entry.2
        blockHeight
        registeredCount := scan.registeredCount } := by
  have hkept : ∀ entry ∈ scan.dirty, entry.2.existsNow = true := by
    rintro ⟨name, state⟩ h
    obtain ⟨hs, hd⟩ := mem_dirty.mp h
    exact (done.ok.states name state hs).kept hd
  have hall := List.filter_eq_self.mpr hkept
  have hnone : scan.dirty.filter (fun entry => !entry.2.existsNow) = [] := by
    rw [List.filter_eq_nil_iff]
    intro entry he
    simp [hkept entry he]
  simp only [BlockScan.toUpdates]
  rw [show (scan.states.toList.filter fun entry => entry.2.dirty) = scan.dirty from rfl, hall, hnone]
  rfl

/-! ## Index rows of one record -/

/-- The owner-index row of a record under a key id. -/
def ownerRow (env : Env) (record : Option NicknameInfo) (keyID : Uint160) : Option Bool :=
  match record with
  | some info => if env.hash160 info.ownerPubKey = keyID then some true else none
  | none => none

theorem tryGetOwnerKeyID_of_ok (h : RecordOk env height name info) :
    tryGetOwnerKeyID env info = some (env.hash160 info.ownerPubKey) := by
  simp [tryGetOwnerKeyID, h.owner.length_eq]

/-- The operation on the row of a name that leaves `record` there. -/
def nameOp (record : Option NicknameInfo) (name : Bytes) : RowOp Row :=
  match record with
  | some info => .write (.nickname name) info
  | none => .erase (.nickname name)

@[simp]
theorem nameOp_key (record : Option NicknameInfo) : (nameOp record name).key = .nickname name := by
  cases record <;> rfl

/-- The record of a name and its index rows are replaced. A written block and an undone one both
do this to every name they change. -/
def replaceName (env : Env) (db : NicknameStateDB) (record : Option NicknameInfo) (name : Bytes) :
    DbBatch :=
  eraseIndexEntries env db name ++
    nameOp record name :: record.toList.flatMap fun info => writeNicknameIndexEntries env info name

theorem upsertOps_eq (h : RecordOk env height name info) :
    upsertOps env db info = replaceName env db (some info) name := by
  have hname : normalizeKeyName info.nickname = name := by rw [h.name, h.normal]
  have hinfo : { info with nickname := name } = info := by rw [← h.name]
  simp [upsertOps, replaceName, nameOp, hname, hinfo]

section Replace

variable {record : Option NicknameInfo}
  (old : ∀ r, storedRecords db name = some r → RecordOk env before name r)
  (new : ∀ r, record = some r → RecordOk env height name r)

include old in
theorem eraseIndexEntries_eq :
    eraseIndexEntries env db name =
      ((currentBond (storedRecords db name)).toList.map fun o => .erase (.bondOutpoint o)) ++
        (storedRecords db name).toList.map fun r =>
          .erase (.ownerKeyID (env.hash160 r.ownerPubKey) name) := by
  have hget : db.get? (.nickname name) = storedRecords db name := rfl
  rw [eraseIndexEntries, hget]
  cases hr : storedRecords db name with
  | none => rfl
  | some r =>
    simp only [eraseNicknameBondIndexEntry, eraseNicknameOwnerIndexEntry, currentBond,
      tryGetOwnerKeyID_of_ok (old r hr)]
    split <;> rfl

include new in
theorem writeNicknameIndexEntries_eq :
    (record.toList.flatMap fun info => writeNicknameIndexEntries env info name) =
      ((currentBond record).toList.map fun o => .write (.bondOutpoint o) name) ++
        record.toList.map fun r => .write (.ownerKeyID (env.hash160 r.ownerPubKey) name) true := by
  cases record with
  | none => rfl
  | some info =>
    simp only [writeNicknameIndexEntries, currentBond, tryGetOwnerKeyID_of_ok (new info rfl),
      Option.toList_some, List.flatMap_singleton]
    split <;> rfl

include old new

theorem replace_touches {key : DbKey} (h : Touches (replaceName env db record name) key) :
    key = .nickname name ∨ (∃ keyID, key = .ownerKeyID keyID name) ∨
      ∃ o, key = .bondOutpoint o ∧
        (currentBond (storedRecords db name) = some o ∨ currentBond record = some o) := by
  rw [replaceName, eraseIndexEntries_eq old, writeNicknameIndexEntries_eq new] at h
  simp only [touches_append, touches_cons, touches_map, nameOp_key,
    Option.mem_toList] at h
  rcases h with (⟨o, ho, rfl⟩ | ⟨r, -, rfl⟩) | rfl | ⟨o, ho, rfl⟩ | ⟨r, -, rfl⟩
  · exact .inr (.inr ⟨o, rfl, .inl ho⟩)
  · exact .inr (.inl ⟨_, rfl⟩)
  · exact .inl rfl
  · exact .inr (.inr ⟨o, rfl, .inr ho⟩)
  · exact .inr (.inl ⟨_, rfl⟩)

/-- A row of a name, or of its owner, is touched for that name only. -/
theorem replace_only {key : DbKey} {m : Bytes} (h : Touches (replaceName env db record name) key)
    (row : key = .nickname m ∨ ∃ keyID, key = .ownerKeyID keyID m) : name = m := by
  rcases replace_touches old new h with rfl | ⟨_, rfl⟩ | ⟨_, rfl, -⟩ <;>
    rcases row with h | ⟨_, h⟩ <;> cases h <;> rfl

omit old in
theorem replace_nickname :
    (writeBatch db (replaceName env db record name)).get? (.nickname name) = record := by
  rw [replaceName, writeNicknameIndexEntries_eq new]
  cases record with
  | none => exact get?_erase_last _ _ _ (by simp)
  | some info => exact get?_write_last _ _ _ _ (by simp)

/-- With the owner rows of the old record erased and those of the new one
written, the owner index has the rows of the new record. -/
theorem replace_owner
    (exact : ∀ keyID, db.get? (.ownerKeyID keyID name) = ownerRow env (storedRecords db name) keyID)
    (keyID : Uint160) :
    (writeBatch db (replaceName env db record name)).get? (.ownerKeyID keyID name) =
      ownerRow env record keyID := by
  have herased : (writeBatch db (eraseIndexEntries env db name)).get? (.ownerKeyID keyID name) =
      none := by
    rw [eraseIndexEntries_eq old]
    cases hs : storedRecords db name with
    | none =>
      rw [get?_of_untouched _ (by simp), exact, hs]
      rfl
    | some r =>
      by_cases hk : env.hash160 r.ownerPubKey = keyID
      · subst hk
        exact get?_erase_last _ _ _ (by simp)
      · rw [get?_of_untouched _ (by simp [hk]), exact, hs]
        simp [ownerRow, hk]
  rw [replaceName, writeNicknameIndexEntries_eq new]
  cases record with
  | none =>
    rw [get?_append_of_untouched _ (by simp), herased]
    rfl
  | some info =>
    by_cases hk : env.hash160 info.ownerPubKey = keyID
    · subst hk
      simp only [Option.toList_some, List.map_singleton]
      rw [← List.cons_append, ← List.append_assoc, get?_write_last _ _ _ _ (by simp)]
      simp [ownerRow]
    · rw [get?_append_of_untouched _ (by simp [hk]), herased]
      simp [ownerRow, hk]

theorem replace_bond (o : COutPoint) :
    (writeBatch db (replaceName env db record name)).get? (.bondOutpoint o) =
      if currentBond record = some o then some name
      else if currentBond (storedRecords db name) = some o then none
      else db.get? (.bondOutpoint o) := by
  rw [replaceName, writeNicknameIndexEntries_eq new, eraseIndexEntries_eq old]
  by_cases hnew : currentBond record = some o
  · rw [if_pos hnew, hnew, List.append_cons]
    apply get?_write_last
    simp
  · rw [if_neg hnew, get?_append_of_untouched _ (by simpa using hnew)]
    by_cases hold : currentBond (storedRecords db name) = some o
    · rw [hold, get?_append_of_untouched _ (by simp)]
      simp
    · rw [if_neg hold, get?_of_untouched]
      simpa using hold

end Replace

/-! ## All records of a block -/

/-- The owner index has one row for each record, under its owner's key id. -/
def OwnerExact (env : Env) (db : NicknameStateDB) : Prop :=
  ∀ keyID name, db.get? (.ownerKeyID keyID name) = ownerRow env (storedRecords db name) keyID

/-- The first part of the batch: one group of operations for each dirty state. -/
def upsertBatch (env : Env) (db : NicknameStateDB) (scan : BlockScan) : DbBatch :=
  scan.dirty.flatMap fun entry => upsertOps env db entry.2.current

variable {state : NicknameWorkingState} {key : DbKey}

section

variable (done : BlockDone env height db scan)
include done

theorem BlockDone.upsertBatch_eq : upsertBatch env db scan =
    scan.dirty.flatMap fun entry => replaceName env db (scan.records db entry.1) entry.1 := by
  refine List.flatMap_congr fun entry hd => ?_
  obtain ⟨hrecord, hok, -⟩ := done.dirty_record hd
  rw [upsertOps_eq hok, hrecord]

/-- At a row that is named only for one name, the operations of its record decide, if it was
changed. -/
theorem BlockDone.upserts_cases {name : Bytes}
    (only : ∀ m, Touches (replaceName env db (scan.records db m) m) key → m = name) :
    (writeBatch db (upsertBatch env db scan)).get? key =
        (writeBatch db (replaceName env db (scan.records db name) name)).get? key ∨
      scan.records db name = storedRecords db name ∧
        (writeBatch db (upsertBatch env db scan)).get? key = db.get? key := by
  rw [done.upsertBatch_eq]
  by_cases hex : ∃ state, (name, state) ∈ scan.dirty
  · obtain ⟨state, hd⟩ := hex
    refine .inl ?_
    rw [get?_flatMap_of_unique db (dirty_nodup scan) hd]
    rintro ⟨m, t⟩ hm hne ht
    obtain rfl : m = name := only m ht
    exact hne (by rw [dirty_unique hm hd])
  · refine .inr ⟨done.clean_record fun state hd => hex ⟨state, hd⟩, get?_of_untouched _ ?_⟩
    simp only [touches_flatMap, not_exists, not_and]
    rintro ⟨m, t⟩ hm ht
    exact hex ⟨t, only m ht ▸ hm⟩

variable (dbOk : DbOk env before db)
include dbOk

theorem BlockDone.upserts_nickname (name : Bytes) :
    (writeBatch db (upsertBatch env db scan)).get? (.nickname name) = scan.records db name := by
  rcases done.upserts_cases fun m ht =>
    replace_only (dbOk.records m) (done.records.each m) ht (.inl rfl) with h | ⟨hclean, h⟩
  · rw [h, replace_nickname (done.records.each name)]
  · rw [h, hclean]
    rfl

theorem BlockDone.upserts_owner (exact : OwnerExact env db) (keyID : Uint160) (name : Bytes) :
    (writeBatch db (upsertBatch env db scan)).get? (.ownerKeyID keyID name) =
      ownerRow env (scan.records db name) keyID := by
  rcases done.upserts_cases fun m ht =>
    replace_only (dbOk.records m) (done.records.each m) ht (.inr ⟨_, rfl⟩) with h | ⟨hclean, h⟩
  · rw [h, replace_owner (dbOk.records name) (done.records.each name) fun k => exact k name]
  · rw [h, exact, hclean]

/-- The bond index after the records are written: a bond held now is under its
holder, a bond only held before is gone, and any other row is as it was. -/
theorem BlockDone.upserts_bond (o : COutPoint) :
    (∀ name, Holds (scan.records db) name o →
      (writeBatch db (upsertBatch env db scan)).get? (.bondOutpoint o) = some name) ∧
    ((∀ m, ¬ Holds (scan.records db) m o) → ∀ name, Holds (storedRecords db) name o →
      (writeBatch db (upsertBatch env db scan)).get? (.bondOutpoint o) = none) ∧
    ((∀ m, ¬ Holds (scan.records db) m o) → (∀ m, ¬ Holds (storedRecords db) m o) →
      (writeBatch db (upsertBatch env db scan)).get? (.bondOutpoint o) =
        db.get? (.bondOutpoint o)) := by
  have touched : ∀ m, Touches (replaceName env db (scan.records db m) m) (.bondOutpoint o) →
      Holds (storedRecords db) m o ∨ Holds (scan.records db) m o := by
    intro m ht
    rcases replace_touches (dbOk.records m) (done.records.each m) ht with
      h | ⟨_, h⟩ | ⟨_, h, ho⟩ <;> cases h
    exact ho
  refine ⟨fun name hnow => ?_, fun hnow name hold => ?_, fun hnow hold => ?_⟩
  · rcases done.upserts_cases fun m ht => (touched m ht).elim
      (fun h => (done.stable name m o hnow h).symm) fun h => done.records.unique m name o h hnow
      with h | ⟨hclean, h⟩
    · rw [h, replace_bond (dbOk.records name) (done.records.each name)]
      exact if_pos hnow
    · rw [Holds, hclean] at hnow
      rw [h]
      exact dbOk.indexed name o hnow
  · rcases done.upserts_cases fun m ht => (touched m ht).elim
      (fun h => dbOk.uniqueBonds m name o h hold) fun h => absurd h (hnow m) with h | ⟨hclean, -⟩
    · rw [h, replace_bond (dbOk.records name) (done.records.each name)]
      exact (if_neg (hnow name)).trans (if_pos hold)
    · refine absurd ?_ (hnow name)
      rw [Holds, hclean]
      exact hold
  · rw [get?_of_untouched]
    simp only [done.upsertBatch_eq, touches_flatMap, not_exists, not_and]
    rintro ⟨m, t⟩ hm ht
    rcases touched m ht with h | h
    · exact hold m h
    · exact hnow m h

end

/-! ## The whole batch -/

/-- The entries that undo the block's changes to names. -/
def undoRow (scan : BlockScan) : List NicknameUndoEntry :=
  scan.dirty.map fun entry => undoEntryOf entry.1 entry.2

/-- The outpoints whose index rows the side lists change. -/
def remembered (scan : BlockScan) : List COutPoint :=
  scan.bondIndexErases ++ scan.bondIndexUpserts.map Prod.fst

/-- The entries that undo the block's side lists. -/
def bondIndexUndoRow (db : NicknameStateDB) (scan : BlockScan) : List NicknameBondIndexUndoEntry :=
  (bondIndexUndoMap db (remembered scan)).toList.map Prod.snd

/-- What the batch does after the records: the undo rows, the side lists of
the bond index and the pricing rows. -/
def closingBatch (db : NicknameStateDB) (blockHash : Uint256) (scan : BlockScan)
    (blockHeight : Int) : DbBatch :=
  [.write (.undo blockHash) (undoRow scan)] ++
    scan.bondIndexErases.map (fun outpoint => .erase (.bondOutpoint outpoint)) ++
    scan.bondIndexUpserts.map (fun item => .write (.bondOutpoint item.1) (normalizeKeyName item.2)) ++
    [.write (.bondIndexUndo blockHash) (bondIndexUndoRow db scan)] ++
    pricingOps db blockHash blockHeight scan.registeredCount

/-- The database after the block. -/
def writeBlock (env : Env) (db : NicknameStateDB) (blockHash : Uint256) (scan : BlockScan)
    (blockHeight : Int) : NicknameStateDB :=
  writeNicknameBatch env db blockHash (scan.toUpdates blockHeight)

variable {blockHash : Uint256} {blockHeight : Int}

section

variable (done : BlockDone env height db scan)
include done

theorem BlockDone.writeBlock_eq :
    writeBlock env db blockHash scan blockHeight =
      writeBatch db (upsertBatch env db scan ++ closingBatch db blockHash scan blockHeight) := by
  rw [writeBlock, done.toUpdates_eq]
  simp only [writeNicknameBatch, upsertBatch, closingBatch, undoRow, bondIndexUndoRow, remembered,
    List.flatMap_map, List.flatMap_nil, List.append_nil, List.append_assoc]

theorem BlockDone.block_nickname (dbOk : DbOk env before db) :
    storedRecords (writeBlock env db blockHash scan blockHeight) = scan.records db := by
  funext name
  rw [storedRecords, done.writeBlock_eq, get?_append_of_untouched, done.upserts_nickname dbOk]
  simp [closingBatch, pricingOps]

theorem BlockDone.block_owner (dbOk : DbOk env before db) (exact : OwnerExact env db) :
    OwnerExact env (writeBlock env db blockHash scan blockHeight) := by
  intro keyID name
  rw [done.block_nickname dbOk, done.writeBlock_eq, get?_append_of_untouched,
    done.upserts_owner dbOk exact]
  simp [closingBatch, pricingOps]

/-- An outpoint on neither side list has the row the records gave it. -/
theorem BlockDone.block_bond_unlisted {o : COutPoint}
    (hr : ∀ name, (o, name) ∉ scan.bondIndexUpserts) (hc : o ∉ scan.bondIndexErases) :
    bondIndex (writeBlock env db blockHash scan blockHeight) o =
      (writeBatch db (upsertBatch env db scan)).get? (.bondOutpoint o) := by
  rw [bondIndex, done.writeBlock_eq, get?_append_of_untouched]
  simp only [closingBatch, pricingOps, touches_append, touches_cons, touches_map, key_write,
    key_erase, not_touches_nil, reduceCtorEq, DbKey.bondOutpoint.injEq, or_false, false_or,
    exists_eq_right, not_or]
  refine ⟨hc, ?_⟩
  rintro ⟨⟨o', name⟩, hm, rfl⟩
  exact hr name hm

/-- A left-over bond is indexed under the name that left it. -/
theorem BlockDone.block_bond_retired {o : COutPoint}
    (hr : ∃ name, (o, name) ∈ scan.bondIndexUpserts) :
    ∃ name, (o, name) ∈ scan.bondIndexUpserts ∧
      bondIndex (writeBlock env db blockHash scan blockHeight) o = some (normalizeKeyName name) := by
  obtain ⟨name, hr⟩ := hr
  rw [bondIndex, done.writeBlock_eq, closingBatch, ← List.append_assoc,
    get?_append_of_untouched _ (by simp [pricingOps]), ← List.append_assoc,
    get?_append_of_untouched _ (by simp), ← List.append_assoc, writeBatch_append]
  obtain ⟨⟨o', n⟩, hmem, he, hget⟩ := get?_writes (V := Row)
    (writeBatch db (upsertBatch env db scan ++
      ([.write (.undo blockHash) (undoRow scan)] ++
        scan.bondIndexErases.map (fun outpoint => .erase (.bondOutpoint outpoint)))))
    (fun item : COutPoint × Bytes => .bondOutpoint item.1)
    (fun item => normalizeKeyName item.2) ⟨(o, name), hr, rfl⟩
  cases he
  exact ⟨n, hmem, hget⟩

/-- A left-over bond claimed in the block is no longer indexed, unless the
block also left it behind. -/
theorem BlockDone.block_bond_claimed {o : COutPoint}
    (hr : ∀ name, (o, name) ∉ scan.bondIndexUpserts) (hc : o ∈ scan.bondIndexErases) :
    bondIndex (writeBlock env db blockHash scan blockHeight) o = none := by
  have hmap : scan.bondIndexErases.map (fun outpoint => RowOp.erase (V := Row)
      (.bondOutpoint outpoint)) = (scan.bondIndexErases.map DbKey.bondOutpoint).map .erase := by
    rw [List.map_map]
    rfl
  have hlist : ¬ Touches (V := Row) (scan.bondIndexUpserts.map fun item =>
      .write (.bondOutpoint item.1) (normalizeKeyName item.2)) (.bondOutpoint o) := by
    simp only [touches_map, key_write, DbKey.bondOutpoint.injEq]
    rintro ⟨⟨o', name⟩, hm, rfl⟩
    exact hr name hm
  rw [bondIndex, done.writeBlock_eq, closingBatch, ← List.append_assoc,
    get?_append_of_untouched _ (by simp [pricingOps]), ← List.append_assoc,
    get?_append_of_untouched _ (by simp), ← List.append_assoc, get?_append_of_untouched _ hlist,
    writeBatch_append, hmap]
  exact get?_erases _ (List.mem_map_of_mem hc)

end

/-! ## The other tables -/

/-- The tables besides names and their two indexes. -/
def DbKey.isLog : DbKey → Bool
  | .nickname _ | .bondOutpoint _ | .ownerKeyID _ _ => false
  | _ => true

/-- What the block writes to the other tables. -/
def logBatch (db : NicknameStateDB) (blockHash : Uint256) (scan : BlockScan) (blockHeight : Int) :
    DbBatch :=
  [.write (.undo blockHash) (undoRow scan)] ++
    ([.write (.bondIndexUndo blockHash) (bondIndexUndoRow db scan)] ++
      pricingOps db blockHash blockHeight scan.registeredCount)

theorem BlockDone.block_log (done : BlockDone env height db scan) (dbOk : DbOk env before db)
    {key : DbKey} (log : key.isLog = true) :
    (writeBlock env db blockHash scan blockHeight).get? key =
      (writeBatch db (logBatch db blockHash scan blockHeight)).get? key := by
  have hrecords : ¬ Touches (upsertBatch env db scan) key := by
    simp only [done.upsertBatch_eq, touches_flatMap]
    rintro ⟨⟨name, state⟩, hd, ht⟩
    rcases replace_touches (dbOk.records name) (done.records.each name) ht with
      rfl | ⟨_, rfl⟩ | ⟨_, rfl, -⟩ <;> cases log
  have hlists : ¬ Touches (V := Row)
      (scan.bondIndexErases.map (fun outpoint => .erase (.bondOutpoint outpoint)) ++
        scan.bondIndexUpserts.map fun item =>
          .write (.bondOutpoint item.1) (normalizeKeyName item.2)) key := by
    simp only [touches_append, touches_map]
    rintro (⟨_, -, rfl⟩ | ⟨_, -, rfl⟩) <;> cases log
  have hmiddle := get?_append_of_untouched_middle db
    (a := [.write (.undo blockHash) (undoRow scan)])
    (c := [.write (.bondIndexUndo blockHash) (bondIndexUndoRow db scan)] ++
      pricingOps db blockHash blockHeight scan.registeredCount) hlists
  rw [done.writeBlock_eq, get?_append_of_untouched_left _ hrecords, closingBatch, logBatch,
    ← hmiddle]
  simp only [List.append_assoc]

section Logs

variable (done : BlockDone env height db scan) (dbOk : DbOk env before db)
include done dbOk

theorem BlockDone.block_undo (hash : Uint256) :
    (writeBlock env db blockHash scan blockHeight).get? (.undo hash) =
      if hash = blockHash then some (undoRow scan) else db.get? (.undo hash) := by
  rw [done.block_log dbOk rfl]
  split_ifs with he
  · subst he
    exact get?_write_last db [] _ _ (by simp [pricingOps])
  · rw [get?_of_untouched]
    simp [logBatch, pricingOps, Ne.symm he]

theorem BlockDone.block_bondIndexUndo (hash : Uint256) :
    (writeBlock env db blockHash scan blockHeight).get? (.bondIndexUndo hash) =
      if hash = blockHash then some (bondIndexUndoRow db scan)
      else db.get? (.bondIndexUndo hash) := by
  rw [done.block_log dbOk rfl]
  split_ifs with he
  · subst he
    exact get?_write_last db [_] _ _ (by simp [pricingOps])
  · rw [get?_of_untouched]
    simp [logBatch, pricingOps, Ne.symm he]

theorem BlockDone.block_pricingUndo (hash : Uint256) :
    (writeBlock env db blockHash scan blockHeight).get? (.pricingUndo hash) =
      if hash = blockHash then
        some { existedBefore := (readNicknamePricingState db).1
               previousState := if (readNicknamePricingState db).1 then
                 (readNicknamePricingState db).2 else {} }
      else db.get? (.pricingUndo hash) := by
  rw [done.block_log dbOk rfl]
  split
  · rename_i he
    subst he
    exact get?_write_last db [_, _] _ _ (by simp)
  · rename_i hne
    rw [get?_of_untouched]
    simp [logBatch, pricingOps, Ne.symm hne]

theorem BlockDone.block_regCount (h : Int) :
    (writeBlock env db blockHash scan blockHeight).get? (.regCount h) =
      if h = blockHeight then some scan.registeredCount else db.get? (.regCount h) := by
  rw [done.block_log dbOk rfl]
  split_ifs with he
  · subst he
    exact get?_write_last db [_, _, _] _ _ (by simp)
  · rw [get?_of_untouched]
    simp [logBatch, pricingOps, Ne.symm he]

theorem BlockDone.block_pricingState :
    (writeBlock env db blockHash scan blockHeight).get? .pricingState =
      some (computeNextPricingState db (readNicknamePricingState db).2 blockHeight
        scan.registeredCount) := by
  rw [done.block_log dbOk rfl]
  exact get?_write_last db [_, _, _, _] _ _ (by simp)

theorem BlockDone.block_ownerIndexReady :
    (writeBlock env db blockHash scan blockHeight).get? .ownerIndexReady =
      db.get? .ownerIndexReady := by
  rw [done.block_log dbOk rfl, get?_of_untouched]
  simp [logBatch, pricingOps]

end Logs

end Done

end KubuCore.Nickname
