import KubuCore.Nickname.Runs

/-!
# The secondary indexes

In every reachable ledger the owner index and the bond index say what the
records say, and `EnsureOwnerIndexReady`, which rebuilds the owner index, finds
nothing to change in it.
-/

namespace KubuCore.Nickname

open Rows

/-! ## Iterators -/

variable {db : NicknameStateDB} {env : Env}

theorem mem_ownerIndexKeys {keyID : Uint160} {name : Bytes} :
    (keyID, name) ∈ ownerIndexKeys db ↔ (db.get? (.ownerKeyID keyID name)).isSome := by
  rw [ownerIndexKeys, List.mem_filterMap, ← Std.ExtDTreeMap.mem_iff_isSome_get?,
    ← Std.ExtDTreeMap.mem_keys]
  constructor
  · rintro ⟨key, hkey, he⟩
    cases key <;> simp only [reduceCtorEq] at he
    obtain ⟨rfl, rfl⟩ := he
    exact hkey
  · intro hkey
    exact ⟨_, hkey, rfl⟩

theorem mem_nicknameRows {name : Bytes} {info : NicknameInfo} :
    (name, info) ∈ nicknameRows db ↔ storedRecords db name = some info := by
  rw [nicknameRows, List.mem_filterMap]
  constructor
  · rintro ⟨⟨key, row⟩, hrow, he⟩
    rw [Std.ExtDTreeMap.mem_toList_iff_get?_eq_some] at hrow
    cases key <;> simp only [reduceCtorEq] at he
    obtain ⟨rfl, rfl⟩ := he
    exact hrow
  · intro h
    exact ⟨⟨.nickname name, info⟩, Std.ExtDTreeMap.mem_toList_iff_get?_eq_some.mpr h, rfl⟩

/-- An exact owner index has a row for each record, under its owner's key id. -/
theorem OwnerExact.isSome_iff (exact : OwnerExact env db) (keyID : Uint160) (name : Bytes) :
    (db.get? (.ownerKeyID keyID name)).isSome ↔
      ∃ info, storedRecords db name = some info ∧ env.hash160 info.ownerPubKey = keyID := by
  rw [exact]
  cases storedRecords db name with
  | none => simp [ownerRow]
  | some info => by_cases hk : env.hash160 info.ownerPubKey = keyID <;> simp [ownerRow]

/-! ## Rebuilding -/

/-- The owner rows that `EnsureOwnerIndexReady` writes. -/
theorem rebuild_writes {height : Int}
    (ok : ∀ name info, storedRecords db name = some info → RecordOk env height name info) :
    (nicknameRows db).flatMap (writeOwnerIndexEntry env) = (nicknameRows db).map fun row =>
      .write (.ownerKeyID (env.hash160 row.2.ownerPubKey) row.1) true := by
  rw [List.map_eq_flatMap]
  apply List.flatMap_congr
  rintro ⟨name, info⟩ hrow
  rw [writeOwnerIndexEntry, tryGetOwnerKeyID_of_ok (ok name info (mem_nicknameRows.mp hrow))]

/-- Rebuilding an exact owner index leaves every owner row as it is. -/
theorem ensureOwnerIndexReady_owner {height : Int}
    (ok : ∀ name info, storedRecords db name = some info → RecordOk env height name info)
    (exact : OwnerExact env db) (keyID : Uint160) (name : Bytes) :
    (ensureOwnerIndexReady env db).get? (.ownerKeyID keyID name) =
      db.get? (.ownerKeyID keyID name) := by
  unfold ensureOwnerIndexReady
  split
  · rfl
  · rw [rebuild_writes ok, get?_append_of_untouched _ (by simp), writeBatch_append]
    by_cases hrow : ∃ row ∈ nicknameRows db,
        DbKey.ownerKeyID (env.hash160 row.2.ownerPubKey) row.1 = .ownerKeyID keyID name
    · obtain ⟨⟨n, info⟩, hmem, he⟩ := hrow
      obtain ⟨hkey, rfl⟩ := DbKey.ownerKeyID.inj he
      obtain ⟨⟨n', info'⟩, -, he', hget⟩ := get?_writes
        (writeBatch db ((ownerIndexKeys db).map fun key => .erase (.ownerKeyID key.1 key.2)))
        (fun row : Bytes × NicknameInfo =>
          DbKey.ownerKeyID (env.hash160 row.2.ownerPubKey) row.1)
        (fun _ => true) ⟨(n, info), hmem, he⟩
      rw [hget, exact, mem_nicknameRows.mp hmem, ownerRow, if_pos hkey]
      cases he'
      rfl
    · rw [get?_of_untouched]
      · have hnone : db.get? (.ownerKeyID keyID name) = none := by
          rw [exact]
          cases hr : storedRecords db name with
          | none => rfl
          | some info =>
            have hne : ¬ env.hash160 info.ownerPubKey = keyID := fun hk =>
              hrow ⟨(name, info), mem_nicknameRows.mpr hr, by rw [hk]⟩
            simp [ownerRow, hne]
        rw [get?_of_untouched]
        rintro ⟨op, ho, hkey⟩
        obtain ⟨⟨k, n⟩, hmem, rfl⟩ := List.mem_map.mp ho
        obtain ⟨rfl, rfl⟩ := DbKey.ownerKeyID.inj hkey
        rw [mem_ownerIndexKeys, hnone] at hmem
        cases hmem
      · rintro ⟨op, ho, hkey⟩
        obtain ⟨row, hmem, rfl⟩ := List.mem_map.mp ho
        exact hrow ⟨row, hmem, hkey⟩

/-- In every reachable ledger the owner index has a row exactly for each stored
record, under its owner's key id; each record with a bond is found under its
outpoint and each bond-index row names a record; and `EnsureOwnerIndexReady`
changes no owner row, whatever the ready flag says. -/
theorem indexes_agree {env : Env} {ledger : Ledger} (h : Reachable env ledger) :
    (∀ keyID name, (ledger.db.get? (.ownerKeyID keyID name)).isSome ↔
      ∃ info, storedRecords ledger.db name = some info ∧ env.hash160 info.ownerPubKey = keyID) ∧
    (∀ name info, storedRecords ledger.db name = some info → info.hasBondOutpoint = true →
      readNicknameByBondOutpoint ledger.db info.getBondOutpoint = some name) ∧
    (∀ outpoint name, readNicknameByBondOutpoint ledger.db outpoint = some name →
      ∃ info, storedRecords ledger.db name = some info) ∧
    ∀ db : NicknameStateDB, (∀ key, key ≠ .ownerIndexReady → db.get? key = ledger.db.get? key) →
      ∀ keyID name, (ensureOwnerIndexReady env db).get? (.ownerKeyID keyID name) =
        db.get? (.ownerKeyID keyID name) := by
  have ok := h.ok
  refine ⟨ok.owner.isSome_iff, fun name info hr hb => ?_, ok.db.named, fun db same => ?_⟩
  · refine ok.db.indexed name _ ?_
    rw [Holds, hr]
    exact currentBond_some.mpr ⟨hb, rfl⟩
  · have hrecords : storedRecords db = storedRecords ledger.db := by
      funext name
      exact same _ (by simp)
    refine ensureOwnerIndexReady_owner (hrecords ▸ ok.db.records) fun keyID name => ?_
    rw [same _ (by simp), hrecords]
    exact ok.owner keyID name

theorem indexes_agree_registered :
    ((registeredLedger.db.get? (.ownerKeyID sampleKeyHash sampleName)).isSome ↔
      ∃ info, storedRecords registeredLedger.db sampleName = some info ∧
        sampleEnv.hash160 info.ownerPubKey = sampleKeyHash) ∧
    (storedRecords registeredLedger.db sampleName).isSome ∧
    readNicknameByBondOutpoint registeredLedger.db ⟨registerId, 1⟩ = some sampleName :=
  ⟨(indexes_agree registeredLedger_reachable).1 _ _, by decide +kernel, by decide +kernel⟩

end KubuCore.Nickname
