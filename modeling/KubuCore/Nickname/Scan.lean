import KubuCore.Base.Maps
import KubuCore.Nickname.Step

/-!
# The pass over a block follows the ledger

`BuildNicknameBlockUpdates` works on copies loaded on demand and on two caches
of bond outpoints. `ScanOk` ties these to the records they stand for; under it
every accepted transaction is a `TxStep` of the ledger view.
-/

namespace KubuCore.Nickname

open Checked
open Chain
open Maps
open Std

/-- The records of the database, by key. -/
def storedRecords (db : NicknameStateDB) : Records := fun name => db.get? (.nickname name)

/-- The bond index of the database. -/
def bondIndex (db : NicknameStateDB) : COutPoint → Option Bytes :=
  fun outpoint => db.get? (.bondOutpoint outpoint)

/-- The tables agree: records are well formed, every current bond is indexed
under its name and every indexed name has a record. -/
structure DbOk (env : Env) (height : Int) (db : NicknameStateDB) : Prop where
  records : ∀ name info, storedRecords db name = some info → RecordOk env height name info
  indexed : ∀ name outpoint, Holds (storedRecords db) name outpoint →
    bondIndex db outpoint = some name
  named : ∀ outpoint name, bondIndex db outpoint = some name →
    ∃ info, storedRecords db name = some info

variable {db : NicknameStateDB} {scan scan' : BlockScan} {name : Bytes} {env : Env} {height : Int}
  {state : NicknameWorkingState} {spent : SpentBonds}

theorem DbOk.uniqueBonds (h : DbOk env height db) : UniqueBonds (storedRecords db) := by
  intro n m outpoint hn hm
  have := (h.indexed n outpoint hn).symm.trans (h.indexed m outpoint hm)
  exact Option.some.inj this

theorem DbOk.normal_of_indexed (h : DbOk env height db) {outpoint : COutPoint} {name : Bytes}
    (hi : bondIndex db outpoint = some name) : normalizeKeyName name = name := by
  obtain ⟨info, hr⟩ := h.named outpoint name hi
  exact (h.records name info hr).normal

def NicknameWorkingState.record (state : NicknameWorkingState) : Option NicknameInfo :=
  if state.existsNow then some state.current else none

def NicknameWorkingState.beforeRecord (state : NicknameWorkingState) : Option NicknameInfo :=
  if state.existedBefore then some state.before else none

/-- The records in the middle of a block: the working copy of a loaded name,
the stored record of any other. -/
def BlockScan.records (db : NicknameStateDB) (scan : BlockScan) : Records := fun name =>
  match scan.states[name]? with
  | some state => state.record
  | none => storedRecords db name

def BlockScan.view (db : NicknameStateDB) (scan : BlockScan) : LedgerView :=
  ⟨scan.records db, scan.bondIndexUpserts, scan.bondIndexErases, scan.registeredCount⟩

/-- A working state remembers the stored record it was loaded from. -/
structure StateOk (db : NicknameStateDB) (name : Bytes) (state : NicknameWorkingState) : Prop where
  loaded : state.loaded = true
  normal : normalizeKeyName name = name
  before : state.beforeRecord = storedRecords db name
  clean : state.dirty = false → state.record = storedRecords db name
  kept : state.dirty = true → state.existsNow = true

/-- The two caches are inverse to each other. -/
def BlockScan.CachesAgree (scan : BlockScan) : Prop :=
  ∀ (outpoint : COutPoint) (name : Bytes), scan.bondOutpointOwners[outpoint]? = some name ↔
    scan.nicknameBondOutpoints[name]? = some outpoint

/-- The caches list exactly the bonds of the loaded names. -/
structure ScanOk (db : NicknameStateDB) (scan : BlockScan) : Prop where
  states : ∀ (name : Bytes) (state : NicknameWorkingState),
    scan.states[name]? = some state → StateOk db name state
  held : ∀ name : Bytes, scan.nicknameBondOutpoints[name]? =
    scan.states[name]?.bind fun state => currentBond state.record
  owned : scan.CachesAgree

theorem scanOk_empty (db : NicknameStateDB) : ScanOk db {} where
  states _ _ h := by simp at h
  held _ := by simp
  owned _ _ := by simp

theorem records_of_loaded (h : scan.states[name]? = some state) :
    scan.records db name = state.record := by
  simp [BlockScan.records, h]

theorem records_of_unloaded
    (h : scan.states[name]? = none) : scan.records db name = storedRecords db name := by
  simp [BlockScan.records, h]

theorem records_setState (db : NicknameStateDB) (scan : BlockScan) (name m : Bytes)
    (state : NicknameWorkingState) :
    (scan.setState name state).records db m =
      if name = m then state.record else scan.records db m := by
  by_cases h : name = m
  · subst h
    simp [BlockScan.records, BlockScan.setState]
  · simp [BlockScan.records, BlockScan.setState, ExtTreeMap.getElem?_insert, h]

/-! ## The caches -/

/-- Dropping the cached bond of a name touches nothing else. -/
theorem unindexBondOutpoint_spec (scan : BlockScan) (name : Bytes) (owned : scan.CachesAgree) :
    let scan' := scan.unindexBondOutpoint name
    scan'.states = scan.states ∧ scan'.bondIndexUpserts = scan.bondIndexUpserts ∧
      scan'.bondIndexErases = scan.bondIndexErases ∧
      scan'.registeredCount = scan.registeredCount ∧
      (∀ m : Bytes, scan'.nicknameBondOutpoints[m]? =
        if name = m then none else scan.nicknameBondOutpoints[m]?) ∧ scan'.CachesAgree := by
  simp only [BlockScan.unindexBondOutpoint]
  split
  · rename_i prev hprev
    refine ⟨rfl, rfl, rfl, rfl, fun m => by simp [ExtTreeMap.getElem?_erase], fun o m => ?_⟩
    simp only [ExtTreeMap.getElem?_erase, LawfulEqOrd.compare_eq_iff_eq]
    by_cases ho : prev = o
    · have : scan.nicknameBondOutpoints[m]? = some prev ↔ name = m := by
        rw [← owned, (owned prev name).mpr hprev]
        simp
      by_cases hm : name = m <;> simp_all
    · rw [if_neg ho, owned]
      by_cases hm : name = m
      · subst hm
        simp [hprev, ho]
      · simp [hm]
  · rename_i hnone
    refine ⟨rfl, rfl, rfl, rfl, fun m => ?_, owned⟩
    split
    · rename_i h
      rw [← h]
      exact hnone
    · rfl

theorem currentBond_record (state : NicknameWorkingState) :
    currentBond state.record =
      if state.existsNow ∧ state.current.hasBondOutpoint then some state.current.getBondOutpoint
      else none := by
  cases he : state.existsNow <;> simp [NicknameWorkingState.record, currentBond, he]

/-- Indexing replaces the cached bond of one name, if no other name has the
new bond. -/
theorem indexBondOutpoint_spec (scan : BlockScan) (name : Bytes) (state : NicknameWorkingState)
    (owned : scan.CachesAgree)
    (unique : ∀ (m : Bytes) (outpoint : COutPoint), m ≠ name →
      currentBond state.record = some outpoint →
      scan.nicknameBondOutpoints[m]? ≠ some outpoint) :
    let scan' := scan.indexBondOutpoint name state
    scan'.states = scan.states ∧ scan'.bondIndexUpserts = scan.bondIndexUpserts ∧
      scan'.bondIndexErases = scan.bondIndexErases ∧
      scan'.registeredCount = scan.registeredCount ∧
      (∀ m : Bytes, scan'.nicknameBondOutpoints[m]? =
        if name = m then currentBond state.record else scan.nicknameBondOutpoints[m]?) ∧
      scan'.CachesAgree := by
  obtain ⟨hstates, hups, hers, hcount, hheld, howned⟩ := unindexBondOutpoint_spec scan name owned
  simp only [BlockScan.indexBondOutpoint]
  rw [currentBond_record] at *
  split
  · rename_i hbond
    simp only [hbond] at unique ⊢
    have hfresh : (scan.unindexBondOutpoint name).bondOutpointOwners[
        state.current.getBondOutpoint]? = none := by
      rw [Option.eq_none_iff_forall_ne_some]
      intro m hm
      have hn := (howned _ m).mp hm
      rw [hheld] at hn
      split at hn
      · cases hn
      · rename_i hne
        exact unique m _ (Ne.symm hne) rfl hn
    have hfreshName : (scan.unindexBondOutpoint name).nicknameBondOutpoints[name]? = none := by
      rw [hheld, if_pos rfl]
    refine ⟨hstates, hups, hers, hcount, fun m => ?_, fun o m => ?_⟩
    · rw [getElem?_insertIfNew_of_absent hfreshName, hheld]
      split <;> rfl
    · rw [getElem?_insertIfNew_of_absent hfreshName, getElem?_insertIfNew_of_absent hfresh]
      by_cases ho : state.current.getBondOutpoint = o
      · subst ho
        by_cases hm : name = m
        · simp [hm]
        · simp [hheld, unique m _ (Ne.symm hm) rfl]
      · rw [if_neg ho, howned]
        by_cases hm : name = m
        · subst hm
          simp [hfreshName, ho]
        · rw [if_neg hm]
  · exact ⟨hstates, hups, hers, hcount, hheld, howned⟩

/-- Storing a working state and indexing its bond keeps the scan right, if no
other loaded name holds that bond. -/
theorem scanOk_storeAndIndex (ok : ScanOk db scan) (stateOk : StateOk db name state)
    (unique : ∀ (m : Bytes) (outpoint : COutPoint), m ≠ name →
      currentBond state.record = some outpoint →
      scan.nicknameBondOutpoints[m]? ≠ some outpoint) :
    ScanOk db ((scan.setState name state).indexBondOutpoint name state) := by
  obtain ⟨hstates, -, -, -, hheld, howned⟩ :=
    indexBondOutpoint_spec (scan.setState name state) name state ok.owned unique
  refine ⟨fun m t hm => ?_, fun m => ?_, howned⟩
  · rw [hstates] at hm
    simp only [BlockScan.setState, ExtTreeMap.getElem?_insert,
      LawfulEqOrd.compare_eq_iff_eq] at hm
    split at hm
    · rename_i he
      cases hm
      exact he ▸ stateOk
    · exact ok.states m t hm
  · rw [hheld, hstates]
    simp only [BlockScan.setState, ExtTreeMap.getElem?_insert,
      LawfulEqOrd.compare_eq_iff_eq]
    split
    · rfl
    · exact ok.held m

/-- Storing a working state whose bond is the cached one keeps the scan right. -/
theorem scanOk_store (ok : ScanOk db scan) (stateOk : StateOk db name state)
    (same : scan.nicknameBondOutpoints[name]? = currentBond state.record) :
    ScanOk db (scan.setState name state) := by
  refine ⟨fun m t hm => ?_, fun m => ?_, ok.owned⟩
  · simp only [BlockScan.setState, ExtTreeMap.getElem?_insert,
      LawfulEqOrd.compare_eq_iff_eq] at hm
    split at hm
    · rename_i he
      cases hm
      exact he ▸ stateOk
    · exact ok.states m t hm
  · simp only [BlockScan.setState, ExtTreeMap.getElem?_insert,
      LawfulEqOrd.compare_eq_iff_eq]
    split
    · rename_i he
      rw [← he, same]
      rfl
    · exact ok.held m

/-- A cached bond is the current bond of its name. -/
theorem ScanOk.holds_of_cached (ok : ScanOk db scan) {name : Bytes} {outpoint : COutPoint}
    (h : scan.nicknameBondOutpoints[name]? = some outpoint) :
    Holds (scan.records db) name outpoint := by
  rw [ok.held, Option.bind_eq_some_iff] at h
  obtain ⟨state, hs, hb⟩ := h
  rw [Holds, records_of_loaded hs]
  exact hb

/-! ## Loading -/

theorem readState_record (db : NicknameStateDB) {name : Bytes}
    (normal : normalizeKeyName name = name) :
    (readState db name).record = storedRecords db name ∧ StateOk db name (readState db name) := by
  have hread : readNickname db name = storedRecords db name := by
    rw [readNickname, normal, storedRecords]
  rw [readState, ← hread]
  split
  · rename_i stored h
    rw [h]
    exact ⟨rfl, rfl, normal, by rw [← hread, h]; rfl, fun _ => by rw [← hread, h]; rfl, by simp⟩
  · rename_i h
    rw [h]
    exact ⟨rfl, rfl, normal, by rw [← hread, h]; rfl, fun _ => by rw [← hread, h]; rfl, by simp⟩

/-- Loading a name changes no record. -/
theorem loadState_spec (ok : ScanOk db scan) (unique : UniqueBonds (scan.records db))
    (normal : normalizeKeyName name = name) (h : loadState db scan name = (scan', state)) :
    ScanOk db scan' ∧ scan'.view db = scan.view db ∧ scan'.states[name]? = some state ∧
      state.record = scan.records db name := by
  cases hs : scan.states[name]? with
  | some s =>
    have hloaded := (ok.states name s hs).loaded
    simp only [loadState, hs, Option.getD_some, hloaded] at h
    cases h
    exact ⟨ok, rfl, hs, (records_of_loaded hs).symm⟩
  | none =>
    simp only [loadState, hs] at h
    cases h
    obtain ⟨hrecord, hstate⟩ := readState_record db normal
    have hname : scan.records db name = storedRecords db name := records_of_unloaded hs
    have hother : ∀ (m : Bytes) (outpoint : COutPoint), m ≠ name →
        currentBond (readState db name).record = some outpoint →
        scan.nicknameBondOutpoints[m]? ≠ some outpoint := by
      intro m outpoint hne hbond hm
      refine hne (unique m name outpoint (ok.holds_of_cached hm) ?_)
      rw [Holds, hname, ← hrecord]
      exact hbond
    obtain ⟨hstates, hups, hers, hcount, -, -⟩ := indexBondOutpoint_spec
      (scan.setState name (readState db name)) name (readState db name) ok.owned hother
    refine ⟨scanOk_storeAndIndex ok hstate hother, ?_, ?_, hname ▸ hrecord⟩
    · apply LedgerView.ext
      · funext m
        have hm := records_setState db scan name m (readState db name)
        simp only [BlockScan.view, BlockScan.records, hstates] at hm ⊢
        rw [hm]
        split
        · rename_i he
          rw [← he, hs, hrecord]
        · rfl
      · exact hups
      · exact hers
      · exact hcount
    · rw [hstates]
      simp [BlockScan.setState]

variable {outpoint : COutPoint} {index : COutPoint → Option Bytes} {prevouts : List COutPoint}
  {spent' : SpentBonds} {vin : List CTxIn}

/-- A lookup finds the name a spend of the outpoint is charged to. -/
theorem lookup_spec {result : Option Bytes} (dbOk : DbOk env height db) (ok : ScanOk db scan)
    (unique : UniqueBonds (scan.records db))
    (h : lookupBondNicknameByOutpoint db scan outpoint = (scan', result)) :
    ScanOk db scan' ∧ scan'.view db = scan.view db ∧
      ∀ name, result = some name ↔ BondOf (bondIndex db) (scan.records db) outpoint name := by
  -- A holder that is not loaded holds its stored bond, which the index knows.
  have hindexed : ∀ m, Holds (scan.records db) m outpoint →
      scan.bondOutpointOwners[outpoint]? = none → bondIndex db outpoint = some m := by
    intro m hm hnone
    cases hs : scan.states[m]? with
    | some s =>
      have : scan.nicknameBondOutpoints[m]? = some outpoint := by
        rw [ok.held, hs]
        rw [Holds, records_of_loaded hs] at hm
        exact hm
      rw [(ok.owned outpoint m).mpr this] at hnone
      cases hnone
    | none =>
      rw [Holds, records_of_unloaded hs] at hm
      exact dbOk.indexed m outpoint hm
  unfold lookupBondNicknameByOutpoint at h
  split at h
  · rename_i n hn
    cases h
    have hholds := ok.holds_of_cached ((ok.owned outpoint n).mp hn)
    refine ⟨ok, rfl, fun name => ⟨?_, ?_⟩⟩
    · rintro ⟨⟩
      exact .inl hholds
    · rintro (hname | ⟨hno, -⟩)
      · rw [unique n name outpoint hholds hname]
      · exact absurd hholds (hno n)
  · rename_i hnone
    split at h
    · rename_i n hn
      cases h
      obtain ⟨ok', hview, -, -⟩ :=
        loadState_spec ok unique (dbOk.normal_of_indexed hn) (Prod.eta (loadState db scan n)).symm
      refine ⟨ok', hview, fun name => ⟨?_, ?_⟩⟩
      · rintro ⟨⟩
        by_cases hex : ∃ m, Holds (scan.records db) m outpoint
        · obtain ⟨m, hm⟩ := hex
          have := (hindexed m hm hnone).symm.trans hn
          cases this
          exact .inl hm
        · exact .inr ⟨fun m hm => hex ⟨m, hm⟩, hn⟩
      · rintro (hname | ⟨-, hi⟩)
        · rw [← hn]
          exact hindexed name hname hnone
        · rw [← hn]
          exact hi
    · rename_i hn
      cases h
      refine ⟨ok, rfl, fun name => ⟨?_, ?_⟩⟩
      · rintro ⟨⟩
      · rintro (hname | ⟨-, hi⟩)
        · rw [← hn]
          exact hindexed name hname hnone
        · rw [← hn]
          exact hi

/-! ## Spent bonds -/

/-- The bonds collected from a list of spent outpoints are exactly the bonds
among them. -/
structure SpentOk (index : COutPoint → Option Bytes) (records : Records)
    (prevouts : List COutPoint) (spent : SpentBonds) : Prop where
  bond : ∀ entry ∈ spent, entry.2 ∈ prevouts ∧ BondOf index records entry.2 entry.1
  found : ∀ outpoint ∈ prevouts, ∀ name, BondOf index records outpoint name →
    spent.lookup name = some outpoint

theorem addSpentBond_spec {records : Records} (ok : SpentOk index records prevouts spent)
    (unique : ∀ m, BondOf index records outpoint m ↔ m = name)
    (h : addSpentBond spent name outpoint = .ok spent') :
    SpentOk index records (prevouts ++ [outpoint]) spent' := by
  have hbond := (unique name).mpr rfl
  unfold addSpentBond at h
  split at h
  · rename_i hnone
    cases h
    refine ⟨fun entry he => ?_, fun o ho m hm => ?_⟩
    · rcases List.mem_append.mp he with he | he
      · obtain ⟨hmem, hb⟩ := ok.bond entry he
        exact ⟨List.mem_append_left _ hmem, hb⟩
      · obtain rfl := List.mem_singleton.mp he
        exact ⟨by simp, hbond⟩
    · rw [List.lookup_append]
      rcases List.mem_append.mp ho with ho | ho
      · rw [ok.found o ho m hm]
        rfl
      · obtain rfl := List.mem_singleton.mp ho
        obtain rfl := (unique m).mp hm
        simp [hnone]
  · rename_i other hother
    simp only [eq_ok] at h
    obtain ⟨-, rfl, rfl⟩ := h
    refine ⟨fun entry he => ?_, fun o ho m hm => ?_⟩
    · obtain ⟨hmem, hb⟩ := ok.bond entry he
      exact ⟨List.mem_append_left _ hmem, hb⟩
    · rcases List.mem_append.mp ho with ho | ho
      · exact ok.found o ho m hm
      · obtain rfl := List.mem_singleton.mp ho
        obtain rfl := (unique m).mp hm
        exact hother

theorem collectSpentBonds_spec (dbOk : DbOk env height db) (ok : ScanOk db scan)
    (unique : UniqueBonds (scan.records db))
    (spentOk : SpentOk (bondIndex db) (scan.records db) prevouts spent)
    (h : collectSpentBonds db scan spent vin = .ok (scan', spent')) :
    ScanOk db scan' ∧ scan'.view db = scan.view db ∧
      SpentOk (bondIndex db) (scan.records db) (prevouts ++ vin.map CTxIn.prevout) spent' := by
  induction vin generalizing scan prevouts spent with
  | nil =>
    cases h
    exact ⟨ok, rfl, by simpa using spentOk⟩
  | cons txin rest ih =>
    cases hl : lookupBondNicknameByOutpoint db scan txin.prevout with
    | mk scan₁ result =>
      obtain ⟨ok₁, hview, hresult⟩ := lookup_spec dbOk ok unique hl
      have hrecords : scan₁.records db = scan.records db := congrArg LedgerView.records hview
      simp only [collectSpentBonds, hl] at h
      have step : ∀ spent₁, SpentOk (bondIndex db) (scan.records db)
          (prevouts ++ [txin.prevout]) spent₁ →
          collectSpentBonds db scan₁ spent₁ rest = .ok (scan', spent') →
          ScanOk db scan' ∧ scan'.view db = scan.view db ∧
            SpentOk (bondIndex db) (scan.records db)
              (prevouts ++ (txin :: rest).map CTxIn.prevout) spent' := by
        intro spent₁ spentOk₁ hrest
        obtain ⟨ok', hview', spentOk'⟩ := ih ok₁ (hrecords ▸ unique) (hrecords ▸ spentOk₁) hrest
        refine ⟨ok', hview'.trans hview, ?_⟩
        simpa [hrecords] using spentOk'
      cases result with
      | none =>
        refine step spent ⟨fun entry he => ?_, fun o ho m hm => ?_⟩ h
        · obtain ⟨hmem, hb⟩ := spentOk.bond entry he
          exact ⟨List.mem_append_left _ hmem, hb⟩
        · rcases List.mem_append.mp ho with ho | ho
          · exact spentOk.found o ho m hm
          · obtain rfl := List.mem_singleton.mp ho
            cases (hresult m).mpr hm
      | some name =>
        obtain ⟨spent₁, hadd, hrest⟩ := bind_eq_ok.mp h
        refine step spent₁ (addSpentBond_spec spentOk (fun m => ?_) hadd) hrest
        rw [← hresult m]
        exact ⟨fun e => (Option.some.inj e).symm, fun e => e ▸ rfl⟩

/-- The one bond spent, if there is one. -/
def spentBond (spent : SpentBonds) : Option COutPoint := spent.head?.map Prod.snd

theorem spendsBond_of_spentOk {records : Records}
    (ok : SpentOk index records (vin.map CTxIn.prevout) spent)
    (shape : spent = [] ∨ ∃ outpoint, spent = [(name, outpoint)]) :
    SpendsBond index records vin name (spentBond spent) := by
  refine ⟨fun outpoint ho => ?_, fun txin hin m hm => ?_⟩
  · rcases shape with rfl | ⟨o, rfl⟩
    · cases ho
    · cases ho
      obtain ⟨hmem, hb⟩ := ok.bond _ List.mem_cons_self
      exact ⟨by simpa using hmem, hb⟩
  · have hl := ok.found txin.prevout (List.mem_map_of_mem hin) m hm
    rcases shape with rfl | ⟨o, rfl⟩
    · cases hl
    · rw [List.lookup_cons] at hl
      split at hl
      · rename_i he
        cases hl
        exact ⟨by simpa using he, rfl⟩
      · cases hl

theorem spent_shape (one : spent.length ≤ 1)
    (own : spent = [] ∨ (spent.lookup name).isSome = true) :
    spent = [] ∨ ∃ outpoint, spent = [(name, outpoint)] := by
  rcases own with h | h
  · exact .inl h
  · match spent, one with
    | [], _ => exact .inl rfl
    | [(n, o)], _ =>
      refine .inr ⟨o, ?_⟩
      rw [List.lookup_cons] at h
      split at h
      · rename_i he
        have : name = n := by simpa using he
        rw [this]
      · cases h

end KubuCore.Nickname
