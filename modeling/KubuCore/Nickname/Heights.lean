import KubuCore.Nickname.Complete
import KubuCore.Nickname.Events
import KubuCore.Nickname.Records

/-!
# Height arithmetic

The two heights of a record are sums computed in `int`. A registration adds the
configured periods to the height of the block; a renewal adds them to the end
of the active period, as often as it is repeated. Records stay in range in
every run whose renewals find room for the sum, and a renewal without room
leaves it.
-/

namespace KubuCore.Nickname

open Checked
open Chain
open Script
open Nicknames

def IsInt32 (n : Int) : Prop := -2 ^ 31 ≤ n ∧ n ≤ 2 ^ 31 - 1

/-- The sums that a registration or a renewal computed are in range. They are the
heights of the record it left. -/
def NoOverflow (env : Env) (event : TxEvent) : Prop :=
  ∀ op, extractNicknameOperationFromTx env event.item.tx = .ok (some op) →
    op.type = .register ∨ op.type = .renew → ∀ info, event.after op.nickname = some info →
      IsInt32 info.activeUntilHeight ∧ IsInt32 info.graceUntilHeight

/-- A renewal finds the end of the active period low enough. -/
def hasRoom (env : Env) (event : TxEvent) : Bool :=
  match extractNicknameOperationFromTx env event.item.tx with
  | .ok (some op) =>
    op.type != .renew ||
      (event.before op.nickname).all fun info =>
        decide (info.activeUntilHeight ≤ 2 ^ 31 - 1 - env.activeBlocks - env.graceBlocks)
  | _ => true

/-- The configured periods: no negative one, and room for both above any height
below `2 ^ 30`. -/
structure PeriodsFit (env : Env) : Prop where
  active : 0 ≤ env.activeBlocks
  grace : 0 < env.graceBlocks
  sum : env.activeBlocks + env.graceBlocks ≤ 2 ^ 30

/-- The heights of a record are in order and in range. -/
structure HeightsInRange (info : NicknameInfo) : Prop where
  registration : 0 ≤ info.registrationHeight
  active : info.registrationHeight ≤ info.activeUntilHeight
  grace : info.activeUntilHeight < info.graceUntilHeight
  limit : info.graceUntilHeight ≤ 2 ^ 31 - 1

variable {env : Env} {tx : CTransaction} {op : NicknameOperation}

/-- With the periods configured as they should be, only a renewal without room
overflows. -/
theorem TxStep.noOverflow_iff (fits : PeriodsFit env) {height multiplier : Int} (low : 0 < height)
    (high : height < 2 ^ 30) {event : TxEvent} {index : COutPoint → Option Bytes}
    {view view' : LedgerView} (before : view.records = event.before)
    (after : view'.records = event.after)
    (h : TxStep env index height multiplier event.item view view') :
    NoOverflow env event ↔ hasRoom env event = true := by
  obtain ⟨hactive, hgrace, hsum⟩ := fits
  unfold NoOverflow hasRoom
  rw [← before, ← after]
  cases h with
  | plain found => simp [found]
  | @operate op spent outcome found notCoinBase fee spends step =>
    simp only [found, Except.ok.injEq, Option.some.injEq, forall_eq']
    generalize view.records op.nickname = old at step
    cases step with
    | register type =>
      simp [type, LedgerView.apply, registerRecord, IsInt32]
      omega
    | renew type =>
      simp [type, LedgerView.apply, renewRecord, IsInt32]
      omega
    | update type | transfer type | release type | claimBond type | claimLegacy type => simp [type]

/-! ## What the records hold -/

/-- A record whose heights are in range and whose other fields the row format
can hold. -/
structure RecordFits (info : NicknameInfo) : Prop where
  heights : HeightsInRange info
  nickname : info.nickname.length ≤ maxSize
  ownerPubKey : info.ownerPubKey.length = compressedSize
  payoutAddress : info.payoutAddress.utf8ByteSize ≤ maxSize
  bondAmount : 0 ≤ info.bondAmount ∧ info.bondAmount ≤ maxMoney
  bondVout : info.bondVout ≤ maxUint32

theorem RecordFits.storedFits {info : NicknameInfo} (h : RecordFits info) :
    StoredFits info.stored := by
  obtain ⟨⟨hreg, hactive, hgrace, hlimit⟩, hname, howner, hpayout, hbond, hvout⟩ := h
  have howner' : info.ownerPubKey.length ≤ maxSize := howner.le.trans (by decide)
  have hsize : info.payoutAddress.toUTF8.data.toList.length ≤ maxSize := by simpa using hpayout
  have hheights : info.registrationHeight < 2 ^ 31 ∧ 0 ≤ info.activeUntilHeight ∧
      info.activeUntilHeight < 2 ^ 31 ∧ 0 ≤ info.graceUntilHeight ∧
        info.graceUntilHeight < 2 ^ 31 := by
    omega
  exact ⟨hname, howner', hsize, ⟨hreg, hheights.1⟩, ⟨hheights.2.1, hheights.2.2.1⟩,
    hheights.2.2.2, ⟨hbond.1.trans' (by decide), hbond.2.trans_lt (by decide)⟩, hvout⟩

theorem scaleByMultiplierPermille_le {base limit m : Int} (hbase : base ≤ limit) (hm : m ≤ 3000)
    (hlimit : 0 ≤ limit) :
    0 ≤ scaleByMultiplierPermille base m ∧ scaleByMultiplierPermille base m ≤ 3 * limit := by
  unfold scaleByMultiplierPermille
  split_ifs with hzero
  · exact ⟨Int.le_refl 0, Int.mul_nonneg (by decide) hlimit⟩
  · rw [not_or, not_le, not_le] at hzero
    have hprod : base * m ≤ limit * 3000 := Int.mul_le_mul hbase hm (by omega) hlimit
    have hpos : 0 < base * m := Int.mul_pos hzero.1 hzero.2
    have hquot : 0 ≤ (base * m + 500) / 1000 ∧ (base * m + 500) / 1000 ≤ 3 * limit := by omega
    exact hquot

theorem clampPricingMultiplierPermille_le (multiplier : Int) :
    clampPricingMultiplierPermille multiplier ≤ 3000 := by
  rw [clamp_eq]
  omega

/-- Bond amounts are money at every multiplier. -/
theorem getPricing_bondAmount (length : Nat) (multiplier : Int) :
    0 ≤ (getPricing length multiplier).bondAmount ∧
      (getPricing length multiplier).bondAmount ≤ maxMoney := by
  have hbase : (getBasePricing length).bondAmount ≤ 48 * coin := by
    unfold getBasePricing
    split <;> decide
  obtain ⟨hlow, hhigh⟩ := scaleByMultiplierPermille_le hbase
    (clampPricingMultiplierPermille_le multiplier) (by decide)
  exact ⟨hlow, Int.le_trans hhigh (by decide)⟩

theorem payoutAddress_fits (addresses : ∀ d, (env.addressToString d).utf8ByteSize ≤ maxSize)
    (found : extractNicknameOperationFromTx env tx = .ok (some op)) :
    op.payoutAddress.utf8ByteSize ≤ maxSize := by
  obtain ⟨opType, nickname, payload, -, fields⟩ := extractNicknameOperationFromTx_fields found
  rcases readFields_payoutAddress fields with h | ⟨d, h⟩
  · rw [h]
    decide
  · rw [h]
    exact addresses d

/-- Operations keep the records in range, if a renewal finds room. -/
theorem OpStep.recordFits {height multiplier : Int} {item : BlockItem} {spent : Option COutPoint}
    {found : Option NicknameInfo} {outcome : Outcome}
    (h : OpStep env height multiplier item op spent found outcome)
    (fits : PeriodsFit env) (low : 0 < height) (high : height < 2 ^ 30)
    (valid : isValidNormalizedNickname op.nickname = .ok ())
    (payout : op.payoutAddress.utf8ByteSize ≤ maxSize)
    (ok : ∀ info, found = some info → RecordFits info)
    (room : op.type = .renew → ∀ info, found = some info →
      info.activeUntilHeight ≤ 2 ^ 31 - 1 - env.activeBlocks - env.graceBlocks) :
    ∀ info, outcome.record = some info → RecordFits info := by
  obtain ⟨hactive, hgrace, hsum⟩ := fits
  cases h with
  | register type authorized available key bond =>
    rintro _ ⟨⟩
    refine ⟨⟨?_, ?_, ?_, ?_⟩, (valid_length valid).2.trans (by decide), key.length_eq, payout,
      getPricing_bondAmount _ _, bond.fits.le⟩
    all_goals
      simp only [registerRecord]
      omega
  | update type isMutable authorized =>
    rintro _ ⟨⟩
    have old := ok _ rfl
    exact { old with payoutAddress := payout, heights := { old.heights with } }
  | transfer type isMutable authorized bonded key bond =>
    rintro _ ⟨⟩
    have old := ok _ rfl
    exact { old with
      ownerPubKey := key.length_eq, bondVout := bond.fits.le, heights := { old.heights with } }
  | @renew info _ type isMutable authorized bonded key increase bond =>
    rintro _ ⟨⟩
    have old := ok _ rfl
    have hroom := room type info rfl
    obtain ⟨hreg, hold, -, -⟩ := old.heights
    refine { old with
      heights := ⟨hreg, ?_, ?_, ?_⟩
      bondAmount := ⟨Int.add_nonneg old.bondAmount.1 increase.1, ?_⟩
      bondVout := bond.fits.le }
    · simp only [renewRecord]
      omega
    · simp only [renewRecord]
      omega
    · simp only [renewRecord]
      omega
    · exact Int.add_le_of_le_sub_right increase.2
  | release type isMutable authorized =>
    rintro _ ⟨⟩
    have old := ok _ rfl
    exact { old with heights := { old.heights with } }
  | claimBond type bonded claimable authorized =>
    rintro _ ⟨⟩
    have old := ok _ rfl
    exact { old with heights := { old.heights with }, bondVout := Nat.le_refl _ }
  | claimLegacy =>
    rintro _ ⟨⟩

/-! ## Runs -/

/-- The next block is below height `2 ^ 30`, and every renewal in it finds
room. -/
def Roomy (env : Env) (ledger : Ledger) (block : CBlock) (blockUndo : CBlockUndo)
    (txFees : List CAmount) : Prop :=
  ledger.height + 1 < 2 ^ 30 ∧
    ∀ event ∈ ledger.events env block blockUndo txFees, hasRoom env event = true

/-- Every record of the ledger is in range. -/
def RecordsFit (records : Records) : Prop :=
  ∀ name info, records name = some info → RecordFits info

section Fits

variable {env : Env} (fits : PeriodsFit env)
  (addresses : ∀ d, (env.addressToString d).utf8ByteSize ≤ maxSize)

include fits addresses

variable {index : COutPoint → Option Bytes} {height multiplier : Int} {view view' : LedgerView}

theorem TxStep.recordsFit {event : TxEvent} (low : 0 < height) (high : height < 2 ^ 30)
    (before : view.records = event.before)
    (h : TxStep env index height multiplier event.item view view')
    (room : hasRoom env event = true) (ok : RecordsFit view.records) : RecordsFit view'.records := by
  cases h with
  | plain => exact ok
  | @operate op spent outcome found notCoinBase fee spends step =>
    intro name info hr
    obtain same | ⟨next, rfl, ho, now⟩ := view.apply_cases op.nickname outcome name
    · exact ok _ _ (same ▸ hr)
    · rw [now, ← ho] at hr
      have wellFormed := extractNicknameOperationFromTx_wellFormed found
      refine step.recordFits fits low high wellFormed.validName (payoutAddress_fits addresses found)
        (fun info hi => ok _ _ hi) (fun type old hold => ?_) _ hr
      simp only [hasRoom, found, type, ← before, hold] at room
      simpa using room

theorem EventRun.recordsFit {events : List TxEvent} (low : 0 < height) (high : height < 2 ^ 30)
    (h : EventRun env index height multiplier events view view')
    (room : ∀ event ∈ events, hasRoom env event = true) (ok : RecordsFit view.records) :
    RecordsFit view'.records := by
  induction h with
  | nil => exact ok
  | cons before after step run ih =>
    have first := TxStep.recordsFit fits addresses low high before step
      (room _ List.mem_cons_self) ok
    exact ih (fun event he => room event (List.mem_cons_of_mem _ he)) first

theorem LinearWith.recordsFit {ledger : Ledger} (run : LinearWith env (Roomy env) ledger) :
    RecordsFit (storedRecords ledger.db) := by
  induction run with
  | start => simp [RecordsFit, storedRecords, Ledger.empty]
  | @connect ledger ledger' block blockUndo txFees run fresh met accepted ih =>
    have ok := run.ok
    obtain ⟨scan, c, rfl⟩ := connect_spec ok fresh accepted
    simp only [Ledger.connect, buildNicknameBlockUpdates, bind_eq_ok] at accepted
    obtain ⟨-, ⟨-, -, -, -, scan', hscan, -⟩, -⟩ := accepted
    have le : ledger.height ≤ ledger.height + 1 := by omega
    have start := ok.db.startOk le c.fresh
    have events := blockEvents_run ok.db (scanOk_empty _) (view_empty _ ▸ start) hscan
    have hlow : 0 < ledger.height + 1 := by
      rw [Ledger.height]
      omega
    have hend := EventRun.recordsFit fits addresses hlow met.1 events met.2 ih
    have hview := events.blockRun
    rw [blockEvents_items hscan] at hview
    rw [hview.deterministic c.run] at hend
    rw [c.done.block_nickname ok.db]
    exact hend

end Fits

/-- Renewal heights stay in range in every run in which each renewal finds
room: the heights of every record are in order and below `2 ^ 31`, and its row
reads back unchanged. On a ledger so reached, the additions of an accepted
block are free of overflow exactly when its renewals find room. -/
theorem heights_in_range_iff_room {env : Env} (fits : PeriodsFit env)
    (addresses : ∀ d, (env.addressToString d).utf8ByteSize ≤ maxSize) {ledger : Ledger}
    (run : RunWith env (Roomy env) ledger) :
    (∀ name info, readNickname ledger.db name = some info →
      0 ≤ info.registrationHeight ∧ info.registrationHeight ≤ info.activeUntilHeight ∧
        info.activeUntilHeight < info.graceUntilHeight ∧ info.graceUntilHeight ≤ 2 ^ 31 - 1 ∧
        deserialize (serialize info) = some info) ∧
    ∀ block blockUndo txFees updates, FreshBlock env ledger block →
      ledger.height + 1 < 2 ^ 30 →
      buildNicknameBlockUpdates env ledger.db block blockUndo txFees (ledger.height + 1) =
        .ok updates →
      ((∀ event ∈ ledger.events env block blockUndo txFees, NoOverflow env event) ↔
        ∀ event ∈ ledger.events env block blockUndo txFees, hasRoom env event = true) := by
  constructor
  · intro name info hread
    have hfits : RecordFits info := run.linear.recordsFit fits addresses _ _ hread
    obtain ⟨hreg, hactive, hgrace, hlimit⟩ := hfits.heights
    exact ⟨hreg, hactive, hgrace, hlimit, deserialize_serialize hfits.storedFits⟩
  · intro block blockUndo txFees updates fresh high accepted
    have low : 0 < ledger.height + 1 := by
      rw [Ledger.height]
      omega
    refine forall₂_congr fun event he => ?_
    obtain ⟨view, view', rest, before, after, step, -⟩ :=
      run.linear.ok.event_step fresh accepted he
    exact step.noOverflow_iff fits low high before after

/-! ## Renewals without end

One registration and then one renewal a block, under the default periods. The
transactions are told apart by their lock time, which here stands for the id. -/

def stackedEnv : Env := { sampleEnv with txHash := fun tx => BitVec.ofNat 256 (tx.nLockTime + 1) }

@[simp] theorem stackedEnv_txHash (tx : CTransaction) :
    stackedEnv.txHash tx = BitVec.ofNat 256 (tx.nLockTime + 1) := rfl

def stackedCoinbase (n : Nat) : CTransaction where
  nVersion := 1
  vin := [⟨.null, [], 0xffffffff, []⟩]
  vout := []
  nLockTime := 2 * n + 1
  voutSize := Nat.zero_le _

/-- The transaction of block `n + 1`, with its bond at output 1. -/
def stackedTx (n : Nat) (prevout : COutPoint) (payload : CTxOut) (amount : CAmount) :
    CTransaction where
  nVersion := 1
  vin := [⟨prevout, [], 0xffffffff, []⟩]
  vout := [payload, ⟨amount, getScriptForRawPubKey sampleKey⟩]
  nLockTime := 2 * n
  voutSize := two_le_maxSize

def stackedBlock (n : Nat) (tx : CTransaction) : CBlock :=
  ⟨BitVec.ofNat 256 n, [stackedCoinbase n, tx]⟩

def stackedRegister : CBlock := stackedBlock 0 (stackedTx 0 ⟨1, 0⟩ announceRegister (3 * coin))

/-- The ledger after the registration. -/
def stackedLedger : Ledger :=
  Ledger.empty.next stackedEnv stackedRegister [[{ txout := toSampleKey 4800 }]] [0, coin]

theorem stackedLedger_connect :
    Ledger.empty.connect stackedEnv stackedRegister [[{ txout := toSampleKey 4800 }]] [0, coin] =
      .ok stackedLedger :=
  Ledger.connect_next (by decide +kernel)

/-- The first renewal adds a quarter of a coin to the bond. -/
def firstRenewal : CBlock := stackedBlock 1 (stackedTx 1 ⟨1, 1⟩ (announce 4 []) (325 * coin / 100))

def renewedLedger : Ledger :=
  stackedLedger.next stackedEnv firstRenewal [[{ txout := toSampleKey 0 }]] [0, 0]

/-- A registration and a renewal, which finds room. -/
theorem heights_in_range_renewed :
    (∀ event ∈ stackedLedger.events stackedEnv firstRenewal [[{ txout := toSampleKey 0 }]] [0, 0],
      NoOverflow stackedEnv event) ∧
    ∃ info, readNickname renewedLedger.db sampleName = some info ∧
      info.activeUntilHeight = 288001 ∧ info.graceUntilHeight ≤ 2 ^ 31 - 1 ∧
      deserialize (serialize info) = some info := by
  have fits : PeriodsFit stackedEnv := ⟨by decide, by decide, by decide⟩
  have addresses : ∀ d, (stackedEnv.addressToString d).utf8ByteSize ≤ maxSize := by
    intro d
    cases d with
    | keyID hash =>
      simp only [stackedEnv, sampleEnv]
      split_ifs <;> decide
    | scriptID hash =>
      change ("" : String).utf8ByteSize ≤ maxSize
      decide
  have first : RunWith stackedEnv (Roomy stackedEnv) stackedLedger :=
    .connect .start (by decide +kernel) ⟨by decide, by decide +kernel⟩ stackedLedger_connect
  have fresh : FreshBlock stackedEnv stackedLedger firstRenewal := by decide +kernel
  have hheight : stackedLedger.height + 1 < 2 ^ 30 := by decide +kernel
  have room : ∀ event ∈ stackedLedger.events stackedEnv firstRenewal
      [[{ txout := toSampleKey 0 }]] [0, 0], hasRoom stackedEnv event = true := by
    decide +kernel
  have hnext : stackedLedger.connect stackedEnv firstRenewal _ _ = .ok renewedLedger :=
    Ledger.connect_next (by decide +kernel)
  obtain ⟨updates, hbuild, -⟩ := bind_eq_ok.mp hnext
  have hactive : (readNickname renewedLedger.db sampleName).map
      NicknameInfo.activeUntilHeight = some 288001 := by decide +kernel
  obtain ⟨info, hread, hinfo⟩ := Option.map_eq_some_iff.mp hactive
  obtain ⟨-, -, -, hlimit, hrow⟩ := (heights_in_range_iff_room fits addresses
    (.connect first fresh ⟨hheight, room⟩ hnext)).1 _ _ hread
  exact ⟨((heights_in_range_iff_room fits addresses first).2 _ _ _ updates fresh hheight
    hbuild).mpr room, info, hread, hinfo, hlimit, hrow⟩

/-- After `n` renewals: one block for each, the ids used so far, and a record
that was renewed `n` times. -/
structure Stacked (n : Nat) (ledger : Ledger) (info : NicknameInfo) : Prop where
  reachable : Reachable stackedEnv ledger
  length : ledger.chain.length = n + 1
  hashes : ∀ hash ∈ ledger.chain.map CBlock.hash, ∃ m ≤ n, hash = BitVec.ofNat 256 m
  ids : ∀ id ∈ ledger.ids stackedEnv, ∃ m ≤ 2 * n + 2, 0 < m ∧ id = BitVec.ofNat 256 m
  record : storedRecords ledger.db sampleName = some info
  owner : info.ownerPubKey = sampleKey
  active : info.activeUntilHeight = 1 + (n + 1) * 144000
  grace : info.graceUntilHeight = 1 + (n + 1) * 144000 + 14400
  unreleased : info.released = false
  unclaimed : info.bondClaimed = false
  txid : info.bondTxid = BitVec.ofNat 256 (2 * n + 1)
  vout : info.bondVout = 1
  amount : 0 ≤ info.bondAmount ∧ info.bondAmount ≤ (n + 3) * coin

theorem stacked_start : ∃ info, Stacked 0 stackedLedger info := by
  have hrecord : storedRecords stackedLedger.db sampleName = some
      { nickname := sampleName
        ownerPubKey := sampleKey
        payoutAddress := "KHtQs3JaKBiBwpTtKf6feVfPSp3131uG3M"
        registrationHeight := 1
        activeUntilHeight := 144001
        graceUntilHeight := 158401
        bondAmount := 3 * coin
        bondTxid := 1
        bondVout := 1
        lastUpdateTxid := 1 } := by
    decide +kernel
  have hchain : stackedLedger.chain = [stackedRegister] := by
    obtain ⟨updates, -, hledger⟩ := bind_eq_ok.mp stackedLedger_connect
    exact congrArg Ledger.chain (Except.ok.inj hledger).symm
  refine ⟨_, .next .start (.connect (by decide +kernel) stackedLedger_connect), by rw [hchain]; rfl,
    ?_, ?_, hrecord, rfl, rfl, rfl, rfl, rfl, rfl, rfl, by decide⟩
  · rw [hchain]
    rintro hash hh
    obtain rfl := List.mem_singleton.mp hh
    exact ⟨0, by decide, rfl⟩
  · rw [Ledger.ids, hchain]
    intro id hid
    have hcases : id = 2 ∨ id = 1 := by
      simpa [stackedRegister, stackedBlock, stackedTx, stackedCoinbase] using hid
    rcases hcases with rfl | rfl
    · exact ⟨2, by decide, by decide, rfl⟩
    · exact ⟨1, by decide, by decide, rfl⟩

theorem ofNat_inj {a b : Nat} (ha : a < 2 ^ 256) (hb : b < 2 ^ 256)
    (h : BitVec.ofNat 256 a = BitVec.ofNat 256 b) : a = b := by
  have := congrArg BitVec.toNat h
  rwa [BitVec.toNat_ofNat, BitVec.toNat_ofNat, Nat.mod_eq_of_lt ha, Nat.mod_eq_of_lt hb] at this

variable {n : Nat} {ledger : Ledger} {info : NicknameInfo}

theorem Stacked.fresh (h : Stacked n ledger info) (small : n < 20000) (prevout : COutPoint)
    (payload : CTxOut) (amount : CAmount) :
    FreshBlock stackedEnv ledger
      (stackedBlock (n + 1) (stackedTx (n + 1) prevout payload amount)) := by
  have hlock : ∀ tx ∈ (stackedBlock (n + 1) (stackedTx (n + 1) prevout payload amount)).vtx,
      2 * n + 2 ≤ tx.nLockTime ∧ tx.nLockTime < 2 ^ 250 := by
    simp only [stackedBlock, stackedCoinbase, stackedTx, List.forall_mem_cons, List.not_mem_nil,
      IsEmpty.forall_iff, implies_true, and_true]
    omega
  refine ⟨?_, ?_, ?_, ?_⟩
  · intro hmem
    obtain ⟨m, hm, he⟩ := h.hashes _ hmem
    have := ofNat_inj (by omega) (by omega) he
    omega
  · simp only [stackedBlock, List.map_cons, List.map_nil, stackedEnv_txHash, stackedCoinbase,
      stackedTx, List.nodup_cons, List.mem_singleton, List.not_mem_nil, not_false_eq_true,
      List.nodup_nil, and_true]
    intro he
    have := ofNat_inj (by omega) (by omega) he
    omega
  · intro tx htx he
    have := hlock tx htx
    have := ofNat_inj (b := 0) (by omega) (by omega) he
    omega
  · intro tx htx hid
    obtain ⟨m, hm, -, he⟩ := h.ids _ hid
    have := hlock tx htx
    have := ofNat_inj (by omega) (by omega) he
    omega

/-- The renewal of the sample name at any multiplier adds at most a coin. -/
theorem sampleName_increase (multiplier : Int) :
    0 ≤ getRenewalBondIncrease sampleName.length multiplier ∧
      getRenewalBondIncrease sampleName.length multiplier ≤ coin := by
  obtain ⟨hlow, hhigh⟩ := scaleByMultiplierPermille_le (Int.le_refl (1 * coin))
    (clampPricingMultiplierPermille_le multiplier) (by decide)
  have hfee : getRenewalBondIncrease sampleName.length multiplier =
      scaleByMultiplierPermille (1 * coin) (clampPricingMultiplierPermille multiplier) * 25 / 100 :=
    rfl
  rw [hfee]
  obtain ⟨fee, he⟩ : ∃ fee : Int, fee =
      scaleByMultiplierPermille (1 * coin) (clampPricingMultiplierPermille multiplier) := ⟨_, rfl⟩
  rw [← he] at hlow hhigh ⊢
  have h0 : 0 ≤ fee := hlow
  have h1 : fee ≤ 300000000 := hhigh
  have hquot : 0 ≤ fee * 25 / 100 ∧ fee * 25 / 100 ≤ 100000000 := by omega
  exact hquot

/-- The operation a renewal of the stack carries. -/
def renewOperation : NicknameOperation := { type := .renew, nickname := sampleName }

theorem stackedTx_found (n : Nat) (prevout : COutPoint) (amount : CAmount) :
    extractNicknameOperationFromTx stackedEnv (stackedTx n prevout (announce 4 []) amount) =
      .ok (some renewOperation) := by
  rfl

theorem stackedTx_bond (n : Nat) (prevout : COutPoint) (amount : CAmount) :
    BondOutput (stackedTx n prevout (announce 4 []) amount) sampleKey amount 1 := by
  have hset : CPubKey.set sampleKey = sampleKey := by decide
  have hne : (announce 4 []).scriptPubKey ≠ getScriptForRawPubKey sampleKey := by decide
  simp [BondOutput, findUniqueBondOutput, stackedTx, findBondOutput, hset, hne, require]

theorem stackedTx_owner (n : Nat) (prevout : COutPoint) (payload : CTxOut) (amount fee : CAmount) :
    OwnerInput stackedEnv
      ⟨stackedTx n prevout payload amount, some [{ txout := toSampleKey 0 }], fee⟩ sampleKey := by
  have hkey : checkOwnerPubKey stackedEnv sampleKey = .ok sampleKey := by rfl
  have hscript : isOwnerScript stackedEnv sampleKey (toSampleKey 0).scriptPubKey = true := by decide
  simp [OwnerInput, txHasOwnerAuthorizationInput, hkey, stackedTx, hscript]

/-- The bond after one more renewal. -/
def nextBond (ledger : Ledger) (info : NicknameInfo) : CAmount :=
  info.bondAmount +
    getRenewalBondIncrease sampleName.length (readPricingMultiplierPermille ledger.db)

def nextRenewal (n : Nat) (ledger : Ledger) (info : NicknameInfo) : CTransaction :=
  stackedTx (n + 1) info.getBondOutpoint (announce 4 []) (nextBond ledger info)

def nextRecord (n : Nat) (ledger : Ledger) (info : NicknameInfo) : NicknameInfo :=
  renewRecord stackedEnv (ledger.height + 1) (nextRenewal n ledger info) info (nextBond ledger info)
    1

namespace Stacked

variable (h : Stacked n ledger info) (small : n < 20000)
include h

theorem height : ledger.height = n + 1 := by
  rw [Ledger.height, h.length]
  rfl

theorem nextBond_le :
    0 ≤ nextBond ledger info ∧ nextBond ledger info ≤ ((n + 1 : Nat) + 3) * coin := by
  obtain ⟨hlow, hhigh⟩ := sampleName_increase (readPricingMultiplierPermille ledger.db)
  obtain ⟨hbond, hmost⟩ := h.amount
  refine ⟨Int.add_nonneg hbond hlow, (Int.add_le_add hmost hhigh).trans_eq ?_⟩
  push_cast
  ring

include small

theorem txid_ne_zero : info.bondTxid ≠ 0#256 := by
  rw [h.txid]
  intro he
  have := ofNat_inj (b := 0) (by omega) (by omega) he
  omega

theorem bonded : info.hasBondOutpoint = true := by
  simp [NicknameInfo.hasBondOutpoint, h.unclaimed, h.txid_ne_zero small, h.vout, maxUint32]

theorem holds : Holds (storedRecords ledger.db) sampleName info.getBondOutpoint := by
  rw [Holds, h.record, currentBond_some]
  exact ⟨h.bonded small, rfl⟩

theorem no_null_bond (name : Bytes) :
    ¬ BondOf (bondIndex ledger.db) (storedRecords ledger.db) .null name := by
  have ok := h.reachable.ok
  intro bond
  have hindex : ∃ m, bondIndex ledger.db .null = some m := by
    rcases bond with holds | ⟨-, hi⟩
    · exact ⟨name, ok.db.indexed name _ holds⟩
    · exact ⟨name, hi⟩
  obtain ⟨m, hm⟩ := hindex
  obtain ⟨k, hk, hpos, he⟩ := h.ids _ (ok.ids _ _ hm)
  have := ofNat_inj (a := 0) (by omega) (by omega) he
  omega

theorem opStep :
    OpStep stackedEnv (ledger.height + 1) (readPricingMultiplierPermille ledger.db)
      ⟨nextRenewal n ledger info, some [{ txout := toSampleKey 0 }], 0⟩ renewOperation
      (some info.getBondOutpoint) (storedRecords ledger.db sampleName)
      (.store (nextRecord n ledger info)) := by
  rw [h.record]
  refine .renew rfl ?_ ?_ (h.bonded small) ?_ ?_ ?_
  · have hle : ledger.height + 1 ≤ info.activeUntilHeight := by
      rw [h.height, h.active]
      omega
    simp [NicknameInfo.getStatus, getStatus, h.unreleased, hle, isMutableNicknameStatus]
  · rw [h.owner]
    exact stackedTx_owner _ _ _ _ _
  · rw [h.owner]
    exact ⟨by decide, by decide⟩
  · have hsmall : ((n + 1 : Nat) + 3 : Int) * 100000000 ≤ 80000000000000000 := by omega
    exact ⟨(sampleName_increase _).1, Int.le_sub_right_of_add_le (h.nextBond_le.2.trans hsmall)⟩
  · rw [h.owner]
    exact stackedTx_bond _ _ _

theorem spendsBond :
    SpendsBond (bondIndex ledger.db) (storedRecords ledger.db) (nextRenewal n ledger info).vin
      sampleName (some info.getBondOutpoint) := by
  have holds := h.holds small
  refine ⟨fun o ho => ?_, fun txin hin m hm => ?_⟩
  · cases ho
    exact ⟨⟨_, List.mem_cons_self, rfl⟩, .inl holds⟩
  · obtain rfl := List.mem_singleton.mp hin
    refine ⟨?_, rfl⟩
    rcases hm with hm | ⟨hno, -⟩
    · exact h.reachable.ok.db.uniqueBonds m sampleName _ hm holds
    · exact absurd holds (hno sampleName)

theorem blockRun :
    BlockRun stackedEnv (bondIndex ledger.db) (ledger.height + 1)
      (readPricingMultiplierPermille ledger.db)
      (blockItems (stackedBlock (n + 1) (nextRenewal n ledger info))
        [[{ txout := toSampleKey 0 }]] [0, 0])
      (startView ledger.db)
      ((startView ledger.db).apply sampleName (.store (nextRecord n ledger info))) := by
  have notCoinBase : (nextRenewal n ledger info).isCoinBase = false := by
    simp [nextRenewal, stackedTx, CTransaction.isCoinBase, COutPoint.isNull,
      getBondOutpoint_of_has (h.bonded small), h.txid_ne_zero small]
  refine .cons (.plain rfl ?_) (.cons (.operate (stackedTx_found _ _ _) notCoinBase
    (Int.le_refl 0) (h.spendsBond small) (h.opStep small)) .nil)
  intro txin hin name
  obtain rfl := List.mem_singleton.mp hin
  exact h.no_null_bond small name

/-- One more renewal. -/
theorem renew : ∃ ledger' info', Stacked (n + 1) ledger' info' := by
  have fresh := h.fresh small info.getBondOutpoint (announce 4 []) (nextBond ledger info)
  obtain ⟨ledger', hconnect, hchain, hrecords⟩ :=
    connect_of_run h.reachable.ok fresh rfl rfl (h.blockRun small)
  have hmax : max info.activeUntilHeight (ledger.height + 1) = 1 + (n + 1) * 144000 := by
    rw [h.active, h.height]
    omega
  refine ⟨ledger', nextRecord n ledger info, .next h.reachable (.connect fresh hconnect),
    by rw [hchain, List.length_cons, h.length], ?_, ?_, ?_, h.owner, ?_, ?_, rfl, rfl, rfl, rfl,
    h.nextBond_le⟩
  · rw [hchain]
    intro hash hh
    rcases List.mem_cons.mp hh with rfl | hh
    · exact ⟨n + 1, Nat.le_refl _, rfl⟩
    · obtain ⟨m, hm, he⟩ := h.hashes hash hh
      exact ⟨m, by omega, he⟩
  · rw [Ledger.ids, hchain]
    intro id hid
    rcases List.mem_append.mp hid with hid | hid
    · have hcases : id = BitVec.ofNat 256 (2 * (n + 1) + 1 + 1) ∨
          id = BitVec.ofNat 256 (2 * (n + 1) + 1) := by
        simpa [stackedBlock, stackedTx, stackedCoinbase] using hid
      rcases hcases with rfl | rfl
      · exact ⟨2 * (n + 1) + 2, Nat.le_refl _, by omega, rfl⟩
      · exact ⟨2 * (n + 1) + 1, by omega, by omega, rfl⟩
    · obtain ⟨m, hm, hpos, he⟩ := h.ids id hid
      exact ⟨m, by omega, hpos, he⟩
  · rw [hrecords]
    simp [LedgerView.apply]
  · simp only [nextRecord, renewRecord, stackedEnv, sampleEnv]
    omega
  · simp only [nextRecord, renewRecord, stackedEnv, sampleEnv]
    omega

end Stacked

theorem stacked_renewals (n : Nat) (small : n ≤ 20000) : ∃ ledger info, Stacked n ledger info := by
  induction n with
  | zero => exact ⟨_, stacked_start⟩
  | succ n ih =>
    obtain ⟨ledger, info, h⟩ := ih (by omega)
    exact h.renew (by omega)

/-- Under the default periods 14912 renewals, one in each block, take the end
of the grace period past the largest `int`. -/
theorem stacked_renewals_overflow :
    stackedEnv.activeBlocks = 144000 ∧ stackedEnv.graceBlocks = 14400 ∧
      ∃ ledger info, Reachable stackedEnv ledger ∧ ledger.height < 2 ^ 30 ∧
        readNickname ledger.db sampleName = some info ∧
        info.graceUntilHeight = info.activeUntilHeight + stackedEnv.graceBlocks ∧
        2 ^ 31 - 1 < info.graceUntilHeight := by
  obtain ⟨ledger, info, h⟩ := stacked_renewals 14912 (by decide)
  refine ⟨rfl, rfl, ledger, info, h.reachable, ?_, h.record, ?_, ?_⟩
  · rw [Ledger.height, h.length]
    decide
  · rw [h.grace, h.active]
    rfl
  · rw [h.grace]
    decide

end KubuCore.Nickname
