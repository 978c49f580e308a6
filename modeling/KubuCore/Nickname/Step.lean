import KubuCore.Nickname.Block

/-!
# The nickname ledger as a transition system

What a transaction may do to the ledger, stated over records by name and
without working copies, caches or load order. `OpStep` has one constructor for
each way an operation can succeed, with every check it passed; `TxStep` is one
transaction. The pass over a block is related to it in `Nickname/Scan.lean`.
-/

namespace KubuCore.Nickname

open Checked
open Chain
open Script
open Nicknames

abbrev Records := Bytes → Option NicknameInfo

/-- The bond a record holds. -/
def currentBond : Option NicknameInfo → Option COutPoint
  | some info => if info.hasBondOutpoint then some info.getBondOutpoint else none
  | none => none

variable {env : Env} {height multiplier : Int} {item : BlockItem} {rest : List BlockItem}
  {index : COutPoint → Option Bytes} {info : NicknameInfo} {ownerPubKey key : Bytes}
  {outpoint : COutPoint} {amount : CAmount} {op : NicknameOperation} {spent : Option COutPoint}
  {found : Option NicknameInfo}

theorem currentBond_some : currentBond (some info) = some outpoint ↔
      info.hasBondOutpoint = true ∧ info.getBondOutpoint = outpoint := by
  simp [currentBond]

/-- The outpoint is the current bond of the name. -/
def Holds (records : Records) (name : Bytes) (outpoint : COutPoint) : Prop :=
  currentBond (records name) = some outpoint

/-- No outpoint is the bond of two names. -/
def UniqueBonds (records : Records) : Prop :=
  ∀ n m outpoint, Holds records n outpoint → Holds records m outpoint → n = m

/-- The name a spend of the outpoint is charged to: the holder of the bond, or
else the name the bond index gives. -/
def BondOf (index : COutPoint → Option Bytes) (records : Records) (outpoint : COutPoint)
    (name : Bytes) : Prop :=
  Holds records name outpoint ∨ ((∀ m, ¬ Holds records m outpoint) ∧ index outpoint = some name)

/-- What the inputs of a transaction with an operation on `name` spend of the
bonds: none of them, or one bond of that name. -/
def SpendsBond (index : COutPoint → Option Bytes) (records : Records) (vin : List CTxIn)
    (name : Bytes) (spent : Option COutPoint) : Prop :=
  (∀ outpoint, spent = some outpoint →
    (∃ txin ∈ vin, txin.prevout = outpoint) ∧ BondOf index records outpoint name) ∧
  ∀ txin ∈ vin, ∀ m, BondOf index records txin.prevout m → m = name ∧ spent = some txin.prevout

def ValidOwnerKey (env : Env) (ownerPubKey : Bytes) : Prop :=
  CPubKey.isFullyValid env (CPubKey.set ownerPubKey) = true ∧
    CPubKey.isCompressed (CPubKey.set ownerPubKey) = true

/-- The transaction spends an output with one of the owner's scripts. -/
def OwnerInput (env : Env) (item : BlockItem) (ownerPubKey : Bytes) : Prop :=
  txHasOwnerAuthorizationInput env item.tx item.txundo ownerPubKey = .ok ()

/-- The transaction has exactly one output of this amount to this key, at
index `vout`. -/
def BondOutput (tx : CTransaction) (ownerPubKey : Bytes) (amount : CAmount) (vout : Nat) : Prop :=
  findUniqueBondOutput tx (getScriptForRawPubKey (CPubKey.set ownerPubKey)) amount = .ok vout

/-- What an accepted operation does to the ledger. -/
inductive Outcome where
  | store (info : NicknameInfo)
  | register (info : NicknameInfo) (retired : Option COutPoint)
  | claimLegacy (outpoint : COutPoint)

/-- The bond that registering over a record leaves behind. -/
def retiredBy (height : Int) : Option NicknameInfo → Option COutPoint
  | some info =>
    if info.hasBondOutpoint ∧
        (info.getStatus height = .released ∨ info.getStatus height = .bondClaimable) then
      some info.getBondOutpoint
    else none
  | none => none

/-- One accepted operation: the bond it spends, the record it finds and what
it does. -/
inductive OpStep (env : Env) (height multiplier : Int) (item : BlockItem)
    (op : NicknameOperation) : Option COutPoint → Option NicknameInfo → Outcome → Prop where
  | register {found : Option NicknameInfo} {vout : Nat} (type : op.type = .register)
      (authorized : OwnerInput env item op.ownerPubKey)
      (available : ∀ info, found = some info → availableForRegistration (info.getStatus height))
      (key : ValidOwnerKey env op.ownerPubKey)
      (bond : BondOutput item.tx op.ownerPubKey
        (getPricing op.nickname.length multiplier).bondAmount vout) :
      OpStep env height multiplier item op none found
        (.register (registerRecord env height item.tx op
          (getPricing op.nickname.length multiplier).bondAmount vout) (retiredBy height found))
  | update {info : NicknameInfo} (type : op.type = .update)
      (isMutable : isMutableNicknameStatus (info.getStatus height))
      (authorized : OwnerInput env item info.ownerPubKey) :
      OpStep env height multiplier item op none (some info)
        (.store (updateRecord env item.tx op info))
  | transfer {info : NicknameInfo} {vout : Nat} (type : op.type = .transfer)
      (isMutable : isMutableNicknameStatus (info.getStatus height))
      (authorized : OwnerInput env item info.ownerPubKey)
      (bonded : info.hasBondOutpoint = true)
      (key : ValidOwnerKey env op.newOwnerPubKey)
      (bond : BondOutput item.tx op.newOwnerPubKey info.bondAmount vout) :
      OpStep env height multiplier item op (some info.getBondOutpoint) (some info)
        (.store (transferRecord env item.tx op info vout))
  | renew {info : NicknameInfo} {vout : Nat} (type : op.type = .renew)
      (isMutable : isMutableNicknameStatus (info.getStatus height))
      (authorized : OwnerInput env item info.ownerPubKey)
      (bonded : info.hasBondOutpoint = true)
      (key : ValidOwnerKey env info.ownerPubKey)
      (increase : 0 ≤ getRenewalBondIncrease op.nickname.length multiplier ∧
        info.bondAmount ≤ maxMoney - getRenewalBondIncrease op.nickname.length multiplier)
      (bond : BondOutput item.tx info.ownerPubKey
        (info.bondAmount + getRenewalBondIncrease op.nickname.length multiplier) vout) :
      OpStep env height multiplier item op (some info.getBondOutpoint) (some info)
        (.store (renewRecord env height item.tx info
          (info.bondAmount + getRenewalBondIncrease op.nickname.length multiplier) vout))
  | release {info : NicknameInfo} (type : op.type = .release)
      (isMutable : isMutableNicknameStatus (info.getStatus height))
      (authorized : OwnerInput env item info.ownerPubKey) :
      OpStep env height multiplier item op none (some info)
        (.store (releaseRecord env item.tx info))
  | claimBond {info : NicknameInfo} (type : op.type = .claimBond)
      (bonded : info.hasBondOutpoint = true)
      (claimable : info.getStatus height = .bondClaimable)
      (authorized : OwnerInput env item info.ownerPubKey) :
      OpStep env height multiplier item op (some info.getBondOutpoint) (some info)
        (.store (claimRecord env item.tx info))
  | claimLegacy {info : NicknameInfo} {outpoint : COutPoint} (type : op.type = .claimBond)
      (legacy : ¬ (info.hasBondOutpoint = true ∧ outpoint = info.getBondOutpoint)) :
      OpStep env height multiplier item op (some outpoint) (some info) (.claimLegacy outpoint)

/-- The ledger in the middle of a block: the records, the bonds left behind
and the left-over bonds claimed so far, and the registrations counted. -/
@[ext]
structure LedgerView where
  records : Records
  retired : List (COutPoint × Bytes)
  claimed : List COutPoint
  registered : Nat

/-- Replace the record of one name. -/
def Records.set (records : Records) (name : Bytes) (info : NicknameInfo) : Records :=
  fun m => if m = name then some info else records m

@[simp] theorem Records.set_self (records : Records) (name : Bytes) (info : NicknameInfo) :
    records.set name info name = some info := by
  simp [Records.set]

theorem Records.set_of_ne (records : Records) {name m : Bytes} (info : NicknameInfo)
    (h : m ≠ name) : records.set name info m = records m := by
  simp [Records.set, h]

/-- The effect of an accepted operation on `name`. -/
def LedgerView.apply (view : LedgerView) (name : Bytes) : Outcome → LedgerView
  | .store info => { view with records := view.records.set name info }
  | .register info retired =>
    { view with
      records := view.records.set name info
      retired := view.retired ++ (retired.map fun outpoint => (outpoint, name)).toList
      registered := view.registered + 1 }
  | .claimLegacy outpoint => { view with claimed := view.claimed ++ [outpoint] }

/-- One accepted transaction. -/
inductive TxStep (env : Env) (index : COutPoint → Option Bytes) (height multiplier : Int)
    (item : BlockItem) : LedgerView → LedgerView → Prop where
  | plain {view : LedgerView} (found : extractNicknameOperationFromTx env item.tx = .ok none)
      (unspent : ∀ txin ∈ item.tx.vin, ∀ name, ¬ BondOf index view.records txin.prevout name) :
      TxStep env index height multiplier item view view
  | operate {view : LedgerView} {op : NicknameOperation} {spent : Option COutPoint}
      {outcome : Outcome}
      (found : extractNicknameOperationFromTx env item.tx = .ok (some op))
      (notCoinBase : item.tx.isCoinBase = false)
      (fee : getRequiredNicknameFee op multiplier ≤ item.fee)
      (spends : SpendsBond index view.records item.tx.vin op.nickname spent)
      (step : OpStep env height multiplier item op spent (view.records op.nickname) outcome) :
      TxStep env index height multiplier item view (view.apply op.nickname outcome)

/-! ## Bond outputs -/

theorem findBondOutput_spec {script : CScript} {i v : Nat} {found : Option Nat}
    {outputs : List CTxOut} (h : findBondOutput script amount i found outputs = .ok v) :
    found = some v ∨ ∃ j, outputs[j]? = some ⟨amount, script⟩ ∧ v = i + j := by
  induction outputs generalizing i found with
  | nil =>
    cases found with
    | none => cases h
    | some w =>
      cases h
      exact .inl rfl
  | cons output rest ih =>
    simp only [findBondOutput] at h
    split at h
    · rcases ih h with hf | ⟨j, hj, rfl⟩
      · exact .inl hf
      · exact .inr ⟨j + 1, by simpa using hj, by omega⟩
    · simp only [eq_ok] at h
      obtain ⟨-, -, h⟩ := h
      rcases ih h with hf | ⟨j, hj, rfl⟩
      · cases output
        simp_all
      · exact .inr ⟨j + 1, by simpa using hj, by omega⟩

section

variable {tx : CTransaction} {vout : Nat} (h : BondOutput tx ownerPubKey amount vout)
include h

theorem BondOutput.output :
    tx.vout[vout]? = some ⟨amount, getScriptForRawPubKey (CPubKey.set ownerPubKey)⟩ := by
  rcases findBondOutput_spec h with hf | ⟨j, hj, rfl⟩
  · cases hf
  · simpa using hj

theorem BondOutput.fits : vout < maxUint32 := by
  have hlt := (List.getElem?_eq_some_iff.mp h.output).1
  have hsize := tx.voutSize
  simp only [maxSize] at hsize
  simp only [maxUint32]
  omega

end

theorem ValidOwnerKey.set_eq (h : ValidOwnerKey env ownerPubKey) :
    CPubKey.set ownerPubKey = ownerPubKey :=
  CPubKey.set_eq_of_isCompressed h.2

theorem ValidOwnerKey.length_eq
    (h : ValidOwnerKey env ownerPubKey) : ownerPubKey.length = compressedSize := by
  have hc := h.2
  rw [h.set_eq] at hc
  simpa [CPubKey.isCompressed] using hc

/-! ## Well-formed records -/

/-- What every record of the ledger satisfies once the block at `height` has
been processed. A claimed record stays out of the active and grace periods;
under a negative `-nicknameactiveblocks` a record expires before it is made. -/
structure RecordOk (env : Env) (height : Int) (key : Bytes) (info : NicknameInfo) : Prop where
  name : info.nickname = key
  normal : normalizeKeyName key = key
  owner : ValidOwnerKey env info.ownerPubKey
  grace : info.graceUntilHeight = info.activeUntilHeight + env.graceBlocks
  bonded : info.bondClaimed = false → info.bondTxid ≠ 0 ∧ info.bondVout ≠ maxUint32
  claimed : info.bondClaimed = true → info.bondTxid = 0 ∧ info.bondVout = maxUint32
  lapsed : info.bondClaimed = true →
    info.released = true ∨ (info.activeUntilHeight < height ∧ info.graceUntilHeight < height)
  horizon : env.activeBlocks < 0 → info.activeUntilHeight ≤ height + env.activeBlocks

section

variable (h : RecordOk env height key info)
include h

theorem RecordOk.mono {later : Int} (le : height ≤ later) : RecordOk env later key info where
  name := h.name
  normal := h.normal
  owner := h.owner
  grace := h.grace
  bonded := h.bonded
  claimed := h.claimed
  lapsed hc := by
    rcases h.lapsed hc with hr | ⟨ha, hg⟩
    · exact .inl hr
    · exact .inr ⟨by omega, by omega⟩
  horizon hn := by
    have := h.horizon hn
    omega

theorem RecordOk.hasBondOutpoint_iff : info.hasBondOutpoint = true ↔ info.bondClaimed = false := by
  constructor
  · intro hb
    simp only [NicknameInfo.hasBondOutpoint, Bool.and_eq_true, Bool.not_eq_true'] at hb
    exact hb.1.1
  · intro hc
    obtain ⟨htxid, hvout⟩ := h.bonded hc
    simpa [NicknameInfo.hasBondOutpoint, hc, hvout] using htxid

theorem RecordOk.unclaimed_of_mutable {later : Int} (le : height ≤ later)
    (isMutable : isMutableNicknameStatus (info.getStatus later)) : info.bondClaimed = false := by
  cases hc : info.bondClaimed with
  | false => rfl
  | true =>
    rcases h.lapsed hc with hr | ⟨ha, hg⟩
    · simp [NicknameInfo.getStatus, getStatus, hr, hc, isMutableNicknameStatus] at isMutable
    · have hna : ¬ later ≤ info.activeUntilHeight := by omega
      have hng : ¬ later ≤ info.graceUntilHeight := by omega
      cases hr : info.released <;>
        simp [NicknameInfo.getStatus, getStatus, hr, hc, hna, hng,
          isMutableNicknameStatus] at isMutable

end

theorem status_claimable (h : info.getStatus height = .bondClaimable) :
    info.released = true ∨
      (info.activeUntilHeight < height ∧ info.graceUntilHeight < height) := by
  unfold NicknameInfo.getStatus getStatus at h
  split_ifs at h with hr <;> simp_all

theorem getBondOutpoint_of_has (h : info.hasBondOutpoint = true) :
    info.getBondOutpoint = ⟨info.bondTxid, info.bondVout⟩ := by
  simp [NicknameInfo.getBondOutpoint, h]

/-- The record an operation leaves, if it changes the record. -/
def Outcome.record : Outcome → Option NicknameInfo
  | .store info => some info
  | .register info _ => some info
  | .claimLegacy _ => none

variable {outcome : Outcome}

section

variable (h : OpStep env height multiplier item op spent found outcome)
include h

/-- Operations leave well-formed records well formed. -/
theorem OpStep.recordOk (wellFormed : op.WellFormed) (nonNull : env.txHash item.tx ≠ 0)
    (ok : ∀ info, found = some info → RecordOk env height op.nickname info) :
    ∀ info, outcome.record = some info → RecordOk env height op.nickname info := by
  have normal : normalizeKeyName op.nickname = op.nickname :=
    normalizeNickname_of_valid wellFormed.validName
  cases h with
  | register type authorized available key bond =>
    rintro _ ⟨⟩
    exact ⟨rfl, normal, key, rfl, fun _ => ⟨nonNull, bond.fits.ne⟩, by simp [registerRecord],
      by simp [registerRecord], fun _ => Int.le_refl _⟩
  | update =>
    rintro _ ⟨⟩
    obtain ⟨name, normal, owner, grace, bonded, claimed, lapsed, horizon⟩ := ok _ rfl
    exact ⟨name, normal, owner, grace, bonded, claimed, lapsed, horizon⟩
  | transfer type isMutable authorized bonded key bond =>
    rintro _ ⟨⟩
    have old := ok _ rfl
    exact ⟨old.name, old.normal, key, old.grace, fun _ => ⟨nonNull, bond.fits.ne⟩,
      by simp [transferRecord], by simp [transferRecord], old.horizon⟩
  | @renew info _ type isMutable authorized bonded key increase bond =>
    rintro _ ⟨⟩
    have old := ok _ rfl
    refine ⟨old.name, old.normal, key, rfl, fun _ => ⟨nonNull, bond.fits.ne⟩, by simp [renewRecord],
      by simp [renewRecord], fun hn => ?_⟩
    have := old.horizon hn
    have hmax : max info.activeUntilHeight height = height := by omega
    simp only [renewRecord, hmax, Int.le_refl]
  | release type isMutable authorized =>
    rintro _ ⟨⟩
    have old := ok _ rfl
    have unclaimed := old.unclaimed_of_mutable (Int.le_refl _) isMutable
    exact ⟨old.name, old.normal, old.owner, old.grace, fun _ => old.bonded unclaimed,
      by simp [releaseRecord], by simp [releaseRecord], old.horizon⟩
  | claimBond type bonded claimable authorized =>
    rintro _ ⟨⟩
    have old := ok _ rfl
    have lapsed := status_claimable claimable
    exact ⟨old.name, old.normal, old.owner, old.grace, by simp [claimRecord],
      fun _ => ⟨rfl, rfl⟩, fun _ => lapsed, old.horizon⟩
  | claimLegacy =>
    rintro _ ⟨⟩

/-- The bond of the record an operation leaves was made by the transaction, or
is the bond the record had before. -/
theorem OpStep.bond_origin (ok : ∀ info, found = some info → RecordOk env height op.nickname info)
    {outpoint : COutPoint} (bond : currentBond outcome.record = some outpoint) :
    ((op.type = .register ∨ op.type = .transfer ∨ op.type = .renew) ∧
        outpoint.hash = env.txHash item.tx) ∨
      (spent = none ∧ currentBond found = some outpoint) := by
  cases h with
  | register type | transfer type | renew type =>
    obtain ⟨bonded, rfl⟩ := currentBond_some.mp bond
    rw [getBondOutpoint_of_has bonded]
    exact .inl ⟨by simp [type], rfl⟩
  | update => exact .inr ⟨rfl, bond⟩
  | @release old type isMutable =>
    obtain ⟨bonded, rfl⟩ := currentBond_some.mp bond
    have hok := ok _ rfl
    have hold : old.hasBondOutpoint = true :=
      hok.hasBondOutpoint_iff.mpr (hok.unclaimed_of_mutable (Int.le_refl _) isMutable)
    refine .inr ⟨rfl, currentBond_some.mpr ⟨hold, ?_⟩⟩
    rw [getBondOutpoint_of_has bonded, getBondOutpoint_of_has hold]
    rfl
  | claimBond =>
    obtain ⟨bonded, -⟩ := currentBond_some.mp bond
    simp [NicknameInfo.hasBondOutpoint, claimRecord] at bonded
  | claimLegacy => cases bond

end

/-! ## Invariants of a transaction -/

/-- The records of a ledger are well formed and hold distinct bonds. -/
structure RecordsOk (env : Env) (height : Int) (records : Records) : Prop where
  each : ∀ name info, records name = some info → RecordOk env height name info
  unique : UniqueBonds records

variable {view view' : LedgerView} {name : Bytes}

theorem LedgerView.apply_records (outcome : Outcome) (m : Bytes) :
    (view.apply name outcome).records m =
      if m = name then outcome.record <|> view.records name else view.records m := by
  by_cases h : m = name
  · subst h
    cases outcome <;> simp [LedgerView.apply, Outcome.record]
  · cases outcome <;> simp [LedgerView.apply, Records.set_of_ne, h]

/-- A name's record is as before, or the one that an operation on the name put. -/
theorem LedgerView.apply_cases (view : LedgerView) (name : Bytes) (outcome : Outcome) (m : Bytes) :
    (view.apply name outcome).records m = view.records m ∨
      ∃ info, m = name ∧ outcome.record = some info ∧
        (view.apply name outcome).records m = some info := by
  rw [apply_records]
  split
  · rename_i he
    subst he
    cases outcome.record with
    | none => exact .inl rfl
    | some info => exact .inr ⟨info, rfl, rfl, rfl⟩
  · exact .inl rfl

/-! ## Known outpoints -/

/-- The outpoint plays a role in the ledger: it is indexed, held, left behind
or claimed. -/
def Known (index : COutPoint → Option Bytes) (view : LedgerView) (outpoint : COutPoint) : Prop :=
  (∃ name, index outpoint = some name) ∨ (∃ name, Holds view.records name outpoint) ∨
    (∃ name, (outpoint, name) ∈ view.retired) ∨ outpoint ∈ view.claimed

theorem retiredBy_holds
    (h : retiredBy height found = some outpoint) : currentBond found = some outpoint := by
  cases found with
  | none => cases h
  | some info =>
    simp only [retiredBy] at h
    split at h
    · rename_i hb
      cases h
      exact currentBond_some.mpr ⟨hb.1, rfl⟩
    · cases h

theorem BondOf.known (h : BondOf index view.records outpoint name) : Known index view outpoint := by
  rcases h with h | ⟨-, h⟩
  · exact .inr (.inl ⟨name, h⟩)
  · exact .inl ⟨name, h⟩

/-- What an outcome adds to the side lists was held by the name, or is the
bond spent. -/
theorem OpStep.listed
    (h : OpStep env height multiplier item op spent (view.records op.nickname) outcome) :
    (∀ entry, entry ∈ (view.apply op.nickname outcome).retired → entry ∈ view.retired ∨
      (entry.2 = op.nickname ∧ spent = none ∧ Holds view.records op.nickname entry.1 ∧
        ∃ info, outcome.record = some info ∧
          ∀ o, currentBond (some info) = some o → o.hash = env.txHash item.tx)) ∧
    ∀ outpoint, outpoint ∈ (view.apply op.nickname outcome).claimed → outpoint ∈ view.claimed ∨
      (spent = some outpoint ∧ ¬ Holds view.records op.nickname outpoint) := by
  generalize hf : view.records op.nickname = found at h
  cases h with
  | register =>
    refine ⟨fun entry he => ?_, fun outpoint ho => .inl ho⟩
    simp only [LedgerView.apply, List.mem_append, Option.mem_toList, Option.map_eq_some_iff] at he
    rcases he with he | ⟨o, ho, rfl⟩
    · exact .inl he
    · refine .inr ⟨rfl, rfl, ?_, _, rfl, fun o hb => ?_⟩
      · rw [Holds, hf]
        exact retiredBy_holds ho
      · obtain ⟨bonded, rfl⟩ := currentBond_some.mp hb
        rw [getBondOutpoint_of_has bonded]
        rfl
  | claimLegacy type legacy =>
    refine ⟨fun entry he => .inl he, fun outpoint ho => ?_⟩
    rcases List.mem_append.mp ho with ho | ho
    · exact .inl ho
    · obtain rfl := List.mem_singleton.mp ho
      refine .inr ⟨rfl, fun holds => legacy ?_⟩
      rw [Holds, hf, currentBond_some] at holds
      exact ⟨holds.1, holds.2.symm⟩
  | update | transfer | renew | release | claimBond =>
    exact ⟨fun _ he => .inl he, fun _ ho => .inl ho⟩

/-! ## Steps of a transaction -/

section

variable (h : TxStep env index height multiplier item view view')
include h

/-- A bond held after a transaction was made by it or held before it. -/
theorem TxStep.holds_origin (ok : RecordsOk env height view.records) {outpoint : COutPoint}
    (holds : Holds view'.records name outpoint) :
    outpoint.hash = env.txHash item.tx ∨ Holds view.records name outpoint := by
  cases h with
  | plain => exact .inr holds
  | @operate op spent outcome found notCoinBase fee spends step =>
    obtain same | ⟨info, rfl, hr, now⟩ := view.apply_cases op.nickname outcome name
    · exact .inr (by rwa [Holds, same] at holds)
    · rw [Holds, now, ← hr] at holds
      rcases step.bond_origin (fun _ => ok.each _ _) holds with ⟨-, hid⟩ | ⟨-, hold⟩
      · exact .inl hid
      · exact .inr hold

/-- Transactions with new ids keep the records well formed and their bonds
distinct. -/
theorem TxStep.recordsOk (ok : RecordsOk env height view.records) (nonNull : env.txHash item.tx ≠ 0)
    (fresh : ∀ name outpoint, Holds view.records name outpoint →
      outpoint.hash ≠ env.txHash item.tx) : RecordsOk env height view'.records := by
  have origin := fun {name outpoint} => @TxStep.holds_origin _ _ _ _ _ _ _ name h ok outpoint
  cases h with
  | plain => exact ok
  | @operate op spent outcome found notCoinBase fee spends step =>
    have wellFormed := extractNicknameOperationFromTx_wellFormed found
    refine ⟨fun name info hr => ?_, fun n m outpoint hn hm => ?_⟩
    · obtain same | ⟨next, rfl, ho, now⟩ := view.apply_cases op.nickname outcome name
      · exact ok.each _ _ (same ▸ hr)
      · rw [now, ← ho] at hr
        exact step.recordOk wellFormed nonNull (fun _ => ok.each _ _) _ hr
    · -- Only the name operated on can hold a bond made by this transaction.
      have made : ∀ k, Holds (view.apply op.nickname outcome).records k outpoint →
          outpoint.hash = env.txHash item.tx → k = op.nickname := by
        intro k hk hid
        by_contra hne
        rw [Holds, LedgerView.apply_records, if_neg hne] at hk
        exact fresh k outpoint hk hid
      rcases origin hn with hid | hold
      · rw [made n hn hid, made m hm hid]
      · rcases origin hm with hid | hold'
        · rw [made n hn hid, made m hm hid]
        · exact ok.unique n m outpoint hold hold'

theorem TxStep.records_persist
    (exists' : ∃ info, view.records name = some info) : ∃ info, view'.records name = some info := by
  cases h with
  | plain => exact exists'
  | @operate op spent outcome found notCoinBase fee spends step =>
    obtain same | ⟨info, -, -, now⟩ := view.apply_cases op.nickname outcome name
    · rwa [same]
    · exact ⟨info, now⟩

/-- A known outpoint was made by the transaction or known before it. -/
theorem TxStep.known_origin (ok : RecordsOk env height view.records) {outpoint : COutPoint}
    (known : Known index view' outpoint) :
    outpoint.hash = env.txHash item.tx ∨ Known index view outpoint := by
  have origin := fun {name} => @TxStep.holds_origin _ _ _ _ _ _ _ name h ok outpoint
  rcases known with hi | ⟨name, hh⟩ | ⟨name, hr⟩ | hc
  · exact .inr (.inl hi)
  · rcases origin hh with hid | hold
    · exact .inl hid
    · exact .inr (.inr (.inl ⟨name, hold⟩))
  · cases h with
    | plain => exact .inr (.inr (.inr (.inl ⟨name, hr⟩)))
    | operate found notCoinBase fee spends step =>
      rcases step.listed.1 _ hr with hr | ⟨-, -, holds, -⟩
      · exact .inr (.inr (.inr (.inl ⟨name, hr⟩)))
      · exact .inr (.inr (.inl ⟨_, holds⟩))
  · cases h with
    | plain => exact .inr (.inr (.inr (.inr hc)))
    | operate found notCoinBase fee spends step =>
      rcases step.listed.2 _ hc with hc | ⟨hs, -⟩
      · exact .inr (.inr (.inr (.inr hc)))
      · exact .inr (spends.1 outpoint hs).2.known

end

/-- The transaction ids of a block are distinct, not null, and not the ids of
outpoints the ledger knows. -/
structure FreshItems (env : Env) (index : COutPoint → Option Bytes) (view : LedgerView)
    (items : List BlockItem) : Prop where
  nodup : (items.map fun item => env.txHash item.tx).Nodup
  nonNull : ∀ item ∈ items, env.txHash item.tx ≠ 0
  unknown : ∀ outpoint, Known index view outpoint → ∀ item ∈ items,
    outpoint.hash ≠ env.txHash item.tx

theorem FreshItems.unheld {items : List BlockItem} (h : FreshItems env index view items)
    {item : BlockItem} (hi : item ∈ items) {outpoint : COutPoint}
    (holds : Holds view.records name outpoint) : outpoint.hash ≠ env.txHash item.tx :=
  h.unknown outpoint (.inr (.inl ⟨name, holds⟩)) item hi

theorem FreshItems.head_ne {later : BlockItem} (h : FreshItems env index view (item :: rest))
    (hl : later ∈ rest) :
    env.txHash item.tx ≠ env.txHash later.tx := by
  have hnodup := h.nodup
  rw [List.map_cons, List.nodup_cons] at hnodup
  intro he
  exact hnodup.1 (he ▸ List.mem_map_of_mem hl)

/-- After the first transaction the others are still fresh. -/
theorem FreshItems.tail (h : FreshItems env index view (item :: rest))
    (ok : RecordsOk env height view.records)
    (step : TxStep env index height multiplier item view view') :
    FreshItems env index view' rest := by
  have head := fun {later} (hl : later ∈ rest) => h.head_ne hl
  obtain ⟨hnodup, hnonNull, hunknown⟩ := h
  rw [List.map_cons, List.nodup_cons] at hnodup
  refine ⟨hnodup.2, fun i hi => hnonNull i (List.mem_cons_of_mem _ hi), ?_⟩
  intro outpoint known i hi
  rcases step.known_origin ok known with hid | known
  · rw [hid]
    exact head hi
  · exact hunknown outpoint known i (List.mem_cons_of_mem _ hi)

/-- Bonds on the side lists are held by nobody, and the names that left a bond
behind are registered and normal. -/
structure ListsOk (view : LedgerView) : Prop where
  retired : ∀ entry ∈ view.retired, (∀ m, ¬ Holds view.records m entry.1) ∧
    normalizeKeyName entry.2 = entry.2 ∧ ∃ info, view.records entry.2 = some info
  claimed : ∀ outpoint ∈ view.claimed, ∀ m, ¬ Holds view.records m outpoint

/-- What holds of the ledger all through a block with the transactions `rest`
still to come. -/
structure ViewOk (env : Env) (index : COutPoint → Option Bytes) (height : Int)
    (view : LedgerView) (rest : List BlockItem) : Prop where
  records : RecordsOk env height view.records
  lists : ListsOk view
  fresh : FreshItems env index view rest

section

variable (h : TxStep env index height multiplier item view view')
include h

/-- Nobody comes to hold an outpoint that is not of the transaction. -/
theorem TxStep.unheld (ok : RecordsOk env height view.records) {outpoint : COutPoint}
    (old : outpoint.hash ≠ env.txHash item.tx) (unheld : ∀ m, ¬ Holds view.records m outpoint) :
    ∀ m, ¬ Holds view'.records m outpoint := by
  intro m hm
  rcases h.holds_origin ok hm with hid | hold
  · exact old hid
  · exact unheld m hold

variable {name : Bytes} {entry : COutPoint × Bytes}

/-- A bond is spent by a transfer, a renewal or a claim of its name; a bond
that nobody holds is then listed as claimed. -/
theorem TxStep.spends_bond {txin : CTxIn} (hin : txin ∈ item.tx.vin)
    (bond : BondOf index view.records txin.prevout name) :
    ∃ op, extractNicknameOperationFromTx env item.tx = .ok (some op) ∧ op.nickname = name ∧
      (op.type = .transfer ∨ op.type = .renew ∨ op.type = .claimBond) ∧
      (Holds view.records name txin.prevout ∨ txin.prevout ∈ view'.claimed) := by
  cases h with
  | plain found unspent => exact absurd bond (unspent txin hin name)
  | @operate op spent outcome found notCoinBase fee spends step =>
    obtain ⟨rfl, rfl⟩ := spends.2 txin hin name bond
    refine ⟨op, found, rfl, ?_⟩
    generalize hf : view.records op.nickname = record at step
    generalize hs : some txin.prevout = spent at step
    have holds : ∀ info, record = some info → info.hasBondOutpoint = true →
        some txin.prevout = some info.getBondOutpoint →
        Holds view.records op.nickname txin.prevout := by
      rintro info rfl hb he
      rw [Holds, hf, currentBond_some]
      exact ⟨hb, (Option.some.inj he).symm⟩
    cases step with
    | register | update | release => cases hs
    | transfer type _ _ bonded => exact ⟨.inl type, .inl (holds _ rfl bonded hs)⟩
    | renew type _ _ bonded => exact ⟨.inr (.inl type), .inl (holds _ rfl bonded hs)⟩
    | claimBond type bonded => exact ⟨.inr (.inr type), .inl (holds _ rfl bonded hs)⟩
    | claimLegacy type legacy =>
      cases hs
      exact ⟨.inr (.inr type), .inr (List.mem_append_right _ List.mem_cons_self)⟩

/-- A name loses its bond when the bond is spent or left behind. -/
theorem TxStep.bond_lost (ok : RecordsOk env height view.records) {outpoint : COutPoint}
    (holds : Holds view.records name outpoint) (lost : ¬ Holds view'.records name outpoint) :
    (∃ txin ∈ item.tx.vin, txin.prevout = outpoint) ∨ (outpoint, name) ∈ view'.retired := by
  cases h with
  | plain => exact absurd holds lost
  | @operate op spent outcome found notCoinBase fee spends step =>
    rw [Holds, LedgerView.apply_records] at lost
    split at lost
    · rename_i he
      subst he
      rw [Holds] at holds
      have each := fun info => ok.each op.nickname info
      generalize view.records op.nickname = record at step holds lost each
      cases record with
      | none => cases holds
      | some info =>
        obtain ⟨bonded, rfl⟩ := currentBond_some.mp holds
        have hok := each info rfl
        cases step with
        | register type authorized available =>
          refine .inr (List.mem_append_right _ ?_)
          have hstatus : info.getStatus height = .released ∨
              info.getStatus height = .bondClaimable := by
            have unclaimed := hok.hasBondOutpoint_iff.mp bonded
            have havailable := available info rfl
            simp only [NicknameInfo.getStatus, getStatus] at havailable ⊢
            split_ifs at havailable ⊢ <;> simp_all [availableForRegistration]
          simp [retiredBy, bonded, hstatus]
        | update => exact absurd holds lost
        | release type isMutable =>
          refine absurd ?_ lost
          have unclaimed := hok.unclaimed_of_mutable (Int.le_refl _) isMutable
          simpa [Outcome.record, currentBond, NicknameInfo.hasBondOutpoint,
            NicknameInfo.getBondOutpoint, releaseRecord, unclaimed] using holds
        | transfer | renew | claimBond => exact .inl (spends.1 _ rfl).1
        | claimLegacy => exact absurd holds lost
    · exact absurd holds lost

/-- A bond comes on the list of those left behind from the name that holds it,
in a transaction that does not spend it. -/
theorem TxStep.retired_origin (he : entry ∈ view'.retired) :
    entry ∈ view.retired ∨
      (Holds view.records entry.2 entry.1 ∧ ∀ txin ∈ item.tx.vin, txin.prevout ≠ entry.1) := by
  cases h with
  | plain => exact .inl he
  | @operate op spent outcome found notCoinBase fee spends step =>
    rcases step.listed.1 entry he with hold | ⟨hname, rfl, holds, -⟩
    · exact .inl hold
    · refine .inr ⟨hname ▸ holds, fun txin hin heq => ?_⟩
      obtain ⟨-, hspent⟩ := spends.2 txin hin op.nickname (.inl (heq ▸ holds))
      cases hspent

theorem TxStep.retired_mono (he : entry ∈ view.retired) : entry ∈ view'.retired := by
  cases h with
  | plain => exact he
  | @operate op spent outcome =>
    cases outcome with
    | store | claimLegacy => exact he
    | register => exact List.mem_append_left _ he

theorem TxStep.claimed_mono {outpoint : COutPoint} (ho : outpoint ∈ view.claimed) :
    outpoint ∈ view'.claimed := by
  cases h with
  | plain => exact ho
  | @operate op spent outcome =>
    cases outcome with
    | store | register => exact ho
    | claimLegacy => exact List.mem_append_left _ ho

theorem TxStep.listsOk (ok : RecordsOk env height view.records) (lists : ListsOk view)
    (fresh : ∀ outpoint, Known index view outpoint → outpoint.hash ≠ env.txHash item.tx) :
    ListsOk view' := by
  have unheld := fun outpoint known => h.unheld ok (fresh outpoint known)
  have persist := fun {name} => @TxStep.records_persist _ _ _ _ _ _ _ name h
  cases h with
  | plain => exact lists
  | @operate op spent outcome found notCoinBase fee spends step =>
    have normal : normalizeKeyName op.nickname = op.nickname :=
      normalizeNickname_of_valid (extractNicknameOperationFromTx_wellFormed found).validName
    refine ⟨fun entry he => ?_, fun outpoint ho => ?_⟩
    · rcases step.listed.1 entry he with he | ⟨hname, -, holds, info, hr, hmade⟩
      · obtain ⟨hno, hnormal, hrecord⟩ := lists.retired entry he
        exact ⟨unheld entry.1 (.inr (.inr (.inl ⟨entry.2, he⟩))) hno, hnormal, persist hrecord⟩
      · have known : Known index view entry.1 := .inr (.inl ⟨_, holds⟩)
        refine ⟨fun m hm => ?_, hname ▸ normal, ?_⟩
        · rw [Holds, LedgerView.apply_records] at hm
          split at hm
          · rw [hr] at hm
            exact fresh entry.1 known (hmade entry.1 hm)
          · rename_i hne
            exact hne (ok.unique m op.nickname entry.1 hm holds)
        · rw [hname, LedgerView.apply_records, if_pos rfl, hr]
          exact ⟨info, rfl⟩
    · rcases step.listed.2 outpoint ho with ho | ⟨hs, hnot⟩
      · exact unheld outpoint (.inr (.inr (.inr ho))) (lists.claimed outpoint ho)
      · obtain ⟨-, hbond⟩ := spends.1 outpoint hs
        refine unheld outpoint hbond.known ?_
        rcases hbond with hbond | ⟨hno, -⟩
        · exact absurd hbond hnot
        · exact hno

theorem TxStep.viewOk
    (ok : ViewOk env index height view (item :: rest)) : ViewOk env index height view' rest where
  records := h.recordsOk ok.records (ok.fresh.nonNull _ List.mem_cons_self)
    fun _ _ holds => ok.fresh.unheld List.mem_cons_self holds
  lists := h.listsOk ok.records ok.lists
    fun outpoint known => ok.fresh.unknown outpoint known _ List.mem_cons_self
  fresh := ok.fresh.tail ok.records h

end

/-! ## Runs over a block -/

/-- The transactions of a block, one after the other. -/
inductive BlockRun (env : Env) (index : COutPoint → Option Bytes) (height multiplier : Int) :
    List BlockItem → LedgerView → LedgerView → Prop where
  | nil {view : LedgerView} : BlockRun env index height multiplier [] view view
  | cons {item : BlockItem} {rest : List BlockItem} {view middle view' : LedgerView}
      (step : TxStep env index height multiplier item view middle)
      (run : BlockRun env index height multiplier rest middle view') :
      BlockRun env index height multiplier (item :: rest) view view'

section Run

variable {items : List BlockItem}

section

variable (h : BlockRun env index height multiplier items view view')
include h

section

variable (ok : ViewOk env index height view items)
include ok

theorem BlockRun.viewOk : ViewOk env index height view' [] := by
  induction h with
  | nil => exact ok
  | cons step run ih => exact ih (step.viewOk ok)

/-- A bond held after a block was made in the block or held before it. -/
theorem BlockRun.holds_origin {name : Bytes} {outpoint : COutPoint}
    (holds : Holds view'.records name outpoint) :
    (∃ item ∈ items, outpoint.hash = env.txHash item.tx) ∨ Holds view.records name outpoint := by
  induction h with
  | nil => exact .inr holds
  | cons step run ih =>
    rcases ih (step.viewOk ok) holds with ⟨item, hi, hid⟩ | hold
    · exact .inl ⟨item, List.mem_cons_of_mem _ hi, hid⟩
    · rcases step.holds_origin ok.records hold with hid | hold
      · exact .inl ⟨_, List.mem_cons_self, hid⟩
      · exact .inr hold

/-- An outpoint known after a block was made in the block or known before it. -/
theorem BlockRun.known_origin {outpoint : COutPoint} (known : Known index view' outpoint) :
    (∃ item ∈ items, outpoint.hash = env.txHash item.tx) ∨ Known index view outpoint := by
  induction h with
  | nil => exact .inr known
  | cons step run ih =>
    rcases ih (step.viewOk ok) known with ⟨item, hi, hid⟩ | known
    · exact .inl ⟨item, List.mem_cons_of_mem _ hi, hid⟩
    · rcases step.known_origin ok.records known with hid | known
      · exact .inl ⟨_, List.mem_cons_self, hid⟩
      · exact .inr known

end

theorem BlockRun.retired_mono {entry : COutPoint × Bytes} (he : entry ∈ view.retired) :
    entry ∈ view'.retired := by
  induction h with
  | nil => exact he
  | cons step run ih => exact ih (step.retired_mono he)

theorem BlockRun.records_persist {name : Bytes} (exists' : ∃ info, view.records name = some info) :
    ∃ info, view'.records name = some info := by
  induction h with
  | nil => exact exists'
  | cons step run ih => exact ih (step.records_persist exists')

end

end Run

end KubuCore.Nickname
