import KubuCore.Nickname.Batch

/-!
# Connecting blocks to the nickname database

The nickname side of the active chain: a database and the blocks applied to
it. `LedgerOk` is what holds of every ledger built by connecting blocks;
disconnecting them is in `Nickname/Undo.lean`.
-/

namespace KubuCore.Nickname

open Checked
open Chain

/-- The nickname database and the blocks above genesis it reflects, latest
first. -/
structure Ledger where
  db : NicknameStateDB
  chain : List CBlock

def Ledger.height (ledger : Ledger) : Int := ledger.chain.length

/-- The ids of all transactions of the chain. -/
def Ledger.ids (env : Env) (ledger : Ledger) : List Uint256 :=
  ledger.chain.flatMap fun block => block.vtx.map env.txHash

def Ledger.empty : Ledger := ⟨∅, []⟩

/-- The hash of the block is new to the chain and so are its transaction ids,
which are distinct and not null. -/
structure FreshBlock (env : Env) (ledger : Ledger) (block : CBlock) : Prop where
  hash : block.hash ∉ ledger.chain.map CBlock.hash
  distinct : (block.vtx.map env.txHash).Nodup
  nonNull : ∀ tx ∈ block.vtx, env.txHash tx ≠ 0
  unused : ∀ tx ∈ block.vtx, env.txHash tx ∉ ledger.ids env

/-- The nickname part of `ConnectBlock`: check the block at the next height
and write its updates. -/
def Ledger.connect (env : Env) (ledger : Ledger) (block : CBlock) (blockUndo : CBlockUndo)
    (txFees : List CAmount) : Except String Ledger := do
  let updates ←
    buildNicknameBlockUpdates env ledger.db block blockUndo txFees (ledger.height + 1)
  pure ⟨writeNicknameBatch env ledger.db block.hash updates, block :: ledger.chain⟩

/-- What holds of every ledger: the tables agree, the owner index is exact,
the undo table has the blocks of the chain, and no row speaks of a transaction,
block or height outside it. -/
structure LedgerOk (env : Env) (ledger : Ledger) : Prop where
  db : DbOk env ledger.height ledger.db
  owner : OwnerExact env ledger.db
  ids : ∀ outpoint name, bondIndex ledger.db outpoint = some name →
    outpoint.hash ∈ ledger.ids env
  pricing : ∀ state, ledger.db.get? .pricingState = some state →
    Nicknames.clampPricingMultiplierPermille state.multiplierPermille = state.multiplierPermille ∧
      0 ≤ state.rollingRegistrations
  counts : ∀ height, ledger.height < height → ledger.db.get? (.regCount height) = none
  undo : ∀ hash, ledger.db.get? (.undo hash) = none ↔ hash ∉ ledger.chain.map CBlock.hash
  bondIndexUndo : ∀ hash, hash ∉ ledger.chain.map CBlock.hash →
    ledger.db.get? (.bondIndexUndo hash) = none
  pricingUndo : ∀ hash, hash ∉ ledger.chain.map CBlock.hash →
    ledger.db.get? (.pricingUndo hash) = none

theorem ledgerOk_empty (env : Env) : LedgerOk env .empty where
  db := ⟨by simp [storedRecords, Ledger.empty],
    by simp [Holds, currentBond, storedRecords, Ledger.empty], by simp [bondIndex, Ledger.empty]⟩
  owner := by simp [OwnerExact, storedRecords, Ledger.empty, ownerRow]
  ids := by simp [bondIndex, Ledger.empty]
  pricing := by simp [Ledger.empty]
  counts := by simp [Ledger.empty]
  undo := by simp [Ledger.empty]
  bondIndexUndo := by simp [Ledger.empty]
  pricingUndo := by simp [Ledger.empty]

/-! ## The transactions of a block -/

theorem zipWith3_tx (txs : List CTransaction) (undos : List (Option CTxUndo))
    (fees : List CAmount) (hu : undos.length = txs.length) (hf : fees.length = txs.length) :
    (List.zipWith3 BlockItem.mk txs undos fees).map BlockItem.tx = txs := by
  induction txs generalizing undos fees with
  | nil => simp [List.zipWith3]
  | cons tx txs ih =>
    match undos, fees, hu, hf with
    | u :: undos, f :: fees, hu, hf =>
      simp only [List.length_cons, Nat.add_right_cancel_iff] at hu hf
      simp [List.zipWith3, ih undos fees hu hf]

variable {env : Env} {ledger : Ledger}

variable {db : NicknameStateDB} {block : CBlock} {blockUndo : CBlockUndo} {txFees : List CAmount}

/-- The items of an accepted block are its transactions in order. -/
theorem blockItems_tx {height : Int} {updates : NicknameBlockUpdates}
    (h : buildNicknameBlockUpdates env db block blockUndo txFees height = .ok updates) :
    (blockItems block blockUndo txFees).map BlockItem.tx = block.vtx := by
  simp only [buildNicknameBlockUpdates, eq_ok] at h
  obtain ⟨-, hundo, -, hfees, -⟩ := h
  rcases hundo with hnil | hlen
  · simp [blockItems, hnil, List.zipWith3]
  · exact zipWith3_tx _ _ _ (by simpa using hlen) hfees

/-- An outpoint the ledger knows was made by a transaction of the chain. -/
theorem LedgerOk.known_ids (ok : LedgerOk env ledger) {outpoint : COutPoint}
    (known : Known (bondIndex ledger.db) (startView ledger.db) outpoint) :
    outpoint.hash ∈ ledger.ids env := by
  rcases known with ⟨name, hindex⟩ | ⟨name, holds⟩ | ⟨name, hr⟩ | hc
  · exact ok.ids outpoint name hindex
  · exact ok.ids outpoint name (ok.db.indexed name outpoint holds)
  · cases hr
  · cases hc

theorem LedgerOk.freshItems (ok : LedgerOk env ledger) {block : CBlock}
    (fresh : FreshBlock env ledger block) {items : List BlockItem}
    (hitems : items.map BlockItem.tx = block.vtx) :
    FreshItems env (bondIndex ledger.db) (startView ledger.db) items := by
  have hids : items.map (fun item => env.txHash item.tx) = block.vtx.map env.txHash := by
    rw [← hitems, List.map_map]
    rfl
  have hmem : ∀ item ∈ items, item.tx ∈ block.vtx := fun item hi =>
    hitems ▸ List.mem_map_of_mem hi
  refine ⟨hids ▸ fresh.distinct, fun item hi => fresh.nonNull _ (hmem item hi), ?_⟩
  intro outpoint known item hi he
  exact fresh.unused _ (hmem item hi) (he ▸ ok.known_ids known)

/-- What a connected block did. -/
structure Connected (env : Env) (ledger : Ledger) (block : CBlock) (items : List BlockItem)
    (scan : BlockScan) : Prop where
  txs : items.map BlockItem.tx = block.vtx
  fresh : FreshItems env (bondIndex ledger.db) (startView ledger.db) items
  run : BlockRun env (bondIndex ledger.db) (ledger.height + 1)
    (readPricingMultiplierPermille ledger.db) items (startView ledger.db) (scan.view ledger.db)
  done : BlockDone env (ledger.height + 1) ledger.db scan

theorem connect_spec {ledger' : Ledger} (ok : LedgerOk env ledger)
    (fresh : FreshBlock env ledger block)
    (h : ledger.connect env block blockUndo txFees = .ok ledger') :
    ∃ scan, Connected env ledger block (blockItems block blockUndo txFees) scan ∧
      ledger' = ⟨writeBlock env ledger.db block.hash scan (ledger.height + 1),
        block :: ledger.chain⟩ := by
  simp only [Ledger.connect, eq_ok] at h
  obtain ⟨updates, hbuild, rfl⟩ := h
  have hitems := blockItems_tx hbuild
  have hfresh := ok.freshItems fresh hitems
  have le : ledger.height ≤ ledger.height + 1 := by omega
  obtain ⟨scan, rfl, scanOk, run⟩ := build_refines ok.db le hfresh hbuild
  have start := ok.db.startOk le hfresh
  refine ⟨scan, ⟨hitems, hfresh, run, scanOk, (run.viewOk start).records, ?_⟩, rfl⟩
  intro n m outpoint hn hm
  rcases run.holds_origin start hn with ⟨item, hi, hid⟩ | hold
  · exact absurd hid (hfresh.unheld hi hm)
  · exact ok.db.uniqueBonds n m outpoint hold hm

/-! ## The invariant -/

section Connect

variable {env : Env} {ledger : Ledger} {block : CBlock} {items : List BlockItem} {scan : BlockScan}

section

variable (c : Connected env ledger block items scan) (ok : LedgerOk env ledger)
include c ok

theorem Connected.viewOk :
    ViewOk env (bondIndex ledger.db) (ledger.height + 1) (scan.view ledger.db) [] :=
  c.run.viewOk (ok.db.startOk (by omega) c.fresh)

variable {name : Bytes} {o : COutPoint} {blockHash : Uint256} {blockHeight : Int}

/-- Every row of the new bond index is of a left-over bond, of a bond held, or
was there before, held by nobody, and not claimed. -/
theorem Connected.bond_cases
    (h : bondIndex (writeBlock env ledger.db blockHash scan blockHeight) o = some name) :
    (o, name) ∈ scan.bondIndexUpserts ∨ Holds (scan.records ledger.db) name o ∨
      (bondIndex ledger.db o = some name ∧ o ∉ scan.bondIndexErases ∧
        ∀ m, ¬ Holds (storedRecords ledger.db) m o) := by
  by_cases hr : ∃ m, (o, m) ∈ scan.bondIndexUpserts
  · obtain ⟨m, hm, hrow⟩ := c.done.block_bond_retired hr
    rw [((c.viewOk ok).lists.retired (o, m) hm).2.1, h] at hrow
    cases hrow
    exact .inl hm
  · have hr' : ∀ m, (o, m) ∉ scan.bondIndexUpserts := fun m hm => hr ⟨m, hm⟩
    by_cases hc : o ∈ scan.bondIndexErases
    · rw [c.done.block_bond_claimed hr' hc] at h
      cases h
    · rw [c.done.block_bond_unlisted hr' hc] at h
      obtain ⟨hheld, hgone, hsame⟩ := c.done.upserts_bond ok.db o
      by_cases hnow : ∃ m, Holds (scan.records ledger.db) m o
      · obtain ⟨m, hm⟩ := hnow
        rw [hheld m hm] at h
        cases h
        exact .inr (.inl hm)
      · have hnow' : ∀ m, ¬ Holds (scan.records ledger.db) m o := fun m hm => hnow ⟨m, hm⟩
        by_cases hold : ∃ m, Holds (storedRecords ledger.db) m o
        · obtain ⟨m, hm⟩ := hold
          rw [hgone hnow' m hm] at h
          cases h
        · have hold' : ∀ m, ¬ Holds (storedRecords ledger.db) m o := fun m hm => hold ⟨m, hm⟩
          rw [hsame hnow' hold'] at h
          exact .inr (.inr ⟨h, hc, hold'⟩)

theorem Connected.dbOk (blockHash : Uint256) (blockHeight : Int) :
    DbOk env (ledger.height + 1) (writeBlock env ledger.db blockHash scan blockHeight) := by
  have hrecords : storedRecords (writeBlock env ledger.db blockHash scan blockHeight) =
      scan.records ledger.db := c.done.block_nickname ok.db
  refine ⟨?_, ?_, ?_⟩
  · rw [hrecords]
    exact c.done.records.each
  · rw [hrecords]
    intro name o holds
    -- A bond held at the end of the block is on neither side list.
    have lists := (c.viewOk ok).lists
    rw [c.done.block_bond_unlisted (fun m hm => (lists.retired (o, m) hm).1 name holds)
      fun hc => lists.claimed o hc name holds]
    exact (c.done.upserts_bond ok.db o).1 name holds
  · rw [hrecords]
    intro o name h
    rcases c.bond_cases ok h with hr | holds | ⟨hold, -⟩
    · exact ((c.viewOk ok).lists.retired (o, name) hr).2.2
    · cases hi : scan.records ledger.db name with
      | none =>
        rw [Holds, hi] at holds
        cases holds
      | some info => exact ⟨info, rfl⟩
    · exact c.run.records_persist (ok.db.named o name hold)

theorem Connected.bond_ids
    (h : bondIndex (writeBlock env ledger.db blockHash scan blockHeight) o = some name) :
    o.hash ∈ block.vtx.map env.txHash ++ ledger.ids env := by
  have known : Known (bondIndex ledger.db) (scan.view ledger.db) o := by
    rcases c.bond_cases ok h with hr | holds | ⟨hold, -⟩
    · exact .inr (.inr (.inl ⟨name, hr⟩))
    · exact .inr (.inl ⟨name, holds⟩)
    · exact .inl ⟨name, hold⟩
  rw [List.mem_append]
  rcases c.run.known_origin (ok.db.startOk (by omega) c.fresh) known with ⟨item, hi, hid⟩ | known
  · rw [hid, ← c.txs, List.map_map]
    exact .inl (List.mem_map.mpr ⟨item, hi, rfl⟩)
  · exact .inr (ok.known_ids known)

end

/-- Connecting a block keeps the ledger well formed. -/
theorem Connected.ledgerOk (c : Connected env ledger block items scan) (ok : LedgerOk env ledger) :
    LedgerOk env ⟨writeBlock env ledger.db block.hash scan (ledger.height + 1),
      block :: ledger.chain⟩ := by
  have hheight : ∀ db, (Ledger.mk db (block :: ledger.chain)).height = ledger.height + 1 := by
    simp [Ledger.height]
  refine ⟨?_, c.done.block_owner ok.db ok.owner, ?_, ?_, ?_, ?_, ?_, ?_⟩
  · exact c.dbOk ok _ _
  · intro o name h
    exact c.bond_ids ok h
  · intro state h
    rw [c.done.block_pricingState ok.db] at h
    cases h
    exact ⟨Nicknames.clamp_idem _, Int.le_max_left _ _⟩
  · intro height h
    rw [hheight] at h
    have hne : height ≠ ledger.height + 1 := by omega
    rw [c.done.block_regCount ok.db, if_neg hne]
    exact ok.counts height (by omega)
  · intro hash
    rw [c.done.block_undo ok.db, List.map_cons, List.mem_cons, not_or]
    by_cases he : hash = block.hash
    · simp [he]
    · rw [if_neg he, ok.undo]
      exact ⟨fun h => ⟨he, h⟩, fun h => h.2⟩
  · intro hash h
    rw [List.map_cons, List.mem_cons, not_or] at h
    rw [c.done.block_bondIndexUndo ok.db, if_neg h.1]
    exact ok.bondIndexUndo hash h.2
  · intro hash h
    rw [List.map_cons, List.mem_cons, not_or] at h
    rw [c.done.block_pricingUndo ok.db, if_neg h.1]
    exact ok.pricingUndo hash h.2

end Connect

end KubuCore.Nickname
