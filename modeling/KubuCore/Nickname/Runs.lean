import KubuCore.Nickname.Undo

/-!
# Runs of the nickname ledger

Blocks are connected at the tip and the latest one may be disconnected. Since
disconnecting is exact, every ledger reached this way is also reached by
connecting the blocks of its chain, so an invariant of `connect` holds of every
reachable ledger.
-/

namespace KubuCore.Nickname

open Checked
open Chain
open Script

/-- The nickname part of `DisconnectBlock`. -/
def Ledger.disconnect (env : Env) (ledger : Ledger) : Ledger :=
  match ledger.chain with
  | [] => ledger
  | block :: rest =>
    match readNicknameUndo ledger.db block.hash with
    | some undoEntries =>
      ⟨applyNicknameUndo env ledger.db block.hash ledger.height undoEntries, rest⟩
    | none => ⟨ledger.db, rest⟩

/-- One block connected or disconnected. -/
inductive Step (env : Env) : Ledger → Ledger → Prop where
  | connect {ledger ledger' : Ledger} {block : CBlock} {blockUndo : CBlockUndo}
      {txFees : List CAmount} (fresh : FreshBlock env ledger block)
      (accepted : ledger.connect env block blockUndo txFees = .ok ledger') : Step env ledger ledger'
  | disconnect {ledger : Ledger} (tip : ledger.chain ≠ []) : Step env ledger (ledger.disconnect env)

inductive Reachable (env : Env) : Ledger → Prop where
  | start : Reachable env .empty
  | next {ledger ledger' : Ledger} : Reachable env ledger → Step env ledger ledger' →
      Reachable env ledger'

/-- Connecting the blocks of a chain one after the other. -/
inductive Linear (env : Env) : Ledger → Prop where
  | start : Linear env .empty
  | connect {ledger ledger' : Ledger} {block : CBlock} {blockUndo : CBlockUndo}
      {txFees : List CAmount} (run : Linear env ledger) (fresh : FreshBlock env ledger block)
      (accepted : ledger.connect env block blockUndo txFees = .ok ledger') : Linear env ledger'

variable {env : Env} {ledger : Ledger}

theorem Linear.ok (h : Linear env ledger) : LedgerOk env ledger := by
  induction h with
  | start => exact ledgerOk_empty env
  | connect run fresh accepted ih =>
    obtain ⟨scan, c, rfl⟩ := connect_spec ih fresh accepted
    exact c.ledgerOk ih

/-- Disconnecting the block just connected gives the ledger back. -/
theorem disconnect_connect {ledger' : Ledger} {block : CBlock} {blockUndo : CBlockUndo}
    {txFees : List CAmount} (ok : LedgerOk env ledger)
    (fresh : FreshBlock env ledger block)
    (accepted : ledger.connect env block blockUndo txFees = .ok ledger') :
    ledger'.disconnect env = ledger := by
  obtain ⟨scan, c, rfl⟩ := connect_spec ok fresh accepted
  have hrow : readNicknameUndo (after env ledger block scan) block.hash = some (undoRow scan) := by
    rw [readNicknameUndo, c.done.block_undo ok.db, if_pos rfl]
  have hheight : (Ledger.mk (after env ledger block scan) (block :: ledger.chain)).height =
      ledger.height + 1 := by
    simp [Ledger.height]
  simp only [Ledger.disconnect, hrow, hheight]
  rw [c.undo ok fresh]

/-- Every reachable ledger is reached without disconnecting. -/
theorem Reachable.linear (h : Reachable env ledger) : Linear env ledger := by
  induction h with
  | start => exact .start
  | next _ step ih =>
    cases step with
    | connect fresh accepted => exact .connect ih fresh accepted
    | disconnect tip =>
      cases ih with
      | start => exact absurd rfl tip
      | connect run fresh accepted =>
        rw [disconnect_connect run.ok fresh accepted]
        exact run

theorem Reachable.ok (h : Reachable env ledger) : LedgerOk env ledger :=
  h.linear.ok

/-! ## Runs under a condition on the blocks connected -/

/-- Runs in which every block connected meets a condition. -/
inductive RunWith (env : Env) (cond : Ledger → CBlock → CBlockUndo → List CAmount → Prop) :
    Ledger → Prop where
  | start : RunWith env cond .empty
  | connect {ledger ledger' : Ledger} {block : CBlock} {blockUndo : CBlockUndo}
      {txFees : List CAmount} (run : RunWith env cond ledger)
      (fresh : FreshBlock env ledger block) (met : cond ledger block blockUndo txFees)
      (accepted : ledger.connect env block blockUndo txFees = .ok ledger') :
      RunWith env cond ledger'
  | disconnect {ledger : Ledger} (run : RunWith env cond ledger) (tip : ledger.chain ≠ []) :
      RunWith env cond (ledger.disconnect env)

/-- The same without disconnecting. -/
inductive LinearWith (env : Env) (cond : Ledger → CBlock → CBlockUndo → List CAmount → Prop) :
    Ledger → Prop where
  | start : LinearWith env cond .empty
  | connect {ledger ledger' : Ledger} {block : CBlock} {blockUndo : CBlockUndo}
      {txFees : List CAmount} (run : LinearWith env cond ledger)
      (fresh : FreshBlock env ledger block) (met : cond ledger block blockUndo txFees)
      (accepted : ledger.connect env block blockUndo txFees = .ok ledger') :
      LinearWith env cond ledger'

section With

variable {env : Env} {cond : Ledger → CBlock → CBlockUndo → List CAmount → Prop} {ledger : Ledger}

theorem LinearWith.ok (run : LinearWith env cond ledger) : LedgerOk env ledger := by
  induction run with
  | start => exact ledgerOk_empty env
  | connect _ fresh _ accepted ih =>
    obtain ⟨scan, c, rfl⟩ := connect_spec ih fresh accepted
    exact c.ledgerOk ih

theorem RunWith.linear (run : RunWith env cond ledger) : LinearWith env cond ledger := by
  induction run with
  | start => exact .start
  | connect _ fresh met accepted ih => exact .connect ih fresh met accepted
  | disconnect _ tip ih =>
    cases ih with
    | start => exact absurd rfl tip
    | connect run fresh met accepted =>
      rw [disconnect_connect run.ok fresh accepted]
      exact run

end With

/-- Undo is an exact inverse: on a reachable database, writing an accepted
block of the next height and applying the undo entries read back for its hash
gives every row back, and no undo row of the block is left. -/
theorem undo_restores_every_row {env : Env} {ledger : Ledger} {block : CBlock}
    {blockUndo : CBlockUndo} {txFees : List CAmount} {updates : NicknameBlockUpdates}
    (reachable : Reachable env ledger) (newHash : readNicknameUndo ledger.db block.hash = none)
    (distinct : (block.vtx.map env.txHash).Nodup) (nonNull : ∀ tx ∈ block.vtx, env.txHash tx ≠ 0)
    (unused : ∀ tx ∈ block.vtx, env.txHash tx ∉ ledger.ids env)
    (accepted : buildNicknameBlockUpdates env ledger.db block blockUndo txFees
      (ledger.height + 1) = .ok updates) :
    ∃ undoEntries,
      readNicknameUndo (writeNicknameBatch env ledger.db block.hash updates) block.hash =
        some undoEntries ∧
      applyNicknameUndo env (writeNicknameBatch env ledger.db block.hash updates) block.hash
        (ledger.height + 1) undoEntries = ledger.db ∧
      ledger.db.get? (.undo block.hash) = none ∧
      ledger.db.get? (.bondIndexUndo block.hash) = none ∧
      ledger.db.get? (.pricingUndo block.hash) = none := by
  have ok := reachable.ok
  have hnew := (ok.undo block.hash).mp newHash
  have fresh : FreshBlock env ledger block := ⟨hnew, distinct, nonNull, unused⟩
  have hconnect : ledger.connect env block blockUndo txFees =
      .ok ⟨writeNicknameBatch env ledger.db block.hash updates, block :: ledger.chain⟩ := by
    rw [Ledger.connect, accepted]
    rfl
  obtain ⟨scan, c, hledger⟩ := connect_spec ok fresh hconnect
  have hdb : writeNicknameBatch env ledger.db block.hash updates = after env ledger block scan :=
    congrArg Ledger.db hledger
  rw [hdb]
  refine ⟨undoRow scan, ?_, c.undo ok fresh, newHash, ok.bondIndexUndo _ hnew,
    ok.pricingUndo _ hnew⟩
  rw [readNicknameUndo, c.done.block_undo ok.db, if_pos rfl]

/-! ## A sample chain

Coinbases that pay to one key, a registration and the operations that follow
it. The digests, signatures and addresses are the real ones of these
transactions; elsewhere the functions of `sampleEnv` have a default. -/

/-- The `len` bytes of a number, the highest first. -/
def bytesOf (len n : Nat) : Bytes := (List.range len).reverse.map fun i => UInt8.ofNat (n / 256 ^ i)

def sampleKey : CPubKey :=
  bytesOf 33 0x0279be667ef9dcbbac55a06295ce870b07029bfcdb2dce28d959f2815b16f81798

def sampleKeyHash : Uint160 := ⟨bytesOf 20 0x751e76e8199196d454941c45d1b3a323f1433bd6, by decide⟩

def otherKeyHash : Uint160 := ⟨bytesOf 20 0x06afd46bcdfd22ef94ac122aa11f241244a37ecc, by decide⟩

def sampleName : Bytes := [0x61, 0x6c, 0x69, 0x63, 0x65, 0x5f, 0x6b, 0x75, 0x62, 0x75]

/-- An output to the sample key, in hundredths of a coin. -/
def toSampleKey (cents : Int) : CTxOut := ⟨cents * 1000000, getScriptForRawPubKey sampleKey⟩

/-- The output that announces an operation on the sample name. -/
def announce (opType : UInt8) (fields : Bytes) : CTxOut :=
  let payload := kubuNicknameMagic ++ [opType, 10] ++ sampleName ++ fields
  ⟨0, opReturn :: pushBytes payload⟩

def announceRegister : CTxOut :=
  announce 1 (33 :: sampleKey ++ [21, destPKH] ++ sampleKeyHash.val)

def announceUpdate : CTxOut := announce 2 ([21, destPKH] ++ otherKeyHash.val)

def sampleCoinbase (height : Nat) : CTransaction where
  nVersion := 1
  vin := [⟨.null, [0x01, UInt8.ofNat height], 0xffffffff, []⟩]
  vout := [toSampleKey 4800]
  nLockTime := 0

/-- A transaction with one input and the signature for it, if it needs one. -/
def spendOne (prevout : COutPoint) (vchSig : Option Bytes) (vout : List CTxOut)
    (size : vout.length ≤ maxSize := by decide) : CTransaction where
  nVersion := 1
  vin := [⟨prevout, (vchSig.map fun sig => pushBytes (sig ++ [1])).getD [], 0xffffffff, []⟩]
  vout
  nLockTime := 0
  voutSize := size

/-- The id of a coinbase. Only the first is spent with a signature, which is of its real id. -/
def coinbaseId (height : Nat) : Uint256 :=
  if height = 1 then 0x1cc9685dfd7b03b4852c511f2faaf3fd7af2f684b6f2cbbcc559ed7f42489f81
  else BitVec.ofNat 256 height

def registerId : Uint256 :=
  0x6f9795e486cfe7a783480eb52fd12219fa534f640810ba688f4ae2c16683b853

def releaseId : Uint256 :=
  0x1930139c114f316849d58763f11a3ef3c43015ebccbac5779e6695a24d2e48d1

def reregisterId : Uint256 :=
  0x4328742680fdb178169c3796f5b72c621d0ea18a1b259d5f4b670880676fde96

def registerSig : Bytes :=
  bytesOf 36 0x3045022100f49dc8738a805710ea49a81445536dbabf2e0a1416179ce04704a87466cf03 ++
    bytesOf 35 0x1002205ddce1a9e2f9e8463cce168c52c1fc6d1a4f811ce4d9e9a82183b0375dee2df5

def firstUpdateSig : Bytes :=
  bytesOf 36 0x304502210093b168cc352deac140858837fad84cff602f6360955b0ba42d48dbe239d68a ++
    bytesOf 35 0x3b02201899959d1330c022d3986944021a287fe77d5424b35b7d5f0c2cff0ae7bafe25

def releaseSig : Bytes :=
  bytesOf 36 0x30450221008fa6988981f674478df25429cd503127e87a724c6301fda0771ef690d564db ++
    bytesOf 35 0x9e022036711a767a9256c8dd61705b6e853beb2a587bc14175d93836762dd478b51cf0

def reregisterSig : Bytes :=
  bytesOf 36 0x3045022100fabef186208c264daf7c797b3b656dc6a3db220d6d4bfb02e87a3707fd0dfe ++
    bytesOf 35 0xa00220129ca17b116b60490534ccdaad9458e3d5f301149dbcbefcd04f0b74b1b550be

def claimSig : Bytes :=
  bytesOf 36 0x304402205cea8d529bc3d5ad7cb2417f3bdb2f95d5731ee9bcd814db4f25a71ff83744f4 ++
    bytesOf 34 0x0220646fb5c65d34f2058360744bca1448860f65e7c78b8cc70a83d95627a6cbe3c0

def plainSig : Bytes :=
  bytesOf 36 0x304402207c38b8af9ca92b0af6396652aa2d27040643336ee6fa15ec358037ee9ee4f3b0 ++
    bytesOf 34 0x0220553b7887c67e12328c959b23ac149fa6d36ee2a14295848c4fb760aa88fc4cb7

def registerTx : CTransaction :=
  spendOne ⟨coinbaseId 1, 0⟩ (some registerSig)
    [announceRegister, toSampleKey 300, ⟨1000000000, op0 :: pushBytes sampleKeyHash.val⟩,
      toSampleKey 1000, toSampleKey 2400]

def firstUpdateTx : CTransaction :=
  spendOne ⟨registerId, 3⟩ (some firstUpdateSig)
    [announceUpdate, toSampleKey 999]

def releaseTx : CTransaction :=
  spendOne ⟨registerId, 4⟩ (some releaseSig)
    [announce 5 [], toSampleKey 2399]

def reregisterTx : CTransaction :=
  spendOne ⟨releaseId, 1⟩ (some reregisterSig)
    [announceRegister, toSampleKey 300, toSampleKey 1998]

def claimTx : CTransaction :=
  spendOne ⟨registerId, 1⟩ (some claimSig)
    [announce 6 [], toSampleKey 299]

def plainTx : CTransaction :=
  spendOne ⟨registerId, 1⟩ (some plainSig)
    [toSampleKey 299]

/-- The transactions, each with its id, its signature and the digest that is signed. -/
def signedTxs : List (CTransaction × Uint256 × Bytes × Uint256) :=
  [(registerTx, registerId, registerSig,
     0xfa74d588a05105ff5e0b77ee377c69206f0345a0eaab148e728a6e694c466863),
   (firstUpdateTx, 0xb8c36cef410bddc5a32041bd00bb7bff9c128b362df6b7b8e78649d6bc261f6f,
     firstUpdateSig, 0x8ed71e1c0397fa6ba03bcf6ad4d37a99108015d59582afe4171b3606c1959c1b),
   (releaseTx, releaseId, releaseSig,
     0xc502165054a9eec803b14625a44e7afe98b90737d7db5b4de4d8f20822145d69),
   (reregisterTx, reregisterId, reregisterSig,
     0xe3fc585727f4b5aed27bf5569d98bd31a693f45ab5364ca539863173f5f51a0e),
   (claimTx, 0xe1d3f420592f36dabf6ca8813385fdfe753df56b890dce84520902eb64411777, claimSig,
     0x2f672a159f0413e36dcc6d3a421096a8841061dc2a620666e1aa5353cfcbc2fb),
   (plainTx, 0xfe517fb9aa05b39b46159d4f81d5c9782ba469ff2639282ad2effbc49894a6ef, plainSig,
     0x67dbca65104d1dc2677e653ceb1866bf46566fe883860bd301eda35b292ed8d2)]

def sampleIds : List (CTransaction × Uint256) :=
  signedTxs.map (fun (tx, id, _) => (tx, id)) ++
    (List.range 33).map fun i => (sampleCoinbase (i + 1), coinbaseId (i + 1))

def sampleDigests : List (CTransaction × Uint256) :=
  signedTxs.map fun (tx, _, _, digest) => (tx, digest)

def sampleSignatures : List (Bytes × Uint256) :=
  signedTxs.map fun (_, _, sig, digest) => (sig, digest)

def sampleEnv : Env where
  hash160 b := if b = sampleKey then sampleKeyHash else ⟨List.replicate 20 0, length_zeros⟩
  sha256 _ := []
  ripemd160 _ := []
  sha1 _ := []
  hash256 _ := []
  txHash tx := (sampleIds.lookup tx).getD 0
  signatureHash script tx nIn nHashType _ _ :=
    if script = getScriptForRawPubKey sampleKey ∧ nIn = 0 ∧ nHashType = 1 then
      (sampleDigests.lookup tx).getD 0
    else 0
  ecPubkeyParse b := b == sampleKey
  ecdsaVerify pubKey vchSig digest :=
    pubKey == sampleKey && sampleSignatures.contains (vchSig, digest)
  checkLowS vchSig := sampleSignatures.any fun entry => entry.1 == vchSig
  addressToString
    | .keyID hash =>
      if hash = sampleKeyHash then "KHtQs3JaKBiBwpTtKf6feVfPSp3131uG3M"
      else if hash = otherKeyHash then "K7pVzuS6Ea49jwQTyTa66mQYGhETJpgRcc"
      else ""
    | .scriptID _ => ""
  activeBlocks := 144000
  graceBlocks := 14400

def sampleBlock (height : Nat) (txs : List CTransaction) : CBlock :=
  ⟨BitVec.ofNat 256 height, sampleCoinbase height :: txs⟩

instance (env : Env) (ledger : Ledger) (block : CBlock) : Decidable (FreshBlock env ledger block) :=
  decidable_of_iff
    (block.hash ∉ ledger.chain.map CBlock.hash ∧ (block.vtx.map env.txHash).Nodup ∧
      (∀ tx ∈ block.vtx, env.txHash tx ≠ 0) ∧ ∀ tx ∈ block.vtx, env.txHash tx ∉ ledger.ids env)
    ⟨fun h => ⟨h.1, h.2.1, h.2.2.1, h.2.2.2⟩, fun h => ⟨h.hash, h.distinct, h.nonNull, h.unused⟩⟩

/-- The ledger after a block, if it is accepted. -/
def Ledger.next (env : Env) (ledger : Ledger) (block : CBlock) (blockUndo : CBlockUndo)
    (txFees : List CAmount) : Ledger :=
  (ledger.connect env block blockUndo txFees).toOption.getD ledger

theorem Ledger.connect_next {env : Env} {ledger : Ledger} {block : CBlock} {blockUndo : CBlockUndo}
    {txFees : List CAmount} (h : (ledger.connect env block blockUndo txFees).isOk = true) :
    ledger.connect env block blockUndo txFees = .ok (ledger.next env block blockUndo txFees) := by
  obtain ⟨ledger', hconnect⟩ := exists_of_isOk h
  rw [Ledger.next, hconnect]
  rfl

/-- The ledger after a first block that registers the sample name. -/
def registeredLedger : Ledger :=
  Ledger.empty.next sampleEnv (sampleBlock 1 [registerTx])
    [[{ txout := toSampleKey 4800, fCoinBase := true, nHeight := 1, nVersion := 1 }]] [0, coin]

theorem registeredLedger_reachable : Reachable sampleEnv registeredLedger :=
  .next .start (.connect (by decide +kernel) (Ledger.connect_next (by decide +kernel)))

/-- A block that releases the name, registers it again and claims the bond of
the first registration is undone. -/
theorem undo_restores_reregistration :
    ∃ updates undoEntries,
      buildNicknameBlockUpdates sampleEnv registeredLedger.db
        (sampleBlock 2 [releaseTx, reregisterTx, claimTx])
        [[{ txout := toSampleKey 2400 }],
          [{ txout := toSampleKey 2399, nHeight := 2, nVersion := 1 }],
          [{ txout := toSampleKey 300 }]]
        [0, 1000000, 101000000, 1000000] 2 = .ok updates ∧
      applyNicknameUndo sampleEnv (writeNicknameBatch sampleEnv registeredLedger.db 2 updates) 2 2
        undoEntries = registeredLedger.db := by
  obtain ⟨updates, haccepted⟩ := exists_of_isOk
    (x := buildNicknameBlockUpdates sampleEnv registeredLedger.db
        (sampleBlock 2 [releaseTx, reregisterTx, claimTx])
        [[{ txout := toSampleKey 2400 }],
          [{ txout := toSampleKey 2399, nHeight := 2, nVersion := 1 }],
          [{ txout := toSampleKey 300 }]]
        [0, 1000000, 101000000, 1000000] 2) (by decide +kernel)
  obtain ⟨undoEntries, -, hback, -⟩ := undo_restores_every_row registeredLedger_reachable
    (by decide +kernel) (by decide +kernel) (by decide +kernel) (by decide +kernel) haccepted
  exact ⟨updates, undoEntries, haccepted, hback⟩

end KubuCore.Nickname
