import KubuCore.AuxPow.Coinbase
import KubuCore.Base.Merkle

/-!
# Merge-mined proof of work

`CAuxPow::check` of `auxpow.cpp`. A proof links the hash of a block to the
coinbase of a parent block, and that coinbase to the header of the parent. Two
proofs with one parent header are proofs of one block (`same_work_same_block`):
the work of the parent counts once.
-/

namespace KubuCore.AuxPow

open Checked
open Merkle
open Nickname
open Script

/-! ## Headers -/

structure CPureBlockHeader where
  nVersion : Int
  hashPrevBlock : Uint256
  hashMerkleRoot : Uint256
  nTime : Nat
  nBits : Nat
  nNonce : Nat
deriving DecidableEq

def CPureBlockHeader.serialize (header : CPureBlockHeader) : Bytes :=
  writeInt32 header.nVersion ++ (writeUint256 header.hashPrevBlock ++
    (writeUint256 header.hashMerkleRoot ++ (writeLE 4 header.nTime ++
      (writeLE 4 header.nBits ++ writeLE 4 header.nNonce))))

/-- The bits of the version above the lowest sixteen. -/
def CPureBlockHeader.getChainId (header : CPureBlockHeader) : Int := header.nVersion / 2 ^ 16

/-- `CAuxPow` with the members of `CMerkleTx`. -/
structure CAuxPow where
  tx : TxRead
  hashBlock : Uint256
  vMerkleBranch : List Uint256
  nIndex : Int
  vChainMerkleBranch : List Uint256
  nChainIndex : Int
  parentBlock : CPureBlockHeader

/-- What the check reads of the consensus parameters. -/
structure Params where
  fStrictChainId : Bool

/-! ## The check -/

section Check

-- The digest that `Hash` and `SerializeHash` compute.
variable (hash : Bytes → Uint256)

def CPureBlockHeader.getHash (header : CPureBlockHeader) : Uint256 := hash header.serialize

def getHash (tx : CTransaction) : Uint256 := hash (serializeTransaction tx)

def nodeHash (left right : Uint256) : Uint256 := hash (writeUint256 left ++ writeUint256 right)

def checkMerkleBranch (leaf : Uint256) (vMerkleBranch : List Uint256) (nIndex : Int) : Uint256 :=
  if nIndex = -1 then 0 else climb (nodeHash hash) leaf vMerkleBranch nIndex

def pchMergedMiningHeader : Bytes := [0xfa, 0xbe, 0x6d, 0x6d]

/-- `std::search`: where the needle is first found. -/
def search (needle : Bytes) : Bytes → Option Nat
  | [] => if needle = [] then some 0 else none
  | b :: rest => if needle <+: b :: rest then some 0 else (search needle rest).map (· + 1)

/-- The slot of a chain in the tree of merge-mined chains, in 32-bit arithmetic. -/
def getExpectedIndex (nNonce : Nat) (nChainId : Int) (h : Nat) : Int :=
  let rand : Int := (nNonce * 1103515245 + 12345) % 2 ^ 32
  let rand := (rand + nChainId) % 2 ^ 32
  let rand := (rand * 1103515245 + 12345) % 2 ^ 32
  rand % 2 ^ h

/-- The root must follow the only marker, or without one stand early in the
script. -/
def checkMarker (script : Bytes) (pc : Nat) : Except String Unit :=
  match search pchMergedMiningHeader script with
  | some pcHead => do
    require (search pchMergedMiningHeader (script.drop (pcHead + 1)) = none)
      "Multiple merged mining headers in coinbase"
    require (pcHead + pchMergedMiningHeader.length = pc)
      "Merged mining header is not just before chain merkle root"
  | none =>
    require (pc ≤ 20)
      "Aux POW chain merkle root must start in the first 20 bytes of the parent coinbase"

/-- The part of `check` that reads the coinbase script. -/
def checkCoinbaseScript (script vchRootHash : Bytes) (merkleHeight : Nat)
    (nChainIndex nChainId : Int) : Except String Unit :=
  match search vchRootHash script with
  | none => .error "Aux POW missing chain merkle root in parent coinbase"
  | some pc => do
    checkMarker script pc
    let rest := script.drop (pc + vchRootHash.length)
    require (8 ≤ rest.length)
      "Aux POW missing chain merkle tree size and nonce in parent coinbase"
    let nSize := readLE (rest.take 4)
    require (nSize = 2 ^ merkleHeight)
      "Aux POW merkle branch size does not match parent coinbase"
    let nNonce := readLE ((rest.drop 4).take 4)
    require (nChainIndex = getExpectedIndex nNonce nChainId merkleHeight) "Aux POW wrong index"

/-- The root of the tree of merge-mined chains that a proof leads to. -/
def CAuxPow.chainMerkleRoot (auxpow : CAuxPow) (hashAuxBlock : Uint256) : Uint256 :=
  checkMerkleBranch hash hashAuxBlock auxpow.vChainMerkleBranch auxpow.nChainIndex

def CAuxPow.check (auxpow : CAuxPow) (hashAuxBlock : Uint256) (nChainId : Int) (params : Params) :
    Except String Unit := do
  require (auxpow.nIndex = 0) "AuxPow is not a generate"
  require (¬ (params.fStrictChainId ∧ auxpow.parentBlock.getChainId = nChainId))
    "Aux POW parent has our chain ID"
  require (auxpow.vChainMerkleBranch.length ≤ 30) "Aux POW chain merkle branch too long"
  let vchRootHash := (writeUint256 (auxpow.chainMerkleRoot hash hashAuxBlock)).reverse
  require (checkMerkleBranch hash (getHash hash auxpow.tx.tx) auxpow.vMerkleBranch auxpow.nIndex =
    auxpow.parentBlock.hashMerkleRoot) "Aux POW merkle root incorrect"
  match auxpow.tx.tx.vin with
  | [] => .error "Aux POW coinbase has no inputs"
  | txin :: _ =>
    checkCoinbaseScript txin.scriptSig vchRootHash auxpow.vChainMerkleBranch.length
      auxpow.nChainIndex nChainId

/-- `SetCompact`: the target, and whether it is negative or overflows. -/
def setCompact (nCompact : Nat) : Nat × Bool × Bool :=
  let nSize := nCompact / 2 ^ 24
  let nWord := nCompact % 2 ^ 23
  let nWord := if nSize ≤ 3 then nWord / 2 ^ (8 * (3 - nSize)) else nWord
  let value := if nSize ≤ 3 then nWord else nWord * 2 ^ (8 * (nSize - 3)) % 2 ^ 256
  let fNegative := nWord ≠ 0 ∧ nCompact / 2 ^ 23 % 2 ≠ 0
  let fOverflow := nWord ≠ 0 ∧
    (34 < nSize ∨ (0xff < nWord ∧ 33 < nSize) ∨ (0xffff < nWord ∧ 32 < nSize))
  (value, fNegative, fOverflow)

end Check

/-! ## What the coinbase script determines -/

theorem search_spec {needle script : Bytes} {i : Nat} (h : search needle script = some i) :
    (script.drop i).take needle.length = needle := by
  induction script generalizing i with
  | nil =>
    rw [search] at h
    split at h
    · rename_i hnil
      simp [hnil]
    · cases h
  | cons b rest ih =>
    rw [search] at h
    split at h
    · rename_i hstart
      cases h
      exact (List.prefix_iff_eq_take.mp hstart).symm
    · obtain ⟨j, hj, rfl⟩ := Option.map_eq_some_iff.mp h
      exact ih hj

/-- After the marker follow the root, the size and the nonce. -/
theorem checkCoinbaseScript_marked {script vchRootHash : Bytes} {merkleHeight pcHead : Nat}
    {nChainIndex nChainId : Int} (marked : search pchMergedMiningHeader script = some pcHead)
    (h : checkCoinbaseScript script vchRootHash merkleHeight nChainIndex nChainId = .ok ()) :
    (script.drop (pcHead + 4)).take vchRootHash.length = vchRootHash ∧
      readLE ((script.drop (pcHead + 4 + vchRootHash.length)).take 4) = 2 ^ merkleHeight ∧
      nChainIndex = getExpectedIndex
        (readLE (((script.drop (pcHead + 4 + vchRootHash.length)).drop 4).take 4)) nChainId
        merkleHeight := by
  rw [checkCoinbaseScript] at h
  split at h
  · cases h
  · rename_i pc hpc
    simp only [checkMarker, marked, eq_ok] at h
    obtain ⟨⟨⟩, ⟨-, -, hpos⟩, -, -, -, hsize, hindex⟩ := h
    subst hpos
    exact ⟨search_spec hpc, hsize, hindex⟩

theorem getExpectedIndex_nonneg (nNonce : Nat) (nChainId : Int) (h : Nat) :
    0 ≤ getExpectedIndex nNonce nChainId h :=
  Int.emod_nonneg _ (by positivity)

/-! ## One parent, one block -/

section SameWork

variable {hash : Bytes → Uint256} {params : Params} {auxpow auxpow' : CAuxPow}

/-- The byte strings that a check hashes: the coinbase and the pairs of both
branches. -/
def CAuxPow.hashed (hash : Bytes → Uint256) (auxpow : CAuxPow) (hashAuxBlock : Uint256) :
    List Bytes :=
  serializeTransaction auxpow.tx.tx ::
    (pairs (nodeHash hash) (getHash hash auxpow.tx.tx) auxpow.vMerkleBranch auxpow.nIndex ++
      pairs (nodeHash hash) hashAuxBlock auxpow.vChainMerkleBranch auxpow.nChainIndex).map
        fun pair => writeUint256 pair.1 ++ writeUint256 pair.2

/-- The digest has no collision on these strings. -/
def NoCollision (hash : Bytes → Uint256) (strings : List Bytes) : Prop :=
  ∀ x ∈ strings, ∀ y ∈ strings, hash x = hash y → x = y

/-- The script of the coinbase. -/
def CAuxPow.script (auxpow : CAuxPow) : Bytes :=
  (auxpow.tx.tx.vin.head?.map CTxIn.scriptSig).getD []

variable {hashAuxBlock hashAuxBlock' : Uint256} {nChainId : Int}

theorem check_spec (h : auxpow.check hash hashAuxBlock nChainId params = .ok ()) :
    auxpow.nIndex = 0 ∧
      climb (nodeHash hash) (getHash hash auxpow.tx.tx) auxpow.vMerkleBranch 0 =
        auxpow.parentBlock.hashMerkleRoot ∧
      auxpow.vChainMerkleBranch.length ≤ 30 ∧
      checkCoinbaseScript auxpow.script
        (writeUint256 (auxpow.chainMerkleRoot hash hashAuxBlock)).reverse
        auxpow.vChainMerkleBranch.length auxpow.nChainIndex nChainId = .ok () := by
  simp only [CAuxPow.check, eq_ok] at h
  obtain ⟨-, hindex, -, -, -, hlength, -, hroot, h⟩ := h
  rw [hindex] at hroot
  split at h
  · cases h
  · rename_i txin _ hvin
    refine ⟨hindex, hroot, hlength, ?_⟩
    rw [CAuxPow.script, hvin]
    exact h

theorem nodeHash_inj {strings : List Bytes} (noCollision : NoCollision hash strings)
    (p q : Uint256 × Uint256) (hp : writeUint256 p.1 ++ writeUint256 p.2 ∈ strings)
    (hq : writeUint256 q.1 ++ writeUint256 q.2 ∈ strings)
    (h : nodeHash hash p.1 p.2 = nodeHash hash q.1 q.2) : p = q := by
  have hsame := noCollision _ hp _ hq h
  obtain ⟨hfirst, hrest⟩ := writeUint256_cancel hsame
  exact Prod.ext hfirst (writeUint256_cancel hrest).1

theorem writeUint256_length (h : Uint256) : (writeUint256 h).length = 32 := writeLE_length 32 _

/-- The coinbases of two proofs with one Merkle root are the same, if none of
them can pass for a pair of digests. -/
theorem coinbase_unique (noCollision : NoCollision hash
      (auxpow.hashed hash hashAuxBlock ++ auxpow'.hashed hash hashAuxBlock'))
    (index : auxpow.nIndex = 0) (index' : auxpow'.nIndex = 0)
    (size : (serializeTransaction auxpow.tx.tx).length ≠ 64)
    (size' : (serializeTransaction auxpow'.tx.tx).length ≠ 64)
    (same : climb (nodeHash hash) (getHash hash auxpow.tx.tx) auxpow.vMerkleBranch 0 =
      climb (nodeHash hash) (getHash hash auxpow'.tx.tx) auxpow'.vMerkleBranch 0) :
    serializeTransaction auxpow.tx.tx = serializeTransaction auxpow'.tx.tx := by
  have coinbase : serializeTransaction auxpow.tx.tx ∈
      auxpow.hashed hash hashAuxBlock ++ auxpow'.hashed hash hashAuxBlock' :=
    List.mem_append_left _ List.mem_cons_self
  have coinbase' : serializeTransaction auxpow'.tx.tx ∈
      auxpow.hashed hash hashAuxBlock ++ auxpow'.hashed hash hashAuxBlock' :=
    List.mem_append_right _ List.mem_cons_self
  have used : ∀ p ∈ pairs (nodeHash hash) (getHash hash auxpow.tx.tx) auxpow.vMerkleBranch 0,
      writeUint256 p.1 ++ writeUint256 p.2 ∈
        auxpow.hashed hash hashAuxBlock ++ auxpow'.hashed hash hashAuxBlock' := by
    intro p hp
    refine List.mem_append_left _ (List.mem_cons_of_mem _ (List.mem_map.mpr ⟨p, ?_, rfl⟩))
    rw [index]
    exact List.mem_append_left _ hp
  have used' : ∀ p ∈ pairs (nodeHash hash) (getHash hash auxpow'.tx.tx) auxpow'.vMerkleBranch 0,
      writeUint256 p.1 ++ writeUint256 p.2 ∈
        auxpow.hashed hash hashAuxBlock ++ auxpow'.hashed hash hashAuxBlock' := by
    intro p hp
    refine List.mem_append_right _ (List.mem_cons_of_mem _ (List.mem_map.mpr ⟨p, ?_, rfl⟩))
    rw [index']
    exact List.mem_append_left _ hp
  have pairLength : ∀ p : Uint256 × Uint256, (writeUint256 p.1 ++ writeUint256 p.2).length = 64 := by
    intro p
    rw [List.length_append, writeUint256_length, writeUint256_length]
  rcases climb_zero_inj (nodeHash_inj noCollision) used used' same with
    heq | ⟨p, hp, heq⟩ | ⟨p, hp, heq⟩
  · exact noCollision _ coinbase _ coinbase' heq
  · refine absurd ?_ size
    rw [noCollision _ coinbase _ (used' p hp) heq, pairLength]
  · refine absurd ?_ size'
    rw [noCollision _ coinbase' _ (used p hp) heq, pairLength]

theorem script_strip (auxpow : CAuxPow) :
    auxpow.script = ((strip auxpow.tx.tx).vin.head?.map CTxIn.scriptSig).getD [] := by
  rw [CAuxPow.script, strip]
  cases auxpow.tx.tx.vin with
  | nil => rfl
  | cons => rfl

theorem getExpectedIndex_ne (nNonce : Nat) (nChainId : Int) (h : Nat) :
    getExpectedIndex nNonce nChainId h ≠ -1 := by
  have := getExpectedIndex_nonneg nNonce nChainId h
  omega

/-- A marked script has room for one root, one height and one index. -/
theorem place_unique {script : Bytes} {root root' : Uint256} {height height' : Nat}
    {index index' : Int}
    (marked : (search pchMergedMiningHeader script).isSome = true)
    (h : checkCoinbaseScript script (writeUint256 root).reverse height index nChainId = .ok ())
    (h' : checkCoinbaseScript script (writeUint256 root').reverse height' index' nChainId = .ok ()) :
    root = root' ∧ height = height' ∧ index = index' ∧ index ≠ -1 := by
  obtain ⟨pcHead, hhead⟩ := Option.isSome_iff_exists.mp marked
  obtain ⟨hroot, hsize, hindex⟩ := checkCoinbaseScript_marked hhead h
  obtain ⟨hroot', hsize', hindex'⟩ := checkCoinbaseScript_marked hhead h'
  rw [List.length_reverse, writeUint256_length] at hroot hsize hindex hroot' hsize' hindex'
  have bytes := List.reverse_injective (hroot.symm.trans hroot')
  have heights : height = height' :=
    Nat.pow_right_injective (le_refl 2) (hsize.symm.trans hsize')
  refine ⟨(writeUint256_cancel bytes).1, heights, ?_, ?_⟩
  · rw [hindex, hindex', heights]
  · rw [hindex]
    exact getExpectedIndex_ne _ _ _

/-- What two proofs with one parent header and a marked coinbase agree on. -/
theorem check_determines (noCollision : NoCollision hash
      (auxpow.hashed hash hashAuxBlock ++ auxpow'.hashed hash hashAuxBlock'))
    (size : (serializeTransaction auxpow.tx.tx).length ≠ 64)
    (size' : (serializeTransaction auxpow'.tx.tx).length ≠ 64)
    (sameParent : auxpow.parentBlock = auxpow'.parentBlock)
    (marked : (search pchMergedMiningHeader auxpow.script).isSome = true)
    (checked : auxpow.check hash hashAuxBlock nChainId params = .ok ())
    (checked' : auxpow'.check hash hashAuxBlock' nChainId params = .ok ()) :
    strip auxpow.tx.tx = strip auxpow'.tx.tx ∧
      auxpow.chainMerkleRoot hash hashAuxBlock = auxpow'.chainMerkleRoot hash hashAuxBlock' ∧
      auxpow.vChainMerkleBranch.length = auxpow'.vChainMerkleBranch.length ∧
      auxpow.nChainIndex = auxpow'.nChainIndex ∧ hashAuxBlock = hashAuxBlock' := by
  obtain ⟨index, root, -, script⟩ := check_spec checked
  obtain ⟨index', root', -, script'⟩ := check_spec checked'
  have coinbase := serializeTransaction_inj (coinbase_unique noCollision index index' size size'
    (by rw [root, root', sameParent]))
  rw [script_strip auxpow', ← coinbase, ← script_strip auxpow] at script'
  obtain ⟨sameRoot, sameHeight, sameIndex, hne⟩ := place_unique marked script script'
  refine ⟨coinbase, sameRoot, sameHeight, sameIndex, ?_⟩
  rw [CAuxPow.chainMerkleRoot, CAuxPow.chainMerkleRoot, ← sameIndex, checkMerkleBranch,
    checkMerkleBranch, if_neg hne, if_neg hne] at sameRoot
  -- Both branches now start at the same slot and end in the same root.
  refine (climb_inj (nodeHash_inj noCollision) sameHeight ?_ ?_ sameRoot).1
  · intro p hp
    exact List.mem_append_left _ (List.mem_cons_of_mem _
      (List.mem_map.mpr ⟨p, List.mem_append_right _ hp, rfl⟩))
  · intro p hp
    rw [sameIndex] at hp
    exact List.mem_append_right _ (List.mem_cons_of_mem _
      (List.mem_map.mpr ⟨p, List.mem_append_right _ hp, rfl⟩))

/-- Two headers of one chain id whose proofs pass the check with one parent
header, where the coinbase has the marker, have the same hash: the proofs have
the same coinbase up to its witness, the same root of the tree of chains, and
the same place in it. -/
theorem same_work_same_block {block block' : CPureBlockHeader} (noCollision : NoCollision hash
      (auxpow.hashed hash (block.getHash hash) ++ auxpow'.hashed hash (block'.getHash hash)))
    (size : (serializeTransaction auxpow.tx.tx).length ≠ 64)
    (size' : (serializeTransaction auxpow'.tx.tx).length ≠ 64)
    (sameChain : block.getChainId = block'.getChainId)
    (sameParent : auxpow.parentBlock = auxpow'.parentBlock)
    (marked : (search pchMergedMiningHeader auxpow.script).isSome = true)
    (checked : auxpow.check hash (block.getHash hash) block.getChainId params = .ok ())
    (checked' : auxpow'.check hash (block'.getHash hash) block'.getChainId params = .ok ()) :
    strip auxpow.tx.tx = strip auxpow'.tx.tx ∧
      auxpow.chainMerkleRoot hash (block.getHash hash) =
        auxpow'.chainMerkleRoot hash (block'.getHash hash) ∧
      auxpow.vChainMerkleBranch.length = auxpow'.vChainMerkleBranch.length ∧
      auxpow.nChainIndex = auxpow'.nChainIndex ∧
      block.getHash hash = block'.getHash hash := by
  rw [← sameChain] at checked'
  exact check_determines noCollision size size' sameParent marked checked checked'

/-! A header of this chain and a proof for it in the second of two slots. -/

def sampleHeader : CPureBlockHeader where
  nVersion := 63 * 2 ^ 16 + 2 ^ 8 + 4
  hashPrevBlock := 0
  hashMerkleRoot := 0
  nTime := 1700000000
  nBits := 0x1e0fffff
  nNonce := 0

def sampleScript : Bytes :=
  pchMergedMiningHeader ++
    ((writeUint256 0xead86192f5e1ca8fa86011ad734b6dced448ab92be2f326b99414ef05b81e701).reverse ++
      (writeLE 4 2 ++ writeLE 4 6))

theorem sampleScript_length : sampleScript.length ≤ maxSize := by decide +kernel

def sampleParentTx (witness : List Bytes) : CTransaction where
  nVersion := 1
  vin := [⟨⟨0, 0xffffffff⟩, sampleScript, 0xffffffff, witness⟩]
  vout := [⟨100000000, [0x51]⟩]
  nLockTime := 0

def sampleAuxPow (witness : List Bytes) (hashBlock : Uint256) : CAuxPow where
  tx :=
    { tx := sampleParentTx witness
      version := by simp [sampleParentTx]
      inputs := by simp [sampleParentTx, maxSize]
      eachIn := by
        intro txin h
        obtain rfl := List.mem_singleton.mp h
        exact ⟨by simp, sampleScript_length, by simp⟩
      eachOut := by
        intro txout h
        obtain rfl := List.mem_singleton.mp h
        exact ⟨by decide, by decide⟩
      lockTime := by simp [sampleParentTx] }
  hashBlock
  vMerkleBranch := [2]
  nIndex := 0
  vChainMerkleBranch := [1]
  nChainIndex := 1
  parentBlock :=
    { nVersion := 1
      hashPrevBlock := 0
      hashMerkleRoot := 0x9bf458732c7748d6ef2d9a50391a4af98300988d541fbce11f89178aef5bb6c6
      nTime := 1700000000
      nBits := 0x1e0fffff
      nNonce := 0 }

/-- The double SHA-256 of the strings at hand. -/
def sampleDigest (bytes : Bytes) : Uint256 :=
  if bytes = sampleHeader.serialize then
    0x49c48146c6c4c87702796f802e5f07762ef20da96ec457569177b21add6a4c84
  else if bytes = writeUint256 1 ++
      writeUint256 0x49c48146c6c4c87702796f802e5f07762ef20da96ec457569177b21add6a4c84 then
    0xead86192f5e1ca8fa86011ad734b6dced448ab92be2f326b99414ef05b81e701
  else if bytes = serializeTransaction (sampleParentTx []) then
    0x6a4133c0b5b142506508aaac9da8d698d67afe3b1d912413f040fe9b96904324
  else if bytes = writeUint256 0x6a4133c0b5b142506508aaac9da8d698d67afe3b1d912413f040fe9b96904324 ++
      writeUint256 2 then
    0x9bf458732c7748d6ef2d9a50391a4af98300988d541fbce11f89178aef5bb6c6
  else 0

def sampleParams : Params where
  fStrictChainId := true

/-- Two proofs for a header that differ in the witness of the coinbase. -/
theorem same_work_same_block_sample :
    sampleAuxPow [] 0 ≠ sampleAuxPow [[0]] 1 ∧
      strip (sampleAuxPow [] 0).tx.tx = strip (sampleAuxPow [[0]] 1).tx.tx ∧
      sampleHeader.getHash sampleDigest = sampleHeader.getHash sampleDigest := by
  have noCollision : NoCollision sampleDigest
      ((sampleAuxPow [] 0).hashed sampleDigest (sampleHeader.getHash sampleDigest) ++
        (sampleAuxPow [[0]] 1).hashed sampleDigest (sampleHeader.getHash sampleDigest)) := by
    unfold NoCollision
    decide +kernel
  have checked : (sampleAuxPow [] 0).check sampleDigest (sampleHeader.getHash sampleDigest)
      sampleHeader.getChainId sampleParams = .ok () := by decide +kernel
  have checked' : (sampleAuxPow [[0]] 1).check sampleDigest (sampleHeader.getHash sampleDigest)
      sampleHeader.getChainId sampleParams = .ok () := by decide +kernel
  obtain ⟨coinbase, -, -, -, same⟩ := same_work_same_block noCollision (by decide +kernel)
    (by decide +kernel) rfl rfl (by decide +kernel) checked checked'
  refine ⟨?_, coinbase, same⟩
  intro h
  exact absurd (congrArg CAuxPow.hashBlock h) (by decide)

end SameWork

end KubuCore.AuxPow
