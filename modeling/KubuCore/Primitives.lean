import Mathlib

/-!
# Transactions and their environment

The data types of `primitives/transaction.h`, `amount.h` and `pubkey.h`.
Hashing, curve arithmetic, address formatting and the two command-line block
counts are not computed here: they are the functions and values of an `Env`,
and every result quantifies over it.
-/

namespace KubuCore

abbrev Bytes := List UInt8

abbrev Uint256 := BitVec 256

instance : Std.TransOrd Uint256 := inferInstance

instance : LawfulBEq Uint256 := inferInstance

/-- A `uint160`, as the byte string it serializes to. -/
abbrev Uint160 := {b : Bytes // b.length = 20}

theorem length_zeros : (List.replicate 20 (0 : UInt8)).length = 20 := by decide

abbrev CAmount := Int

abbrev CScript := Bytes

def coin : CAmount := 100000000

def maxMoney : CAmount := 800000000 * coin

def moneyRange (nValue : CAmount) : Bool := 0 ≤ nValue && nValue ≤ maxMoney

/-- The value of `(uint32_t)-1`, which marks an absent output index. -/
def maxUint32 : Nat := 4294967295

/-- `MAX_SIZE` of serialize.h: no vector read from the network is longer. -/
def maxSize : Nat := 0x02000000

theorem two_le_maxSize : 2 ≤ maxSize := by decide

structure COutPoint where
  hash : Uint256
  n : Nat
deriving DecidableEq, Repr

def COutPoint.null : COutPoint := ⟨0, maxUint32⟩

def COutPoint.isNull (o : COutPoint) : Bool := o.hash == 0 && o.n == maxUint32

instance : Ord COutPoint := ⟨compareLex (compareOn COutPoint.hash) (compareOn COutPoint.n)⟩

instance : Std.TransOrd COutPoint :=
  inferInstanceAs (Std.TransCmp (compareLex (compareOn COutPoint.hash) (compareOn COutPoint.n)))

instance : Std.LawfulEqOrd COutPoint where
  eq_of_compare {a b} h := by
    change (compare a.hash b.hash).then (compare a.n b.n) = .eq at h
    rw [Ordering.then_eq_eq] at h
    cases a
    cases b
    simp_all

structure CTxIn where
  prevout : COutPoint
  scriptSig : CScript
  nSequence : Nat
  scriptWitness : List Bytes
deriving DecidableEq, Repr

structure CTxOut where
  nValue : CAmount
  scriptPubKey : CScript
deriving DecidableEq, Repr

/-- The null output: `SetNull` gives value −1 and an empty script. -/
def CTxOut.null : CTxOut := ⟨-1, []⟩

def CTxOut.isNull (o : CTxOut) : Bool := o.nValue == -1

structure CTransaction where
  nVersion : Int
  vin : List CTxIn
  vout : List CTxOut
  nLockTime : Nat
  voutSize : vout.length ≤ maxSize := by decide
deriving DecidableEq

def CTransaction.isCoinBase (tx : CTransaction) : Bool :=
  match tx.vin with
  | [txin] => txin.prevout.isNull
  | _ => false

def CTransaction.getValueOut (tx : CTransaction) : CAmount :=
  (tx.vout.map CTxOut.nValue).sum

/-- A block with the hash of its header. -/
structure CBlock where
  hash : Uint256
  vtx : List CTransaction
deriving DecidableEq

/-- A payout destination: a key hash or a script hash. -/
inductive CTxDestination where
  | keyID (hash : Uint160)
  | scriptID (hash : Uint160)
deriving DecidableEq

inductive SigVersion where
  | base
  | witnessV0
deriving DecidableEq, Repr

/-- The consensus parameters that connecting a block reads, with the values of the main network. -/
structure Consensus where
  nSubsidyHalvingInterval : Int := 1168000
  bip65Height : Int := 1000
  bip66Height : Int := 1000
  /-- `nCoinbaseMaturity` of the set that holds at a height. -/
  nCoinbaseMaturity : Int → Int := fun nHeight => if nHeight < 1000 then 30 else 240

/-- What the modelled code takes from outside: digests, the curve library, the
address encoding, the two settings read by `GetArg` and the network's parameters. -/
structure Env where
  hash160 : Bytes → Uint160
  sha256 : Bytes → Bytes
  ripemd160 : Bytes → Bytes
  sha1 : Bytes → Bytes
  hash256 : Bytes → Bytes
  txHash : CTransaction → Uint256
  /-- `SignatureHash` of a script, transaction, input, hash type and amount. -/
  signatureHash : CScript → CTransaction → Nat → UInt8 → CAmount → SigVersion → Uint256
  ecPubkeyParse : Bytes → Bool
  /-- `CPubKey::Verify` of a key that parses, without the hash-type byte. -/
  ecdsaVerify : (pubKey vchSig : Bytes) → Uint256 → Bool
  checkLowS : Bytes → Bool
  addressToString : CTxDestination → String
  activeBlocks : Int
  graceBlocks : Int
  consensus : Consensus := {}

/-- Every digest is zero and no key is known. -/
def blankEnv : Env where
  hash160 _ := ⟨List.replicate 20 0, length_zeros⟩
  sha256 _ := []
  ripemd160 _ := []
  sha1 _ := []
  hash256 _ := []
  txHash _ := 0
  signatureHash _ _ _ _ _ _ := 0
  ecPubkeyParse _ := false
  ecdsaVerify _ _ _ := false
  checkLowS _ := false
  addressToString _ := ""
  activeBlocks := 0
  graceBlocks := 0

/-! ## Public keys -/

def compressedSize : Nat := 33

/-- `CPubKey::GetLen`: the length announced by the first byte. -/
def getLen (chHeader : UInt8) : Nat :=
  if chHeader = 2 ∨ chHeader = 3 then compressedSize
  else if chHeader = 4 ∨ chHeader = 6 ∨ chHeader = 7 then 65
  else 0

/-- A public key is the byte range from `begin()` to `end()`; an invalidated
key has an empty range. -/
abbrev CPubKey := Bytes

def CPubKey.set (vch : Bytes) : CPubKey :=
  match vch with
  | [] => []
  | b :: _ => if getLen b = vch.length then vch else []

def CPubKey.isValid (pubKey : CPubKey) : Bool := 0 < pubKey.length

def CPubKey.isFullyValid (env : Env) (pubKey : CPubKey) : Bool :=
  CPubKey.isValid pubKey && env.ecPubkeyParse pubKey

def CPubKey.isCompressed (pubKey : CPubKey) : Bool := pubKey.length == compressedSize

def CPubKey.getID (env : Env) (pubKey : CPubKey) : Uint160 := env.hash160 pubKey

/-- A key that survives `Set` is the bytes it was set from. -/
theorem CPubKey.set_eq_of_isCompressed {vch : Bytes}
    (h : CPubKey.isCompressed (CPubKey.set vch) = true) : CPubKey.set vch = vch := by
  cases vch with
  | nil => rfl
  | cons b vch =>
    simp only [CPubKey.set] at h ⊢
    split at h
    · rename_i hl
      simp [hl]
    · simp [isCompressed, compressedSize] at h

end KubuCore
