import KubuCore.Nickname.Serialization

/-!
# The serialized coinbase

`SerializeTransaction` without witness data, which the id of a transaction is
the digest of. What was read from a stream is determined by it, up to the
witnesses (`serializeTransaction_inj`).
-/

namespace KubuCore.AuxPow

open Nickname
open Script

/-! ## The format -/

def writeInt32 (n : Int) : Bytes := writeLE 4 (n % 2 ^ 32).toNat

def serializeTxIn (txin : CTxIn) : Bytes :=
  writeUint256 txin.prevout.hash ++ (writeLE 4 txin.prevout.n ++
    (writeVector txin.scriptSig ++ writeLE 4 txin.nSequence))

def serializeTxOut (txout : CTxOut) : Bytes :=
  writeAmount txout.nValue ++ writeVector txout.scriptPubKey

/-- A vector of objects with their number in front. -/
def writeList {α : Type} (write : α → Bytes) (items : List α) : Bytes :=
  writeCompactSize items.length ++ items.flatMap write

def serializeTransaction (tx : CTransaction) : Bytes :=
  writeInt32 tx.nVersion ++ (writeList serializeTxIn tx.vin ++
    (writeList serializeTxOut tx.vout ++ writeLE 4 tx.nLockTime))

/-- The fields of an input fit their types. -/
structure TxInFits (txin : CTxIn) : Prop where
  n : txin.prevout.n < 256 ^ 4
  script : txin.scriptSig.length ≤ maxSize
  nSequence : txin.nSequence < 256 ^ 4

structure TxOutFits (txout : CTxOut) : Prop where
  value : -2 ^ 63 ≤ txout.nValue ∧ txout.nValue < 2 ^ 63
  script : txout.scriptPubKey.length ≤ maxSize

/-- A transaction as it is read from a stream: every field fits its type and no
vector is longer than `MAX_SIZE`. -/
structure TxRead where
  tx : CTransaction
  version : -2 ^ 31 ≤ tx.nVersion ∧ tx.nVersion < 2 ^ 31
  inputs : tx.vin.length ≤ maxSize
  eachIn : ∀ txin ∈ tx.vin, TxInFits txin
  eachOut : ∀ txout ∈ tx.vout, TxOutFits txout
  lockTime : tx.nLockTime < 256 ^ 4

/-- An input without its witness. -/
def stripIn (txin : CTxIn) : CTxIn := { txin with scriptWitness := [] }

/-- A transaction without its witnesses. -/
def strip (tx : CTransaction) : CTransaction := { tx with vin := tx.vin.map stripIn }

/-! ## Reading back -/

variable {r s : Bytes} {m n : Int}

theorem writeLE_cancel {k m n : Nat} (hm : m < 256 ^ k) (hn : n < 256 ^ k)
    (h : writeLE k m ++ r = writeLE k n ++ s) : m = n ∧ r = s := by
  have hread := congrArg (readFixed k) h
  rw [readFixed_iff.mpr ⟨rfl, hm⟩, readFixed_iff.mpr ⟨rfl, hn⟩] at hread
  exact Prod.mk.inj (Option.some.inj hread)

theorem writeInt32_cancel (hm : -2 ^ 31 ≤ m ∧ m < 2 ^ 31) (hn : -2 ^ 31 ≤ n ∧ n < 2 ^ 31)
    (h : writeInt32 m ++ r = writeInt32 n ++ s) : m = n ∧ r = s := by
  obtain ⟨heq, htail⟩ := writeLE_cancel (by omega) (by omega) h
  exact ⟨by omega, htail⟩

theorem writeAmount_cancel (hm : -2 ^ 63 ≤ m ∧ m < 2 ^ 63) (hn : -2 ^ 63 ≤ n ∧ n < 2 ^ 63)
    (h : writeAmount m ++ r = writeAmount n ++ s) : m = n ∧ r = s := by
  obtain ⟨heq, htail⟩ := writeLE_cancel (by omega) (by omega) h
  exact ⟨by omega, htail⟩

theorem writeUint256_cancel {m n : Uint256} (h : writeUint256 m ++ r = writeUint256 n ++ s) :
    m = n ∧ r = s := by
  have hread := congrArg readUint256 h
  rw [readUint256_writeUint256, readUint256_writeUint256] at hread
  exact Prod.mk.inj (Option.some.inj hread)

theorem writeVector_cancel {a b : Bytes} (ha : a.length ≤ maxSize) (hb : b.length ≤ maxSize)
    (h : writeVector a ++ r = writeVector b ++ s) : a = b ∧ r = s := by
  have hread := congrArg readVector h
  rw [readVector_writeVector r ha, readVector_writeVector s hb] at hread
  exact Prod.mk.inj (Option.some.inj hread)

/-- Objects that can be told apart with anything after them make a vector that
can. -/
theorem writeList_cancel {α β : Type} {write : α → Bytes} {view : α → β} {fits : α → Prop}
    (cancel : ∀ a b r s, fits a → fits b → write a ++ r = write b ++ s → view a = view b ∧ r = s)
    {xs ys : List α} (hx : xs.length ≤ maxSize) (hy : ys.length ≤ maxSize) (fx : ∀ a ∈ xs, fits a)
    (fy : ∀ a ∈ ys, fits a) (h : writeList write xs ++ r = writeList write ys ++ s) :
    xs.map view = ys.map view ∧ r = s := by
  rw [writeList, writeList, List.append_assoc, List.append_assoc] at h
  have hread := congrArg readCompactSize h
  rw [readCompactSize_writeCompactSize _ hx, readCompactSize_writeCompactSize _ hy] at hread
  obtain ⟨hlength, hitems⟩ := Prod.mk.inj (Option.some.inj hread)
  clear h hread hx hy
  induction xs generalizing ys with
  | nil =>
    cases ys with
    | nil => exact ⟨rfl, hitems⟩
    | cons => cases hlength
  | cons x xs ih =>
    cases ys with
    | nil => cases hlength
    | cons y ys =>
      rw [List.flatMap_cons, List.flatMap_cons, List.append_assoc, List.append_assoc] at hitems
      obtain ⟨hhead, htail⟩ :=
        cancel x y _ _ (fx x List.mem_cons_self) (fy y List.mem_cons_self) hitems
      obtain ⟨hrest, hend⟩ := ih (fun a ha => fx a (List.mem_cons_of_mem _ ha))
        (fun a ha => fy a (List.mem_cons_of_mem _ ha)) (Nat.succ.inj hlength) htail
      exact ⟨by rw [List.map_cons, List.map_cons, hhead, hrest], hend⟩

theorem serializeTxIn_cancel (a b : CTxIn) (r s : Bytes) (ha : TxInFits a) (hb : TxInFits b)
    (h : serializeTxIn a ++ r = serializeTxIn b ++ s) : stripIn a = stripIn b ∧ r = s := by
  simp only [serializeTxIn, List.append_assoc] at h
  obtain ⟨hhash, h⟩ := writeUint256_cancel h
  obtain ⟨hn, h⟩ := writeLE_cancel ha.n hb.n h
  obtain ⟨hscript, h⟩ := writeVector_cancel ha.script hb.script h
  obtain ⟨hsequence, h⟩ := writeLE_cancel ha.nSequence hb.nSequence h
  refine ⟨?_, h⟩
  obtain ⟨⟨_, _⟩, _, _, _⟩ := a
  simp only [stripIn] at *
  rw [hhash, hn, hscript, hsequence]

theorem serializeTxOut_cancel (a b : CTxOut) (r s : Bytes) (ha : TxOutFits a) (hb : TxOutFits b)
    (h : serializeTxOut a ++ r = serializeTxOut b ++ s) : a = b ∧ r = s := by
  obtain ⟨hvalue, h⟩ := writeAmount_cancel ha.value hb.value h
  obtain ⟨hscript, h⟩ := writeVector_cancel ha.script hb.script h
  refine ⟨?_, h⟩
  obtain ⟨_, _⟩ := a
  simp only at *
  rw [hvalue, hscript]

/-- Transactions with one serialization are the same up to their witnesses. -/
theorem serializeTransaction_inj {a b : TxRead}
    (h : serializeTransaction a.tx = serializeTransaction b.tx) : strip a.tx = strip b.tx := by
  obtain ⟨hversion, h⟩ := writeInt32_cancel a.version b.version h
  obtain ⟨hvin, h⟩ := writeList_cancel serializeTxIn_cancel a.inputs b.inputs a.eachIn b.eachIn h
  obtain ⟨hvout, h⟩ := writeList_cancel serializeTxOut_cancel a.tx.voutSize b.tx.voutSize
    a.eachOut b.eachOut h
  rw [List.map_id', List.map_id'] at hvout
  obtain ⟨hlock, -⟩ := writeLE_cancel a.lockTime b.lockTime h
  obtain ⟨⟨_, _, _, _, _⟩, _, _, _, _, _⟩ := b
  simp only [strip, hversion, hvin, hvout, hlock]

end KubuCore.AuxPow
