import KubuCore.AuxPow.Coinbase
import KubuCore.Script.CuckooCache
import KubuCore.Script.SoftForks


/-!
# The signature cache

`CachingTransactionSignatureChecker::VerifySignature` of script/sigcache.cpp,
over a cuckoo cache of digests.
-/

namespace KubuCore.Script

open AuxPow
open CuckooCache
open Nickname

/-- `SignatureCacheHasher`: a word of the digest. -/
def signatureCacheHasher (select : Fin 8) (key : Uint256) : UInt32 :=
  UInt32.ofNat (key.toNat >>> (32 * select.val))

/-- A call of `VerifySignature`, with a key that is `IsValid`. -/
structure SignatureCheck where
  store : Bool
  vchSig : Bytes
  pubkey : CPubKey
  sighash : Uint256
  valid : CPubKey.set pubkey = pubkey ∧ CPubKey.isValid pubkey = true

namespace SignatureCheck

variable (env : Env) (nonce : Uint256)

/-- What `ComputeEntry` hashes. -/
def message (check : SignatureCheck) : Bytes :=
  writeUint256 nonce ++ (writeUint256 check.sighash ++ (check.pubkey ++ check.vchSig))

def computeEntry (check : SignatureCheck) : Uint256 :=
  BitVec.ofNat 256 (readLE (env.sha256 (check.message nonce)))

/-- `TransactionSignatureChecker::VerifySignature`, which is `CPubKey::Verify`. -/
def uncached (check : SignatureCheck) : Bool :=
  env.ecPubkeyParse check.pubkey && check.vchSig != [] &&
    env.ecdsaVerify check.pubkey check.vchSig check.sighash

variable {d : Nat}

def verifySignature (setValid : Cache Uint256 d) (check : SignatureCheck) :
    Bool × Cache Uint256 d :=
  let entry := check.computeEntry env nonce
  let (found, setValid) := setValid.contains entry (!check.store)
  if found then (true, setValid)
  else if !check.uncached env then (false, setValid)
  else (true, if check.store then setValid.insert entry else setValid)

def verifyAll (setValid : Cache Uint256 d) : List SignatureCheck → List Bool
  | [] => []
  | check :: checks =>
    let (result, setValid) := check.verifySignature env nonce setValid
    result :: verifyAll setValid checks

theorem pubkey_eq (check : SignatureCheck) :
    ∃ byte rest, check.pubkey = byte :: rest ∧ (byte :: rest).length = getLen byte := by
  obtain ⟨hset, hvalid⟩ := check.valid
  cases hkey : check.pubkey with
  | nil => simp [hkey, CPubKey.isValid] at hvalid
  | cons byte rest =>
    by_cases hlen : getLen byte = (byte :: rest).length
    · exact ⟨byte, rest, rfl, hlen.symm⟩
    · rw [hkey, CPubKey.set, if_neg hlen] at hset
      cases hset

variable {env nonce}

/-- The first byte of a key gives its length, so that a message has one reading. -/
theorem message_inj {a b : SignatureCheck} (h : a.message nonce = b.message nonce) :
    a.sighash = b.sighash ∧ a.pubkey = b.pubkey ∧ a.vchSig = b.vchSig := by
  obtain ⟨-, hrest⟩ := writeUint256_cancel h
  obtain ⟨hhash, hkeys⟩ := writeUint256_cancel hrest
  obtain ⟨byte, rest, hkey, hlen⟩ := a.pubkey_eq
  obtain ⟨byte', rest', hkey', hlen'⟩ := b.pubkey_eq
  rw [hkey, hkey'] at hkeys ⊢
  have hbyte : byte = byte' := (List.cons.inj hkeys).1
  exact ⟨hhash, List.append_inj hkeys (by rw [hlen, hlen', hbyte])⟩

variable (env nonce) in
/-- The cache holds entries of signatures that verify. -/
structure Verified (checks : List SignatureCheck) (setValid : Cache Uint256 d) : Prop where
  sound : setValid.Sound
  verified : ∀ x, x ≠ 0 → setValid.Stored x →
    ∃ check ∈ checks, check.uncached env = true ∧ check.computeEntry env nonce = x

section

variable {checks : List SignatureCheck} {setValid : Cache Uint256 d}
  (injective : ∀ a ∈ checks, ∀ b ∈ checks, a.computeEntry env nonce = b.computeEntry env nonce →
    a.message nonce = b.message nonce)
  (nonzero : ∀ check ∈ checks, check.computeEntry env nonce ≠ 0)
  (h : Verified env nonce checks setValid)
include injective nonzero h

theorem verifySignature_step {check : SignatureCheck} (hmem : check ∈ checks) :
    (check.verifySignature env nonce setValid).1 = check.uncached env ∧
      Verified env nonce checks (check.verifySignature env nonce setValid).2 := by
  have hne := nonzero check hmem
  have hkeep : Verified env nonce checks
      (setValid.contains (check.computeEntry env nonce) (!check.store)).2 :=
    ⟨h.sound.contains _, by simpa only [Cache.Stored, Cache.contains_table] using h.verified⟩
  unfold verifySignature
  dsimp only
  split_ifs with hfound hfail hstore
  · have hstored := (Cache.contains_iff h.sound hne _).mp hfound
    obtain ⟨check', hmem', hok, hentry⟩ := h.verified _ hne hstored
    obtain ⟨hhash, hkey, hsig⟩ := message_inj (injective check' hmem' check hmem hentry)
    refine ⟨?_, hkeep⟩
    rw [← hok, uncached, uncached, hhash, hkey, hsig]
  · rw [Bool.not_eq_true'] at hfail
    exact ⟨hfail.symm, hkeep⟩
  · rw [Bool.not_eq_true', Bool.not_eq_false] at hfail
    obtain ⟨sound, lost, hlost⟩ := hkeep.sound.insert hne
    refine ⟨hfail.symm, sound, fun x hx hstored => ?_⟩
    obtain ⟨hold | rfl, -⟩ := (hlost.stored x hx).mp hstored
    · rw [Cache.Stored, Cache.epochCheck_table] at hold
      exact hkeep.verified x hx hold
    · exact ⟨check, hmem, hfail, rfl⟩
  · rw [Bool.not_eq_true', Bool.not_eq_false] at hfail
    exact ⟨hfail.symm, hkeep⟩

theorem verifyAll_eq (rest : List SignatureCheck) (hrest : ∀ check ∈ rest, check ∈ checks) :
    verifyAll env nonce setValid rest = rest.map (uncached env) := by
  induction rest generalizing setValid with
  | nil => rfl
  | cons check rest ih =>
    obtain ⟨hmem, hrest⟩ := List.forall_mem_cons.mp hrest
    obtain ⟨hresult, hnext⟩ := verifySignature_step injective nonzero h hmem
    rw [verifyAll, List.map_cons, ← hresult, ← ih hnext hrest]

end

/-- The cache is transparent, as long as no two messages share a digest and none
has the digest zero. -/
theorem verifyAll_transparent (env : Env) (nonce : Uint256) (log2 : Nat → Nat) (newSize : Nat)
    (checks : List SignatureCheck)
    (injective : ∀ a ∈ checks, ∀ b ∈ checks, a.computeEntry env nonce = b.computeEntry env nonce →
      a.message nonce = b.message nonce)
    (nonzero : ∀ check ∈ checks, check.computeEntry env nonce ≠ 0) :
    verifyAll env nonce (Cache.setup signatureCacheHasher log2 newSize) checks =
        checks.map (uncached env) ∧
      ∀ a b : SignatureCheck, a.message nonce = b.message nonce →
        a.sighash = b.sighash ∧ a.pubkey = b.pubkey ∧ a.vchSig = b.vchSig := by
  refine ⟨verifyAll_eq injective nonzero ⟨sound_setup .., ?_⟩ checks fun _ h => h, ?_⟩
  · rintro x hx ⟨loc, rfl⟩
    exact absurd rfl hx
  · intro a b
    exact message_inj

/-- A digest that is the signature, of which the first byte alone verifies. -/
def tailEnv : Env :=
  { blankEnv with
    sha256 := fun message => message.drop 97
    ecPubkeyParse := fun _ => true
    ecdsaVerify := fun _ vchSig _ => vchSig == [1] }

def tailCheck (n : UInt8) : SignatureCheck :=
  ⟨true, [n], 2 :: List.replicate 32 0, 0, by decide⟩

theorem verifyAll_transparent_three :
    verifyAll tailEnv 7 (Cache.setup signatureCacheHasher Nat.log2 2)
      [tailCheck 1, tailCheck 2, tailCheck 1] = [true, false, true] :=
  (verifyAll_transparent tailEnv 7 Nat.log2 2 [tailCheck 1, tailCheck 2, tailCheck 1]
    (by decide +kernel) (by decide +kernel)).1

end SignatureCheck

end KubuCore.Script
