import KubuCore.Chain.Transaction
import KubuCore.Script.Combine
import KubuCore.Script.Satisfaction
import KubuCore.Wallet.KeyStore

/-!
# Signing

`ProduceSignature` of `sign.cpp`: solve the output script with the keys of a key store,
write the solution as a scriptSig and check it with the interpreter under the standard
flags. For the scripts the wallet knows it succeeds exactly if the store has the keys.
-/

namespace KubuCore.Wallet

open Checked Matching Script Chain

/-! ## The signer -/

/-- What the signer takes from `CKey`. -/
structure KeySigning where
  getPubKey : CKey → CPubKey
  sign : CKey → Uint256 → Option Bytes

/-- `CKeyStore`, as far as the signer uses it. Keys and scripts are found under their
hashes, and the public key of a private key that is held is its own. -/
structure CKeyStore (env : Env) (keys : KeySigning) where
  getKey : Bytes → Option CKey
  getPubKey : Bytes → Option CPubKey
  getCScript : Bytes → Option CScript
  key_id : ∀ {address : Bytes} {key : CKey}, getKey address = some key →
    (env.hash160 (keys.getPubKey key)).val = address
  pubKey_of_key : ∀ {address : Bytes} {key : CKey}, getKey address = some key →
    getPubKey address = some (keys.getPubKey key)
  script_id : ∀ {hash : Bytes} {script : CScript}, getCScript hash = some script →
    (env.hash160 script).val = hash

structure BaseSignatureCreator (env : Env) (keys : KeySigning) where
  keyStore : CKeyStore env keys
  checker : Checker
  createSig : (address : Bytes) → (scriptCode : CScript) → SigVersion → Option Bytes

section Signer

variable {env : Env} {keys : KeySigning}

/-- `TransactionSignatureCreator`. Uncompressed keys do not sign witness scripts. -/
def transactionSignatureCreator (keystore : CKeyStore env keys) (txTo : CTransaction) (nIn : Nat)
    (amount : CAmount) (nHashType : UInt8) : BaseSignatureCreator env keys where
  keyStore := keystore
  checker := transactionChecker env txTo nIn amount
  createSig address scriptCode sigversion := do
    let key ← keystore.getKey address
    if sigversion = .witnessV0 ∧ key.fCompressed = false then none
    else
      let vchSig ← keys.sign key (env.signatureHash scriptCode txTo nIn nHashType amount sigversion)
      some (vchSig ++ [nHashType])

variable (creator : BaseSignatureCreator env keys)

/-- The signature for a key that stands in a script. -/
def signFor (scriptCode : CScript) (sigversion : SigVersion) (pubkey : Bytes) : Option Bytes :=
  creator.createSig (CPubKey.getID env (CPubKey.set pubkey)).val scriptCode sigversion

/-- `SignN`: the signatures it pushes. -/
def signN (multisigdata : List Bytes) (scriptCode : CScript) (sigversion : SigVersion) : List Bytes :=
  firstSome (signFor creator scriptCode sigversion) (solutionRequired multisigdata)
    (solutionKeys multisigdata)

/-- What `SignStep` returns, puts in `ret` and finds out about the script. -/
structure SignResult where
  solved : Bool
  ret : List Bytes
  whichType : Option TxnOutType
deriving DecidableEq

/-- The outcome of one `Sign1`, or of a look-up of a script. -/
def oneElement (element : Option Bytes) : Bool × List Bytes :=
  match element with
  | some element => (true, [element])
  | none => (false, [])

def signStep (scriptPubKey : CScript) (sigversion : SigVersion) : SignResult :=
  match solver scriptPubKey with
  | none => ⟨false, [], none⟩
  | some (whichType, solutions) =>
    let solution := solutions.headD []
    let (solved, ret) :=
      match whichType with
      | .nullData => (false, [])
      | .pubKey => oneElement (signFor creator scriptPubKey sigversion solution)
      | .pubKeyHash =>
        match creator.createSig solution scriptPubKey sigversion with
        | none => (false, [])
        | some vchSig => (true, [vchSig, (creator.keyStore.getPubKey solution).getD []])
      | .scriptHash => oneElement (creator.keyStore.getCScript solution)
      | .multisig =>
        let sigs := signN creator solutions scriptPubKey sigversion
        (sigs.length == solutionRequired solutions, [] :: sigs)
      | .witnessV0KeyHash => (true, [solution])
      | .witnessV0ScriptHash =>
        oneElement (creator.keyStore.getCScript (env.ripemd160 solution))
    ⟨solved, ret, some whichType⟩

/-- The script behind a key hash in a witness program. -/
def keyHashScript (hash : Bytes) : CScript :=
  [opDup, opHash160] ++ pushBytes hash ++ [opEqualVerify, opCheckSig]

/-- The part of `ProduceSignature` that solves a witness program: whether it is solved,
the elements of the scriptSig and the witness. -/
def solveWitness (step : SignResult) : Bool × List Bytes × List Bytes :=
  let element := step.ret.headD []
  if step.solved ∧ step.whichType = some .witnessV0KeyHash then
    let sub := signStep creator (keyHashScript element) .witnessV0
    (sub.solved, [], sub.ret)
  else if step.solved ∧ step.whichType = some .witnessV0ScriptHash then
    let sub := signStep creator element .witnessV0
    (sub.solved && sub.whichType != some .scriptHash && sub.whichType != some .witnessV0ScriptHash &&
      sub.whichType != some .witnessV0KeyHash, [], sub.ret ++ [element])
  else (step.solved, step.ret, [])

/-- `ProduceSignature`: what it returns and the solution it writes. -/
def produceSignature (fromPubKey : CScript) : Bool × SignatureData :=
  let step := signStep creator fromPubKey .base
  let p2sh := step.solved ∧ step.whichType = some .scriptHash
  let subscript := step.ret.headD []
  let step :=
    if p2sh then
      let sub := signStep creator subscript .base
      { sub with solved := sub.solved && sub.whichType != some .scriptHash }
    else step
  let (solved, result, witness) := solveWitness creator step
  let sigdata : SignatureData :=
    ⟨pushAll (if p2sh then result ++ [subscript] else result), witness⟩
  (solved && (verifyScript env creator.checker standardScriptVerifyFlags sigdata.scriptSig fromPubKey
    sigdata.scriptWitness).toBool, sigdata)

end Signer

/-! ## The scripts -/

/-- The output scripts the signer is asked about: those that the script builders write.
`Solver` also takes other encodings of the same templates, with longer pushes. -/
inductive Output where
  | pubKey (key : CPubKey)
  | pubKeyHash (hash : Uint160)
  | multisig (nRequired : UInt8) (keys : List CPubKey)

def Output.script : Output → CScript
  | .pubKey key => getScriptForRawPubKey key
  | .pubKeyHash hash => getScriptForDestination (.keyID hash)
  | .multisig nRequired keys => getScriptForMultisig nRequired keys

/-- The keys that stand in the script. -/
def Output.keys : Output → List CPubKey
  | .pubKey key => [key]
  | .pubKeyHash _ => []
  | .multisig _ keys => keys

/-- The keys are encoded as compressed or uncompressed keys, and a multisig script asks
for at least one of them and has at most sixteen. -/
def Output.Valid (output : Output) : Prop :=
  (∀ key ∈ output.keys, isCompressedOrUncompressedPubKey key = true) ∧
    match output with
    | .multisig nRequired keys =>
      1 ≤ nRequired.toNat ∧ nRequired.toNat ≤ keys.length ∧ keys.length ≤ 16
    | _ => True

section Keys

variable {env : Env} {keys : KeySigning} (keystore : CKeyStore env keys)

/-- The store has the private key of the public key. -/
def CKeyStore.holds (key : CPubKey) : Bool :=
  (keystore.getKey (env.hash160 key).val).any fun own => keys.getPubKey own == key

/-- The store has the key of the script, or enough of its keys. -/
def Output.HasKeys : Output → Prop
  | .pubKey key => keystore.holds key = true
  | .pubKeyHash hash => (keystore.getKey hash.val).isSome = true
  | .multisig nRequired keys => nRequired.toNat ≤ keys.countP keystore.holds

/-- The strings whose hashes matter: the keys and scripts of the store and the output. -/
def AtHand (output : Output) : Set Bytes :=
  { b | b ∈ output.keys ∨ b = output.script ∨
    (∃ address key, keystore.getKey address = some key ∧ b = keys.getPubKey key) ∨
    ∃ hash, keystore.getCScript hash = some b }

end Keys

section Encoding

section

variable {key : Bytes} (h : isCompressedOrUncompressedPubKey key = true)
include h

theorem pubKey_encoding :
    33 ≤ key.length ∧ key.length ≤ 65 ∧ CPubKey.set key = key ∧ key.head? ≠ some 0x30 := by
  cases key with
  | nil => cases h
  | cons header rest =>
    simp only [isCompressedOrUncompressedPubKey] at h
    split at h
    · cases h
    · split at h
      · rename_i hfour
        subst hfour
        have hlen : (4 :: rest).length = 65 := eq_of_beq h
        refine ⟨by omega, by omega, ?_, by simp⟩
        rw [CPubKey.set, hlen]
        rfl
      · split at h
        · rename_i hheader
          have hlen := eq_of_beq h
          refine ⟨by omega, by omega, ?_, ?_⟩
          · have hget : getLen header = 33 := by rcases hheader with rfl | rfl <;> rfl
            rw [CPubKey.set, hlen, hget]
            rfl
          · rcases hheader with rfl | rfl <;> simp
        · cases h

theorem checkPubKeyEncoding_base (flags : Flags) :
    checkPubKeyEncoding flags .base key = .ok () := by
  simp [checkPubKeyEncoding, h]

end

theorem signature_encoding {sig : Bytes} (h : isValidSignatureEncoding sig = true) :
    9 ≤ sig.length ∧ sig.length ≤ 73 ∧ sig.head? = some 0x30 := by
  unfold isValidSignatureEncoding at h
  split at h
  · simp only [Bool.and_eq_true, decide_eq_true_eq, beq_iff_eq] at h
    obtain ⟨⟨⟨⟨⟨⟨⟨⟨⟨hlo, hhi⟩, htag⟩, -⟩, -⟩, -⟩, -⟩, -⟩, -⟩, -⟩ := h
    exact ⟨hlo, hhi, by rw [List.head?_cons, htag]⟩
  · cases h

end Encoding

/-! ## Solutions -/

/-- The run of a script under the standard flags. -/
def signContext (env : Env) (checker : Checker) : Context :=
  ⟨env, standardScriptVerifyFlags, checker, .base⟩

/-- Elements that make the script true and leave nothing else behind. -/
structure Solution (env : Env) (checker : Checker) (script : CScript) (ret : List Bytes) : Prop where
  sizes : ∀ element ∈ ret, element.length ≤ maxScriptElementSize
  minimal : ∀ element ∈ ret, element ≠ [0x81]
  few : ret.length ≤ 17
  runs : ∃ verified, evalScript (signContext env checker) script ⟨ret.reverse, []⟩ =
    .ok ⟨[vchTrue], verified⟩

section Verify

variable {env : Env} {checker : Checker} {script : CScript} {ret : List Bytes}

theorem evalScript_solution (sizes : ∀ element ∈ ret, element.length ≤ maxScriptElementSize)
    (minimal : ∀ element ∈ ret, element ≠ [0x81]) (few : ret.length ≤ 18) :
    evalScript (signContext env checker) (pushAll ret) {} = .ok ⟨ret.reverse, []⟩ := by
  refine evalScript_pushes (pushes_pushAll sizes (.inr minimal)) ?_ (by omega)
  have hall := length_pushAll sizes
  simp only [maxScriptSize]
  omega

theorem standardFlags : standardScriptVerifyFlags.sigPushOnly = false ∧
    standardScriptVerifyFlags.p2sh = true := by
  decide

/-- `VerifyScript` accepts a solution. -/
theorem Solution.verify (h : Solution env checker script ret)
    (bare : isPayToScriptHash script = false) (program : isWitnessProgram script = none) :
    (verifyScript env checker standardScriptVerifyFlags (pushAll ret) script []).toBool = true := by
  obtain ⟨verified, hruns⟩ := h.runs
  have hfirst : evalScript (signContext env checker) (pushAll ret) {} = .ok ⟨ret.reverse, []⟩ :=
    evalScript_solution h.sizes h.minimal (Nat.le_succ_of_le h.few)
  have htrue : requireTrue ⟨[vchTrue], verified⟩ = .ok () := by
    simp [requireTrue, vchTrue, castToBool]
  rw [signContext] at hfirst hruns
  obtain ⟨hfree, -⟩ := standardFlags
  simp [verifyScript, verifyWitness, hfree, hfirst, hruns, htrue, bare, program, require,
    Except.toBool]

/-- It accepts the solution of a script for the hash of the script. -/
theorem Solution.verify_redeem (h : Solution env checker script ret)
    (size : script.length ≤ maxScriptElementSize) (minimal : script ≠ [0x81])
    (program : isWitnessProgram script = none) :
    (verifyScript env checker standardScriptVerifyFlags (pushAll (ret ++ [script]))
      (getScriptForDestination (.scriptID (env.hash160 script))) []).toBool = true := by
  obtain ⟨verified, hruns⟩ := h.runs
  have hmem : ∀ {p : Bytes → Prop}, (∀ element ∈ ret, p element) → p script →
      ∀ element ∈ ret ++ [script], p element := fun hret hscript =>
    List.forall_mem_append.mpr ⟨hret, List.forall_mem_singleton.mpr hscript⟩
  have hsizes := hmem h.sizes size
  have hfew : (ret ++ [script]).length ≤ 18 := by
    have hle := h.few
    rw [List.length_append, List.length_singleton]
    omega
  have hfirst : evalScript (signContext env checker) (pushAll (ret ++ [script])) {} =
      .ok ⟨(ret ++ [script]).reverse, []⟩ :=
    evalScript_solution hsizes (hmem h.minimal minimal) hfew
  have hpush := isPushOnly_pushAll hsizes
  have hhash : evalScript (signContext env checker)
      (getScriptForDestination (.scriptID (env.hash160 script))) ⟨script :: ret.reverse, []⟩ =
      .ok ⟨vchTrue :: ret.reverse, []⟩ := by
    have hroom : ret.reverse.length < 900 := by
      have hle := h.few
      rw [List.length_reverse]
      omega
    exact evalScript_scriptHash_true hroom
  have htrue : ∀ s v, requireTrue ⟨vchTrue :: s, v⟩ = .ok () := by
    simp [requireTrue, vchTrue, castToBool]
  have hprogram := (scriptID_first (env.hash160 script)).1
  rw [signContext] at hfirst hruns hhash
  obtain ⟨hfree, hp2sh⟩ := standardFlags
  simp [verifyScript, verifyRedeemScript, verifyWitness, hp2sh, hfirst, hhash, hruns, htrue,
    hprogram, program, isPayToScriptHash_scriptID, hpush, require, Except.toBool]

end Verify

/-! ## What the signer finds -/

/-- Keys have an encoded public key and sign with a strict, low signature that `CheckSig`
accepts for the script code the interpreter hands it, which is the script that was
signed without the signature, should it occur in it. -/
structure SigningWorks (env : Env) (keys : KeySigning) (txTo : CTransaction) (nIn : Nat)
    (amount : CAmount) (nHashType : UInt8) : Prop where
  encoded : ∀ key, isCompressedOrUncompressedPubKey (keys.getPubKey key) = true
  signs : ∀ key scriptCode, ∃ vchSig,
    keys.sign key (env.signatureHash scriptCode txTo nIn nHashType amount .base) = some vchSig ∧
    isValidSignatureEncoding (vchSig ++ [nHashType]) = true ∧ env.checkLowS vchSig = true ∧
    checkSig env txTo nIn amount (vchSig ++ [nHashType]) (keys.getPubKey key)
      (findAndDelete scriptCode (pushBytes (vchSig ++ [nHashType]))) .base = true

section Find

variable {env : Env} {keys : KeySigning} {keystore : CKeyStore env keys} {txTo : CTransaction}
  {nIn : Nat} {amount : CAmount} {nHashType : UInt8}

/-- A signature as the interpreter wants it. -/
structure Created (env : Env) (checker : Checker) (scriptCode : CScript) (pubKey sig : Bytes) :
    Prop where
  long : 9 ≤ sig.length
  short : sig.length ≤ 73
  tag : sig.head? = some 0x30
  encoding : ∀ flags, checkSignatureEncoding env flags sig = .ok ()
  valid : checker.checkSig sig pubKey (findAndDelete scriptCode (pushBytes sig)) .base = true

theorem Created.size {checker : Checker} {scriptCode : CScript} {pubKey sig : Bytes}
    (h : Created env checker scriptCode pubKey sig) : sig.length ≤ maxScriptElementSize := by
  have hshort := h.short
  simp only [maxScriptElementSize]
  omega

theorem ne_single_of_long {v : Bytes} (h : 2 ≤ v.length) : v ≠ [0x81] := by
  rintro rfl
  exact absurd h (by decide)

section Creator

variable (works : SigningWorks env keys txTo nIn amount nHashType) (lo : 1 ≤ nHashType &&& 0x7f)
  (hi : nHashType &&& 0x7f ≤ 3)

include works lo hi in
/-- A key that is held signs. -/
theorem createSig_held {address : Bytes} {key : CKey} (hkey : keystore.getKey address = some key)
    (scriptCode : CScript) :
    ∃ sig, (transactionSignatureCreator keystore txTo nIn amount nHashType).createSig address
        scriptCode .base = some sig ∧
      Created env (transactionChecker env txTo nIn amount) scriptCode (keys.getPubKey key) sig := by
  obtain ⟨vchSig, hsign, hder, hlow, hvalid⟩ := works.signs key scriptCode
  obtain ⟨hlong, hshort, htag⟩ := signature_encoding hder
  have htype : isDefinedHashtypeSignature (vchSig ++ [nHashType]) = true := by
    simp [isDefinedHashtypeSignature, lo, hi]
  refine ⟨vchSig ++ [nHashType], ?_, hlong, hshort, htag, fun flags => ?_, hvalid⟩
  · simp [transactionSignatureCreator, hkey, hsign]
  · simp [checkSignatureEncoding, hder, hlow, htype, require]

theorem createSig_none {address : Bytes} (hkey : keystore.getKey address = none)
    (scriptCode : CScript) (sigversion : SigVersion) :
    (transactionSignatureCreator keystore txTo nIn amount nHashType).createSig address scriptCode
      sigversion = none := by
  simp [transactionSignatureCreator, hkey]

variable {output : Output} (injective : Set.InjOn env.hash160 (AtHand keystore output))

include injective in
/-- A key found under the hash of a key of the script is the private key of it. -/
theorem getPubKey_eq {pubkey : Bytes} (hmem : pubkey ∈ output.keys) {key : CKey}
    (hkey : keystore.getKey (env.hash160 pubkey).val = some key) : keys.getPubKey key = pubkey := by
  refine injective (.inr (.inr (.inl ⟨_, key, hkey, rfl⟩))) (.inl hmem) ?_
  exact Subtype.ext (keystore.key_id hkey)

include injective in
theorem holds_iff {pubkey : Bytes} (hmem : pubkey ∈ output.keys) :
    keystore.holds pubkey = (keystore.getKey (env.hash160 pubkey).val).isSome := by
  rw [CKeyStore.holds]
  cases hkey : keystore.getKey (env.hash160 pubkey).val with
  | none => rfl
  | some key => simp [getPubKey_eq injective hmem hkey]

include works lo hi injective in
/-- Signing for a key of the script. -/
theorem signFor_spec (hvalid : output.Valid) {pubkey : Bytes} (hmem : pubkey ∈ output.keys)
    (scriptCode : CScript) :
    (signFor (transactionSignatureCreator keystore txTo nIn amount nHashType) scriptCode .base
        pubkey).isSome = keystore.holds pubkey ∧
      ∀ sig, signFor (transactionSignatureCreator keystore txTo nIn amount nHashType) scriptCode .base
        pubkey = some sig →
        Created env (transactionChecker env txTo nIn amount) scriptCode pubkey sig := by
  have hset := (pubKey_encoding (hvalid.1 pubkey hmem)).2.2.1
  rw [signFor, hset, CPubKey.getID, holds_iff injective hmem]
  cases hkey : keystore.getKey (env.hash160 pubkey).val with
  | none =>
    rw [createSig_none hkey]
    exact ⟨rfl, fun sig h => by cases h⟩
  | some key =>
    obtain ⟨sig, hsig, hcreated⟩ := createSig_held works lo hi hkey scriptCode
    rw [hsig]
    refine ⟨rfl, fun sig' h => ?_⟩
    cases h
    rwa [getPubKey_eq injective hmem hkey] at hcreated

end Creator

end Find

/-! ## The three scripts -/

section Step

variable {env : Env} {keys : KeySigning} {keystore : CKeyStore env keys} {txTo : CTransaction}
  {nIn : Nat} {amount : CAmount} {nHashType : UInt8}

/-- What `SignStep` finds out about an output. -/
structure Stepped (keystore : CKeyStore env keys) (checker : Checker) (output : Output)
    (step : SignResult) : Prop where
  plain : step.whichType ≠ some .scriptHash ∧ step.whichType ≠ some .witnessV0KeyHash ∧
    step.whichType ≠ some .witnessV0ScriptHash
  solved : step.solved = true ↔ output.HasKeys keystore
  solution : step.solved = true → Solution env checker output.script step.ret

variable (works : SigningWorks env keys txTo nIn amount nHashType) (lo : 1 ≤ nHashType &&& 0x7f)
  (hi : nHashType &&& 0x7f ≤ 3)

include works lo hi in
theorem stepped_pubKey {key : CPubKey} (hvalid : (Output.pubKey key).Valid)
    (injective : Set.InjOn env.hash160 (AtHand keystore (.pubKey key))) :
    Stepped keystore (transactionChecker env txTo nIn amount) (.pubKey key)
      (signStep (transactionSignatureCreator keystore txTo nIn amount nHashType)
        (Output.pubKey key).script .base) := by
  have hmem : key ∈ (Output.pubKey key).keys := List.mem_singleton.mpr rfl
  have hencoded := hvalid.1 key hmem
  obtain ⟨hlong, hshort, -, -⟩ := pubKey_encoding hencoded
  have hsolver := (rawPubKey_first hlong hshort).2.2
  obtain ⟨hsome, hcreated⟩ := signFor_spec works lo hi injective hvalid hmem
    (getScriptForRawPubKey key)
  rw [Output.script, signStep, hsolver]
  simp only [List.headD_cons]
  generalize signFor (transactionSignatureCreator keystore txTo nIn amount nHashType)
    (getScriptForRawPubKey key) .base key = found at hsome hcreated ⊢
  refine ⟨by simp, ?_, ?_⟩
  · rw [Output.HasKeys, ← hsome]
    cases found <;> simp [oneElement]
  · cases found with
    | none => intro h; cases h
    | some sig =>
      intro _
      have hsig := hcreated sig rfl
      refine ⟨?_, ?_, by simp [oneElement], ?_⟩
      · simpa [oneElement] using hsig.size
      · have hne : sig ≠ [0x81] := ne_single_of_long (by have := hsig.long; omega)
        simpa [oneElement] using hne
      · exact ⟨_, evalScript_pubKey_true hlong hshort (hsig.encoding _)
          (checkPubKeyEncoding_base hencoded _) hsig.valid⟩

include works lo hi in
theorem stepped_pubKeyHash (hash : Uint160) :
    Stepped keystore (transactionChecker env txTo nIn amount) (.pubKeyHash hash)
      (signStep (transactionSignatureCreator keystore txTo nIn amount nHashType)
        (Output.pubKeyHash hash).script .base) := by
  rw [Output.script, signStep, solver_keyID]
  simp only [List.headD_cons]
  cases hkey : keystore.getKey hash.val with
  | none =>
    rw [createSig_none hkey]
    exact ⟨by simp, by simp [Output.HasKeys, hkey], fun h => by cases h⟩
  | some key =>
    obtain ⟨sig, hsig, hcreated⟩ := createSig_held works lo hi hkey
      (getScriptForDestination (.keyID hash))
    have hencoded := works.encoded key
    obtain ⟨hlong, hshort, -, -⟩ := pubKey_encoding hencoded
    have hpubKey := keystore.pubKey_of_key hkey
    obtain rfl := Subtype.ext (keystore.key_id hkey)
    rw [hsig]
    have hstore : (transactionSignatureCreator keystore txTo nIn amount nHashType).keyStore =
        keystore := rfl
    simp only [hstore, hpubKey]
    refine ⟨by simp, by simp [Output.HasKeys, hkey], fun _ => ⟨?_, ?_, by simp, ?_⟩⟩
    · have hsize : (keys.getPubKey key).length ≤ maxScriptElementSize := by
        simp only [maxScriptElementSize]
        omega
      simpa using ⟨hcreated.size, hsize⟩
    · have hne : sig ≠ [0x81] := ne_single_of_long (by have := hcreated.long; omega)
      have hne' : keys.getPubKey key ≠ [0x81] := ne_single_of_long (by omega)
      simpa using ⟨hne, hne'⟩
    · exact ⟨_, evalScript_pubKeyHash_true (hcreated.encoding _)
        (checkPubKeyEncoding_base hencoded _) hcreated.valid⟩

section Multisig

variable {nRequired : UInt8} {pubkeys : List CPubKey}

/-- No created signature is a key of the script, so it is not deleted from it. -/
theorem Created.valid_multisig {flags : Flags} {checker : Checker} {script : CScript}
    {pubkey sig : Bytes} (hscript : MultisigScript flags script nRequired pubkeys)
    (hencoded : ∀ key ∈ pubkeys, isCompressedOrUncompressedPubKey key = true)
    (h : Created env checker script pubkey sig) :
    sig ∉ pubkeys ∧ checker.checkSig sig pubkey script .base = true := by
  have hout : sig ∉ pubkeys := fun hmem => (pubKey_encoding (hencoded sig hmem)).2.2.2 h.tag
  refine ⟨hout, ?_⟩
  have hsize : sig.length ≤ 0xffff := Nat.le_trans h.short (by decide)
  have hdrop : [sig].foldl (dropSignature ⟨env, flags, checker, .base⟩) script = script :=
    hscript.dropSignatures _ (fun s hs => by rw [List.mem_singleton.mp hs]; exact hout)
      (fun s hs => by rw [List.mem_singleton.mp hs]; exact hsize)
  rw [← hdrop]
  exact h.valid

/-- Signatures in the order of the keys, above the element that is popped for nothing. -/
theorem solution_multisig {checker : Checker} {script : CScript} {sigs : List Bytes}
    (hscript : MultisigScript standardScriptVerifyFlags script nRequired pubkeys)
    (hencoded : ∀ key ∈ pubkeys, isCompressedOrUncompressedPubKey key = true)
    (hlen : sigs.length = nRequired.toNat)
    (hcreated : ∀ sig ∈ sigs, ∃ pubkey, Created env checker script pubkey sig)
    (assigned : Assigned (fun sig key => checker.checkSig sig key script .base) pubkeys sigs) :
    Solution env checker script ([] :: sigs) := by
  obtain ⟨-, hbound, hfew⟩ := hscript.bounds
  have hstandard := hscript
  have hgreedy :
      greedy ((signContext env checker).valid script) pubkeys.reverse sigs.reverse = true :=
    greedy_iff.mpr assigned.reverse
  have hback : ∀ {sig}, sig ∈ sigs.reverse → ∃ pubkey, Created env checker script pubkey sig :=
    fun hmem => hcreated _ (List.mem_reverse.mp hmem)
  refine ⟨fun element hmem => ?_, fun element hmem => ?_, ?_, ?_⟩
  · rcases List.mem_cons.mp hmem with rfl | hmem
    · simp
    · obtain ⟨_, hsig⟩ := hcreated element hmem
      exact hsig.size
  · rcases List.mem_cons.mp hmem with rfl | hmem
    · simp
    · obtain ⟨_, hsig⟩ := hcreated element hmem
      have hlong := hsig.long
      exact ne_single_of_long (by omega)
  · rw [List.length_cons]
    omega
  · obtain ⟨verified, heval⟩ : ∃ verified, evalScript (signContext env checker) script
        ⟨sigs.reverse ++ [[]], []⟩ =
          .ok ⟨[ofBool (greedy ((signContext env checker).valid script) pubkeys.reverse
            sigs.reverse)], verified⟩ := by
      refine hstandard.evalScript [] (by rw [List.length_reverse, hlen]) (fun sig hmem => ?_)
        (fun sig hmem => ?_) (fun sig hmem => ?_)
        (fun key hmem => checkPubKeyEncoding_base (hencoded key hmem) _) (by simp) (.inr hgreedy)
        (.inr rfl)
      · obtain ⟨_, hsig⟩ := hback hmem
        exact (hsig.valid_multisig hscript hencoded).1
      · obtain ⟨_, hsig⟩ := hback hmem
        exact Nat.le_trans hsig.short (by decide)
      · obtain ⟨_, hsig⟩ := hback hmem
        exact hsig.encoding _
    rw [hgreedy] at heval
    rw [List.reverse_cons]
    exact ⟨verified, heval⟩

include works lo hi in
theorem stepped_multisig (hvalid : (Output.multisig nRequired pubkeys).Valid)
    (injective : Set.InjOn env.hash160 (AtHand keystore (.multisig nRequired pubkeys))) :
    Stepped keystore (transactionChecker env txTo nIn amount) (.multisig nRequired pubkeys)
      (signStep (transactionSignatureCreator keystore txTo nIn amount nHashType)
        (Output.multisig nRequired pubkeys).script .base) := by
  obtain ⟨hencoded, hone, hbound, hfew⟩ := hvalid
  have hkeys := hencoded
  have hsizes : ∀ key ∈ pubkeys, 33 ≤ key.length ∧ key.length ≤ 65 := by
    intro key hkey
    obtain ⟨hlong, hshort, -, -⟩ := pubKey_encoding (hkeys key hkey)
    exact ⟨hlong, hshort⟩
  have hsolver := (multisig_first hone hbound hfew hsizes).2.2
  have hscript : MultisigScript standardScriptVerifyFlags (getScriptForMultisig nRequired pubkeys)
      nRequired pubkeys := multisigScript_getScript hone hbound hfew hsizes
  have hspec := fun (pubkey : Bytes) (hmem : pubkey ∈ pubkeys) =>
    signFor_spec works lo hi injective ⟨hencoded, hone, hbound, hfew⟩ hmem
      (getScriptForMultisig nRequired pubkeys)
  rw [Output.script, signStep, hsolver]
  simp only [signN, solutionKeys_eq]
  have hrequired : solutionRequired ([nRequired] :: (pubkeys ++ [[UInt8.ofNat pubkeys.length]])) =
      nRequired.toNat := rfl
  rw [hrequired]
  generalize signFor (transactionSignatureCreator keystore txTo nIn amount nHashType)
    (getScriptForMultisig nRequired pubkeys) .base = find at hspec ⊢
  have hcount : pubkeys.countP (fun pubkey => (find pubkey).isSome) =
      pubkeys.countP keystore.holds :=
    List.countP_congr fun pubkey hmem => by rw [(hspec pubkey hmem).1]
  have hlen : (firstSome find nRequired.toNat pubkeys).length =
      min nRequired.toNat (pubkeys.countP keystore.holds) := by
    rw [length_firstSome, hcount]
  refine ⟨by simp, ?_, fun hsolved => ?_⟩
  · rw [Output.HasKeys, beq_iff_eq]
    omega
  · refine solution_multisig hscript hkeys (eq_of_beq hsolved) (fun sig hmem => ?_)
      (assigned_firstSome (fun pubkey hmem sig hfind => ?_) _)
    · obtain ⟨pubkey, hpubkey, hfind⟩ := mem_firstSome hmem
      exact ⟨pubkey, (hspec pubkey hpubkey).2 sig hfind⟩
    · exact (((hspec pubkey hmem).2 sig hfind).valid_multisig hscript hkeys).2

end Multisig

variable {output : Output} (injective : Set.InjOn env.hash160 (AtHand keystore output))

include works lo hi injective in
theorem stepped (hvalid : output.Valid) :
    Stepped keystore (transactionChecker env txTo nIn amount) output
      (signStep (transactionSignatureCreator keystore txTo nIn amount nHashType) output.script
        .base) := by
  cases output with
  | pubKey key => exact stepped_pubKey works lo hi hvalid injective
  | pubKeyHash hash => exact stepped_pubKeyHash works lo hi hash
  | multisig nRequired pubkeys => exact stepped_multisig works lo hi hvalid injective

/-- No script of the three kinds asks for a hash of a script or is a witness program. -/
theorem Output.script_plain (hvalid : output.Valid) :
    isWitnessProgram output.script = none ∧ isPayToScriptHash output.script = false := by
  cases output with
  | pubKey key =>
    obtain ⟨hlong, hshort, -, -⟩ := pubKey_encoding (hvalid.1 key (List.mem_singleton.mpr rfl))
    have hfirst := rawPubKey_first hlong hshort
    exact ⟨hfirst.1, hfirst.2.1⟩
  | pubKeyHash hash => exact keyID_first hash
  | multisig nRequired pubkeys =>
    obtain ⟨hencoded, hone, hbound, hfew⟩ := hvalid
    have hfirst := multisig_first hone hbound hfew fun key hkey => by
      obtain ⟨hlong, hshort, -, -⟩ := pubKey_encoding (hencoded key hkey)
      exact ⟨hlong, hshort⟩
    exact ⟨hfirst.1, hfirst.2.1⟩

theorem Output.script_ne_single (hvalid : output.Valid) : output.script ≠ [0x81] := by
  intro heq
  cases output with
  | pubKey key =>
    obtain ⟨hlong, hshort, -, -⟩ := pubKey_encoding (hvalid.1 key (List.mem_singleton.mpr rfl))
    have hfirst := (rawPubKey_first hlong hshort).2.2
    rw [Output.script] at heq
    rw [heq] at hfirst
    cases hfirst
  | pubKeyHash hash =>
    have hfirst := solver_keyID hash
    rw [Output.script] at heq
    rw [heq] at hfirst
    cases hfirst
  | multisig nRequired pubkeys =>
    rw [Output.script, getScriptForMultisig] at heq
    simp at heq

end Step

/-! ## The signer succeeds exactly if it has the keys -/

section Produce

variable {env : Env} {keys : KeySigning}

section

variable (creator : BaseSignatureCreator env keys)

theorem solveWitness_plain {step : SignResult} (hkey : step.whichType ≠ some .witnessV0KeyHash)
    (hscript : step.whichType ≠ some .witnessV0ScriptHash) :
    solveWitness creator step = (step.solved, step.ret, []) := by
  simp [solveWitness, hkey, hscript]

/-- The step of a script hash looks the script up. -/
theorem signStep_scriptID (hash : Uint160) :
    signStep creator (getScriptForDestination (.scriptID hash)) .base =
      ⟨(oneElement (creator.keyStore.getCScript hash.val)).1,
        (oneElement (creator.keyStore.getCScript hash.val)).2, some .scriptHash⟩ := by
  rw [signStep, (scriptID_first hash).2]
  rfl

/-- The solution of a script hash is the solution of the script and the script. -/
theorem produceSignature_redeem {hash : Uint160} {script : CScript}
    (hget : creator.keyStore.getCScript hash.val = some script)
    (hhash : (signStep creator script .base).whichType ≠ some .scriptHash)
    (hkey : (signStep creator script .base).whichType ≠ some .witnessV0KeyHash)
    (hscript : (signStep creator script .base).whichType ≠ some .witnessV0ScriptHash) :
    (produceSignature creator (getScriptForDestination (.scriptID hash))).1 =
      ((signStep creator script .base).solved &&
        (verifyScript env creator.checker standardScriptVerifyFlags
          (pushAll ((signStep creator script .base).ret ++ [script]))
          (getScriptForDestination (.scriptID hash)) []).toBool) := by
  have hstep : ({ signStep creator script .base with
      solved := (signStep creator script .base).solved &&
        (signStep creator script .base).whichType != some .scriptHash } : SignResult) =
      signStep creator script .base := by
    have hne : ((signStep creator script .base).whichType != some .scriptHash) = true := by
      simpa using hhash
    rw [hne, Bool.and_true]
  simp only [produceSignature, signStep_scriptID, hget, oneElement, and_self, if_true,
    List.headD_cons, hstep, solveWitness_plain creator hkey hscript]

end

/-- Given that signing works and no two strings at hand share a hash, the signer succeeds
exactly if the store has the key of the script, or as many of its keys as it asks for,
and the script itself if the output has only its hash. -/
theorem produceSignature_iff {keystore : CKeyStore env keys} {txTo : CTransaction} {nIn : Nat}
    {amount : CAmount} {nHashType : UInt8}
    (works : SigningWorks env keys txTo nIn amount nHashType)
    (lo : 1 ≤ nHashType &&& 0x7f) (hi : nHashType &&& 0x7f ≤ 3) {output : Output}
    (injective : Set.InjOn env.hash160 (AtHand keystore output)) (hvalid : output.Valid) :
    ((produceSignature (transactionSignatureCreator keystore txTo nIn amount nHashType)
        output.script).1 = true ↔ output.HasKeys keystore) ∧
    (output.script.length ≤ maxScriptElementSize →
      ((produceSignature (transactionSignatureCreator keystore txTo nIn amount nHashType)
          (getScriptForDestination (.scriptID (env.hash160 output.script)))).1 = true ↔
        keystore.getCScript (env.hash160 output.script).val = some output.script ∧
          output.HasKeys keystore)) := by
  have hstepped := stepped works lo hi injective hvalid
  obtain ⟨hhash, hkey, hscript⟩ := hstepped.plain
  obtain ⟨hprogram, hbare⟩ := output.script_plain hvalid
  constructor
  · simp only [produceSignature, hhash, and_false, if_false, solveWitness_plain _ hkey hscript,
      Bool.and_eq_true, ← hstepped.solved]
    exact and_iff_left_of_imp fun hsolved => (hstepped.solution hsolved).verify hbare hprogram
  · intro hsize
    cases hget : keystore.getCScript (env.hash160 output.script).val with
    | none =>
      have hget' : (transactionSignatureCreator keystore txTo nIn amount
          nHashType).keyStore.getCScript _ = none := hget
      simp [produceSignature, signStep_scriptID, hget', oneElement, solveWitness]
    | some script =>
      obtain rfl : script = output.script := by
        refine injective (.inr (.inr (.inr ⟨_, hget⟩))) (.inr (.inl rfl)) ?_
        exact Subtype.ext (keystore.script_id hget)
      rw [produceSignature_redeem _ hget hhash hkey hscript, Bool.and_eq_true, ← hstepped.solved]
      simp only [true_and]
      exact and_iff_left_of_imp fun hsolved => (hstepped.solution hsolved).verify_redeem hsize
        (output.script_ne_single hvalid) hprogram

/-! A store with two keys, and scripts that ask for two and for three of three keys. -/

def ownKey (n : UInt8) : CKey := ⟨List.replicate 32 n, true, List.length_replicate⟩

def ownSigning : KeySigning where
  getPubKey key := 2 :: key.secret
  sign _ _ := some [0x30, 6, 2, 1, 1, 2, 1, 1]

def ownPubKeys : List CPubKey := [1, 2, 3].map fun n => ownSigning.getPubKey (ownKey n)

def ownOutput (nRequired : UInt8) : Output := .multisig nRequired ownPubKeys

/-- The hash repeats a byte that tells the keys and the scripts apart. -/
def ownEnv : Env :=
  { pairEnv with hash160 := fun b =>
      ⟨List.replicate 20 ((if b.length = 33 then b.tail else b).headD 0), List.length_replicate⟩ }

def ownKeyAt (address : Bytes) : Option CKey :=
  if address = List.replicate 20 1 then some (ownKey 1)
  else if address = List.replicate 20 2 then some (ownKey 2)
  else none

theorem ownKeyAt_some {address : Bytes} {key : CKey} (h : ownKeyAt address = some key) :
    address = List.replicate 20 1 ∧ key = ownKey 1 ∨
      address = List.replicate 20 2 ∧ key = ownKey 2 := by
  unfold ownKeyAt at h
  split_ifs at h with hone htwo
  · cases h
    exact .inl ⟨hone, rfl⟩
  · cases h
    exact .inr ⟨htwo, rfl⟩

def ownStore : CKeyStore ownEnv ownSigning where
  getKey := ownKeyAt
  getPubKey address := (ownKeyAt address).map ownSigning.getPubKey
  getCScript hash := if hash = List.replicate 20 0x52 then some (ownOutput 2).script else none
  key_id h := by
    rcases ownKeyAt_some h with ⟨rfl, rfl⟩ | ⟨rfl, rfl⟩ <;> decide
  pubKey_of_key h := by
    rw [h]
    rfl
  script_id h := by
    split at h
    · rename_i hhash
      cases h
      rw [hhash]
      decide
    · cases h

theorem ownSigning_works (txTo : CTransaction) :
    SigningWorks ownEnv ownSigning txTo 0 0 1 where
  encoded key := by
    simp [ownSigning, isCompressedOrUncompressedPubKey, key.size]
  signs key scriptCode := by
    refine ⟨[0x30, 6, 2, 1, 1, 2, 1, 1], rfl, by decide, rfl, ?_⟩
    simp [checkSig, ownSigning, CPubKey.set, getLen, compressedSize, key.size, CPubKey.isValid,
      ownEnv, pairEnv]

theorem ownStore_injective {nRequired : UInt8} (h : nRequired = 2 ∨ nRequired = 3) :
    Set.InjOn ownEnv.hash160 (AtHand ownStore (ownOutput nRequired)) := by
  have atHand : ∀ b ∈ AtHand ownStore (ownOutput nRequired),
      b ∈ ownPubKeys ++ [(ownOutput 2).script, (ownOutput 3).script] := by
    rintro b (hb | rfl | ⟨address, key, hkey, rfl⟩ | ⟨hash, hscript⟩)
    · exact List.mem_append_left _ hb
    · rcases h with rfl | rfl <;> decide
    · rcases ownKeyAt_some hkey with ⟨-, rfl⟩ | ⟨-, rfl⟩ <;> decide
    · simp only [ownStore] at hscript
      split at hscript
      · cases hscript
        decide
      · cases hscript
  have apart : ∀ a ∈ ownPubKeys ++ [(ownOutput 2).script, (ownOutput 3).script],
      ∀ b ∈ ownPubKeys ++ [(ownOutput 2).script, (ownOutput 3).script],
        ownEnv.hash160 a = ownEnv.hash160 b → a = b := by
    decide
  exact fun a ha b hb => apart a (atHand a ha) b (atHand b hb)

/-- The signer for a transaction without inputs. -/
def ownCreator : BaseSignatureCreator ownEnv ownSigning :=
  transactionSignatureCreator ownStore
    { nVersion := 1, vin := [], vout := [], nLockTime := 0, voutSize := Nat.zero_le maxSize } 0 0 1

/-- Two of the three keys sign for the hash of the script that asks for two, and not for
the script that asks for all. -/
theorem produceSignature_iff_own :
    (produceSignature ownCreator
      (getScriptForDestination (.scriptID (ownEnv.hash160 (ownOutput 2).script)))).1 = true ∧
    (produceSignature ownCreator (ownOutput 3).script).1 = false := by
  have hvalid : (ownOutput 2).Valid ∧ (ownOutput 3).Valid :=
    ⟨⟨by decide, by decide, by decide, by decide⟩, by decide, by decide, by decide, by decide⟩
  have htwo : 2 ≤ ownPubKeys.countP ownStore.holds := by decide
  have hthree : ¬ 3 ≤ ownPubKeys.countP ownStore.holds := by decide
  constructor
  · exact ((produceSignature_iff (ownSigning_works _) (by decide) (by decide)
      (ownStore_injective (.inl rfl)) hvalid.1).2 (by decide)).mpr ⟨by decide, htwo⟩
  · exact Bool.eq_false_iff.mpr ((produceSignature_iff (ownSigning_works _) (by decide) (by decide)
      (ownStore_injective (.inr rfl)) hvalid.2).1.not.mpr hthree)

end Produce

end KubuCore.Wallet
