import KubuCore.Script.Multisig

/-!
# Satisfying the standard scripts

What it takes for the scripts that the signer handles to come out true, under any
flags: pushes of at least two bytes written by `pushBytes` are minimal, and no script
leaves more than one element behind.
-/

namespace KubuCore.Script

open Checked

section Run

variable {ctx : Context} {m : Machine}

/-- `OP_CHECKSIG` on a signature that checks. -/
theorem execCheckSig_true {key sig : Bytes} {s : List Bytes} (stack : m.stack = key :: sig :: s)
    (hsig : checkSignatureEncoding ctx.env ctx.flags sig = .ok ())
    (hkey : checkPubKeyEncoding ctx.flags ctx.sigversion key = .ok ())
    (valid : ctx.checker.checkSig sig key (dropSignature ctx m.codeHash sig) ctx.sigversion = true) :
    execCheckSig ctx false m =
      .ok { m with stack := vchTrue :: s, verified := key :: m.verified } := by
  simp [execCheckSig, stack, hsig, hkey, valid, require, ofBool]

variable {key sig : Bytes} {verified : List Bytes}

/-- A signature for `<key> OP_CHECKSIG`. -/
theorem evalScript_pubKey_true (long : 33 ≤ key.length) (short : key.length ≤ 65)
    (hsig : checkSignatureEncoding ctx.env ctx.flags sig = .ok ())
    (hkey : checkPubKeyEncoding ctx.flags ctx.sigversion key = .ok ())
    (valid : ctx.checker.checkSig sig key (dropSignature ctx (getScriptForRawPubKey key) sig)
      ctx.sigversion = true) :
    evalScript ctx (getScriptForRawPubKey key) ⟨[sig], verified⟩ =
      .ok ⟨[vchTrue], key :: verified⟩ := by
  have hlen : ∃ fuel, (getScriptForRawPubKey key).length = fuel + 1 + 1 := by
    have hpush : key.length < opPushData1.toNat := Nat.lt_of_le_of_lt short (by decide)
    simp [getScriptForRawPubKey, pushBytes, hpush]
  have hshort : (getScriptForRawPubKey key).length ≤ maxScriptSize := by
    have hpush := length_pushBytes key (by omega)
    simp only [getScriptForRawPubKey, List.length_append, List.length_singleton, maxScriptSize]
    omega
  obtain ⟨fuel, hfuel⟩ := hlen
  have hdecode : decodeOpcode opCheckSig = .checkSig false := rfl
  have hexec : execOp ctx (decodeOpcode opCheckSig) true []
      { stack := [key, sig], verified, codeHash := getScriptForRawPubKey key, nOpCount := 0 + 1 } =
      .ok { stack := [vchTrue], verified := key :: verified,
            codeHash := getScriptForRawPubKey key, nOpCount := 0 + 1 } := by
    rw [hdecode, execOp]
    exact execCheckSig_true rfl hsig hkey valid
  rw [evalScript, (require_eq_ok _ _ ()).mpr hshort, hfuel]
  nth_rewrite 1 [getScriptForRawPubKey]
  rw [runMachine_pushBytes (by omega) (by simp only [maxScriptElementSize]; omega) _ rfl (by simp),
    runMachine_op_eq (by decide) (by decide) rfl (by decide : 0 < maxOpsPerScript) hexec (by simp)]
  simp [runMachine, require]

/-- A signature and a key for the hash of the key. -/
theorem evalScript_pubKeyHash_true (hsig : checkSignatureEncoding ctx.env ctx.flags sig = .ok ())
    (hkey : checkPubKeyEncoding ctx.flags ctx.sigversion key = .ok ())
    (valid : ctx.checker.checkSig sig key (dropSignature ctx
      (getScriptForDestination (.keyID (ctx.env.hash160 key))) sig) ctx.sigversion = true) :
    evalScript ctx (getScriptForDestination (.keyID (ctx.env.hash160 key))) ⟨[key, sig], verified⟩ =
      .ok ⟨[vchTrue], key :: verified⟩ := by
  have hlen : (getScriptForDestination (.keyID (ctx.env.hash160 key))).length = 20 + 5 := by
    simp [getScriptForDestination, pushBytes_hash, (ctx.env.hash160 key).property]
  generalize hcode : getScriptForDestination (.keyID (ctx.env.hash160 key)) = code at hlen valid
  have hscript : code = opDup :: opHash160 :: (pushBytes (ctx.env.hash160 key).val ++
      [opEqualVerify, opCheckSig]) := by
    rw [← hcode]
    rfl
  have hhash := (ctx.env.hash160 key).property
  have hexec : execOp ctx (decodeOpcode opCheckSig) true []
      { stack := [key, sig], verified, codeHash := code, nOpCount := 3 + 1 } =
      .ok { stack := [vchTrue], verified := key :: verified, codeHash := code,
            nOpCount := 3 + 1 } := by
    have hdecode : decodeOpcode opCheckSig = .checkSig false := rfl
    rw [hdecode, execOp]
    exact execCheckSig_true rfl hsig hkey valid
  have hequal : execOp ctx (decodeOpcode opEqualVerify) true [opCheckSig]
      { stack := (ctx.env.hash160 key).val :: (ctx.env.hash160 key).val :: [key, sig], verified,
        codeHash := code, nOpCount := 2 + 1 } =
      .ok { stack := [key, sig], verified, codeHash := code, nOpCount := 2 + 1 } := by
    have hdecode : decodeOpcode opEqualVerify = .equal true := rfl
    simp [hdecode, execOp, execEqual, require]
  have hrun : runMachine ctx (20 + 5) code { stack := [key, sig], verified, codeHash := code } =
      .ok { stack := [vchTrue], verified := key :: verified, codeHash := code, nOpCount := 4 } := by
    nth_rewrite 1 [hscript]
    rw [runMachine_op_eq (by decide) (by decide) rfl (by decide : 0 < maxOpsPerScript) rfl (by simp),
      runMachine_op_eq (by decide) (by decide) rfl (by decide : 1 < maxOpsPerScript) rfl (by simp),
      runMachine_pushBytes (by omega) (by rw [hhash]; decide) _ rfl (by simp),
      runMachine_op_eq (by decide) (by decide) rfl (by decide : 2 < maxOpsPerScript) hequal (by simp),
      runMachine_op_eq (by decide) (by decide) rfl (by decide : 3 < maxOpsPerScript) hexec (by simp)]
    rfl
  simp [evalScript, hlen, hrun, require, maxScriptSize]

end Run

/-! ## Recognising the scripts -/

section Recognise

variable {flags : Flags} {script middle rest : CScript} {keys : List Bytes}

/-- A script that starts with the wrong byte for anything but a template. -/
theorem solver_templates {b : UInt8} {bytes : CScript} (hash : b ≠ opHash160) (ret : b ≠ opReturn)
    (program : isWitnessProgram (b :: bytes) = none) :
    solver (b :: bytes) = scanTemplates (b :: bytes) mTemplates := by
  have hbare : isPayToScriptHash (b :: bytes) = false := by
    simp [isPayToScriptHash, hash]
  rw [solver, hbare, program]
  simp [ret]

theorem isWitnessProgram_of_first {b : UInt8} (zero : b ≠ op0) (out : b < op1 ∨ op16 < b)
    (bytes : CScript) : isWitnessProgram (b :: bytes) = none := by
  cases bytes with
  | nil => rfl
  | cons len program =>
    rw [isWitnessProgram]
    split
    · rfl
    · rw [if_pos ⟨zero, out⟩]

theorem keyLength_first : ∀ n : Fin 66, 33 ≤ n.val → UInt8.ofNat n ≠ op0 ∧ UInt8.ofNat n < op1 ∧
    UInt8.ofNat n ≠ opHash160 ∧ UInt8.ofNat n ≠ opReturn := by
  decide +kernel

/-- The first byte of a pushed key is its length. -/
theorem pushBytes_key {key : Bytes} (short : key.length ≤ 65) :
    pushBytes key = UInt8.ofNat key.length :: key := by
  have hlen : key.length < opPushData1.toNat := Nat.lt_of_le_of_lt short (by decide)
  rw [pushBytes, if_pos hlen]

theorem rawPubKey_first {key : Bytes} (long : 33 ≤ key.length) (short : key.length ≤ 65) :
    isWitnessProgram (getScriptForRawPubKey key) = none ∧
      isPayToScriptHash (getScriptForRawPubKey key) = false ∧
      solver (getScriptForRawPubKey key) = some (.pubKey, [key]) := by
  obtain ⟨hzero, hlow, hhash, hret⟩ := keyLength_first ⟨key.length, by omega⟩ long
  have hscript : getScriptForRawPubKey key = UInt8.ofNat key.length :: (key ++ [opCheckSig]) := by
    rw [getScriptForRawPubKey, pushBytes_key short, List.cons_append]
  have hprogram := isWitnessProgram_of_first hzero (.inl hlow) (key ++ [opCheckSig])
  have hget : getOp (getScriptForRawPubKey key) = some (UInt8.ofNat key.length, key, [opCheckSig]) :=
    getOp_pushBytes_append (Nat.lt_of_le_of_lt short (by decide)) _
  have hmatch : matchTemplate 3 (getScriptForRawPubKey key) [opPubKey, opCheckSig] [] =
      some [key] := by
    have hsize : ¬ (key.length < 33 ∨ 65 < key.length) := by omega
    rw [matchTemplate, if_neg (by simp), hget, getOp_op (by decide)]
    simp only [if_false, matchOp, hsize]
    rfl
  refine ⟨by rw [hscript]; exact hprogram, by rw [hscript]; simp [isPayToScriptHash, hhash], ?_⟩
  rw [hscript, solver_templates hhash hret hprogram, ← hscript, mTemplates, scanTemplates]
  simp [hmatch]

theorem scriptID_first (hash : Uint160) :
    isWitnessProgram (getScriptForDestination (.scriptID hash)) = none ∧
      solver (getScriptForDestination (.scriptID hash)) = some (.scriptHash, [hash.val]) := by
  obtain ⟨b, hb⟩ := hash
  match b, hb with
  | [_, _, _, _, _, _, _, _, _, _, _, _, _, _, _, _, _, _, _, _], _ => exact ⟨rfl, rfl⟩

theorem keyID_first (hash : Uint160) :
    isWitnessProgram (getScriptForDestination (.keyID hash)) = none ∧
      isPayToScriptHash (getScriptForDestination (.keyID hash)) = false := by
  obtain ⟨b, hb⟩ := hash
  match b, hb with
  | [_, _, _, _, _, _, _, _, _, _, _, _, _, _, _, _, _, _, _, _], _ => exact ⟨rfl, rfl⟩

theorem KeyPushes.getOp_some (h : KeyPushes flags script keys middle)
    (hlast : (getOp middle).isSome = true) : (getOp script).isSome = true := by
  cases h with
  | nil => exact hlast
  | cons hop => rw [hop, Option.isSome_some]

/-- `OP_PUBKEYS` takes all the keys. -/
theorem takePubKeys_eq (h : KeyPushes flags script keys middle) {opcode opN : UInt8} {data : Bytes}
    {restN : CScript} (hop : getOp script = some (opcode, data, rest))
    (hlast : getOp middle = some (opN, [], restN)) {fuel : Nat} (enough : keys.length < fuel)
    (solutions : List Bytes) :
    takePubKeys fuel opcode data rest solutions = (opN, [], restN, solutions ++ keys) := by
  induction h generalizing fuel opcode data rest solutions with
  | nil =>
    rw [hlast] at hop
    cases hop
    obtain ⟨fuel, rfl⟩ := Nat.exists_eq_add_one_of_ne_zero (Nat.ne_of_gt enough)
    rw [takePubKeys, if_neg (by simp), List.append_nil]
  | @cons script rest' middle opcode' key keys hop' hpush hsize hrest ih =>
    rw [hop'] at hop
    cases hop
    rw [List.length_cons] at enough
    obtain ⟨fuel, rfl⟩ := Nat.exists_eq_add_one_of_ne_zero (Nat.ne_of_gt (Nat.zero_lt_of_lt enough))
    have hsome := hrest.getOp_some (by rw [hlast, Option.isSome_some])
    obtain ⟨⟨opcode1, data1, rest1⟩, hnext⟩ := Option.isSome_iff_exists.mp hsome
    rw [takePubKeys, if_pos hsize, hnext]
    dsimp only
    rw [ih hnext hlast (by omega), List.append_assoc, List.singleton_append]

theorem matchOp_number {op : UInt8} (lo : op1 ≤ op) (hi : op ≤ op16) (solutions : List Bytes) :
    matchOp op [] opSmallInteger [] solutions = some (solutions ++ [[op - (op1 - 1)]]) := by
  have hkey : opSmallInteger ≠ opPubKey := by decide
  have hhash : opSmallInteger ≠ opPubKeyHash := by decide
  have hzero : op ≠ op0 := by
    rintro rfl
    exact absurd lo (by decide)
  simp [matchOp, hkey, hhash, hzero, lo, hi]

section Multisig

variable {required : UInt8}

/-- A script that starts with a number is none of the other templates. -/
theorem matchTemplate_number {opM : UInt8} (hm : getOp script = some (opM, [], rest))
    (hi : opM ≤ op16) :
    matchTemplate 3 script [opPubKey, opCheckSig] [] = none ∧
      matchTemplate 6 script [opDup, opHash160, opPubKeyHash, opEqualVerify, opCheckSig] [] =
        none := by
  constructor
  · have hne : opPubKey ≠ opPubKeys := by decide
    rw [matchTemplate, hm, getOp_op (by decide)]
    simp [hne, matchOp]
  · have hne : opDup ≠ opPubKeys ∧ opDup ≠ opPubKey ∧ opDup ≠ opPubKeyHash ∧
        opDup ≠ opSmallInteger := by decide
    have hdup : opM ≠ opDup := by
      rintro rfl
      exact absurd hi (by decide)
    rw [matchTemplate, hm, getOp_op (by decide)]
    simp [hne, matchOp, hdup]

section

variable (h : MultisigScript flags script required keys)
include h

theorem MultisigScript.matchTemplate :
    Script.matchTemplate 5 script [opSmallInteger, opPubKeys, opSmallInteger, opCheckMultiSig] [] =
      some ([required] :: (keys ++ [[UInt8.ofNat keys.length]])) := by
  cases h with
  | @intro rest rest' opM opN _ hm loM hiM hkeys hn loN hiN count bound =>
    have hnumber : opPushData4 < opSmallInteger := by decide
    have hne : opSmallInteger ≠ opPubKeys := by decide
    have hsome := hkeys.getOp_some (by rw [hn, Option.isSome_some])
    obtain ⟨⟨opcode, data, restK⟩, hk⟩ := Option.isSome_iff_exists.mp hsome
    have hcount := hkeys.pushes.length
    have htake := takePubKeys_eq hkeys hk hn
      (show keys.length < rest.length + 1 by omega) [[opM - (op1 - 1)]]
    rw [Script.matchTemplate, if_neg (by simp), hm, getOp_op hnumber]
    simp only [hne, if_false, matchOp_number loM hiM, Option.bind_some, List.nil_append]
    rw [Script.matchTemplate, if_neg (by simp), hk, getOp_op (by decide)]
    simp only [htake, getOp_op hnumber, matchOp_number loN hiN, Option.bind_some]
    rw [← count, UInt8.ofNat_toNat]
    rfl

theorem MultisigScript.counts :
    multisigCounts ([required] :: (keys ++ [[UInt8.ofNat keys.length]])) = true := by
  obtain ⟨hone, hle, hfew⟩ := h.bounds
  have hto : (UInt8.ofNat keys.length).toNat = keys.length := Nat.mod_eq_of_lt (by omega)
  have hback : ([required] :: (keys ++ [[UInt8.ofNat keys.length]])).getLast? =
      some [UInt8.ofNat keys.length] := by
    rw [← List.cons_append, List.getLast?_concat]
  rw [multisigCounts, hback]
  simp only [List.head?_cons, Option.bind_some, Bool.and_eq_true, decide_eq_true_eq, beq_iff_eq,
    UInt8.le_iff_toNat_le]
  simp only [List.length_cons, List.length_append, List.length_nil, UInt8.toNat_one]
  omega

/-- The multisig template matches, and no other does. -/
theorem MultisigScript.scanTemplates :
    Script.scanTemplates script mTemplates =
      some (.multisig, [required] :: (keys ++ [[UInt8.ofNat keys.length]])) := by
  have hthird := h.matchTemplate
  have hcounts := h.counts
  cases h with
  | intro hm _ hiM =>
    obtain ⟨hfirst, hsecond⟩ := matchTemplate_number hm hiM
    simp only [mTemplates, Script.scanTemplates, List.length_cons, List.length_nil, hfirst, hsecond,
      hthird, hcounts, Bool.true_eq_false, and_false, if_false]

end

end Multisig

/-! ## Multisig scripts as they are built -/

def getScriptForMultisig (nRequired : UInt8) (keys : List CPubKey) : CScript :=
  encodeOpN nRequired :: (keys.flatMap pushBytes ++
    [encodeOpN (UInt8.ofNat keys.length), opCheckMultiSig])

theorem keyPushes_flatMap (sizes : ∀ key ∈ keys, 33 ≤ key.length ∧ key.length ≤ 65) (tail : CScript) :
    KeyPushes flags (keys.flatMap pushBytes ++ tail) keys tail := by
  induction keys with
  | nil => exact .nil
  | cons key keys ih =>
    have hsize := sizes key List.mem_cons_self
    obtain ⟨opcode, hget, hpush⟩ : ∃ opcode,
        getOp (pushBytes key ++ (keys.flatMap pushBytes ++ tail)) =
          some (opcode, key, keys.flatMap pushBytes ++ tail) ∧ PushOf flags opcode key key :=
      pushOf_pushBytes (by omega) (by simp only [maxScriptElementSize]; omega) _
    rw [List.flatMap_cons, List.append_assoc]
    exact .cons hget hpush hsize (ih fun key' hkey => sizes key' (List.mem_cons_of_mem _ hkey))

theorem getOp_encodeOpN {n : UInt8} (lo : 1 ≤ n) (hi : n ≤ 16) (tail : CScript) :
    getOp (encodeOpN n :: tail) = some (encodeOpN n, [], tail) :=
  getOp_op (high_of_number (encodeOpN_small n lo hi).1)

variable {nRequired : UInt8}

section

variable (lo : 1 ≤ nRequired.toNat) (bound : nRequired.toNat ≤ keys.length) (few : keys.length ≤ 16)
  (sizes : ∀ key ∈ keys, 33 ≤ key.length ∧ key.length ≤ 65)
include lo bound few sizes

theorem multisigScript_getScript :
    MultisigScript flags (getScriptForMultisig nRequired keys) nRequired keys := by
  have hto : (UInt8.ofNat keys.length).toNat = keys.length := Nat.mod_eq_of_lt (by omega)
  have hbyte : ∀ b : UInt8, 1 ≤ b.toNat → b.toNat ≤ 16 → 1 ≤ b ∧ b ≤ 16 := by decide +kernel
  obtain ⟨hm1, hm16⟩ := hbyte nRequired lo (by omega)
  obtain ⟨hn1, hn16⟩ := hbyte (UInt8.ofNat keys.length) (by omega) (by omega)
  obtain ⟨loM, hiM, hm⟩ := encodeOpN_small nRequired hm1 hm16
  obtain ⟨loN, hiN, hn⟩ := encodeOpN_small (UInt8.ofNat keys.length) hn1 hn16
  have hscript : MultisigScript flags (getScriptForMultisig nRequired keys)
      (encodeOpN nRequired - (op1 - 1)) keys :=
    .intro (getOp_encodeOpN hm1 hm16 _) loM hiM (keyPushes_flatMap sizes _)
      (getOp_encodeOpN hn1 hn16 _) loN hiN (by rw [hn, hto]) (by rw [hm]; exact bound)
  rwa [hm] at hscript

/-- It is not taken for a witness program: it is longer than its first push. -/
theorem multisig_first :
    isWitnessProgram (getScriptForMultisig nRequired keys) = none ∧
      isPayToScriptHash (getScriptForMultisig nRequired keys) = false ∧
      solver (getScriptForMultisig nRequired keys) =
        some (.multisig, [nRequired] :: (keys ++ [[UInt8.ofNat keys.length]])) := by
  have hscript : MultisigScript {} (getScriptForMultisig nRequired keys) nRequired keys :=
    multisigScript_getScript lo bound few sizes
  have hscan := hscript.scanTemplates
  have hbyte : ∀ b : UInt8, 1 ≤ b.toNat → b.toNat ≤ 16 →
      encodeOpN b ≠ opHash160 ∧ encodeOpN b ≠ opReturn := by decide +kernel
  obtain ⟨hhash, hret⟩ := hbyte nRequired lo (by omega)
  have hprogram : isWitnessProgram (getScriptForMultisig nRequired keys) = none := by
    cases keys with
    | nil => simp at bound; omega
    | cons key keys =>
      have hsize := sizes key List.mem_cons_self
      have hlen : (UInt8.ofNat key.length).toNat = key.length := Nat.mod_eq_of_lt (by omega)
      rw [getScriptForMultisig, List.flatMap_cons, pushBytes_key hsize.2, List.cons_append,
        List.cons_append, isWitnessProgram]
      split
      · rfl
      · split
        · rfl
        · rw [if_neg]
          simp only [List.length_cons, List.length_append]
          omega
  refine ⟨hprogram, by simp [isPayToScriptHash, getScriptForMultisig, hhash], ?_⟩
  rw [getScriptForMultisig] at hprogram hscan ⊢
  rw [solver_templates hhash hret hprogram, hscan]

end

end Recognise

end KubuCore.Script
