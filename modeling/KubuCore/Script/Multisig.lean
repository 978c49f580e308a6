import KubuCore.Base.Matching
import KubuCore.Script.Pushes
import KubuCore.Script.SigOps

/-!
# Multisig scripts

`OP_m <key> … <key> OP_n OP_CHECKMULTISIG`, however the keys are pushed. Running one
matches the signatures below it with its keys, last to last, each signature with the
first key left that it is valid for. Deleting the signatures from the script changes
nothing as long as none of them is one of its keys.
-/

namespace KubuCore.Script

open Checked Matching

/-! ## Deleting what is not there -/

variable {opcode : UInt8} {data : Bytes} {script : CScript}

/-- Every operation of the script is of this kind. -/
inductive Reads (ok : UInt8 → Bytes → Prop) : CScript → Prop where
  | nil : Reads ok []
  | cons {script rest : CScript} {opcode : UInt8} {data : Bytes} :
      getOp script = some (opcode, data, rest) → ok opcode data → Reads ok rest → Reads ok script

/-- A push that stands where an operation starts is that operation. -/
theorem pushBytes_not_prefix {rest : CScript} {sig : Bytes}
    (hop : getOp script = some (opcode, data, rest)) (hne : opcode ≤ opPushData4 → data ≠ sig)
    (short : sig.length ≤ 0xffff) : (pushBytes sig).isPrefixOf script = false := by
  rw [Bool.eq_false_iff]
  intro hprefix
  obtain ⟨after, rfl⟩ := List.isPrefixOf_iff_prefix.mp hprefix
  obtain ⟨opcode', hget, hlow, -⟩ := getOp_pushBytes_rest short after
  rw [hget] at hop
  obtain ⟨rfl, rfl, -⟩ : opcode' = opcode ∧ sig = data ∧ after = rest := by simpa using hop
  exact hne hlow rfl

theorem findAndDelete_reads {sig : Bytes} (short : sig.length ≤ 0xffff)
    (h : Reads (fun opcode data => opcode ≤ opPushData4 → data ≠ sig) script) :
    findAndDelete script (pushBytes sig) = script := by
  have hloop : ∀ fuel, script.length < fuel →
      findAndDeleteFuel (pushBytes sig) fuel script = script := by
    induction h with
    | nil =>
      intro fuel hfuel
      obtain ⟨fuel, rfl⟩ := Nat.exists_eq_add_one_of_ne_zero (Nat.ne_of_gt hfuel)
      rfl
    | @cons script rest opcode data hop hne _ ih =>
      intro fuel hfuel
      obtain ⟨fuel, rfl⟩ := Nat.exists_eq_add_one_of_ne_zero (Nat.ne_of_gt (Nat.zero_lt_of_lt hfuel))
      have hlen := length_getOp hop
      obtain ⟨n, hn⟩ := Nat.exists_eq_add_one_of_ne_zero (Nat.ne_of_gt (Nat.zero_lt_of_lt hlen))
      have hskip : skipCopies (pushBytes sig) script.length script = script := by
        rw [hn, skipCopies, pushBytes_not_prefix hop hne short]
        simp
      obtain ⟨before, rfl⟩ := (getOp_suffix hop).1
      rw [findAndDeleteFuel, hskip, hop]
      dsimp only
      rw [ih fuel (by omega)]
      simp
  rw [findAndDelete]
  split
  · rfl
  · exact hloop _ (Nat.lt_succ_self _)

/-! ## The script -/

/-- Reading the script gives pushes of these keys and leaves the rest. -/
inductive KeyPushes (flags : Flags) : CScript → List Bytes → CScript → Prop where
  | nil {script : CScript} : KeyPushes flags script [] script
  | cons {script rest tail : CScript} {opcode : UInt8} {key : Bytes} {keys : List Bytes} :
      getOp script = some (opcode, key, rest) → PushOf flags opcode key key →
      33 ≤ key.length ∧ key.length ≤ 65 → KeyPushes flags rest keys tail →
      KeyPushes flags script (key :: keys) tail

/-- A script that asks for `required` signatures out of the keys. -/
inductive MultisigScript (flags : Flags) : CScript → UInt8 → List Bytes → Prop where
  | intro {script rest rest' : CScript} {opM opN : UInt8} {keys : List Bytes}
      (hm : getOp script = some (opM, [], rest)) (loM : op1 ≤ opM) (hiM : opM ≤ op16)
      (hkeys : KeyPushes flags rest keys rest')
      (hn : getOp rest' = some (opN, [], [opCheckMultiSig])) (loN : op1 ≤ opN) (hiN : opN ≤ op16)
      (count : (opN - (op1 - 1)).toNat = keys.length)
      (bound : (opM - (op1 - 1)).toNat ≤ keys.length) :
      MultisigScript flags script (opM - (op1 - 1)) keys

section Script

variable {flags : Flags} {script rest tail : CScript} {required : UInt8} {keys : List Bytes}

section

variable (h : KeyPushes flags script keys tail)
include h

theorem KeyPushes.pushes : Pushes flags script keys tail := by
  induction h with
  | nil => exact .nil
  | cons hop hpush _ _ ih => exact .cons hop hpush ih

theorem KeyPushes.reads {ok : UInt8 → Bytes → Prop} (hkeys : ∀ key ∈ keys, ∀ opcode, ok opcode key)
    (htail : Reads ok tail) : Reads ok script := by
  induction h with
  | nil => exact htail
  | cons hop _ _ _ ih =>
    rw [List.forall_mem_cons] at hkeys
    exact .cons hop (hkeys.1 _) (ih hkeys.2 htail)

theorem KeyPushes.length_le : script.length ≤ 70 * keys.length + tail.length := by
  induction h with
  | nil => simp
  | cons hop _ hsize _ ih =>
    have hlen := (getOp_suffix hop).2.1
    rw [List.length_cons]
    omega

theorem KeyPushes.sizes : ∀ key ∈ keys, 33 ≤ key.length := by
  induction h with
  | nil => simp
  | cons _ _ hsize _ ih =>
    exact List.forall_mem_cons.mpr ⟨hsize.1, ih⟩

end

theorem smallNumber : ∀ opcode : UInt8, op1 ≤ opcode → opcode ≤ op16 →
    1 ≤ (opcode - (op1 - 1)).toNat ∧ (opcode - (op1 - 1)).toNat ≤ 16 := by
  decide +kernel

section

variable (h : MultisigScript flags script required keys)
include h

theorem MultisigScript.bounds :
    1 ≤ required.toNat ∧ required.toNat ≤ keys.length ∧ keys.length ≤ 16 := by
  cases h with
  | intro _ loM hiM _ _ loN hiN count bound =>
    have hn := smallNumber _ loN hiN
    exact ⟨(smallNumber _ loM hiM).1, bound, by omega⟩

theorem MultisigScript.sizes : ∀ key ∈ keys, 33 ≤ key.length := by
  cases h with
  | intro _ _ _ hkeys => exact hkeys.sizes

theorem MultisigScript.pushes :
    Pushes flags script ([required] :: (keys ++ [[UInt8.ofNat keys.length]])) [opCheckMultiSig] := by
  cases h with
  | intro hm loM hiM hkeys hn loN hiN count =>
    rw [← count, UInt8.ofNat_toNat]
    exact .cons hm (.number loM hiM) (hkeys.pushes.append (.cons hn (.number loN hiN) .nil))

theorem MultisigScript.short : script.length ≤ maxScriptSize := by
  have hbounds := h.bounds
  cases h with
  | intro hm _ _ hkeys hn =>
    have hfirst := (getOp_suffix hm).2.1
    have hlast := (getOp_suffix hn).2.1
    have hmiddle := hkeys.length_le
    simp only [List.length_nil, List.length_singleton, maxScriptSize] at *
    omega

theorem MultisigScript.reads :
    Reads (fun opcode data => opcode ≤ opPushData4 → data ∈ keys) script := by
  cases h with
  | intro hm loM _ hkeys hn loN =>
    have hhigh : ∀ {opcode : UInt8}, op1 ≤ opcode → ¬ opcode ≤ opPushData4 := fun lo =>
      UInt8.not_le.mpr (high_of_number lo)
    have hlast : getOp [opCheckMultiSig] = some (opCheckMultiSig, [], []) := rfl
    refine .cons hm (fun h => absurd h (hhigh loM)) (hkeys.reads (fun key hkey _ _ => hkey) ?_)
    exact .cons hn (fun h => absurd h (hhigh loN)) (.cons hlast (fun h => absurd h (by decide)) .nil)

end

theorem Reads.mono {ok ok' : UInt8 → Bytes → Prop} (h : Reads ok script)
    (hmono : ∀ opcode data, ok opcode data → ok' opcode data) : Reads ok' script := by
  induction h with
  | nil => exact .nil
  | cons hop hok _ ih => exact .cons hop (hmono _ _ hok) ih

/-- Signatures that are no keys of the script are not found in it. -/
theorem MultisigScript.dropSignatures (h : MultisigScript flags script required keys) (ctx : Context)
    {sigs : List Bytes} (apart : ∀ sig ∈ sigs, sig ∉ keys)
    (short : ∀ sig ∈ sigs, sig.length ≤ 0xffff) :
    sigs.foldl (dropSignature ctx) script = script := by
  induction sigs with
  | nil => rfl
  | cons sig sigs ih =>
    rw [List.forall_mem_cons] at apart short
    have hone : dropSignature ctx script sig = script := by
      rw [dropSignature]
      split
      · refine findAndDelete_reads short.1 (h.reads.mono ?_)
        rintro opcode data hread hlow rfl
        exact apart.1 (hread hlow)
      · rfl
    rw [List.foldl_cons, hone]
    exact ih apart.2 short.2

end Script

/-! ## Running it -/

section Run

variable {ctx : Context}

/-- The signature is valid for the key. -/
def Context.valid (ctx : Context) (scriptCode : CScript) (vchSig vchPubKey : Bytes) : Bool :=
  ctx.checker.checkSig vchSig vchPubKey scriptCode ctx.sigversion

theorem multiSigLoop_eq {scriptCode : CScript} {verified keys sigs : List Bytes}
    (hsigs : ∀ sig ∈ sigs, checkSignatureEncoding ctx.env ctx.flags sig = .ok ())
    (hkeys : ∀ key ∈ keys, checkPubKeyEncoding ctx.flags ctx.sigversion key = .ok ()) :
    ∃ verified', multiSigLoop ctx scriptCode verified keys sigs =
      .ok (greedy (ctx.valid scriptCode) keys sigs, verified') := by
  induction keys generalizing verified sigs with
  | nil =>
    cases sigs with
    | nil => exact ⟨verified, rfl⟩
    | cons sig sigs => exact ⟨verified, rfl⟩
  | cons key keys ih =>
    cases sigs with
    | nil => exact ⟨verified, rfl⟩
    | cons sig sigs =>
      obtain ⟨hkey, hkeys⟩ := List.forall_mem_cons.mp hkeys
      obtain ⟨hsig, hrest⟩ := List.forall_mem_cons.mp hsigs
      simp only [multiSigLoop, check_except, call_except, pure_bind, hsig, hkey, ok_bind, greedy,
        Context.valid]
      -- giving up early is what matching the rest would come to
      have hfew : ∀ {left : List Bytes}, keys.length < left.length →
          greedy (ctx.valid scriptCode) keys left = false := by
        intro left hlt
        rw [Bool.eq_false_iff, ne_eq, greedy_iff]
        intro h
        exact absurd h.length (Nat.not_le.mpr hlt)
      by_cases hok : ctx.checker.checkSig sig key scriptCode ctx.sigversion = true
      · simp only [hok, if_true]
        split
        · rename_i hlt
          exact ⟨_, by rw [hfew hlt]; rfl⟩
        · exact ih hrest hkeys
      · simp only [hok, if_false, Bool.false_eq_true]
        split
        · rename_i hlt
          exact ⟨_, by rw [hfew hlt]; rfl⟩
        · exact ih hsigs hkeys

theorem scriptNum_small : ∀ b : UInt8, 1 ≤ b.toNat → b.toNat ≤ 16 →
    isMinimalNumber [b] = true ∧ setVch [b] = b.toNat := by
  decide +kernel

theorem scriptNum_eq {b : UInt8} (lo : 1 ≤ b.toNat) (hi : b.toNat ≤ 16) (minimal : Bool) :
    scriptNum [b] minimal nDefaultMaxNumSize = .ok b.toNat := by
  obtain ⟨hminimal, hvalue⟩ := scriptNum_small b lo hi
  simp [scriptNum, require, hminimal, hvalue, nDefaultMaxNumSize]

section Operation

variable {m m' : Machine} {required : UInt8} {keys : List Bytes}

theorem scriptNum_count (nonempty : 1 ≤ keys.length) (few : keys.length ≤ 16) (minimal : Bool) :
    scriptNum [UInt8.ofNat keys.length] minimal nDefaultMaxNumSize = .ok keys.length := by
  have hto : (UInt8.ofNat keys.length).toNat = keys.length := Nat.mod_eq_of_lt (by omega)
  rw [scriptNum_eq (by omega) (by omega), hto]

section

variable {keysCount sigsCount dummy : Bytes} {sigs s : List Bytes}
  (stack : m.stack = keysCount :: (keys ++ sigsCount :: (sigs ++ dummy :: s)))
  (hkeys : scriptNum keysCount ctx.flags.minimalData nDefaultMaxNumSize = .ok keys.length)
  (hsigs : scriptNum sigsCount ctx.flags.minimalData nDefaultMaxNumSize = .ok sigs.length)
  (few : keys.length ≤ 20) (bound : sigs.length ≤ keys.length)
  (count : m.nOpCount + keys.length ≤ maxOpsPerScript)
include stack hkeys hsigs few bound count

/-- `OP_CHECKMULTISIG` takes the counts, the keys, the signatures and the element below them. -/
theorem execCheckMultiSig_eq {verified : List Bytes} {success : Bool}
    (loop : multiSigLoop ctx (sigs.foldl (dropSignature ctx) m.codeHash) m.verified keys sigs =
      .ok (success, verified)) :
    execCheckMultiSig ctx false m = (do
      require (success ∨ ctx.flags.nullFail = false ∨ ∀ vchSig ∈ sigs, vchSig = [])
        ScriptError.sigNullFail
      require (ctx.flags.nullDummy = false ∨ dummy = []) ScriptError.sigNullDummy
      pure { m with
        nOpCount := m.nOpCount + keys.length, verified, stack := ofBool success :: s }) := by
  have hrange : (0 : Int) ≤ keys.length ∧ (keys.length : Int) ≤ maxPubKeysPerMultisig := by
    simp only [maxPubKeysPerMultisig]
    omega
  have hcount : (0 : Int) ≤ sigs.length ∧ (sigs.length : Int) ≤ keys.length := by omega
  have hroom : (sigs.length : Int) + 1 ≤ (sigs ++ dummy :: s).length := by
    rw [List.length_append, List.length_cons]
    omega
  simp only [execCheckMultiSig, check_except, stack, hkeys, hsigs, ok_bind, Int.toNat_natCast,
    List.take_left, List.drop_left, loop, (require_eq_ok _ _ ()).mpr hrange,
    (require_eq_ok _ _ ()).mpr count, (require_eq_ok _ _ ()).mpr hcount,
    (require_eq_ok _ _ ()).mpr hroom, Bool.false_eq_true, if_false]

/-- With encodings that are accepted the operation succeeds exactly if the signatures are valid for
keys that stand in the same order; it asks at most once for each key. -/
theorem execCheckMultiSig_matching
    (sigsOk : ∀ sig ∈ sigs, checkSignatureEncoding ctx.env ctx.flags sig = .ok ())
    (keysOk : ∀ key ∈ keys, checkPubKeyEncoding ctx.flags ctx.sigversion key = .ok ()) :
    Metered.result (execCheckMultiSig ctx false m) = execCheckMultiSig ctx false m ∧
      Metered.calls (execCheckMultiSig ctx false m) ≤ keys.length ∧
      ∃ (success : Bool) (verified : List Bytes),
        (success = true ↔
          Assigned (ctx.valid (sigs.foldl (dropSignature ctx) m.codeHash)) keys sigs) ∧
        execCheckMultiSig ctx false m = (do
          require (success ∨ ctx.flags.nullFail = false ∨ ∀ vchSig ∈ sigs, vchSig = [])
            ScriptError.sigNullFail
          require (ctx.flags.nullDummy = false ∨ dummy = []) ScriptError.sigNullDummy
          pure { m with
            nOpCount := m.nOpCount + keys.length, verified, stack := ofBool success :: s }) := by
  obtain ⟨verified, hloop⟩ := multiSigLoop_eq sigsOk keysOk
  refine ⟨result_execCheckMultiSig ctx false m, execCheckMultiSig_calls ctx false ?_, _, verified,
    greedy_iff, execCheckMultiSig_eq stack hkeys hsigs few bound count hloop⟩
  intro first rest n hstack hn _
  obtain ⟨rfl, -⟩ := List.cons.inj (stack.symm.trans hstack)
  rw [hkeys] at hn
  cases hn
  rfl

end

/-- The signature is valid for the second of the keys. -/
theorem execCheckMultiSig_matching_pair :
    Metered.calls (execCheckMultiSig
      ⟨blankEnv, {}, { blankChecker with checkSig := fun sig key _ _ => sig == key }, .base⟩ false
      ⟨[[2], [5], [6], [1], [6], [], [9]], [], [], 0, [], []⟩) ≤ 2 := by
  have stack : (⟨[[2], [5], [6], [1], [6], [], [9]], [], [], 0, [], []⟩ : Machine).stack =
    [2] :: ([[5], [6]] ++ [1] :: ([[6]] ++ [] :: [[9]])) := rfl
  exact (execCheckMultiSig_matching stack (by rfl) (by rfl) (by decide) (by decide) (by decide)
    (by decide) (by decide)).2.1

/-- Where it succeeds, the signatures are what stands below the keys. -/
theorem execCheckMultiSig_ok {st : List Bytes} (some_required : 1 ≤ required.toNat)
    (bound : required.toNat ≤ keys.length) (few : keys.length ≤ 16)
    (stack : m.stack = [UInt8.ofNat keys.length] :: (keys.reverse ++ [required] :: st))
    (h : execCheckMultiSig ctx false m = .ok m') :
    ∃ success verified s, required.toNat < st.length ∧
      multiSigLoop ctx ((st.take required.toNat).foldl (dropSignature ctx) m.codeHash) m.verified
        keys.reverse (st.take required.toNat) = .ok (success, verified) ∧
      m'.stack = ofBool success :: s := by
  have htake : (keys.reverse ++ [required] :: st).take keys.length = keys.reverse :=
    List.take_left' (List.length_reverse)
  have hdrop : (keys.reverse ++ [required] :: st).drop keys.length = [required] :: st :=
    List.drop_left' (List.length_reverse)
  simp only [execCheckMultiSig, check_except, stack, scriptNum_count (by omega) few, ok_bind,
    Int.toNat_natCast, htake, hdrop, scriptNum_eq some_required (Nat.le_trans bound few), eq_ok,
    Prod.exists] at h
  obtain ⟨-, -, -, -, -, -, -, hroom, success, verified, hloop, -, -, h⟩ := h
  refine ⟨success, verified, ?_⟩
  split at h
  · cases h
  · rename_i dummy s _
    simp only [Bool.false_eq_true, if_false, eq_ok] at h
    obtain ⟨-, -, rfl⟩ := h
    exact ⟨s, by omega, hloop, rfl⟩

end Operation

/-! ## Running the script -/

section Evaluation

variable {script : CScript} {required : UInt8} {keys : List Bytes}

section

variable (h : MultisigScript ctx.flags script required keys)
include h

/-- Before the script is its last opcode, it has pushed the counts and the keys. -/
theorem MultisigScript.run (st verified : List Bytes) (room : st.length + keys.length + 2 ≤ 1000) :
    ∃ fuel, runMachine ctx script.length script { stack := st, verified, codeHash := script } =
      runMachine ctx (fuel + 1) [opCheckMultiSig]
        { stack := [UInt8.ofNat keys.length] :: (keys.reverse ++ [required] :: st), verified,
          codeHash := script } := by
  have hlen := h.pushes.length
  rw [List.length_singleton] at hlen
  obtain ⟨fuel, hfuel⟩ := Nat.exists_eq_add_of_le' hlen
  refine ⟨fuel, ?_⟩
  rw [hfuel, Nat.add_comm _ 1, ← Nat.add_assoc, runMachine_pushes h.pushes rfl]
  · simp
  · simp only [List.length_cons, List.length_append]
    omega

/-- The outcome of running the script. -/
theorem MultisigScript.evalScript {sigs s : List Bytes} {dummy : Bytes} (verified : List Bytes)
    (hlen : sigs.length = required.toNat) (apart : ∀ sig ∈ sigs, sig ∉ keys)
    (short : ∀ sig ∈ sigs, sig.length ≤ 0xffff)
    (hsigs : ∀ sig ∈ sigs, checkSignatureEncoding ctx.env ctx.flags sig = .ok ())
    (hkeys : ∀ key ∈ keys, checkPubKeyEncoding ctx.flags ctx.sigversion key = .ok ())
    (room : s.length ≤ 900)
    (nullFail : ctx.flags.nullFail = false ∨ greedy (ctx.valid script) keys.reverse sigs = true)
    (nullDummy : ctx.flags.nullDummy = false ∨ dummy = []) :
    ∃ verified', Script.evalScript ctx script ⟨sigs ++ dummy :: s, verified⟩ =
      .ok ⟨ofBool (greedy (ctx.valid script) keys.reverse sigs) :: s, verified'⟩ := by
  obtain ⟨some_required, bound, few⟩ := h.bounds
  have hrev : ∀ key ∈ keys.reverse, checkPubKeyEncoding ctx.flags ctx.sigversion key = .ok () :=
    fun key hkey => hkeys key (List.mem_reverse.mp hkey)
  obtain ⟨verified', hloop⟩ : ∃ verified', multiSigLoop ctx script verified keys.reverse sigs =
    .ok (greedy (ctx.valid script) keys.reverse sigs, verified') := multiSigLoop_eq hsigs hrev
  obtain ⟨fuel, hrun⟩ := h.run (sigs ++ dummy :: s) verified (by
    rw [List.length_append, List.length_cons]
    omega)
  have hexec : execOp ctx (decodeOpcode opCheckMultiSig) true []
      { stack := [UInt8.ofNat keys.length] :: (keys.reverse ++ [required] :: (sigs ++ dummy :: s)),
        codeHash := script, verified := verified, nOpCount := 0 + 1 } =
      .ok
        { stack := ofBool (greedy (ctx.valid script) keys.reverse sigs) :: s, codeHash := script,
          verified := verified', nOpCount := 0 + 1 + keys.length } := by
    have hdecode : decodeOpcode opCheckMultiSig = .checkMultiSig false := rfl
    rw [hdecode, execOp]
    have hkeysCount : scriptNum [UInt8.ofNat keys.length] ctx.flags.minimalData nDefaultMaxNumSize =
        .ok keys.reverse.length := by
      rw [List.length_reverse, scriptNum_count (by omega) few]
    have hsigsCount : scriptNum [required] ctx.flags.minimalData nDefaultMaxNumSize =
        .ok sigs.length := by
      rw [hlen, scriptNum_eq some_required (Nat.le_trans bound few)]
    have hcount : 0 + 1 + keys.reverse.length ≤ maxOpsPerScript := by
      rw [List.length_reverse, maxOpsPerScript]
      omega
    rw [← h.dropSignatures ctx apart short] at hloop nullFail
    rw [execCheckMultiSig_eq rfl hkeysCount hsigsCount (by simp; omega) (by simp; omega) hcount hloop,
      (require_eq_ok _ _ ()).mpr (nullFail.symm.imp_right .inl), (require_eq_ok _ _ ()).mpr nullDummy]
    simp only [List.length_reverse, h.dropSignatures ctx apart short]
    rfl
  rw [Script.evalScript, (require_eq_ok _ _ ()).mpr h.short, hrun,
    runMachine_op_eq (by decide) (by decide) rfl (by decide : 0 < maxOpsPerScript) hexec (by
      simp only [List.length_cons, List.length_nil]
      omega)]
  simp [runMachine, require]

/-- A run that succeeds under flags that check no encodings. -/
theorem MultisigScript.evalScript_ok {start result : Evaluation}
    (apart : ∀ element ∈ start.stack, element ∉ keys)
    (short : ∀ element ∈ start.stack, element.length ≤ 0xffff)
    (hsigs : ∀ sig, checkSignatureEncoding ctx.env ctx.flags sig = .ok ())
    (hkeys : ∀ key, checkPubKeyEncoding ctx.flags ctx.sigversion key = .ok ())
    (heval : Script.evalScript ctx script start = .ok result) :
    ∃ sigs s, sigs.Sublist start.stack ∧ sigs.length = required.toNat ∧
      result.stack = ofBool (greedy (ctx.valid script) keys.reverse sigs) :: s := by
  obtain ⟨some_required, bound, few⟩ := h.bounds
  obtain ⟨stack, verified⟩ := start
  simp only [Script.evalScript, eq_ok] at heval
  obtain ⟨-, -, m, hrun, -, -, rfl⟩ := heval
  have hlen := h.pushes.length
  rw [List.length_singleton] at hlen
  obtain ⟨fuel, hfuel⟩ := Nat.exists_eq_add_of_le' hlen
  rw [hfuel, Nat.add_comm _ 1, ← Nat.add_assoc] at hrun
  have hlast := runMachine_pushes_ok h.pushes rfl hrun
  obtain ⟨n, m1, hexec, hend⟩ := runMachine_op (by decide) rfl hlast
  obtain rfl : m1 = m := by simpa [runMachine] using hend
  have hform : ([required] :: (keys ++ [[UInt8.ofNat keys.length]])).reverse ++ stack =
      [UInt8.ofNat keys.length] :: (keys.reverse ++ [required] :: stack) := by simp
  obtain ⟨success, verified', s, hroom, hloop, hstack⟩ :=
    execCheckMultiSig_ok some_required bound few hform hexec
  have hmem : ∀ sig ∈ stack.take required.toNat, sig ∈ stack := fun _ => List.mem_of_mem_take
  rw [h.dropSignatures ctx (fun sig hsig => apart sig (hmem sig hsig))
    (fun sig hsig => short sig (hmem sig hsig))] at hloop
  obtain ⟨_, hgreedy⟩ := multiSigLoop_eq (fun sig _ => hsigs sig) (fun key _ => hkeys key)
  rw [hgreedy] at hloop
  obtain ⟨rfl, -⟩ := Prod.mk.inj (Except.ok.inj hloop)
  refine ⟨_, s, List.take_sublist _ _, ?_, hstack⟩
  exact List.length_take_of_le (Nat.le_of_lt hroom)

end

end Evaluation

end Run

/-! ## Recognising the script -/

section Solver

variable {flags : Flags} {script rest : CScript} {opcode : UInt8} {data : Bytes}

/-- The operations that `OP_PUBKEYS` takes are pushes of keys. -/
theorem takePubKeys_spec (plain : flags.minimalData = false) {fuel : Nat} {solutions : List Bytes}
    (hop : getOp script = some (opcode, data, rest)) {opcode' : UInt8} {data' : Bytes}
    {rest' : CScript} {solutions' : List Bytes}
    (h : takePubKeys fuel opcode data rest solutions = (opcode', data', rest', solutions')) :
    ∃ keys middle, solutions' = solutions ++ keys ∧ KeyPushes flags script keys middle ∧
      (getOp middle = some (opcode', data', rest') ∨ opcode' = opInvalidOpcode) := by
  induction fuel generalizing script opcode data rest solutions with
  | zero =>
    cases h
    exact ⟨[], script, by simp, .nil, .inl hop⟩
  | succ fuel ih =>
    rw [takePubKeys] at h
    split at h
    · rename_i hsize
      have hpush : PushOf flags opcode data data := by
        refine .data ?_ (by simp only [maxScriptElementSize]; omega) (.inl plain)
        rw [← UInt8.not_lt]
        intro hhigh
        have hempty := (getOp_suffix hop).2.2 hhigh
        rw [hempty] at hsize
        exact absurd hsize.1 (by decide)
      cases hnext : getOp rest with
      | none =>
        rw [hnext] at h
        cases h
        exact ⟨[data], _, rfl, .cons hop hpush hsize .nil, .inr rfl⟩
      | some read =>
        rw [hnext] at h
        obtain ⟨keys, middle, rfl, hkeys, hlast⟩ := ih hnext h
        exact ⟨data :: keys, middle, by simp, .cons hop hpush hsize hkeys, hlast⟩
    · cases h
      exact ⟨[], script, by simp, .nil, .inl hop⟩

variable {solutions solutions' : List Bytes}

theorem matchOp_smallInteger
    (h : matchOp opcode data opSmallInteger [] solutions = some solutions') :
    ∃ n, solutions' = solutions ++ [[n]] ∧ (1 ≤ n → op1 ≤ opcode ∧ opcode ≤ op16 ∧
      n = opcode - (op1 - 1)) := by
  have hkey : opSmallInteger ≠ opPubKey := by decide
  have hhash : opSmallInteger ≠ opPubKeyHash := by decide
  simp only [matchOp, hkey, hhash, if_false, if_true] at h
  split at h
  · cases h
    exact ⟨0, rfl, fun h => absurd h (by decide)⟩
  · split at h
    · rename_i hrange
      cases h
      exact ⟨_, rfl, fun _ => ⟨hrange.1, hrange.2, rfl⟩⟩
    · cases h

theorem matchOp_checkMultiSig
    (h : matchOp opcode data opCheckMultiSig [] solutions = some solutions') :
    opcode = opCheckMultiSig ∧ solutions' = solutions := by
  have hkey : opCheckMultiSig ≠ opPubKey := by decide
  have hhash : opCheckMultiSig ≠ opPubKeyHash := by decide
  have hsmall : opCheckMultiSig ≠ opSmallInteger := by decide
  simp only [matchOp, hkey, hhash, hsmall, if_false] at h
  split at h
  · cases h
  · rename_i hsame
    cases h
    exact ⟨by_contra fun hne => hsame (.inl hne), rfl⟩

theorem matchTemplate_nil {fuel : Nat}
    (h : matchTemplate fuel script [] solutions = some solutions') :
    script = [] ∧ solutions' = solutions := by
  cases fuel with
  | zero => cases h
  | succ fuel =>
    rw [matchTemplate] at h
    split at h
    · rename_i hnil
      cases h
      exact ⟨hnil.1, rfl⟩
    · have hend : getOp [] = none := rfl
      rw [hend] at h
      cases hop : getOp script <;> simp at h

/-- The multisig template is the last one scanned. -/
theorem scanTemplates_multisig (h : scanTemplates script mTemplates = some (.multisig, solutions)) :
    matchTemplate 5 script [opSmallInteger, opPubKeys, opSmallInteger, opCheckMultiSig] [] =
      some solutions ∧ multisigCounts solutions = true := by
  rw [mTemplates, scanTemplates] at h
  split at h
  · simp at h
  · rw [scanTemplates] at h
    split at h
    · simp at h
    · rw [scanTemplates] at h
      split at h
      · rename_i found hmatch
        by_cases hcounts : multisigCounts found = true
        · simp only [hcounts, Bool.true_eq_false, if_false, Option.some.injEq,
            Prod.mk.injEq, true_and] at h
          rw [← h]
          exact ⟨hmatch, hcounts⟩
        · simp [hcounts] at h
      · simp [scanTemplates] at h

/-- What the multisig template matches. -/
theorem matchTemplate_multisig (plain : flags.minimalData = false) {solutions : List Bytes}
    (h : matchTemplate 5 script [opSmallInteger, opPubKeys, opSmallInteger, opCheckMultiSig] [] =
      some solutions) (hcounts : multisigCounts solutions = true) :
    ∃ required keys, solutions = [required] :: (keys ++ [[UInt8.ofNat keys.length]]) ∧
      MultisigScript flags script required keys := by
  have hnumber : opPushData4 < opSmallInteger := by decide
  have hsmall : opSmallInteger ≠ opPubKeys := by decide
  have hlast : opCheckMultiSig ≠ opPubKeys := by decide
  rw [matchTemplate, if_neg (by simp), getOp_op hnumber] at h
  cases hm : getOp script with
  | none => simp [hm] at h
  | some read =>
    obtain ⟨opM, dataM, rest⟩ := read
    simp only [hm, hsmall, if_false, Option.bind_eq_some_iff] at h
    obtain ⟨solutionsM, hmatchM, h⟩ := h
    obtain ⟨required, rfl, hrequired⟩ := matchOp_smallInteger hmatchM
    rw [matchTemplate, if_neg (by simp), getOp_op (by decide)] at h
    cases hk : getOp rest with
    | none => simp [hk] at h
    | some read =>
      obtain ⟨opK, dataK, restK⟩ := read
      obtain ⟨opN, dataN, rest', solutionsK, htake⟩ : ∃ a b c d,
          takePubKeys (rest.length + 1) opK dataK restK ([] ++ [[required]]) = (a, b, c, d) :=
        ⟨_, _, _, _, rfl⟩
      simp only [hk, if_true, htake, getOp_op hnumber, Option.bind_eq_some_iff] at h
      obtain ⟨solutionsN, hmatchN, h⟩ := h
      obtain ⟨keys, middle, rfl, hkeys, hn⟩ := takePubKeys_spec plain hk htake
      obtain ⟨n, rfl, hcount⟩ := matchOp_smallInteger hmatchN
      rw [matchTemplate, if_neg (by simp), getOp_op (by decide)] at h
      cases hc : getOp rest' with
      | none => simp [hc] at h
      | some read =>
        obtain ⟨opC, dataC, restC⟩ := read
        simp only [hc, hlast, if_false, Option.bind_eq_some_iff] at h
        obtain ⟨solutionsC, hmatchC, h⟩ := h
        obtain ⟨rfl, rfl⟩ := matchOp_checkMultiSig hmatchC
        obtain ⟨rfl, rfl⟩ := matchTemplate_nil h
        obtain ⟨hm1, hn1, hle, hlen⟩ :
            1 ≤ required ∧ 1 ≤ n ∧ required ≤ n ∧ keys.length = n.toNat := by
          have hback : ([] ++ [[required]] ++ keys ++ [[n]]).getLast? = some [n] :=
            List.getLast?_concat
          rw [multisigCounts, hback] at hcounts
          simpa [and_assoc] using hcounts
        obtain ⟨loM, hiM, rfl⟩ := hrequired hm1
        obtain ⟨loN, hiN, rfl⟩ := hcount hn1
        rcases hn with hn | rfl
        · have hdataM := (getOp_suffix hm).2.2 (high_of_number loM)
          have hdataN := (getOp_suffix hn).2.2 (high_of_number loN)
          have htail := getOp_high hc (by decide)
          subst hdataM hdataN htail
          refine ⟨_, keys, ?_, .intro hm loM hiM hkeys hn loN hiN hlen.symm ?_⟩
          · rw [hlen]
            simp
          · rw [hlen]
            exact UInt8.le_iff_toNat_le.mp hle
        · exact absurd hiN (by decide)

/-- A multisig output script, with its number of signatures and its keys. -/
theorem solver_multisig (plain : flags.minimalData = false) {solutions : List Bytes}
    (h : solver script = some (.multisig, solutions)) :
    ∃ required keys, solutions = [required] :: (keys ++ [[UInt8.ofNat keys.length]]) ∧
      MultisigScript flags script required keys ∧ isPayToScriptHash script = false := by
  rw [solver] at h
  split at h
  · cases h
  · rename_i hhash
    split at h
    · split at h
      · cases h
      · split at h
        · cases h
        · cases h
    · split at h
      · cases h
      · obtain ⟨hmatch, hcounts⟩ := scanTemplates_multisig h
        obtain ⟨required, keys, hsolutions, hscript⟩ := matchTemplate_multisig plain hmatch hcounts
        exact ⟨required, keys, hsolutions, hscript, Bool.eq_false_iff.mpr hhash⟩

end Solver

end KubuCore.Script
