import KubuCore.Base.Admits
import KubuCore.Script.Interpreter

/-!
# Stricter flags reject more

Two runs of the interpreter that differ in their flags only. Under the larger
set every check is at least as strict and nothing else changes, so what a run
accepts is accepted under the smaller set with the same stack.
-/

namespace KubuCore.Script

open Checked

/-- Every flag of `F` is set in `G`. -/
structure Flags.Within (F G : Flags) : Prop where
  p2sh : F.p2sh = true → G.p2sh = true
  strictEnc : F.strictEnc = true → G.strictEnc = true
  derSig : F.derSig = true → G.derSig = true
  lowS : F.lowS = true → G.lowS = true
  nullDummy : F.nullDummy = true → G.nullDummy = true
  sigPushOnly : F.sigPushOnly = true → G.sigPushOnly = true
  minimalData : F.minimalData = true → G.minimalData = true
  discourageUpgradableNops : F.discourageUpgradableNops = true → G.discourageUpgradableNops = true
  cleanStack : F.cleanStack = true → G.cleanStack = true
  checkLockTimeVerify : F.checkLockTimeVerify = true → G.checkLockTimeVerify = true
  checkSequenceVerify : F.checkSequenceVerify = true → G.checkSequenceVerify = true
  witness : F.witness = true → G.witness = true
  discourageUpgradableWitnessProgram :
    F.discourageUpgradableWitnessProgram = true → G.discourageUpgradableWitnessProgram = true
  minimalIf : F.minimalIf = true → G.minimalIf = true
  nullFail : F.nullFail = true → G.nullFail = true
  witnessPubKeyType : F.witnessPubKeyType = true → G.witnessPubKeyType = true

/-- What `VerifyScript` asserts of its flags. -/
structure Flags.Allowed (F : Flags) : Prop where
  witness : F.witness = true → F.p2sh = true
  cleanStack : F.cleanStack = true → F.p2sh = true ∧ F.witness = true

/-- `F` discourages the unused no-ops only if the lock-time opcodes `G` enables
are no no-ops under `F`. -/
def Flags.KeepsLockTimes (F G : Flags) : Prop :=
  F.discourageUpgradableNops = true →
    (G.checkLockTimeVerify = true → F.checkLockTimeVerify = true) ∧
      (G.checkSequenceVerify = true → F.checkSequenceVerify = true)

/-- A check that a flag switches on is weaker where the flag may be off. -/
theorem relax {f g : Bool} {P : Prop} (h : f = true → g = true) (hg : g = false ∨ P) :
    f = false ∨ P := by
  cases hf : f with
  | false => exact .inl rfl
  | true => exact .inr (hg.resolve_left (by rw [h hf]; exact Bool.noConfusion))

def Context.withFlags (ctx : Context) (flags : Flags) : Context := { ctx with flags }

section Operations

variable {F G : Flags} (sub : F.Within G) (ctx : Context)

include sub

theorem scriptNum_admits (vch : Bytes) (nMaxNumSize : Nat) :
    Admits (scriptNum vch G.minimalData nMaxNumSize) (scriptNum vch F.minimalData nMaxNumSize) :=
  .require_bind id fun _ => .require_bind (relax sub.minimalData) fun _ => .refl _

theorem checkSignatureEncoding_admits (env : Env) (vchSig : Bytes) :
    Admits (checkSignatureEncoding env G vchSig) (checkSignatureEncoding env F vchSig) := by
  refine .ite (.refl _) (.require_bind ?_ fun _ => .require_bind (relax sub.lowS) fun _ =>
    .require (relax sub.strictEnc))
  refine Or.imp_left (mt ?_)
  exact Or.imp sub.derSig (Or.imp sub.lowS sub.strictEnc)

theorem checkPubKeyEncoding_admits (sigversion : SigVersion) (vchPubKey : Bytes) :
    Admits (checkPubKeyEncoding G sigversion vchPubKey)
      (checkPubKeyEncoding F sigversion vchPubKey) :=
  .require_bind (relax sub.strictEnc) fun _ => .require (relax sub.witnessPubKeyType)

theorem execConditional_admits (notIf fExec : Bool) (m : Machine) :
    Admits (execConditional (ctx.withFlags G) notIf fExec m)
      (execConditional (ctx.withFlags F) notIf fExec m) := by
  refine .ite ?_ (.refl _)
  split
  · exact .error _
  · refine .require_bind (Or.imp_left (mt ?_)) fun _ => .refl _
    exact And.imp_right sub.minimalIf

theorem execPick_admits (roll : Bool) (m : Machine) :
    Admits (execPick (ctx.withFlags G) roll m) (execPick (ctx.withFlags F) roll m) := by
  unfold execPick
  split
  · exact (scriptNum_admits sub _ _).bind fun _ => .refl _
  · exact .error _

theorem execUnaryOp_admits (op : UnaryOp) (m : Machine) :
    Admits (execUnaryOp (ctx.withFlags G) op m) (execUnaryOp (ctx.withFlags F) op m) := by
  unfold execUnaryOp
  split
  · exact (scriptNum_admits sub _ _).bind fun _ => .refl _
  · exact .error _

theorem execBinaryOp_admits (op : BinaryOp) (m : Machine) :
    Admits (execBinaryOp (ctx.withFlags G) op m) (execBinaryOp (ctx.withFlags F) op m) := by
  unfold execBinaryOp
  split
  · exact (scriptNum_admits sub _ _).bind fun _ => (scriptNum_admits sub _ _).bind fun _ => .refl _
  · exact .error _

theorem execWithin_admits (m : Machine) :
    Admits (execWithin (ctx.withFlags G) m) (execWithin (ctx.withFlags F) m) := by
  unfold execWithin
  split
  · exact (scriptNum_admits sub _ _).bind fun _ => (scriptNum_admits sub _ _).bind fun _ =>
      (scriptNum_admits sub _ _).bind fun _ => .refl _
  · exact .error _

theorem execCheckSig_admits (verify : Bool) (m : Machine) :
    Admits (execCheckSig (ctx.withFlags G) verify m) (execCheckSig (ctx.withFlags F) verify m) := by
  unfold execCheckSig
  split
  · refine (checkSignatureEncoding_admits sub _ _).bind fun _ =>
      (checkPubKeyEncoding_admits sub _ _).bind fun _ => .require_bind ?_ fun _ => .refl _
    exact Or.imp_right (relax sub.nullFail)
  · exact .error _

theorem multiSigLoop_admits (scriptCode : CScript) (verified keys sigs : List Bytes) :
    Admits (multiSigLoop (ctx.withFlags G) scriptCode verified keys sigs)
      (multiSigLoop (ctx.withFlags F) scriptCode verified keys sigs) := by
  induction keys generalizing verified sigs with
  | nil => cases sigs <;> exact .refl _
  | cons key keys ih =>
    cases sigs with
    | nil => exact .refl _
    | cons vchSig sigs =>
      exact (checkSignatureEncoding_admits sub _ _).bind fun _ =>
        (checkPubKeyEncoding_admits sub _ _).bind fun _ => .ite (.refl _) (ih _ _)

theorem execCheckMultiSig_admits (verify : Bool) (m : Machine) :
    Admits (execCheckMultiSig (ctx.withFlags G) verify m)
      (execCheckMultiSig (ctx.withFlags F) verify m) := by
  unfold execCheckMultiSig
  split
  · exact .error _
  · refine (scriptNum_admits sub _ _).bind fun _ => .require_bind id fun _ =>
      .require_bind id fun _ => ?_
    split
    · exact .error _
    · refine (scriptNum_admits sub _ _).bind fun _ => .require_bind id fun _ =>
        .require_bind id fun _ => (multiSigLoop_admits sub ctx _ _ _ _).bind fun _ =>
        .require_bind (Or.imp_right (relax sub.nullFail)) fun _ => ?_
      split
      · exact .error _
      · exact .require_bind (relax sub.nullDummy) fun _ => .refl _

theorem nop_admits (m : Machine) :
    Admits
      (do
        require (G.discourageUpgradableNops = false) ScriptError.discourageUpgradableNops
        pure m)
      (do
        require (F.discourageUpgradableNops = false) ScriptError.discourageUpgradableNops
        pure m) := by
  refine .require_bind (fun h => ?_) fun _ => .refl _
  exact (relax sub.discourageUpgradableNops (.inl h : _ ∨ False)).resolve_right id

omit sub in
/-- Neither lock-time opcode changes the machine. -/
theorem execLockTime_keeps {enabled : Bool} {check : Int → Except ScriptError Unit}
    {m m' : Machine} (h : execLockTime ctx enabled check m = .ok m') : m' = m := by
  unfold execLockTime at h
  split at h
  · split at h
    · cases h
    · simp only [eq_ok] at h
      obtain ⟨-, -, -, -, -, -, rfl⟩ := h
      rfl
  · simp only [eq_ok] at h
    obtain ⟨-, -, rfl⟩ := h
    rfl

/-- A lock-time opcode that only the larger set enables is a no-op under the smaller one. -/
theorem execLockTime_admits {f g : Bool} (hsub : f = true → g = true)
    (hnop : F.discourageUpgradableNops = true → g = true → f = true)
    (check : Int → Except ScriptError Unit) (m : Machine) :
    Admits (execLockTime (ctx.withFlags G) g check m) (execLockTime (ctx.withFlags F) f check m) := by
  cases hg : g with
  | false =>
    have hf : f = false := Bool.eq_false_iff.mpr fun hf => by rw [hsub hf] at hg; cases hg
    subst hf
    exact nop_admits sub m
  | true =>
    cases hf : f with
    | true =>
      refine .ite ?_ (nop_admits sub m)
      split
      · exact .error _
      · exact (scriptNum_admits sub _ _).bind fun _ => .refl _
    | false =>
      -- Only `G` looks at the stack; `F` must not mind the no-op.
      intro m' h
      have hquiet : F.discourageUpgradableNops = false :=
        Bool.eq_false_iff.mpr fun hd => by rw [hnop hd hg] at hf; cases hf
      rw [execLockTime_keeps _ h]
      refine (if_neg Bool.false_ne_true).trans (bind_eq_ok.mpr ⟨(), ?_, rfl⟩)
      exact (require_eq_ok _ _ _).mpr hquiet

variable (locks : F.KeepsLockTimes G)

include locks

theorem execOp_admits (op : Opcode) (fExec : Bool) (rest : CScript) (m : Machine) :
    Admits (execOp (ctx.withFlags G) op fExec rest m) (execOp (ctx.withFlags F) op fExec rest m) := by
  cases op with
  | checkLockTimeVerify =>
    exact execLockTime_admits sub ctx sub.checkLockTimeVerify (fun hd => (locks hd).1) _ m
  | checkSequenceVerify =>
    exact execLockTime_admits sub ctx sub.checkSequenceVerify (fun hd => (locks hd).2) _ m
  | upgradableNop => exact nop_admits sub m
  | conditional notIf => exact execConditional_admits sub ctx notIf fExec m
  | pick roll => exact execPick_admits sub ctx roll m
  | unary op => exact execUnaryOp_admits sub ctx op m
  | binary op => exact execBinaryOp_admits sub ctx op m
  | within => exact execWithin_admits sub ctx m
  | checkSig verify => exact execCheckSig_admits sub ctx verify m
  | checkMultiSig verify => exact execCheckMultiSig_admits sub ctx verify m
  | _ => exact .refl _

theorem stepMachine_admits (opcode : UInt8) (vchPushValue : Bytes) (rest : CScript) (m : Machine) :
    Admits (stepMachine (ctx.withFlags G) opcode vchPushValue rest m)
      (stepMachine (ctx.withFlags F) opcode vchPushValue rest m) := by
  refine .require_bind id fun _ => .require_bind id fun _ => .require_bind id fun _ =>
    .ite ?_ (.ite ?_ (.refl _))
  · exact .require_bind (relax sub.minimalData) fun _ => .refl _
  · exact (execOp_admits sub ctx locks _ _ _ _).bind fun _ => .refl _

theorem runMachine_admits (fuel : Nat) (script : CScript) (m : Machine) :
    Admits (runMachine (ctx.withFlags G) fuel script m)
      (runMachine (ctx.withFlags F) fuel script m) := by
  induction fuel generalizing script m with
  | zero => cases script <;> exact .refl _
  | succ fuel ih =>
    cases script with
    | nil => exact .refl _
    | cons byte script =>
      simp only [runMachine]
      split
      · exact .error _
      · exact (stepMachine_admits sub ctx locks _ _ _ _).bind fun _ => ih _ _

theorem evalScript_admits (script : CScript) (start : Evaluation) :
    Admits (evalScript (ctx.withFlags G) script start)
      (evalScript (ctx.withFlags F) script start) :=
  .require_bind id fun _ => (runMachine_admits sub ctx locks _ _ _).bind fun _ => .refl _

/-! ## Witnesses -/

theorem checkWitnessStack_admits (script : CScript) (start : Evaluation) :
    Admits (checkWitnessStack (ctx.withFlags G) script start)
      (checkWitnessStack (ctx.withFlags F) script start) :=
  .require_bind id fun _ =>
    (evalScript_admits sub { ctx with sigversion := .witnessV0 } locks _ _).bind fun _ => .refl _

theorem verifyWitnessProgram_admits (witness : List Bytes) (witversion : Nat) (program : Bytes)
    (verified : List Bytes) :
    Admits (verifyWitnessProgram (ctx.withFlags G) witness witversion program verified)
      (verifyWitnessProgram (ctx.withFlags F) witness witversion program verified) := by
  refine .ite (.ite ?_ (.ite ?_ (.error _))) ?_
  · split
    · exact .error _
    · exact .require_bind id fun _ => (checkWitnessStack_admits sub ctx locks _ _).bind fun _ =>
        .refl _
  · exact .require_bind id fun _ => (checkWitnessStack_admits sub ctx locks _ _).bind fun _ =>
      .refl _
  · refine .require_bind (fun h => ?_) fun _ => .refl _
    exact (relax sub.discourageUpgradableWitnessProgram (.inl h : _ ∨ False)).resolve_right id

/-- Under a set with the witness flag the witness is checked alike. -/
theorem verifyWitness_admits (hF : F.witness = true) (script : CScript) (malleated : Bool)
    (malleatedError : ScriptError) (witness : List Bytes) (verified : List Bytes) :
    Admits (verifyWitness (ctx.withFlags G) script malleated malleatedError witness verified)
      (verifyWitness (ctx.withFlags F) script malleated malleatedError witness verified) := by
  have hG := sub.witness hF
  simp only [verifyWitness, Context.withFlags, hF, hG]
  refine .ite ?_ (.refl _)
  split
  · exact .refl _
  · exact .require_bind id fun _ => (verifyWitnessProgram_admits sub ctx locks _ _ _ _).bind fun _ =>
      .refl _

theorem verifyRedeemScript_admits (hF : F.witness = true) (scriptSig : CScript)
    (witness stackCopy verified : List Bytes) :
    Admits (verifyRedeemScript (ctx.withFlags G) scriptSig witness stackCopy verified)
      (verifyRedeemScript (ctx.withFlags F) scriptSig witness stackCopy verified) := by
  refine .require_bind id fun _ => ?_
  split
  · exact .error _
  · exact (evalScript_admits sub ctx locks _ _).bind fun _ => .bind (.refl _) fun _ =>
      (verifyWitness_admits sub ctx locks hF _ _ _ _ _).bind fun _ => .refl _

omit sub locks in
theorem verifyWitness_off (hF : F.witness = false) (script : CScript) (malleated : Bool)
    (malleatedError : ScriptError) (witness verified : List Bytes) :
    verifyWitness (ctx.withFlags F) script malleated malleatedError witness verified =
      .ok (false, verified) := by
  simp [verifyWitness, Context.withFlags, hF]

omit sub locks in
/-- A script-hash output is no witness program. -/
theorem verifyWitness_of_scriptHash {script : CScript} (hscript : isPayToScriptHash script = true)
    (malleated : Bool) (malleatedError : ScriptError) (witness verified : List Bytes) :
    verifyWitness ctx script malleated malleatedError witness verified = .ok (false, verified) := by
  have hnone : isWitnessProgram script = none := by
    cases script with
    | nil => rfl
    | cons v rest =>
      have hv : v = opHash160 := by
        simp only [isPayToScriptHash, Bool.and_eq_true, beq_iff_eq] at hscript
        exact Option.some_inj.mp hscript.1.1.2
      subst hv
      cases rest with
      | nil => rfl
      | cons len program =>
        have hversion : opHash160 ≠ op0 ∧ (opHash160 < op1 ∨ op16 < opHash160) := by decide
        unfold isWitnessProgram
        dsimp only
        rw [if_pos hversion, ite_self]
  simp [verifyWitness, hnone]

end Operations

section Runs

variable (env : Env) (checker : Checker) {F G : Flags} (sub : F.Within G) (allowed : F.Allowed)
  (locks : F.KeepsLockTimes G) (scriptSig scriptPubKey : CScript) (witness : List Bytes)

include sub allowed locks

/-- With the witness flag in the smaller set both runs take the same path. -/
theorem verifyScript_admits (hwitness : F.witness = true) :
    Admits (verifyScript env checker G scriptSig scriptPubKey witness)
      (verifyScript env checker F scriptSig scriptPubKey witness) := by
  have hp2sh := allowed.witness hwitness
  have hwitnessG := sub.witness hwitness
  have hp2shG := sub.p2sh hp2sh
  let ctx : Context := ⟨env, G, checker, .base⟩
  simp only [verifyScript, hwitness, hp2sh, hwitnessG, hp2shG]
  refine .require_bind (relax sub.sigPushOnly) fun _ =>
    (evalScript_admits sub ctx locks _ _).bind fun _ =>
    (evalScript_admits sub ctx locks _ _).bind fun _ => .bind (.refl _) fun _ =>
    (verifyWitness_admits sub ctx locks hwitness _ _ _ _ _).bind fun _ => .ite ?_ ?_
  · exact (verifyRedeemScript_admits sub ctx locks hwitness _ _ _ _).bind fun _ =>
      .bind (.refl _) fun _ => .require_bind (relax sub.cleanStack) fun _ => .refl _
  · exact .bind (.refl _) fun _ => .require_bind (relax sub.cleanStack) fun _ => .refl _

/-- Without it the smaller set has neither the clean-stack check nor a witness to look at, and
only a redeem script may still have to run. -/
theorem verifyScript_off (hwitness : F.witness = false) {verified : List Bytes}
    (h : verifyScript env checker G scriptSig scriptPubKey witness = .ok verified) :
    ∃ verified', verifyScript env checker F scriptSig scriptPubKey witness = .ok verified' := by
  have hclean : F.cleanStack = false :=
    Bool.eq_false_iff.mpr fun hc => by rw [(allowed.cleanStack hc).2] at hwitness; cases hwitness
  let ctx : Context := ⟨env, G, checker, .base⟩
  simp only [verifyScript, eq_ok] at h
  obtain ⟨-, hpush, first, hfirst, result, hresult, ⟨⟩, htrue, checked, hchecked, h⟩ := h
  have hfirst' := evalScript_admits sub ctx locks _ _ _ hfirst
  have hresult' := evalScript_admits sub ctx locks _ _ _ hresult
  simp only [verifyScript, eq_ok]
  by_cases hp2sh : F.p2sh = true ∧ isPayToScriptHash scriptPubKey = true
  · rw [if_pos ⟨sub.p2sh hp2sh.1, hp2sh.2⟩] at h
    rw [verifyWitness_of_scriptHash _ hp2sh.2] at hchecked
    cases hchecked
    obtain ⟨redeemed, hredeemed, -⟩ := bind_eq_ok.mp h
    simp only [verifyRedeemScript, eq_ok] at hredeemed
    obtain ⟨-, hpushOnly, hredeemed⟩ := hredeemed
    cases hstack : first.stack with
    | nil => rw [hstack] at hredeemed; cases hredeemed
    | cons pubKey2 stack =>
      rw [hstack] at hredeemed
      simp only [bind_eq_ok] at hredeemed
      obtain ⟨evaluated, heval, ⟨⟩, htrue', -⟩ := hredeemed
      have heval' := evalScript_admits sub ctx locks _ _ _ heval
      refine ⟨evaluated.verified, (), relax sub.sigPushOnly hpush, first, hfirst', result, hresult',
        (), htrue, _, verifyWitness_off ctx hwitness .., ?_⟩
      rw [if_pos hp2sh, hstack]
      simp only [eq_ok]
      refine ⟨(evaluated, false), ?_, _, rfl, (), .inl hclean, (), .inl hwitness, rfl⟩
      simp only [verifyRedeemScript, eq_ok]
      exact ⟨(), hpushOnly, evaluated, heval', (), htrue', _, verifyWitness_off ctx hwitness .., rfl⟩
  · refine ⟨result.verified, (), relax sub.sigPushOnly hpush, first, hfirst', result, hresult', (),
      htrue, _, verifyWitness_off ctx hwitness .., ?_⟩
    rw [if_neg hp2sh]
    simp only [eq_ok]
    exact ⟨_, rfl, (), .inl hclean, (), .inl hwitness, rfl⟩

end Runs

/-- A run that succeeds under a flag set succeeds under every smaller one. -/
theorem stricter_flags_reject_more (env : Env) (checker : Checker) {F G : Flags}
    (sub : F.Within G) (allowed : F.Allowed) (locks : F.KeepsLockTimes G)
    (scriptSig scriptPubKey : CScript) (witness : List Bytes)
    (h : (verifyScript env checker G scriptSig scriptPubKey witness).isOk = true) :
    (verifyScript env checker F scriptSig scriptPubKey witness).isOk = true := by
  cases hwitness : F.witness with
  | true => exact (verifyScript_admits env checker sub allowed locks _ _ _ hwitness).isOk h
  | false =>
    obtain ⟨verified, hG⟩ := exists_of_isOk h
    obtain ⟨verified', hF⟩ := verifyScript_off env checker sub allowed locks _ _ _ hwitness hG
    rw [hF]
    rfl

def blankChecker : Checker := ⟨fun _ _ _ _ => false, fun _ => false, fun _ => false⟩

def allFlags : Flags :=
  ⟨true, true, true, true, true, true, true, true, true, true, true, true, true, true, true, true⟩

/-- The output that pays to the script with the zero digest. -/
def blankScriptHash : CScript := opHash160 :: 0x14 :: (List.replicate 20 0 ++ [opEqual])

/-- The redeem script `OP_1` passes under all flags, and so under P2SH alone. -/
theorem stricter_flags_reject_more_redeem :
    (verifyScript blankEnv blankChecker { p2sh := true } [1, op1]
      blankScriptHash []).isOk = true := by
  have sub : Flags.Within { p2sh := true } allFlags := by
    constructor <;> exact fun _ => rfl
  have allowed : Flags.Allowed { p2sh := true } :=
    ⟨fun _ => rfl, fun h => by cases h⟩
  exact stricter_flags_reject_more blankEnv blankChecker sub allowed (fun h => by cases h) [1, op1]
    blankScriptHash [] (by decide +kernel)

end KubuCore.Script
