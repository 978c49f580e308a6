import KubuCore.Base.Sets
import KubuCore.Script.Multisig

/-!
# Combining signatures

`CombineSignatures` of `sign.cpp` merges two partial scriptSigs for one output. For a
multisig script it pools the elements of both, finds for each key a signature among
them and writes the signatures in the order of the keys. The result is accepted as
soon as the two inputs together hold signatures for enough positions of the script.
-/

namespace KubuCore.Script

open Checked Matching
open Std

/-! ## The stacks -/

/-- The solution for one input. -/
structure SignatureData where
  scriptSig : CScript
  scriptWitness : List Bytes := []
deriving DecidableEq, Repr

/-- `BaseSignatureChecker`, which accepts nothing. -/
def baseSignatureChecker : Checker where
  checkSig _ _ _ _ := false
  checkLockTime _ := false
  checkSequence _ := false

/-- The stack that a failed round of the loop leaves. Only what the operations of a
push-only script do is followed: they fail before they push, or because the stack has
become too large. -/
def stackAtFailure (opcode : UInt8) (vchPushValue : Bytes) (m : Machine) :
    ScriptError → List Bytes
  | .stackSize =>
    match decodeOpcode opcode with
    | .number n => serialize n :: m.stack
    | _ => if opcode ≤ opPushData4 then vchPushValue :: m.stack else m.stack
  | _ => m.stack

/-- The stack of `EvalScript` when it returns, whatever it returns. -/
def runStack (ctx : Context) : Nat → CScript → Machine → List Bytes
  | _, [], m => m.stack
  | 0, _ :: _, m => m.stack
  | fuel + 1, script, m =>
    match getOp script with
    | none => m.stack
    | some (opcode, vchPushValue, rest) =>
      match stepMachine ctx opcode vchPushValue rest m with
      | .ok m => runStack ctx fuel rest m
      | .error e => stackAtFailure opcode vchPushValue m e

/-- The elements a scriptSig leaves on the stack, bottom first. The result of the
evaluation is not looked at. -/
def heldElements (env : Env) (scriptSig : CScript) : List Bytes :=
  if scriptSig.length ≤ maxScriptSize then
    (runStack ⟨env, { strictEnc := true }, baseSignatureChecker, .base⟩ scriptSig.length scriptSig
      { stack := [], verified := [], codeHash := scriptSig }).reverse
  else []

structure Stacks where
  script : List Bytes := []
  witness : List Bytes := []
deriving DecidableEq, Repr

def Stacks.ofData (env : Env) (data : SignatureData) : Stacks :=
  ⟨heldElements env data.scriptSig, data.scriptWitness⟩

def Stacks.output (sigs : Stacks) : SignatureData := ⟨pushAll sigs.script, sigs.witness⟩

/-! ## Combining -/

/-- The keys `vSolutions` holds between the two counts. -/
def solutionKeys (solutions : List Bytes) : List Bytes := solutions.tail.dropLast

/-- `nSigsRequired`. -/
def solutionRequired (solutions : List Bytes) : Nat :=
  ((solutions.headD []).headD 0).toNat

/-- The first key without a signature that this one is valid for gets it. -/
def serveKey (valid : Bytes → Bytes → Bool) (pubkeys : List Bytes)
    (sigs : ExtTreeMap Bytes Bytes) (sig : Bytes) : ExtTreeMap Bytes Bytes :=
  match pubkeys.find? fun pubkey => !sigs.contains pubkey && valid sig pubkey with
  | some pubkey => sigs.insert pubkey sig
  | none => sigs

/-- The signatures in the order of the keys, until there are enough. -/
def takeSigs (sigs : ExtTreeMap Bytes Bytes) (nSigsRequired : Nat) (pubkeys : List Bytes) :
    List Bytes :=
  firstSome (fun pubkey => sigs[pubkey]?) nSigsRequired pubkeys

def combineMultisig (scriptPubKey : CScript) (checker : Checker) (solutions sigs1 sigs2 : List Bytes)
    (sigversion : SigVersion) : List Bytes :=
  let allsigs := ((sigs1 ++ sigs2).filter (· ≠ [])).foldl (fun all sig => all.insert sig)
    (∅ : ExtTreeSet Bytes)
  let nSigsRequired := solutionRequired solutions
  let pubkeys := solutionKeys solutions
  let valid sig pubkey := checker.checkSig sig pubkey scriptPubKey sigversion
  let sigs := allsigs.toList.foldl (serveKey valid pubkeys) ∅
  let taken := takeSigs sigs nSigsRequired pubkeys
  [] :: (taken ++ List.replicate (nSigsRequired - taken.length) [])

/-- The type and solutions that `Solver` leaves behind, also where it fails: a multisig
script with wrong counts is still reported as one. An unknown witness program leaves
the type as it was, which is not set before; it is taken as nonstandard here. -/
def solverType (scriptPubKey : CScript) : Option (TxnOutType × List Bytes) :=
  match solver scriptPubKey with
  | some solved => some solved
  | none =>
    if isWitnessProgram scriptPubKey = none then
      (matchTemplate 5 scriptPubKey [opSmallInteger, opPubKeys, opSmallInteger, opCheckMultiSig]
        []).map fun solutions => (.multisig, solutions)
    else none

/-- The element `back()` of a stack; the empty element if there is none. -/
def backOrEmpty (stack : List Bytes) : Bytes := stack.getLast?.getD []

theorem length_dropLast_lt {stack : List Bytes} (h : backOrEmpty stack ≠ []) :
    stack.dropLast.length < stack.length := by
  cases stack with
  | nil => exact absurd rfl h
  | cons element stack => simp

/-- The recursive `CombineSignatures`, `none` standing for `TX_NONSTANDARD`. -/
def combineStacks (checker : Checker) (scriptPubKey : CScript)
    (solved : Option (TxnOutType × List Bytes)) (sigs1 sigs2 : Stacks) (sigversion : SigVersion) :
    Stacks :=
  match solved with
  | none | some (.nullData, _) =>
    if sigs2.script.length ≤ sigs1.script.length then sigs1 else sigs2
  | some (.pubKey, _) | some (.pubKeyHash, _) =>
    if sigs1.script.headD [] = [] then sigs2 else sigs1
  | some (.witnessV0KeyHash, _) => if sigs1.witness.headD [] = [] then sigs2 else sigs1
  | some (.scriptHash, _) =>
    let spk := backOrEmpty sigs1.script
    if _h : backOrEmpty sigs1.script = [] then sigs2
    else if backOrEmpty sigs2.script = [] then sigs1
    else
      let result := combineStacks checker spk (solverType spk)
        { sigs1 with script := sigs1.script.dropLast }
        { sigs2 with script := sigs2.script.dropLast } sigversion
      { result with script := result.script ++ [spk] }
  | some (.multisig, solutions) =>
    { script := combineMultisig scriptPubKey checker solutions sigs1.script sigs2.script sigversion }
  | some (.witnessV0ScriptHash, _) =>
    let pubKey2 := backOrEmpty sigs1.witness
    if _h : backOrEmpty sigs1.witness = [] then sigs2
    else if backOrEmpty sigs2.witness = [] then sigs1
    else
      let result := combineStacks checker pubKey2 (solverType pubKey2)
        { script := sigs1.witness.dropLast } { script := sigs2.witness.dropLast } .witnessV0
      { witness := result.script ++ [pubKey2] }
termination_by sigs1.script.length + sigs1.witness.length
decreasing_by
  · have := length_dropLast_lt _h
    omega
  · have := length_dropLast_lt _h
    simp only [List.length_nil]
    omega

def combineSignatures (env : Env) (checker : Checker) (scriptPubKey : CScript)
    (scriptSig1 scriptSig2 : SignatureData) : SignatureData :=
  (combineStacks checker scriptPubKey (solverType scriptPubKey) (.ofData env scriptSig1)
    (.ofData env scriptSig2) .base).output

/-! ## The pool -/

section Pool

variable {valid : Bytes → Bytes → Bool} {pubkeys : List Bytes}

/-- The keys that have a signature after these elements have been tried. -/
structure Serves (valid : Bytes → Bytes → Bool) (pubkeys tried : List Bytes)
    (sigs : ExtTreeMap Bytes Bytes) : Prop where
  sound : ∀ {key sig : Bytes}, sigs[key]? = some sig → sig ∈ tried ∧ valid sig key = true
  complete : ∀ key ∈ pubkeys, ∀ sig ∈ tried, valid sig key = true → key ∈ sigs

variable {tried : List Bytes} {sigs : ExtTreeMap Bytes Bytes}

theorem Serves.step
    (oneKey : ∀ sig key key', valid sig key = true → valid sig key' = true → key = key')
    (h : Serves valid pubkeys tried sigs) (sig : Bytes) :
    Serves valid pubkeys (tried ++ [sig]) (serveKey valid pubkeys sigs sig) := by
  have hmem : ∀ {other : Bytes}, other ∈ tried ++ [sig] ↔ other ∈ tried ∨ other = sig := by simp
  rw [serveKey]
  split
  · rename_i key hfind
    have hkey := List.find?_some hfind
    simp only [Bool.and_eq_true] at hkey
    refine ⟨fun {key' sig'} hget => ?_, fun key' hkey' sig' hsig' hvalid => ?_⟩
    · rw [ExtTreeMap.getElem?_insert] at hget
      split at hget
      · rename_i heq
        obtain rfl := LawfulEqCmp.eq_of_compare heq
        cases hget
        exact ⟨hmem.mpr (.inr rfl), hkey.2⟩
      · obtain ⟨hold, hvalid⟩ := h.sound hget
        exact ⟨hmem.mpr (.inl hold), hvalid⟩
    · rw [ExtTreeMap.mem_insert]
      rcases hmem.mp hsig' with hold | rfl
      · exact .inr (h.complete key' hkey' sig' hold hvalid)
      · rw [oneKey _ _ _ hvalid hkey.2]
        exact .inl ReflCmp.compare_self
  · rename_i hfind
    rw [List.find?_eq_none] at hfind
    refine ⟨fun {key' sig'} hget => ?_, fun key' hkey' sig' hsig' hvalid => ?_⟩
    · obtain ⟨hold, hvalid⟩ := h.sound hget
      exact ⟨hmem.mpr (.inl hold), hvalid⟩
    · rcases hmem.mp hsig' with hold | rfl
      · exact h.complete key' hkey' sig' hold hvalid
      · have hnone := hfind key' hkey'
        simp only [hvalid, Bool.and_true, Bool.not_eq_true', Bool.not_eq_false] at hnone
        exact ExtTreeMap.contains_iff_mem.mp hnone

theorem Serves.run
    (oneKey : ∀ sig key key', valid sig key = true → valid sig key' = true → key = key')
    (todo : List Bytes) (h : Serves valid pubkeys tried sigs) :
    Serves valid pubkeys (tried ++ todo) (todo.foldl (serveKey valid pubkeys) sigs) := by
  induction todo generalizing tried sigs with
  | nil => simpa using h
  | cons sig todo ih =>
    have hrest := ih (h.step oneKey sig)
    rwa [List.append_assoc, List.singleton_append] at hrest

theorem serves_empty : Serves valid pubkeys [] ∅ where
  sound h := by simp at h
  complete _ _ _ h := by simp at h

variable {tried : List Bytes} {sigs : ExtTreeMap Bytes Bytes}

theorem Serves.countP (h : Serves valid pubkeys tried sigs) :
    pubkeys.countP (fun key => sigs[key]?.isSome) =
      pubkeys.countP fun key => tried.any fun sig => valid sig key := by
  refine List.countP_congr fun key hkey => ?_
  rw [List.any_eq_true]
  constructor
  · intro hsome
    obtain ⟨sig, hget⟩ := Option.isSome_iff_exists.mp hsome
    exact ⟨sig, h.sound hget⟩
  · rintro ⟨sig, hsig, hvalid⟩
    exact ExtTreeMap.mem_iff_isSome_getElem?.mp (h.complete key hkey sig hsig hvalid)

end Pool

/-! ## What the scriptSigs hold -/

section Held

variable {ctx ctx' : Context} {m : Machine}

/-- Pushes do not depend on who checks signatures. -/
theorem stepMachine_congr (plain : ctx.flags.minimalData = false)
    (plain' : ctx'.flags.minimalData = false) {opcode : UInt8} (low : opcode ≤ op16) (data : Bytes)
    (rest : CScript) (exec : m.vfExec = []) :
    stepMachine ctx opcode data rest m = stepMachine ctx' opcode data rest m := by
  have hcount : ¬ op16 < opcode := UInt8.not_lt.mpr low
  have hall : m.vfExec.all id = true := by simp [exec]
  by_cases hlow : opcode ≤ opPushData4
  · simp [stepMachine, hall, hlow, plain, plain']
  · have hexec : execOp ctx (decodeOpcode opcode) true rest m =
        execOp ctx' (decodeOpcode opcode) true rest m := by
      rcases decodeOpcode_high opcode (UInt8.not_le.mp hlow) low with rfl | hbad | hlo
      · rfl
      · rw [hbad, execOp, execOp]
      · rw [(decodeOpcode_number opcode hlo low).1, execOp, execOp]
    simp [stepMachine, hcount, hall, hlow, hexec]

variable {opcode : UInt8} {data : Bytes} {fuel : Nat} {script rest : CScript}

/-- One round over a push-only script. -/
theorem isPushOnlyFuel_succ (nonempty : script ≠ []) (h : isPushOnlyFuel (fuel + 1) script = true) :
    ∃ opcode data rest, getOp script = some (opcode, data, rest) ∧ opcode ≤ op16 ∧
      isPushOnlyFuel fuel rest = true := by
  cases script with
  | nil => exact absurd rfl nonempty
  | cons b bytes =>
    cases hop : getOp (b :: bytes) with
    | none => simp [isPushOnlyFuel, hop] at h
    | some read =>
      obtain ⟨opcode, data, rest⟩ := read
      simp only [isPushOnlyFuel, hop, Bool.and_eq_true, Bool.not_eq_true',
        decide_eq_false_iff_not] at h
      exact ⟨opcode, data, rest, rfl, UInt8.not_lt.mp h.1, h.2⟩

theorem runStack_succ (hop : getOp script = some (opcode, data, rest)) :
    runStack ctx (fuel + 1) script m = match stepMachine ctx opcode data rest m with
      | .ok m => runStack ctx fuel rest m
      | .error e => stackAtFailure opcode data m e := by
  cases script with
  | nil => cases hop
  | cons b bytes =>
    rw [runStack, hop]
    simp

/-- The stack of a script of pushes that runs to its end. -/
theorem runStack_eq (plain : ctx.flags.minimalData = false) (plain' : ctx'.flags.minimalData = false)
    {fuel : Nat} {script : CScript} {m' : Machine} (exec : m.vfExec = [])
    (pushOnly : isPushOnlyFuel fuel script = true) (h : runMachine ctx fuel script m = .ok m') :
    runStack ctx' fuel script m = m'.stack := by
  induction fuel generalizing script m with
  | zero =>
    cases script with
    | nil =>
      cases h
      rfl
    | cons b bytes => cases h
  | succ fuel ih =>
    by_cases hnil : script = []
    · subst hnil
      cases h
      rfl
    · obtain ⟨opcode, data, rest, hop, hlow, hpush⟩ := isPushOnlyFuel_succ hnil pushOnly
      rw [runMachine_eq hop, bind_eq_ok] at h
      obtain ⟨m1, hstep, hrun⟩ := h
      obtain ⟨value, -, rfl⟩ := pushOf_stepMachine hlow (getOp_suffix hop).2.2 exec hstep
      rw [runStack_succ hop, ← stepMachine_congr plain plain' hlow data rest exec, hstep]
      exact ih (m := m.push value) exec hpush hrun

theorem heldElements_eq {env : Env} {scriptSig : CScript} {first : Evaluation}
    (plain : ctx.flags.minimalData = false) (pushOnly : isPushOnly scriptSig = true)
    (h : evalScript ctx scriptSig {} = .ok first) :
    heldElements env scriptSig = first.stack.reverse := by
  simp only [evalScript, check_except, eq_ok] at h
  obtain ⟨-, hsize, m, hrun, -, -, rfl⟩ := h
  rw [heldElements, if_pos hsize, runStack_eq plain rfl rfl pushOnly hrun]

theorem PushOf.length_le {flags : Flags} {value : Bytes}
    (h : PushOf flags opcode data value) : value.length ≤ maxScriptElementSize := by
  cases h with
  | data _ size => exact size
  | number => simp [maxScriptElementSize]
  | negate => decide

theorem length_magnitude (fuel n : Nat) : (magnitude fuel n).length ≤ fuel := by
  induction fuel generalizing n with
  | zero => simp [magnitude]
  | succ fuel ih =>
    rw [magnitude]
    split
    · simp
    · have hrest := ih (n / 256)
      rw [List.length_cons]
      omega

theorem length_serialize (n : Int) : (serialize n).length ≤ 9 := by
  have hlen := length_magnitude 8 n.natAbs
  unfold serialize
  dsimp only
  split
  · simp
  · split
    · rw [List.length_append, List.length_singleton]
      omega
    · split
      · rw [List.length_append, List.length_singleton, List.length_dropLast]
        omega
      · omega

theorem size_of_stackSize (h : stepMachine ctx opcode data rest m = .error .stackSize) :
    data.length ≤ maxScriptElementSize := by
  by_contra hlong
  simp [stepMachine, require, hlong] at h

theorem stackAtFailure_le {e : ScriptError} (h : stepMachine ctx opcode data rest m = .error e)
    (hm : ∀ element ∈ m.stack, element.length ≤ maxScriptElementSize) :
    ∀ element ∈ stackAtFailure opcode data m e, element.length ≤ maxScriptElementSize := by
  intro element hmem
  unfold stackAtFailure at hmem
  split at hmem
  · split at hmem
    · rename_i n _
      rcases List.mem_cons.mp hmem with rfl | hmem
      · exact Nat.le_trans (length_serialize n) (by decide)
      · exact hm element hmem
    · split at hmem
      · rcases List.mem_cons.mp hmem with rfl | hmem
        · exact size_of_stackSize h
        · exact hm element hmem
      · exact hm element hmem
  · exact hm element hmem

theorem runStack_le (exec : m.vfExec = []) (pushOnly : isPushOnlyFuel fuel script = true)
    (hm : ∀ element ∈ m.stack, element.length ≤ maxScriptElementSize) :
    ∀ element ∈ runStack ctx fuel script m, element.length ≤ maxScriptElementSize := by
  induction fuel generalizing script m with
  | zero => cases script <;> exact hm
  | succ fuel ih =>
    by_cases hnil : script = []
    · subst hnil
      exact hm
    · obtain ⟨opcode, data, rest, hop, hlow, hpush⟩ := isPushOnlyFuel_succ hnil pushOnly
      rw [runStack_succ hop]
      cases hstep : stepMachine ctx opcode data rest m with
      | error e => exact stackAtFailure_le hstep hm
      | ok m1 =>
        obtain ⟨value, hvalue, rfl⟩ := pushOf_stepMachine hlow (getOp_suffix hop).2.2 exec hstep
        refine ih (m := m.push value) exec hpush fun element hmem => ?_
        rcases List.mem_cons.mp hmem with rfl | hmem
        · exact hvalue.length_le
        · exact hm element hmem

theorem heldElements_le {env : Env} {scriptSig : CScript} (pushOnly : isPushOnly scriptSig = true) :
    ∀ element ∈ heldElements env scriptSig, element.length ≤ maxScriptElementSize := by
  intro element hmem
  rw [heldElements] at hmem
  split at hmem
  · exact runStack_le rfl pushOnly (by simp) element (List.mem_reverse.mp hmem)
  · cases hmem

end Held

/-! ## Verification with the P2SH flag only -/

section Verify

variable {env : Env} {checker : Checker}

/-- The context of a run under the P2SH flag. -/
def p2shContext (env : Env) (checker : Checker) : Context :=
  ⟨env, { p2sh := true }, checker, .base⟩

/-- `VerifyScript` accepts the solution under the P2SH flag. -/
def Verifies (env : Env) (checker : Checker) (scriptPubKey : CScript) (data : SignatureData) : Prop :=
  ∃ verified, verifyScript env checker { p2sh := true } data.scriptSig scriptPubKey
    data.scriptWitness = .ok verified

/-- The output asks for the script, which stands in it or is pushed last; the rest of
the stack is what the script gets to see. -/
inductive Carries (env : Env) (script : CScript) : CScript → List Bytes → List Bytes → Prop where
  | bare {held : List Bytes} : Carries env script script held held
  | redeem {held : List Bytes} (size : script.length ≤ maxScriptElementSize) :
      Carries env script (getScriptForDestination (.scriptID (env.hash160 script)))
        (held ++ [script]) held

variable {script scriptPubKey : CScript} {stack held : List Bytes} {data : SignatureData}

/-- An accepted solution makes the script itself true. -/
theorem Verifies.runs (h : Verifies env checker scriptPubKey data)
    (pushOnly : isPushOnly data.scriptSig = true)
    (carries : Carries env script scriptPubKey (heldElements env data.scriptSig) held) :
    ∃ start result, start.stack = held.reverse ∧
      evalScript (p2shContext env checker) script start = .ok result ∧
      requireTrue result = .ok () := by
  obtain ⟨verified, h⟩ := h
  simp only [verifyScript, verifyRedeemScript, eq_ok,
    true_and, Prod.exists] at h
  obtain ⟨-, -, first, hfirst, result, hresult, ⟨⟩, htrue, _, _, -, hlast⟩ := h
  have hheld : heldElements env data.scriptSig = first.stack.reverse :=
    heldElements_eq rfl pushOnly hfirst
  generalize heldElements env data.scriptSig = stack at carries hheld
  cases carries with
  | bare => exact ⟨first, result, by rw [hheld, List.reverse_reverse], hresult, htrue⟩
  | redeem size =>
    have hstack : first.stack = script :: held.reverse := by
      rw [← List.reverse_reverse first.stack, ← hheld]
      simp
    rw [if_pos (isPayToScriptHash_scriptID _)] at hlast
    simp only [hstack, eq_ok, Prod.exists] at hlast
    obtain ⟨_, _, ⟨-, -, result', hresult', ⟨⟩, htrue', -⟩, -⟩ := hlast
    exact ⟨_, result', rfl, hresult', htrue'⟩

/-- What `PushAll` writes is accepted if the script is true on the elements. -/
theorem verifies_pushAll (bare : isPayToScriptHash script = false)
    (sizes : ∀ element ∈ stack, element.length ≤ maxScriptElementSize) (few : stack.length ≤ 18)
    (carries : Carries env script scriptPubKey stack held) (witness : List Bytes)
    {result : Evaluation}
    (hresult : evalScript (p2shContext env checker) script ⟨held.reverse, []⟩ = .ok result)
    (htrue : requireTrue result = .ok ()) :
    Verifies env checker scriptPubKey ⟨pushAll stack, witness⟩ := by
  have hfirst : evalScript (p2shContext env checker) (pushAll stack) {} = .ok ⟨stack.reverse, []⟩ :=
    evalScript_pushAll rfl sizes few
  have hpush := isPushOnly_pushAll sizes
  rw [p2shContext] at hfirst hresult
  cases carries with
  | bare =>
    exact ⟨result.verified, by
      simp [verifyScript, verifyWitness, hfirst, hresult, htrue, bare, require]⟩
  | redeem size =>
    have hhash : evalScript ⟨env, { p2sh := true }, checker, .base⟩
        (getScriptForDestination (.scriptID (env.hash160 script))) ⟨script :: held.reverse, []⟩ =
        .ok ⟨vchTrue :: held.reverse, []⟩ := by
      refine evalScript_scriptHash_true ?_
      rw [List.length_append] at few
      rw [List.length_reverse]
      omega
    have hyes : requireTrue ⟨vchTrue :: held.reverse, []⟩ = .ok () := by
      simp [requireTrue, vchTrue, castToBool]
    exact ⟨result.verified, by
      simp [verifyScript, verifyRedeemScript, verifyWitness, hfirst, hhash, hyes, hresult, htrue,
        hpush, isPayToScriptHash_scriptID, require]⟩

end Verify

/-! ## The combined solution -/

section Combined

variable {env : Env} {checker : Checker} {script scriptPubKey : CScript} {required : UInt8}
  {keys solutions : List Bytes}

/-- Some element is a signature for the key. -/
def hasSignature (checker : Checker) (script : CScript) (held : List Bytes) (key : Bytes) : Bool :=
  held.any fun sig => checker.checkSig sig key script .base

variable {stack held : List Bytes}

theorem carries_iff : Carries env script scriptPubKey stack held ↔
      (scriptPubKey = script ∧ stack = held) ∨
      (scriptPubKey = getScriptForDestination (.scriptID (env.hash160 script)) ∧
        script.length ≤ maxScriptElementSize ∧ stack = held ++ [script]) := by
  constructor
  · intro h
    cases h with
    | bare => exact .inl ⟨rfl, rfl⟩
    | redeem size => exact .inr ⟨rfl, size, rfl⟩
  · rintro (⟨rfl, rfl⟩ | ⟨rfl, size, rfl⟩)
    · exact .bare
    · exact .redeem size

section

variable (h : Carries env script scriptPubKey stack held)
include h

theorem Carries.mem {element : Bytes} (hmem : element ∈ held) : element ∈ stack := by
  cases h with
  | bare => exact hmem
  | redeem => exact List.mem_append_left _ hmem

theorem Carries.sizes (hheld : ∀ element ∈ held, element.length ≤ maxScriptElementSize) :
    ∀ element ∈ stack, element.length ≤ maxScriptElementSize := by
  cases h with
  | bare => exact hheld
  | redeem size =>
    exact List.forall_mem_append.mpr ⟨hheld, List.forall_mem_singleton.mpr size⟩

theorem Carries.length_le : stack.length ≤ held.length + 1 := by
  cases h with
  | bare => exact Nat.le_succ _
  | redeem => rw [List.length_append, List.length_singleton]

end

theorem heldElements_pushAll (sizes : ∀ element ∈ stack, element.length ≤ maxScriptElementSize)
    (few : stack.length ≤ 18) :
    heldElements env (pushAll stack) = stack := by
  have heval : evalScript (p2shContext env baseSignatureChecker) (pushAll stack) {} =
      .ok ⟨stack.reverse, []⟩ := evalScript_pushAll rfl sizes few
  rw [heldElements_eq rfl (isPushOnly_pushAll sizes) heval, List.reverse_reverse]

variable (checker) in
/-- Combining reaches the script in both inputs and puts it back. -/
theorem combineStacks_carries (hsolver : solver script = some (.multisig, solutions))
    (bare : isPayToScriptHash script = false) (nonempty : script ≠ [])
    {stack1 stack2 held1 held2 : List Bytes} (witness1 witness2 : List Bytes)
    (carries1 : Carries env script scriptPubKey stack1 held1)
    (carries2 : Carries env script scriptPubKey stack2 held2) :
    ∃ stack, combineStacks checker scriptPubKey (solverType scriptPubKey) ⟨stack1, witness1⟩
        ⟨stack2, witness2⟩ .base = ⟨stack, []⟩ ∧
      Carries env script scriptPubKey stack
        (combineMultisig script checker solutions held1 held2 .base) := by
  have htype : solverType script = some (.multisig, solutions) := by rw [solverType, hsolver]
  have hhash : isPayToScriptHash (getScriptForDestination (.scriptID (env.hash160 script))) = true :=
    isPayToScriptHash_scriptID _
  rcases carries_iff.mp carries1 with ⟨rfl, rfl⟩ | ⟨rfl, size, rfl⟩
  · rcases carries_iff.mp carries2 with ⟨-, rfl⟩ | ⟨hsame, -, -⟩
    · refine ⟨_, ?_, .bare⟩
      rw [htype, combineStacks]
    · rw [← hsame, bare] at hhash
      cases hhash
  · rcases carries_iff.mp carries2 with ⟨hsame, -⟩ | ⟨-, -, rfl⟩
    · rw [hsame, bare] at hhash
      cases hhash
    · refine ⟨_, ?_, .redeem size⟩
      have hback : ∀ held : List Bytes, backOrEmpty (held ++ [script]) = script := by
        intro held
        rw [backOrEmpty, List.getLast?_concat, Option.getD_some]
      rw [solverType, solver, if_pos hhash, combineStacks]
      simp only [hback, nonempty, dite_false, if_false, List.dropLast_concat, htype]
      rw [combineStacks]

theorem solutionKeys_eq (first last : Bytes) (keys : List Bytes) :
    solutionKeys (first :: (keys ++ [last])) = keys := by
  rw [solutionKeys, List.tail_cons, List.dropLast_concat]

theorem solutionRequired_eq (required : UInt8) (rest : List Bytes) :
    solutionRequired ([required] :: rest) = required.toNat := rfl

theorem checkSignatureEncoding_plain {flags : Flags} (der : flags.derSig = false)
    (lowS : flags.lowS = false) (strict : flags.strictEnc = false) (vchSig : Bytes) :
    checkSignatureEncoding env flags vchSig = .ok () := by
  rw [checkSignatureEncoding]
  split
  · rfl
  · simp [der, lowS, strict]

/-- A script that comes out true has found enough signatures. -/
theorem MultisigScript.enough (h : MultisigScript { p2sh := true } script required keys)
    {held : List Bytes} (apart : ∀ element ∈ held, element ∉ keys)
    (short : ∀ element ∈ held, element.length ≤ maxScriptElementSize) {start result : Evaluation}
    (hstart : start.stack = held.reverse)
    (hresult : Script.evalScript (p2shContext env checker) script start = .ok result)
    (htrue : requireTrue result = .ok ()) :
    required.toNat ≤ keys.countP (hasSignature checker script held) := by
  have hback : ∀ element ∈ start.stack, element ∈ held := by
    intro element helement
    rw [hstart] at helement
    exact List.mem_reverse.mp helement
  have hshort : ∀ element ∈ start.stack, element.length ≤ 0xffff := fun element helement =>
    Nat.le_trans (short element (hback element helement)) (by decide)
  have hscript := h
  obtain ⟨sigs, s, hsub, hlen, hstack⟩ := hscript.evalScript_ok
    (fun element helement => apart element (hback element helement)) hshort
    (checkSignatureEncoding_plain rfl rfl rfl) (fun key => rfl) hresult
  have hassigned := greedy_iff.mp (requireTrue_ofBool hstack htrue)
  rw [← hlen, ← List.countP_reverse]
  refine hassigned.length_le_countP fun sig hsig key hvalid => ?_
  exact List.any_eq_true.mpr ⟨sig, hback sig (hsub.subset hsig), hvalid⟩

variable (env) in
/-- Signatures in the order of the keys make the script true. -/
theorem MultisigScript.runs_true (h : MultisigScript { p2sh := true } script required keys)
    {sigs : List Bytes} (hlen : sigs.length = required.toNat) (apart : ∀ sig ∈ sigs, sig ∉ keys)
    (short : ∀ sig ∈ sigs, sig.length ≤ maxScriptElementSize)
    (assigned : Assigned (fun sig key => checker.checkSig sig key script .base) keys sigs) :
    ∃ result, Script.evalScript (p2shContext env checker) script ⟨([] :: sigs).reverse, []⟩ =
      .ok result ∧ requireTrue result = .ok () := by
  have hscript := h
  have hgreedy : greedy ((p2shContext env checker).valid script) keys.reverse sigs.reverse = true :=
    greedy_iff.mpr assigned.reverse
  have hback : ∀ {sig}, sig ∈ sigs.reverse → sig ∈ sigs := List.mem_reverse.mp
  obtain ⟨verified, heval⟩ : ∃ verified, Script.evalScript (p2shContext env checker) script
      ⟨sigs.reverse ++ [[]], []⟩ =
        .ok ⟨[ofBool (greedy ((p2shContext env checker).valid script) keys.reverse sigs.reverse)],
          verified⟩ := hscript.evalScript []
    (by rw [List.length_reverse, hlen]) (fun sig hsig => apart sig (hback hsig))
    (fun sig hsig => Nat.le_trans (short sig (hback hsig)) (by decide))
    (fun sig _ => checkSignatureEncoding_plain rfl rfl rfl sig) (fun _ _ => rfl) (by simp)
    (.inl rfl) (.inl rfl)
  rw [hgreedy] at heval
  rw [List.reverse_cons]
  exact ⟨_, heval, by simp [requireTrue]⟩

/-- So has a solution that is accepted, and a pool that contains it. -/
theorem Verifies.enough {data : SignatureData} (h : Verifies env checker scriptPubKey data)
    (hsolver : solver script = some (.multisig, solutions))
    (pushOnly : isPushOnly data.scriptSig = true) {held pool : List Bytes}
    (carries : Carries env script scriptPubKey (heldElements env data.scriptSig) held)
    (apart : ∀ element ∈ held, element ∉ solutionKeys solutions)
    (hpool : ∀ element ∈ held, element ∈ pool) :
    solutionRequired solutions ≤
      (solutionKeys solutions).countP (hasSignature checker script pool) := by
  obtain ⟨required, keys, rfl, hscript, -⟩ :=
    solver_multisig (rfl : ({ p2sh := true } : Flags).minimalData = false) hsolver
  rw [solutionKeys_eq] at apart ⊢
  obtain ⟨start, result, hstart, hresult, htrue⟩ := h.runs pushOnly carries
  refine Nat.le_trans (hscript.enough apart (fun element helement =>
    heldElements_le pushOnly element (carries.mem helement)) hstart hresult htrue)
    (List.countP_mono_left fun key _ hkey => ?_)
  obtain ⟨sig, hsig, hvalid⟩ := List.any_eq_true.mp hkey
  exact List.any_eq_true.mpr ⟨sig, hpool sig hsig, hvalid⟩

section

variable (oneKey : ∀ sig key key' scriptCode sigversion,
    checker.checkSig sig key scriptCode sigversion = true →
    checker.checkSig sig key' scriptCode sigversion = true → key = key')
  (noEmpty : ∀ key scriptCode sigversion, checker.checkSig [] key scriptCode sigversion = false)
include oneKey noEmpty

/-- The elements that `CombineMultisig` writes below the one that is popped for nothing. -/
theorem combineMultisig_spec (last : Bytes) (held1 held2 : List Bytes) :
    ∃ sigs, combineMultisig script checker ([required] :: (keys ++ [last])) held1 held2 .base =
        [] :: sigs ∧
      sigs.length = required.toNat ∧ (∀ sig ∈ sigs, sig = [] ∨ sig ∈ held1 ++ held2) ∧
      (required.toNat ≤ keys.countP (hasSignature checker script (held1 ++ held2)) →
        Assigned (fun sig key => checker.checkSig sig key script .base) keys sigs) := by
  rw [combineMultisig, solutionKeys_eq, solutionRequired_eq]
  generalize hall : (((held1 ++ held2).filter (· ≠ [])).foldl (fun all sig => all.insert sig)
    (∅ : ExtTreeSet Bytes)).toList = allsigs
  have hmem : ∀ sig, sig ∈ allsigs ↔ sig ∈ held1 ++ held2 ∧ sig ≠ [] := by
    intro sig
    rw [← hall, ExtTreeSet.mem_toList, Sets.mem_insertAll, List.mem_filter]
    simp
  have hserves : Serves (fun sig key => checker.checkSig sig key script .base) keys ([] ++ allsigs)
      (allsigs.foldl (serveKey (fun sig key => checker.checkSig sig key script .base) keys) ∅) :=
    serves_empty.run (fun sig key key' => oneKey sig key key' script .base) allsigs
  generalize allsigs.foldl (serveKey (fun sig key => checker.checkSig sig key script .base) keys) ∅ =
    sigs at hserves
  have hcount : keys.countP (fun key => sigs[key]?.isSome) =
      keys.countP (hasSignature checker script (held1 ++ held2)) := by
    rw [hserves.countP]
    refine List.countP_congr fun key _ => ?_
    rw [hasSignature, List.any_eq_true, List.any_eq_true]
    constructor
    · rintro ⟨sig, hsig, hvalid⟩
      exact ⟨sig, ((hmem sig).mp hsig).1, hvalid⟩
    · rintro ⟨sig, hsig, hvalid⟩
      refine ⟨sig, (hmem sig).mpr ⟨hsig, ?_⟩, hvalid⟩
      rintro rfl
      rw [noEmpty] at hvalid
      cases hvalid
  have hlen : (takeSigs sigs required.toNat keys).length =
      min required.toNat (keys.countP (hasSignature checker script (held1 ++ held2))) := by
    rw [takeSigs, length_firstSome, hcount]
  refine ⟨_, rfl, ?_, fun sig hsig => ?_, fun henough => ?_⟩
  · rw [List.length_append, List.length_replicate]
    omega
  · rcases List.mem_append.mp hsig with hsig | hsig
    · obtain ⟨key, -, hget⟩ := mem_firstSome hsig
      exact .inr ((hmem sig).mp (hserves.sound hget).1).1
    · exact .inl (List.eq_of_mem_replicate hsig)
  · rw [Nat.min_eq_left henough] at hlen
    rw [hlen, Nat.sub_self, List.replicate_zero, List.append_nil]
    exact assigned_firstSome (fun key _ sig hget => (hserves.sound hget).2) _

variable (hsolver : solver script = some (.multisig, solutions)) {data1 data2 : SignatureData}
  (pushOnly1 : isPushOnly data1.scriptSig = true) (pushOnly2 : isPushOnly data2.scriptSig = true)
  {held1 held2 : List Bytes}
  (carries1 : Carries env script scriptPubKey (heldElements env data1.scriptSig) held1)
  (carries2 : Carries env script scriptPubKey (heldElements env data2.scriptSig) held2)
  (apart : ∀ element ∈ held1 ++ held2, element ∉ solutionKeys solutions)
include hsolver pushOnly1 pushOnly2 carries1 carries2 apart

/-- The combined solution is accepted exactly if the two inputs together have
signatures for enough positions of the script. -/
theorem combineSignatures_enough :
    Verifies env checker scriptPubKey (combineSignatures env checker scriptPubKey data1 data2) ↔
      solutionRequired solutions ≤
        (solutionKeys solutions).countP (hasSignature checker script (held1 ++ held2)) := by
  obtain ⟨required, keys, rfl, hscript, hbare⟩ :=
    solver_multisig (rfl : ({ p2sh := true } : Flags).minimalData = false) hsolver
  rw [solutionKeys_eq] at apart ⊢
  have hnonempty : script ≠ [] := by
    rintro rfl
    exact absurd hscript.pushes.length (by simp)
  obtain ⟨sigs, hheld, hlen, hsigs, hassigned⟩ :=
    combineMultisig_spec oneKey noEmpty _ held1 held2
  obtain ⟨stack, hstacks, hcarries⟩ := combineStacks_carries checker hsolver hbare hnonempty
    data1.scriptWitness data2.scriptWitness carries1 carries2
  rw [hheld] at hcarries
  have hcombined : combineSignatures env checker scriptPubKey data1 data2 = ⟨pushAll stack, []⟩ := by
    rw [combineSignatures, Stacks.ofData, Stacks.ofData, hstacks, Stacks.output]
  have hempty : ([] : Bytes) ∉ keys := fun hmem => absurd (hscript.sizes [] hmem) (by decide)
  have hapart : ∀ sig ∈ sigs, sig ∉ keys := by
    intro sig hsig
    rcases hsigs sig hsig with rfl | hsig
    · exact hempty
    · exact apart sig hsig
  have hshort : ∀ element ∈ [] :: sigs, element.length ≤ maxScriptElementSize := by
    intro element helement
    rcases List.mem_cons.mp helement with rfl | helement
    · simp
    · rcases hsigs element helement with rfl | helement
      · simp
      · rcases List.mem_append.mp helement with h | h
        · exact heldElements_le pushOnly1 element (carries1.mem h)
        · exact heldElements_le pushOnly2 element (carries2.mem h)
  have hsizes := hcarries.sizes hshort
  have hfew : stack.length ≤ 18 := by
    have hle := hcarries.length_le
    have hbounds := hscript.bounds
    rw [List.length_cons] at hle
    omega
  rw [hcombined]
  constructor
  · intro hverifies
    have hpushes : heldElements env (pushAll stack) = stack := heldElements_pushAll hsizes hfew
    obtain ⟨start, result, hstart, hresult, htrue⟩ := hverifies.runs (isPushOnly_pushAll hsizes)
      (by rw [hpushes]; exact hcarries)
    have hall : ∀ element ∈ [] :: sigs, element ∉ keys := by
      exact List.forall_mem_cons.mpr ⟨hempty, hapart⟩
    have henough := hscript.enough hall hshort hstart hresult htrue
    refine Nat.le_trans henough (List.countP_mono_left fun key _ hkey => ?_)
    obtain ⟨sig, hsig, hvalid⟩ := List.any_eq_true.mp hkey
    refine List.any_eq_true.mpr ⟨sig, ?_, hvalid⟩
    have hne : sig ≠ [] := by
      rintro rfl
      rw [noEmpty] at hvalid
      cases hvalid
    rcases List.mem_cons.mp hsig with rfl | hsig
    · exact absurd rfl hne
    · exact (hsigs sig hsig).resolve_left hne
  · intro henough
    obtain ⟨result, hresult, htrue⟩ := hscript.runs_true env hlen hapart
      (fun sig hsig => hshort sig (List.mem_cons_of_mem _ hsig)) (hassigned henough)
    exact verifies_pushAll hbare hsizes hfew hcarries [] hresult htrue

/-- Combining two solutions of a multisig script loses nothing: the result is accepted
exactly if enough positions have a signature in one of them, whatever their order, and
so whenever one of them was accepted already. -/
theorem combineSignatures_loses_nothing :
    (Verifies env checker scriptPubKey (combineSignatures env checker scriptPubKey data1 data2) ↔
      solutionRequired solutions ≤
        (solutionKeys solutions).countP (hasSignature checker script (held1 ++ held2))) ∧
    (Verifies env checker scriptPubKey (combineSignatures env checker scriptPubKey data1 data2) ↔
      Verifies env checker scriptPubKey (combineSignatures env checker scriptPubKey data2 data1)) ∧
    (Verifies env checker scriptPubKey data1 ∨ Verifies env checker scriptPubKey data2 →
      Verifies env checker scriptPubKey
        (combineSignatures env checker scriptPubKey data1 data2)) := by
  have hiff := combineSignatures_enough oneKey noEmpty hsolver pushOnly1 pushOnly2 carries1 carries2
    apart
  have hswap : ∀ element, element ∈ held2 ++ held1 ↔ element ∈ held1 ++ held2 := by
    intro element
    rw [List.mem_append, List.mem_append, or_comm]
  have hiff' := combineSignatures_enough oneKey noEmpty hsolver pushOnly2 pushOnly1 carries2 carries1
    fun element helement => apart element ((hswap element).mp helement)
  have hsame : hasSignature checker script (held2 ++ held1) =
      hasSignature checker script (held1 ++ held2) := by
    funext key
    rw [hasSignature, hasSignature, List.any_append, List.any_append, Bool.or_comm]
  refine ⟨hiff, by rw [hiff, hiff', hsame], ?_⟩
  rintro (h | h)
  · exact hiff.mpr (h.enough hsolver pushOnly1 carries1
      (fun element helement => apart element (List.mem_append_left _ helement))
      fun element => List.mem_append_left held2)
  · exact hiff.mpr (h.enough hsolver pushOnly2 carries2
      (fun element helement => apart element (List.mem_append_right _ helement))
      fun element => List.mem_append_right held1)

end

/-! Two signers of a script that asks for both. -/

def pairKey (n : UInt8) : Bytes := 2 :: List.replicate 32 n

def pairScript : CScript :=
  [op1 + 1] ++ pushBytes (pairKey 1) ++ pushBytes (pairKey 2) ++ [op1 + 1, opCheckMultiSig]

/-- A key with one byte before it is the key's only signature. -/
def pairChecker : Checker where
  checkSig vchSig vchPubKey _ _ := vchSig == 1 :: vchPubKey
  checkLockTime _ := false
  checkSequence _ := false

def pairEnv : Env :=
  { blankEnv with
    ecPubkeyParse := fun _ => true
    ecdsaVerify := fun _ _ _ => true
    checkLowS := fun _ => true }

/-- The solution of one of the signers. -/
def pairData (n : UInt8) : SignatureData := ⟨pushAll [[], 1 :: pairKey n], []⟩

theorem combineSignatures_loses_nothing_pair :
    Verifies pairEnv pairChecker pairScript
      (combineSignatures pairEnv pairChecker pairScript (pairData 1) (pairData 2)) := by
  refine (combineSignatures_loses_nothing (fun sig key key' _ _ h h' => ?_) (fun key _ _ => ?_)
    (by decide +kernel : solver pairScript =
      some (.multisig, [[2], pairKey 1, pairKey 2, [2]])) (by decide +kernel) (by decide +kernel)
    .bare .bare (by decide +kernel)).1.mpr (by decide +kernel)
  · have hsig : sig = 1 :: key := eq_of_beq h
    have hsig' : sig = 1 :: key' := eq_of_beq h'
    rw [hsig] at hsig'
    exact (List.cons.inj hsig').2
  · rfl

end Combined

end KubuCore.Script
