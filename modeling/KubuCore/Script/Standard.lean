import KubuCore.Script.Script

/-!
# Standard output scripts

`Solver` and the script builders of `script/standard.cpp`.
-/

namespace KubuCore.Script

inductive TxnOutType where
  | pubKey
  | pubKeyHash
  | scriptHash
  | multisig
  | nullData
  | witnessV0KeyHash
  | witnessV0ScriptHash
deriving DecidableEq, Repr

/-- The templates `Solver` scans, in the order of the multimap. -/
def mTemplates : List (TxnOutType × CScript) :=
  [(.pubKey, [opPubKey, opCheckSig]),
   (.pubKeyHash, [opDup, opHash160, opPubKeyHash, opEqualVerify, opCheckSig]),
   (.multisig, [opSmallInteger, opPubKeys, opSmallInteger, opCheckMultiSig])]

/-- The inner loop for `OP_PUBKEYS`: collect pushes of key length, and return
the first operation that is not one. A failed read leaves the invalid opcode
and no data. -/
def takePubKeys (fuel : Nat) (opcode1 : UInt8) (vch1 : Bytes) (script1 : CScript)
    (solutions : List Bytes) : UInt8 × Bytes × CScript × List Bytes :=
  match fuel with
  | 0 => (opcode1, vch1, script1, solutions)
  | fuel + 1 =>
    if 33 ≤ vch1.length ∧ vch1.length ≤ 65 then
      match getOp script1 with
      | none => (opInvalidOpcode, [], script1, solutions ++ [vch1])
      | some (opcode1', vch1', rest) =>
        takePubKeys fuel opcode1' vch1' rest (solutions ++ [vch1])
    else (opcode1, vch1, script1, solutions)

/-- One comparison of an operation of the script with one of the template,
after `OP_PUBKEYS` has been dealt with: the solutions extended by what the
template captures. -/
def matchOp (opcode1 : UInt8) (vch1 : Bytes) (opcode2 : UInt8) (vch2 : Bytes)
    (solutions : List Bytes) : Option (List Bytes) :=
  if opcode2 = opPubKey then
    if vch1.length < 33 ∨ 65 < vch1.length then none else some (solutions ++ [vch1])
  else if opcode2 = opPubKeyHash then
    if vch1.length ≠ 20 then none else some (solutions ++ [vch1])
  else if opcode2 = opSmallInteger then
    if opcode1 = op0 then some (solutions ++ [[0]])
    else if op1 ≤ opcode1 ∧ opcode1 ≤ op16 then some (solutions ++ [[opcode1 - (op1 - 1)]])
    else none
  else if opcode1 ≠ opcode2 ∨ vch1 ≠ vch2 then none
  else some solutions

/-- The comparison loop of `Solver`. Each round consumes at least one byte of
the template. -/
def matchTemplate (fuel : Nat) (script1 script2 : CScript) (solutions : List Bytes) :
    Option (List Bytes) :=
  match fuel with
  | 0 => none
  | fuel + 1 =>
    if script1 = [] ∧ script2 = [] then some solutions
    else
      match getOp script1, getOp script2 with
      | some (opcode1, vch1, rest1), some (opcode2, vch2, rest2) =>
        if opcode2 = opPubKeys then
          let (opcode1, vch1, rest1, solutions) :=
            takePubKeys (script1.length + 1) opcode1 vch1 rest1 solutions
          match getOp rest2 with
          | none => none
          | some (opcode2, vch2, rest2) =>
            (matchOp opcode1 vch1 opcode2 vch2 solutions).bind
              (matchTemplate fuel rest1 rest2)
        else (matchOp opcode1 vch1 opcode2 vch2 solutions).bind (matchTemplate fuel rest1 rest2)
      | _, _ => none

/-- The additional checks for bare multisig. -/
def multisigCounts (solutions : List Bytes) : Bool :=
  match solutions.head?.bind List.head?, solutions.getLast?.bind List.head? with
  | some m, some n => 1 ≤ m && 1 ≤ n && m ≤ n && solutions.length - 2 == n.toNat
  | _, _ => false

def scanTemplates (script : CScript) : List (TxnOutType × CScript) → Option (TxnOutType × List Bytes)
  | [] => none
  | (typ, template) :: rest =>
    match matchTemplate (template.length + 1) script template [] with
    | some solutions =>
      if typ = .multisig ∧ multisigCounts solutions = false then none else some (typ, solutions)
    | none => scanTemplates script rest

/-- `Solver`: the kind of a standard output script and the keys or hashes in
it, or `none` where the source returns false. -/
def solver (scriptPubKey : CScript) : Option (TxnOutType × List Bytes) :=
  if isPayToScriptHash scriptPubKey then
    some (.scriptHash, [(scriptPubKey.drop 2).take 20])
  else
    match isWitnessProgram scriptPubKey with
    | some (version, program) =>
      if version = 0 ∧ program.length = 20 then some (.witnessV0KeyHash, [program])
      else if version = 0 ∧ program.length = 32 then some (.witnessV0ScriptHash, [program])
      else none
    | none =>
      if scriptPubKey.head? = some opReturn ∧ isPushOnly scriptPubKey.tail then
        some (.nullData, [])
      else scanTemplates scriptPubKey mTemplates

def getScriptForDestination : CTxDestination → CScript
  | .keyID hash => [opDup, opHash160] ++ pushBytes hash.val ++ [opEqualVerify, opCheckSig]
  | .scriptID hash => [opHash160] ++ pushBytes hash.val ++ [opEqual]

def getScriptForRawPubKey (pubKey : CPubKey) : CScript := pushBytes pubKey ++ [opCheckSig]

def getScriptForWitness (env : Env) (redeemScript : CScript) : CScript :=
  match solver redeemScript with
  | some (.pubKey, key :: _) => op0 :: pushBytes (env.hash160 key).val
  | some (.pubKeyHash, hash :: _) => op0 :: pushBytes hash
  | _ => op0 :: pushBytes (env.sha256 redeemScript)

theorem pushBytes_hash (h : Uint160) : pushBytes h.val = 0x14 :: h.val := by
  simp [pushBytes, h.property, opPushData1]

theorem pushBytes_compressed {b : Bytes} (h : b.length = compressedSize) :
    pushBytes b = 0x21 :: b := by
  simp [pushBytes, h, opPushData1, compressedSize]

/-- A pay-to-pubkey-hash script is recognised, with its hash. The hash is
twenty arbitrary bytes, on which the scan computes. -/
theorem solver_keyID (h : Uint160) :
    solver (getScriptForDestination (.keyID h)) = some (.pubKeyHash, [h.val]) := by
  obtain ⟨b, hb⟩ := h
  match b, hb with
  | [_, _, _, _, _, _, _, _, _, _, _, _, _, _, _, _, _, _, _, _], _ => rfl

end KubuCore.Script
