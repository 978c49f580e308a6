import KubuCore.Script.Interpreter
import KubuCore.Script.Standard

/-!
# Scripts that push

`PushAll` of `sign.cpp` writes a stack as a script; running the script gives the
stack back. A script of pushes is described by how its operations are read, not by
its bytes, since a standard script may encode its keys in several ways.
-/

namespace KubuCore.Script

open Checked

/-! ## Single steps -/

theorem decodeOpcode_push : ∀ opcode : UInt8, opcode ≤ opPushData4 → decodeOpcode opcode = .bad := by
  decide +kernel

section Step

variable {ctx : Context} {fuel : Nat} {script rest : CScript} {opcode : UInt8} {data : Bytes}
  {m m' : Machine}

theorem runMachine_eq (h : getOp script = some (opcode, data, rest)) :
    runMachine ctx (fuel + 1) script m =
      (stepMachine ctx opcode data rest m >>= fun m => runMachine ctx fuel rest m) := by
  cases script with
  | nil => cases h
  | cons b bs => simp only [runMachine, h]

/-- An opcode that is executed and is no push. -/
theorem stepMachine_op (ho : opPushData4 < opcode) (exec : m.vfExec = [])
    (h : stepMachine ctx opcode data rest m = .ok m') :
    ∃ n, execOp ctx (decodeOpcode opcode) true rest { m with nOpCount := n } = .ok m' := by
  have hpush : ¬ opcode ≤ opPushData4 := UInt8.not_le.mpr ho
  have hall : m.vfExec.all id = true := by simp [exec]
  simp only [stepMachine, hall, hpush, check_except, eq_ok, and_false, if_false, true_or,
    if_true] at h
  obtain ⟨-, -, -, -, -, -, n, hexec, -, -, rfl⟩ := h
  split at hexec
  · exact ⟨_, hexec⟩
  · exact ⟨m.nOpCount, hexec⟩

theorem runMachine_op (ho : opPushData4 < opcode) (exec : m.vfExec = [])
    (h : runMachine ctx (fuel + 1) (opcode :: rest) m = .ok m') :
    ∃ n m1, execOp ctx (decodeOpcode opcode) true rest { m with nOpCount := n } = .ok m1 ∧
      runMachine ctx fuel rest m1 = .ok m' := by
  rw [runMachine_eq (getOp_op ho), bind_eq_ok] at h
  obtain ⟨m1, hstep, hrun⟩ := h
  obtain ⟨n, hexec⟩ := stepMachine_op ho exec hstep
  exact ⟨n, m1, hexec, hrun⟩

/-- An opcode whose operation succeeds. -/
theorem runMachine_op_eq {m1 : Machine} (ho : op16 < opcode)
    (enabled : decodeOpcode opcode ≠ .disabled)
    (exec : m.vfExec = []) (count : m.nOpCount < maxOpsPerScript)
    (hexec : execOp ctx (decodeOpcode opcode) true rest { m with nOpCount := m.nOpCount + 1 } =
      .ok m1) (room : m1.stack.length + m1.altstack.length ≤ 1000) :
    runMachine ctx (fuel + 1) (opcode :: rest) m = runMachine ctx fuel rest m1 := by
  have high : opPushData4 < opcode := UInt8.lt_of_le_of_lt (by decide) ho
  have hpush : ¬ opcode ≤ opPushData4 := UInt8.not_le.mpr high
  have hall : m.vfExec.all id = true := by simp [exec]
  have hcount := count
  rw [runMachine_eq (getOp_op high)]
  simp [stepMachine, hall, hpush, ho, enabled, hexec, hcount, room, require]

end Step

/-! ## Writing -/

def encodeOpN (n : UInt8) : UInt8 := if n = 0 then op0 else op1 + n - 1

/-- One value of `PushAll`. -/
def pushOne (v : Bytes) : CScript :=
  match v with
  | [] => [op0]
  | [b] => if 1 ≤ b ∧ b ≤ 16 then [encodeOpN b] else pushBytes v
  | _ => pushBytes v

def pushAll (values : List Bytes) : CScript := values.flatMap pushOne

/-! ## Operations that push -/

/-- The value that an operation puts on the stack. -/
inductive PushOf (flags : Flags) : UInt8 → Bytes → Bytes → Prop where
  | data {opcode : UInt8} {data : Bytes} (ho : opcode ≤ opPushData4)
      (size : data.length ≤ maxScriptElementSize)
      (minimal : flags.minimalData = false ∨ checkMinimalPush data opcode = true) :
      PushOf flags opcode data data
  | number {opcode : UInt8} (lo : op1 ≤ opcode) (hi : opcode ≤ op16) :
      PushOf flags opcode [] [opcode - (op1 - 1)]
  | negate : PushOf flags op1Negate [] [0x81]

/-- Reading the script gives these pushes and leaves the rest. -/
inductive Pushes (flags : Flags) : CScript → List Bytes → CScript → Prop where
  | nil {script : CScript} : Pushes flags script [] script
  | cons {script rest tail : CScript} {opcode : UInt8} {data value : Bytes} {values : List Bytes} :
      getOp script = some (opcode, data, rest) → PushOf flags opcode data value →
      Pushes flags rest values tail → Pushes flags script (value :: values) tail

variable {flags : Flags} {opcode : UInt8} {data : Bytes} {script : CScript}

theorem PushOf.le_op16 {value : Bytes} (h : PushOf flags opcode data value) : opcode ≤ op16 := by
  cases h with
  | data ho => exact UInt8.le_trans ho (by decide)
  | number _ hi => exact hi
  | negate => decide

theorem Pushes.append {middle tail : CScript} {values values' : List Bytes}
    (h : Pushes flags script values middle) (h' : Pushes flags middle values' tail) :
    Pushes flags script (values ++ values') tail := by
  induction h with
  | nil => exact h'
  | cons hop hpush _ ih => exact .cons hop hpush (ih h')

theorem Pushes.length {tail : CScript} {values : List Bytes}
    (h : Pushes flags script values tail) : values.length + tail.length ≤ script.length := by
  induction h with
  | nil => simp
  | cons hop _ _ ih =>
    have hlen := length_getOp hop
    rw [List.length_cons]
    omega

theorem decodeOpcode_number : ∀ opcode : UInt8, op1 ≤ opcode → opcode ≤ op16 →
    decodeOpcode opcode = .number (opcode.toNat - 0x50) ∧
      serialize (opcode.toNat - 0x50) = [opcode - (op1 - 1)] := by
  decide +kernel

theorem decodeOpcode_high : ∀ opcode : UInt8, opPushData4 < opcode → opcode ≤ op16 →
    opcode = op1Negate ∨ decodeOpcode opcode = .bad ∨ op1 ≤ opcode := by
  decide +kernel

section Run

variable {ctx : Context} {m : Machine}

variable {rest : CScript} {m' : Machine}

theorem PushOf.stepMachine_eq {opcode : UInt8} {data value : Bytes}
    (h : PushOf ctx.flags opcode data value) (exec : m.vfExec = []) :
    stepMachine ctx opcode data rest m =
      if m.stack.length + m.altstack.length < 1000 then .ok (m.push value)
      else .error .stackSize := by
  have hle := h.le_op16
  have hcount : ¬ op16 < opcode := UInt8.not_lt.mpr hle
  have hall : m.vfExec.all id = true := by simp [exec]
  have hroom : ∀ vch, (m.push vch).stack.length + (m.push vch).altstack.length ≤ 1000 ↔
      m.stack.length + m.altstack.length < 1000 := by
    simp only [Machine.push, List.length_cons]
    omega
  cases h with
  | data ho size minimal =>
    simp [stepMachine, decodeOpcode_push _ ho, hcount, hle, size, hall, ho, minimal, hroom, require]
    split <;> rfl
  | number lo hi =>
    have hpush : ¬ opcode ≤ opPushData4 := UInt8.not_le.mpr (high_of_number lo)
    obtain ⟨hdecode, hvalue⟩ := decodeOpcode_number opcode lo hi
    simp [stepMachine, hdecode, hcount, hle, hall, hpush, execOp, hvalue, hroom, require]
    split <;> rfl
  | negate =>
    have hdecode : decodeOpcode op1Negate = .number (-1) := by decide
    have hpush : ¬ op1Negate ≤ opPushData4 := by decide
    simp [stepMachine, hdecode, hcount, hle, hall, hpush, execOp, hroom, require]
    split <;> rfl

/-- An operation of a push-only script that succeeds pushes a value. -/
theorem pushOf_stepMachine {opcode : UInt8} {data : Bytes} (hop : opcode ≤ op16)
    (hdata : opPushData4 < opcode → data = []) (exec : m.vfExec = [])
    (h : stepMachine ctx opcode data rest m = .ok m') :
    ∃ value, PushOf ctx.flags opcode data value ∧ m' = m.push value := by
  have hcount : ¬ op16 < opcode := UInt8.not_lt.mpr hop
  have hall : m.vfExec.all id = true := by simp [exec]
  by_cases hlow : opcode ≤ opPushData4
  · simp only [stepMachine, hall, hcount, hlow, check_except, eq_ok, and_self, if_true] at h
    obtain ⟨-, hsize, -, -, -, -, -, hminimal, _, rfl, -, -, rfl⟩ := h
    exact ⟨data, .data hlow hsize hminimal, rfl⟩
  · obtain rfl := hdata (UInt8.not_le.mp hlow)
    simp only [stepMachine, hall, hcount, hlow, check_except, eq_ok, and_false, if_true, if_false,
      true_or] at h
    obtain ⟨-, -, -, -, -, -, _, hexec, -, -, rfl⟩ := h
    rcases decodeOpcode_high opcode (UInt8.not_le.mp hlow) hop with rfl | hbad | hlo
    · cases hexec
      exact ⟨[0x81], .negate, rfl⟩
    · rw [hbad] at hexec
      cases hexec
    · obtain ⟨hdecode, hvalue⟩ := decodeOpcode_number opcode hlo hop
      rw [hdecode, execOp, hvalue] at hexec
      cases hexec
      exact ⟨_, .number hlo hop, rfl⟩

/-- Running a script of pushes. -/
theorem runMachine_pushes {script tail : CScript} {values : List Bytes}
    (h : Pushes ctx.flags script values tail) (exec : m.vfExec = [])
    (room : m.stack.length + m.altstack.length + values.length ≤ 1000) (fuel : Nat) :
    runMachine ctx (fuel + values.length) script m =
      runMachine ctx fuel tail { m with stack := values.reverse ++ m.stack } := by
  induction h generalizing m with
  | nil => rfl
  | @cons script rest tail opcode data value values hop hpush _ ih =>
    rw [List.length_cons] at room
    rw [List.length_cons, ← Nat.add_assoc, runMachine_eq hop, hpush.stepMachine_eq exec,
      if_pos (by omega), ok_bind, ih (m := m.push value) exec]
    · simp [Machine.push]
    · simp only [Machine.push, List.length_cons]
      omega

/-- A script of pushes that runs to its end. -/
theorem runMachine_pushes_ok {script tail : CScript} {values : List Bytes}
    (h : Pushes ctx.flags script values tail) (exec : m.vfExec = []) {fuel : Nat}
    (hrun : runMachine ctx (fuel + values.length) script m = .ok m') :
    runMachine ctx fuel tail { m with stack := values.reverse ++ m.stack } = .ok m' := by
  induction h generalizing m with
  | nil => exact hrun
  | @cons script rest tail opcode data value values hop hpush _ ih =>
    rw [List.length_cons, ← Nat.add_assoc, runMachine_eq hop, hpush.stepMachine_eq exec] at hrun
    split_ifs at hrun
    · have hrest := ih (m := m.push value) exec hrun
      simpa [Machine.push] using hrest
    · cases hrun

end Run

/-! ## What `PushAll` writes -/

theorem checkMinimalPush_long {data : Bytes} (long : 2 ≤ data.length) (opcode : UInt8) :
    checkMinimalPush data opcode =
      if data.length ≤ 75 then opcode.toNat == data.length
      else if data.length ≤ 255 then opcode == opPushData1
      else if data.length ≤ 65535 then opcode == opPushData2
      else true := by
  match data, long with
  | _ :: _ :: _, _ => rfl

/-- Reading back a push, whichever opcode it takes; the opcode is the shortest. -/
theorem getOp_pushBytes_rest {b : Bytes} (h : b.length ≤ 0xffff) (rest : CScript) :
    ∃ opcode, getOp (pushBytes b ++ rest) = some (opcode, b, rest) ∧ opcode ≤ opPushData4 ∧
      (2 ≤ b.length → checkMinimalPush b opcode = true) := by
  by_cases hshort : b.length < opPushData1.toNat
  · have hlen : b.length < 76 := hshort
    refine ⟨_, getOp_pushBytes_append hshort rest, opcode_of_short hshort, fun long => ?_⟩
    rw [checkMinimalPush_long long, if_pos (by omega), UInt8.toNat_ofNat', beq_iff_eq]
    omega
  · have hlen : ¬ b.length < 76 := hshort
    by_cases hone : b.length ≤ 0xff
    · have hto : (UInt8.ofNat b.length).toNat = b.length := Nat.mod_eq_of_lt (by omega)
      refine ⟨opPushData1, ?_, by decide, fun long => ?_⟩
      · have hread : readLE [UInt8.ofNat b.length] = b.length := by
          rw [readLE, readLE]
          omega
        rw [pushBytes, if_neg hshort, if_pos hone, List.cons_append, List.cons_append, getOp,
          if_pos (by decide), if_neg (by decide)]
        rw [if_pos rfl, if_neg (by simp), List.take_succ_cons, List.take_zero, hread]
        simp [getOperand]
      · rw [checkMinimalPush_long long, if_neg (by omega), if_pos (by omega)]
        decide
    · refine ⟨opPushData2, ?_, by decide, fun long => ?_⟩
      · rw [pushBytes, if_neg hshort, if_neg hone, if_pos h, List.cons_append, getOp,
          if_pos (by decide), if_neg (by decide)]
        have hne : opPushData2 ≠ opPushData1 := by decide
        have hwidth := writeLE_length 2 b.length
        simp only [hne, if_true, if_false, List.append_assoc, List.take_left' hwidth,
          List.drop_left' hwidth, readLE_writeLE 2 b.length (by omega)]
        rw [if_neg (by simp [writeLE])]
        simp [getOperand]
      · rw [checkMinimalPush_long long, if_neg (by omega), if_neg (by omega), if_pos (by omega)]
        decide

theorem encodeOpN_small : ∀ b : UInt8, 1 ≤ b → b ≤ 16 →
    op1 ≤ encodeOpN b ∧ encodeOpN b ≤ op16 ∧ encodeOpN b - (op1 - 1) = b := by
  decide +kernel

theorem checkMinimalPush_single : ∀ b : UInt8, ¬ (1 ≤ b ∧ b ≤ 16) → b ≠ 0x81 →
    checkMinimalPush [b] 1 = true := by
  decide +kernel

section PushAll

variable {flags : Flags}

/-- One value, which must not be the one that has an opcode of its own besides the
small numbers. -/
theorem pushes_pushOne {v : Bytes} (size : v.length ≤ maxScriptElementSize)
    (minimal : flags.minimalData = false ∨ v ≠ [0x81]) (rest : CScript) :
    Pushes flags (pushOne v ++ rest) [v] rest := by
  match v, size, minimal with
  | [], _, _ =>
    have hget : getOp (pushOne [] ++ rest) = some (op0, [], rest) := by
      simp [pushOne, getOp, op0, opPushData1, getOperand]
    exact .cons hget (.data (by decide) (by simp) (.inr (by decide))) .nil
  | [b], size, minimal =>
    by_cases hb : 1 ≤ b ∧ b ≤ 16
    · obtain ⟨hlo, hhi, hvalue⟩ := encodeOpN_small b hb.1 hb.2
      have hget : getOp (pushOne [b] ++ rest) = some (encodeOpN b, [], rest) := by
        rw [pushOne, if_pos hb, List.singleton_append, getOp_op (high_of_number hlo)]
      have hpush : PushOf flags (encodeOpN b) [] [encodeOpN b - (op1 - 1)] := .number hlo hhi
      rw [hvalue] at hpush
      exact .cons hget hpush .nil
    · have hget : getOp (pushOne [b] ++ rest) = some (1, [b], rest) := by
        have hone : [b].length < opPushData1.toNat := by
          change 1 < 76
          decide
        rw [pushOne, if_neg hb]
        exact getOp_pushBytes_append hone rest
      refine .cons hget (.data (by decide) size ?_) .nil
      refine minimal.imp id fun hne => checkMinimalPush_single b hb ?_
      rintro rfl
      exact hne rfl
  | b :: c :: bytes, size, _ =>
    have hlong : (b :: c :: bytes).length ≤ 0xffff := by
      simp only [maxScriptElementSize] at size
      omega
    obtain ⟨opcode, hget, hle, hminimal⟩ := getOp_pushBytes_rest hlong rest
    exact .cons hget (.data hle size (.inr (hminimal (by simp)))) .nil

variable {values : List Bytes}

theorem pushes_pushAll (sizes : ∀ v ∈ values, v.length ≤ maxScriptElementSize)
    (minimal : flags.minimalData = false ∨ ∀ v ∈ values, v ≠ [0x81]) :
    Pushes flags (pushAll values) values [] := by
  induction values with
  | nil => exact .nil
  | cons v values ih =>
    have hone := pushes_pushOne (sizes v List.mem_cons_self)
      (minimal.imp id fun h => h v List.mem_cons_self) (pushAll values)
    exact hone.append (ih (fun w hw => sizes w (List.mem_cons_of_mem v hw))
      (minimal.imp id fun h w hw => h w (List.mem_cons_of_mem v hw)))

theorem length_pushBytes (b : Bytes) (h : b.length ≤ 0xffff) :
    (pushBytes b).length ≤ b.length + 3 := by
  rw [pushBytes]
  split
  · simp
  · split
    · simp
    · simp [writeLE]

theorem length_pushOne {v : Bytes} (size : v.length ≤ maxScriptElementSize) :
    (pushOne v).length ≤ v.length + 3 := by
  have hlong : v.length ≤ 0xffff := by
    simp only [maxScriptElementSize] at size
    omega
  unfold pushOne
  split
  · simp
  · split
    · simp
    · exact length_pushBytes _ hlong
  · exact length_pushBytes _ hlong

theorem length_pushAll (sizes : ∀ v ∈ values, v.length ≤ maxScriptElementSize) :
    (pushAll values).length ≤ 523 * values.length := by
  induction values with
  | nil => simp [pushAll]
  | cons v values ih =>
    have hone := length_pushOne (sizes v List.mem_cons_self)
    have hsize := sizes v List.mem_cons_self
    have hrest := ih fun w hw => sizes w (List.mem_cons_of_mem v hw)
    simp only [maxScriptElementSize] at hsize
    simp only [pushAll, List.flatMap_cons, List.length_append, List.length_cons] at hrest ⊢
    omega

/-- A script of pushes counts as push-only. -/
theorem isPushOnlyFuel_pushes {script : CScript} (h : Pushes flags script values []) (fuel : Nat) :
    isPushOnlyFuel (fuel + values.length) script = true := by
  generalize hnil : ([] : CScript) = tail at h
  induction h with
  | nil =>
    subst hnil
    cases fuel <;> rfl
  | @cons script rest tail opcode data value values hop hpush _ ih =>
    have hop16 : ¬ op16 < opcode := UInt8.not_lt.mpr hpush.le_op16
    cases script with
    | nil => cases hop
    | cons b bytes =>
      rw [List.length_cons, ← Nat.add_assoc, isPushOnlyFuel, hop]
      · simp [hop16, ih hnil]
      · simp

theorem isPushOnly_pushAll (sizes : ∀ v ∈ values, v.length ≤ maxScriptElementSize) :
    isPushOnly (pushAll values) = true := by
  have hpushes : Pushes {} (pushAll values) values [] := pushes_pushAll sizes (.inl rfl)
  have hlen := hpushes.length
  rw [isPushOnly, ← Nat.sub_add_cancel hlen]
  exact isPushOnlyFuel_pushes hpushes _

/-- Running what `PushAll` writes. -/
theorem evalScript_pushes {ctx : Context} {script : CScript} (h : Pushes ctx.flags script values [])
    (short : script.length ≤ maxScriptSize)
    (few : values.length ≤ 1000) :
    evalScript ctx script {} = .ok ⟨values.reverse, []⟩ := by
  have hlen := h.length
  rw [List.length_nil, Nat.add_zero] at hlen
  have hrun : ∀ codeHash, runMachine ctx script.length script
      { stack := [], verified := [], codeHash } =
      .ok { stack := values.reverse, verified := [], codeHash } := by
    intro codeHash
    obtain ⟨fuel, hfuel⟩ := Nat.exists_eq_add_of_le' hlen
    rw [hfuel, runMachine_pushes h rfl (by simpa using few)]
    simp [runMachine]
  simp [evalScript, hrun, short, require]

/-- Running what `PushAll` writes for a script of at most sixteen keys. -/
theorem evalScript_pushAll {ctx : Context} (plain : ctx.flags.minimalData = false)
    (sizes : ∀ v ∈ values, v.length ≤ maxScriptElementSize) (few : values.length ≤ 18) :
    evalScript ctx (pushAll values) {} = .ok ⟨values.reverse, []⟩ := by
  refine evalScript_pushes (pushes_pushAll sizes (.inl plain)) ?_ (by omega)
  have hall := length_pushAll sizes
  simp only [maxScriptSize]
  omega

end PushAll

/-! ## Pushes inside scripts -/

theorem pushOf_pushBytes {flags : Flags} {data : Bytes} (long : 2 ≤ data.length)
    (size : data.length ≤ maxScriptElementSize) (rest : CScript) :
    ∃ opcode, getOp (pushBytes data ++ rest) = some (opcode, data, rest) ∧
      PushOf flags opcode data data := by
  have hshort : data.length ≤ 0xffff := Nat.le_trans size (by decide)
  obtain ⟨opcode, hget, hlow, hminimal⟩ := getOp_pushBytes_rest hshort rest
  exact ⟨opcode, hget, .data hlow size (.inr (hminimal long))⟩

theorem pushes_pushBytes {flags : Flags} {data : Bytes} (long : 2 ≤ data.length)
    (size : data.length ≤ maxScriptElementSize) (rest : CScript) :
    Pushes flags (pushBytes data ++ rest) [data] rest := by
  obtain ⟨opcode, hget, hpush⟩ := pushOf_pushBytes long size rest
  exact .cons hget hpush .nil

theorem scriptHash_length (hash : Uint160) :
    (getScriptForDestination (.scriptID hash)).length = 20 + 3 := by
  simp [getScriptForDestination, pushBytes_hash, hash.property]

theorem isPayToScriptHash_scriptID (hash : Uint160) :
    isPayToScriptHash (getScriptForDestination (.scriptID hash)) = true := by
  obtain ⟨b, hb⟩ := hash
  match b, hb with
  | [_, _, _, _, _, _, _, _, _, _, _, _, _, _, _, _, _, _, _, _], _ => rfl

section Hashed

variable {ctx : Context} {m : Machine} {verified : List Bytes}

theorem runMachine_pushBytes {data : Bytes} (long : 2 ≤ data.length)
    (size : data.length ≤ maxScriptElementSize) (rest : CScript) (exec : m.vfExec = [])
    (room : m.stack.length + m.altstack.length < 1000) (fuel : Nat) :
    runMachine ctx (fuel + 1) (pushBytes data ++ rest) m = runMachine ctx fuel rest (m.push data) :=
  runMachine_pushes (pushes_pushBytes long size rest) exec room fuel

/-- A script below the hash that its output asks for. -/
theorem evalScript_scriptHash_true {script : CScript} {s : List Bytes} (room : s.length < 900) :
    evalScript ctx (getScriptForDestination (.scriptID (ctx.env.hash160 script)))
      ⟨script :: s, verified⟩ = .ok ⟨vchTrue :: s, verified⟩ := by
  have hhash := (ctx.env.hash160 script).property
  have hrun : ∀ codeHash, runMachine ctx 23
      (getScriptForDestination (.scriptID (ctx.env.hash160 script)))
      { stack := script :: s, verified, codeHash } =
      .ok { stack := vchTrue :: s, verified, codeHash, nOpCount := 2 } := by
    intro codeHash
    have hscript : getScriptForDestination (.scriptID (ctx.env.hash160 script)) =
        opHash160 :: (pushBytes (ctx.env.hash160 script).val ++ [opEqual]) := rfl
    rw [hscript, runMachine_op_eq (by decide) (by decide) rfl (by decide : 0 < maxOpsPerScript) rfl
        (by simp; omega),
      runMachine_pushBytes (by omega) (by rw [hhash]; decide) _ rfl (by simp; omega),
      runMachine_op_eq (by decide) (by decide) rfl (by decide : 1 < maxOpsPerScript) rfl
        (by simp [Machine.push]; omega)]
    simp [runMachine, execHash, Machine.push, ofBool]
  simp [evalScript, scriptHash_length, hrun, require, maxScriptSize]

end Hashed

/-! ## The result -/

@[simp] theorem castToBool_ofBool (b : Bool) : castToBool (ofBool b) = b := by
  cases b <;> decide

theorem requireTrue_ofBool {result : Evaluation} {s : List Bytes} {success : Bool}
    (hstack : result.stack = ofBool success :: s) (h : requireTrue result = .ok ()) :
    success = true := by
  simpa [requireTrue, hstack] using h

end KubuCore.Script
