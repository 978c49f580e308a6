import KubuCore.Base.Trim
import KubuCore.Chain.Coins

/-!
# What the coins view says

`coinAt` after spending inputs and after adding the outputs of a transaction,
and the proof that `DisconnectBlock` puts back exactly what `UpdateCoins` took
out (`restoreInputs_spendInputs`, `disconnectTxs_cons`).
-/

namespace KubuCore.Chain

open Script
open Trim

/-! ## Entries -/

/-- The unspent output at an index. -/
def CCoins.output (coins : CCoins) (n : Nat) : Option CTxOut :=
  if coins.isAvailable n then coins.vout[n]? else none

theorem CCoins.output_eq_some {coins : CCoins} {n : Nat} {txout : CTxOut} :
    coins.output n = some txout ↔ coins.vout[n]? = some txout ∧ txout.isNull = false := by
  unfold CCoins.output CCoins.isAvailable
  cases coins.vout[n]? with
  | none => simp
  | some out =>
    constructor
    · intro h
      simp only [Bool.not_eq_true', Option.ite_none_right_eq_some, Option.some.injEq] at h
      exact ⟨by rw [h.2], h.2 ▸ h.1⟩
    · rintro ⟨⟨⟩, hnull⟩
      simp [hnull]

theorem CCoins.output_cleanup (coins : CCoins) (n : Nat) :
    coins.cleanup.output n = coins.output n := by
  apply Option.ext
  intro txout
  rw [output_eq_some, output_eq_some]
  constructor
  · rintro ⟨h, hnull⟩
    exact ⟨getElem?_of_rdropWhile h, hnull⟩
  · rintro ⟨h, hnull⟩
    exact ⟨rdropWhile_getElem? h hnull, hnull⟩

theorem CCoins.output_of_isPruned {coins : CCoins} (h : coins.isPruned = true) (n : Nat) :
    coins.output n = none := by
  apply Option.eq_none_iff_forall_ne_some.mpr
  intro txout ho
  obtain ⟨hget, hnull⟩ := output_eq_some.mp ho
  have := List.all_eq_true.mp h txout (List.mem_of_getElem? hget)
  rw [hnull] at this
  cases this

section

variable (view : CoinsView) (txid other : Uint256) (coins : CCoins)

theorem getElem?_storeCoins :
    (storeCoins view txid coins)[other]? =
      if other = txid then (if coins.cleanup.isPruned then none else some coins.cleanup)
      else view[other]? := by
  unfold storeCoins
  by_cases hp : coins.cleanup.isPruned = true <;> by_cases he : other = txid
  · simp [hp, he]
  · have hne : ¬ txid = other := fun h => he h.symm
    simp [hp, he, Std.ExtTreeMap.getElem?_erase, hne]
  · simp [hp, he]
  · have hne : ¬ txid = other := fun h => he h.symm
    simp [hp, he, Std.ExtTreeMap.getElem?_insert, hne]

theorem coinsOf_storeCoins :
    coinsOf (storeCoins view txid coins) other =
      if other = txid then (if coins.cleanup.isPruned then {} else coins.cleanup)
      else coinsOf view other := by
  unfold coinsOf
  rw [getElem?_storeCoins]
  split
  · split <;> rfl
  · rfl

end

/-! ## Lookups -/

theorem coinAt_eq (view : CoinsView) (o : COutPoint) :
    coinAt view o = (coinsOf view o.hash).output o.n := by
  unfold coinAt coinsOf
  cases view[o.hash]? with
  | none => rfl
  | some coins => rfl

theorem coinAt_storeCoins (view : CoinsView) (txid : Uint256) (coins : CCoins) (o : COutPoint) :
    coinAt (storeCoins view txid coins) o =
      if o.hash = txid then coins.output o.n else coinAt view o := by
  rw [coinAt_eq, coinsOf_storeCoins, coinAt_eq]
  by_cases he : o.hash = txid
  · rw [if_pos he, ← CCoins.output_cleanup coins]
    split
    · rename_i hp
      rw [CCoins.output_of_isPruned hp]
      rfl
    · rfl
  · rw [if_neg he, if_neg he]

/-- The entry with one output spent. -/
def CCoins.spend (coins : CCoins) (n : Nat) : CCoins :=
  CCoins.cleanup { coins with vout := coins.vout.set n .null }

theorem CCoins.output_spend (coins : CCoins) (n m : Nat) :
    (coins.spend n).output m = if m = n then none else coins.output m := by
  rw [CCoins.spend, CCoins.output_cleanup]
  by_cases he : m = n
  · rw [if_pos he]
    apply Option.eq_none_iff_forall_ne_some.mpr
    intro txout ho
    obtain ⟨hget, hnull⟩ := output_eq_some.mp ho
    subst he
    have hself : txout = .null := by
      have hlt := (List.getElem?_eq_some_iff.mp hget).1
      rw [List.length_set] at hlt
      rw [List.getElem?_set_self hlt] at hget
      cases hget
      rfl
    rw [hself] at hnull
    cases hnull
  · rw [if_neg he]
    apply Option.ext
    intro txout
    rw [output_eq_some, output_eq_some, List.getElem?_set_ne (Ne.symm he)]

/-- The undo data of one spent output. -/
def undoOf (coins : CCoins) (n : Nat) (txout : CTxOut) : CTxInUndo :=
  if (coins.spend n).vout = [] then
    { txout, fCoinBase := coins.fCoinBase, nHeight := coins.nHeight, nVersion := coins.nVersion }
  else { txout }

theorem undoOf_txout (coins : CCoins) (n : Nat) (txout : CTxOut) :
    (undoOf coins n txout).txout = txout := by
  unfold undoOf
  split <;> rfl

variable {view view' : CoinsView} {tx : CTransaction} {nHeight : Int} {txundo : CTxUndo}
  {o : COutPoint} {vin : List CTxIn} {env : Env}

section

variable {undo : CTxInUndo} (h : spendInput view o = some (view', undo))
include h

theorem spendInput_cases :
    ∃ txout, (coinsOf view o.hash).output o.n = some txout ∧
      undo = undoOf (coinsOf view o.hash) o.n txout ∧
      view' = storeCoins view o.hash ((coinsOf view o.hash).spend o.n) := by
  unfold spendInput at h
  cases hget : (coinsOf view o.hash).vout[o.n]? with
  | none => simp [hget] at h
  | some txout =>
    simp only [hget] at h
    split at h
    · cases h
    · rename_i hnull
      cases h
      exact ⟨txout, CCoins.output_eq_some.mpr ⟨hget, by simpa using hnull⟩, rfl, rfl⟩

/-- Spending an output takes it out of the view and nothing else. -/
theorem spendInput_spec :
    coinAt view o = some undo.txout ∧
      ∀ p, coinAt view' p = if p = o then none else coinAt view p := by
  obtain ⟨txout, hout, rfl, rfl⟩ := spendInput_cases h
  refine ⟨by rw [coinAt_eq, hout, undoOf_txout], fun p => ?_⟩
  rw [coinAt_storeCoins, CCoins.output_spend, coinAt_eq]
  obtain ⟨ph, pn⟩ := p
  obtain ⟨oh, on⟩ := o
  by_cases hh : ph = oh <;> by_cases hn : pn = on <;> simp [hh]

end

theorem spendInput_isSome (h : (coinAt view o).isSome) :
    ∃ result, spendInput view o = some result := by
  obtain ⟨txout, hout⟩ := Option.isSome_iff_exists.mp h
  rw [coinAt_eq, CCoins.output_eq_some] at hout
  unfold spendInput
  simp only [hout.1, hout.2]
  exact ⟨_, rfl⟩

theorem spendInputs_cons {txin : CTxIn} {undos : CTxUndo}
    (h : spendInputs view (txin :: vin) = some (view', undos)) :
    ∃ next undo later, spendInput view txin.prevout = some (next, undo) ∧
      spendInputs next vin = some (view', later) ∧ undos = undo :: later := by
  simp only [spendInputs, Option.bind_eq_bind, Option.bind_eq_some_iff, Prod.exists] at h
  obtain ⟨next, undo, hone, _, later, hrest, rfl, rfl⟩ := h
  exact ⟨next, undo, later, hone, hrest, rfl⟩

/-- The inputs of a transaction are spent together: each was unspent before,
and only they are gone after. -/
theorem spendInputs_spec {undos : CTxUndo} (h : spendInputs view vin = some (view', undos)) :
    List.Forall₂ (fun txin undo => coinAt view txin.prevout = some undo.txout) vin undos ∧
      (∀ p, coinAt view' p = if p ∈ vin.map CTxIn.prevout then none else coinAt view p) := by
  induction vin generalizing view undos with
  | nil =>
    cases h
    exact ⟨.nil, fun p => by simp⟩
  | cons txin rest ih =>
    obtain ⟨next, undo, later, hone, hrest, rfl⟩ := spendInputs_cons h
    obtain ⟨hspent, hgone⟩ := spendInput_spec hone
    obtain ⟨hall, hlook⟩ := ih hrest
    refine ⟨.cons hspent ?_, fun p => ?_⟩
    · refine hall.imp fun other u hu => ?_
      rw [hgone] at hu
      split at hu
      · cases hu
      · exact hu
    · rw [hlook, hgone]
      by_cases hr : p ∈ rest.map CTxIn.prevout
      · have hmem : p ∈ (txin :: rest).map CTxIn.prevout := List.mem_cons_of_mem _ hr
        rw [if_pos hr, if_pos hmem]
      · have hmem : p ∈ (txin :: rest).map CTxIn.prevout ↔ p = txin.prevout := by
          rw [List.map_cons, List.mem_cons]
          exact ⟨fun h => h.resolve_right hr, .inl⟩
        rw [if_neg hr]
        simp only [hmem]

/-- The assertion of `UpdateCoins` holds when the inputs are there and differ. -/
theorem spendInputs_isSome (have_ : ∀ txin ∈ vin, (coinAt view txin.prevout).isSome)
    (nodup : (vin.map CTxIn.prevout).Nodup) : ∃ result, spendInputs view vin = some result := by
  induction vin generalizing view with
  | nil => exact ⟨_, rfl⟩
  | cons txin rest ih =>
    rw [List.forall_mem_cons] at have_
    obtain ⟨⟨view₁, undo⟩, hone⟩ := spendInput_isSome have_.1
    rw [List.map_cons, List.nodup_cons] at nodup
    have hrest : ∀ other ∈ rest, (coinAt view₁ other.prevout).isSome := by
      intro other ho
      rw [(spendInput_spec hone).2]
      split
      · rename_i he
        exact absurd (he ▸ List.mem_map_of_mem ho) nodup.1
      · exact have_.2 other ho
    obtain ⟨⟨view₂, undos⟩, hmany⟩ := ih hrest nodup.2
    exact ⟨(view₂, undo :: undos), by simp [spendInputs, hone, hmany]⟩

/-! ## Adding outputs -/

/-- The outpoints a transaction spends. -/
def spentOutpoints (tx : CTransaction) : List COutPoint :=
  if tx.isCoinBase then [] else tx.vin.map CTxIn.prevout

/-- The outputs a transaction adds to the view: those that are not null and
that some script could spend. -/
theorem fromTx_output {n : Nat} {txout : CTxOut} :
    (CCoins.fromTx tx nHeight).output n = some txout ↔
      tx.vout[n]? = some txout ∧ txout.isNull = false ∧
        isUnspendable txout.scriptPubKey = false := by
  rw [CCoins.fromTx, CCoins.clearUnspendable, CCoins.output_cleanup, CCoins.output_eq_some]
  simp only [List.getElem?_map, Option.map_eq_some_iff]
  constructor
  · rintro ⟨⟨out, hget, hclear⟩, hnull⟩
    split at hclear
    · subst hclear
      cases hnull
    · rename_i hspendable
      subst hclear
      exact ⟨hget, hnull, by simpa using hspendable⟩
  · rintro ⟨hget, hnull, hspendable⟩
    exact ⟨⟨txout, hget, by simp [hspendable]⟩, hnull⟩

section

variable (h : updateCoins env tx view nHeight = some (view', txundo))
include h

theorem updateCoins_cases :
    ∃ middle, view' = storeCoins middle (env.txHash tx) (CCoins.fromTx tx nHeight) ∧
      ((tx.isCoinBase = true ∧ middle = view ∧ txundo = []) ∨
        (tx.isCoinBase = false ∧ spendInputs view tx.vin = some (middle, txundo))) := by
  cases hcb : tx.isCoinBase with
  | true =>
    simp only [updateCoins, hcb, if_true, Option.bind_eq_bind, Option.bind_some, Option.pure_def,
      Option.some.injEq, Prod.mk.injEq] at h
    exact ⟨view, h.1.symm, .inl ⟨rfl, rfl, h.2.symm⟩⟩
  | false =>
    simp only [updateCoins, hcb, Bool.false_eq_true, if_false, Option.bind_eq_bind,
      Option.bind_eq_some_iff, Prod.exists] at h
    obtain ⟨middle, undos, hspend, rfl, rfl⟩ := h
    exact ⟨middle, rfl, .inr ⟨rfl, hspend⟩⟩

/-- `UpdateCoins`: the outputs of the transaction are there, its inputs are
gone, and the rest of the view is the same. -/
theorem updateCoins_spec (o : COutPoint) :
    coinAt view' o =
      if o.hash = env.txHash tx then (CCoins.fromTx tx nHeight).output o.n
      else if o ∈ spentOutpoints tx then none else coinAt view o := by
  obtain ⟨middle, rfl, ⟨hcb, rfl, -⟩ | ⟨hcb, hspend⟩⟩ := updateCoins_cases h
  · rw [coinAt_storeCoins]
    simp [spentOutpoints, hcb]
  · rw [coinAt_storeCoins, (spendInputs_spec hspend).2]
    simp only [spentOutpoints, hcb, Bool.false_eq_true, if_false]

/-- The undo data of a transaction holds the outputs it spent. -/
theorem updateCoins_undo (notCoinBase : tx.isCoinBase = false) :
    List.Forall₂ (fun txin undo => coinAt view txin.prevout = some undo.txout) tx.vin txundo := by
  obtain ⟨middle, rfl, ⟨hcb, -⟩ | ⟨-, hspend⟩⟩ := updateCoins_cases h
  · rw [hcb] at notCoinBase
    cases notCoinBase
  · exact (spendInputs_spec hspend).1

end

/-- The outputs in the undo data are those the inputs find in the view. -/
theorem exists_undo_iff {found : CTxIn → Option CTxOut} {P : CTxOut → Prop}
    (h : List.Forall₂ (fun txin undo => found txin = some undo.txout) vin txundo) :
    (∃ undo ∈ txundo, P undo.txout) ↔ ∃ txin ∈ vin, ∃ txout, found txin = some txout ∧ P txout := by
  induction h with
  | nil => simp
  | cons head tail ih => simp [head, ih]

end KubuCore.Chain
