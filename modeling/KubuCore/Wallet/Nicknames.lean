import KubuCore.Nickname.Encode
import KubuCore.Nickname.Runs
import KubuCore.Wallet.Payment

/-!
# Nickname transactions of the wallet

What `SendNicknameOperationTx` of `rpc/nicknames.cpp` asks `CreateTransaction`
for. The prices of a registration are computed from the name as it was typed,
while consensus computes them from the normalized name of the script; they agree
exactly when nothing was trimmed or the name is in the cheapest tier.
-/

namespace KubuCore.Wallet

open Checked
open Nickname
open Nicknames
open Script

/-- What an operation pays and spends. -/
structure OperationPlan where
  vecSend : List CRecipient
  requiredInputs : List COutPoint := []
  createdBond : Option (CScript × CAmount) := none

/-- An operation that moves the bond to a new output. -/
def movedBond (opScript : CScript) (info : NicknameInfo) (bondScript : CScript)
    (bondAmount : CAmount) : OperationPlan where
  vecSend := [⟨opScript, 0, false⟩, ⟨bondScript, bondAmount, false⟩]
  requiredInputs := [info.getBondOutpoint]
  createdBond := some (bondScript, bondAmount)

/-- The record of an operation that needs a bond. -/
def activeBond (currentInfo : Option NicknameInfo) : Except String NicknameInfo :=
  match currentInfo with
  | some info => do
    require info.hasBondOutpoint "Indexed nickname has no active bond UTXO"
    require (0 < info.bondAmount) "Indexed nickname bond amount is invalid"
    pure info
  | none => throw "Indexed nickname has no active bond UTXO"

/-- The switch over the operation type. -/
def planOperation (env : Env) (pricingMultiplierPermille : Int) (operation : NicknameOperation)
    (opScript : CScript) (ownerPubKey : CPubKey) (currentInfo : Option NicknameInfo)
    (explicitClaimOutpoint : Option COutPoint) : Except String OperationPlan :=
  match operation.type with
  | .register =>
    let pricing := getPricing operation.nickname.length pricingMultiplierPermille
    let bondScript := getScriptForRawPubKey ownerPubKey
    .ok {
      vecSend := [⟨opScript, 0, false⟩, ⟨bondScript, pricing.bondAmount, false⟩]
      createdBond := some (bondScript, pricing.bondAmount) }
  | .transfer => do
    let info ← activeBond currentInfo
    require (operation.newOwnerPubKey.length = compressedSize)
      "New owner pubkey must be 33-byte compressed pubkey"
    let newOwnerPubKey := CPubKey.set operation.newOwnerPubKey
    require (CPubKey.isFullyValid env newOwnerPubKey ∧ CPubKey.isCompressed newOwnerPubKey)
      "Invalid new owner compressed pubkey"
    pure (movedBond opScript info (getScriptForRawPubKey newOwnerPubKey) info.bondAmount)
  | .renew => do
    let info ← activeBond currentInfo
    let renewalBondIncrease :=
      getRenewalBondIncrease operation.nickname.length pricingMultiplierPermille
    require (0 ≤ renewalBondIncrease ∧ info.bondAmount ≤ maxMoney - renewalBondIncrease)
      "Renewed bond amount overflow"
    pure (movedBond opScript info (getScriptForRawPubKey ownerPubKey)
      (info.bondAmount + renewalBondIncrease))
  | .claimBond =>
    match explicitClaimOutpoint, currentInfo with
    | some outpoint, _ => .ok { vecSend := [⟨opScript, 0, false⟩], requiredInputs := [outpoint] }
    | none, some info => do
      require info.hasBondOutpoint "Indexed nickname has no claimable bond UTXO"
      pure { vecSend := [⟨opScript, 0, false⟩], requiredInputs := [info.getBondOutpoint] }
    | none, none => .error "Indexed nickname has no claimable bond UTXO"
  | .update | .release | .none => .ok { vecSend := [⟨opScript, 0, false⟩] }

def getRequiredNicknameFeeForRPC (operation : NicknameOperation)
    (pricingMultiplierPermille : Int) : CAmount :=
  match operation.type with
  | .register =>
    (getPricing operation.nickname.length pricingMultiplierPermille).registrationFee
  | _ => 0

/-- The coin control of an operation, with the inputs it selects. -/
def operationControl (operation : NicknameOperation) (pricingMultiplierPermille : Int)
    (selected : List COutPoint) : CCoinControl where
  fAllowOtherInputs := true
  nMinimumTotalFee := getRequiredNicknameFeeForRPC operation pricingMultiplierPermille
  setSelected := selected.foldl (fun set outpoint => set.insert outpoint) ∅

/-! ## Prices of a name as it was typed -/

/-- The prices of the name as it was typed are those of the normalized name. -/
def PricedAlike (nickname : Bytes) : Prop :=
  nickname.length = (normalizeNickname nickname).length ∨
    8 ≤ (normalizeNickname nickname).length

instance (nickname : Bytes) : Decidable (PricedAlike nickname) := inferInstanceAs (Decidable (_ ∨ _))

theorem length_stripAt_le (name : Bytes) : (stripAt name).length ≤ name.length := by
  cases name with
  | nil => exact le_refl _
  | cons c rest =>
    rw [stripAt]
    split
    · exact Nat.le_succ _
    · exact le_refl _

theorem length_normalizeNickname_le (name : Bytes) :
    (normalizeNickname name).length ≤ name.length := by
  have htrim : ((name.dropWhile isSpace).reverse.dropWhile isSpace).length ≤ _ :=
    (List.dropWhile_suffix isSpace).length_le
  have hdrop : (name.dropWhile isSpace).length ≤ name.length :=
    (List.dropWhile_suffix isSpace).length_le
  have hstrip := length_stripAt_le ((name.dropWhile isSpace).reverse.dropWhile isSpace).reverse
  rw [List.length_reverse] at htrim hstrip
  rw [normalizeNickname, List.length_map]
  exact hstrip.trans (htrim.trans hdrop)

theorem clamp_least (m : Int) : 500 ≤ clampPricingMultiplierPermille m := by
  rw [clamp_eq]
  omega

variable {n r : Nat} {vout : List CTxOut} {key : CPubKey}

theorem getBasePricing_cheapest (h : 8 ≤ n) : getBasePricing n = ⟨1 * coin, 3 * coin⟩ := by
  unfold getBasePricing
  split <;> first | omega | rfl

/-- The coins of the bond of a length. -/
def bondCoins (n : Nat) : Int :=
  if n = 4 then 48 else if n = 5 then 24 else if n = 6 then 12 else if n = 7 then 6 else 3

theorem bondCoins_pos (n : Nat) : 0 < bondCoins n := by
  unfold bondCoins
  split_ifs <;> decide

theorem basePricing_bondAmount (n : Nat) : (getBasePricing n).bondAmount = bondCoins n * coin := by
  unfold getBasePricing
  split <;> simp_all [bondCoins]

/-- A bond is priced by whole coins, so that no rounding hides a difference of tier. -/
theorem bondAmount_eq (n : Nat) (m : Int) :
    (getPricing n m).bondAmount = bondCoins n * clampPricingMultiplierPermille m * 100000 := by
  have hclamp := clamp_least m
  have hpos := bondCoins_pos n
  have hcoin : (coin : Int) = 100000000 := rfl
  have hscaled : bondCoins n * 100000000 * clampPricingMultiplierPermille m + 500 =
      500 + 1000 * (bondCoins n * clampPricingMultiplierPermille m * 100000) := by ring
  have hcharged : ¬ ((bondCoins n * 100000000 : Int) ≤ 0 ∨
      clampPricingMultiplierPermille m ≤ 0) := by omega
  change scaleByMultiplierPermille (getBasePricing n).bondAmount _ = _
  rw [basePricing_bondAmount, hcoin, scaleByMultiplierPermille, if_neg hcharged, hscaled,
    Int.add_mul_ediv_left _ _ (by decide)]
  exact zero_add _

theorem bondCoins_eq_iff (hn : 4 ≤ n) (hr : n ≤ r) : bondCoins r = bondCoins n ↔ r = n ∨ 8 ≤ n := by
  unfold bondCoins
  split_ifs <;> omega

/-- The bonds of two lengths are the same exactly in one tier. -/
theorem bondAmount_eq_iff (hn : 4 ≤ n) (hr : n ≤ r) (m : Int) :
    (getPricing r m).bondAmount = (getPricing n m).bondAmount ↔ r = n ∨ 8 ≤ n := by
  have hclamp := clamp_least m
  rw [bondAmount_eq, bondAmount_eq, ← bondCoins_eq_iff hn hr]
  constructor
  · intro h
    have hprod := mul_right_cancel₀ (by decide : (100000 : Int) ≠ 0) h
    exact mul_right_cancel₀ (by omega) hprod
  · intro h
    rw [h]

theorem getPricing_of_tier (h : r = n ∨ 8 ≤ n) (hr : n ≤ r) (m : Int) :
    getPricing r m = getPricing n m := by
  rcases h with rfl | h
  · rfl
  · rw [getPricing, getPricing, getBasePricing_cheapest h, getBasePricing_cheapest (h.trans hr)]

/-! ## The outputs of a registration -/

/-- The bond output is found when exactly one output is it. -/
theorem findBondOutput_isOk {script : CScript} {amount : CAmount} {i : Nat} {found : Option Nat}
    {outputs : List CTxOut} :
    (∃ v, findBondOutput script amount i found outputs = .ok v) ↔
      found.toList.length + outputs.count ⟨amount, script⟩ = 1 := by
  induction outputs generalizing i found with
  | nil => cases found <;> simp [findBondOutput]
  | cons output outputs ih =>
    rw [findBondOutput, List.count_cons]
    by_cases hout : output = ⟨amount, script⟩
    · subst hout
      have hmatch : ¬ (amount ≠ amount ∨ script ≠ script) := by simp
      cases found with
      | none =>
        simp only [if_neg hmatch, require, if_true, ok_bind, ih, Option.toList_some,
          Option.toList_none, List.length_singleton, List.length_nil, beq_self_eq_true]
        omega
      | some w =>
        simp only [if_neg hmatch, require, reduceCtorEq, if_false, error_bind, exists_false,
          Option.toList_some, List.length_singleton, beq_self_eq_true, if_true, false_iff]
        omega
    · have hmiss : output.nValue ≠ amount ∨ output.scriptPubKey ≠ script := by
        by_contra hboth
        rw [not_or, not_not, not_not] at hboth
        exact hout (by rw [← hboth.1, ← hboth.2])
      rw [if_pos hmiss, ih, if_neg (by simpa using hout), add_zero]

theorem payees_exact {vecSend : List CRecipient}
    (hnone : ∀ recipient ∈ vecSend, recipient.fSubtractFeeFromAmount = false)
    (h : List.Forall₂ Pays vecSend vout) :
    vout = vecSend.map fun recipient => ⟨recipient.nAmount, recipient.scriptPubKey⟩ := by
  induction h with
  | nil => rfl
  | @cons recipient txout vecSend vout hpays hrest ih =>
    rw [List.map_cons, ← ih fun other hmem => hnone other (List.mem_cons_of_mem _ hmem)]
    rw [← hpays.1, ← hpays.2 (hnone recipient List.mem_cons_self)]

theorem rawPubKey_head (h : key.length = compressedSize) :
    (getScriptForRawPubKey key).head? = some 33 := by
  rw [getScriptForRawPubKey, pushBytes, h]
  rfl

theorem destination_ne_rawPubKey (h : key.length = compressedSize)
    (dest : CTxDestination) : getScriptForDestination dest ≠ getScriptForRawPubKey key := by
  intro heq
  have hhead := rawPubKey_head h
  rw [← heq] at hhead
  cases dest with
  | keyID hash => exact absurd hhead (by simp [getScriptForDestination, opDup])
  | scriptID hash => exact absurd hhead (by simp [getScriptForDestination, opHash160])

theorem count_withChange {change : Option (Nat × CTxOut)} {txout : CTxOut}
    (hinside : ∀ item ∈ change, item.1 ≤ vout.length) (hne : ∀ item ∈ change, item.2 ≠ txout) :
    (withChange vout change).count txout = vout.count txout := by
  cases change with
  | none => rfl
  | some item =>
    rw [withChange, (List.perm_insertIdx item.2 vout (hinside item rfl)).count_eq,
      List.count_cons_of_ne (hne item rfl)]

section Registration

variable {parseAddress : String → Option CTxDestination}

/-- A registration as `registernickname` describes it. -/
def registration (nickname : Bytes) (ownerPubKey : CPubKey) (payoutAddress : String) :
    NicknameOperation where
  type := .register
  nickname
  ownerPubKey
  payoutAddress

theorem build_registration {nickname : Bytes} {ownerPubKey : CPubKey} {payoutAddress : String}
    {dest : CTxDestination}
    (hvalid : isValidNormalizedNickname (normalizeNickname nickname) = .ok ())
    (hkey : ownerPubKey.length = compressedSize) (haddress : parseAddress payoutAddress = some dest) :
    ∃ payload, buildNicknameOpScript parseAddress (registration nickname ownerPubKey payoutAddress) =
      .ok (opReturn :: payload) := by
  have hname := (valid_length hvalid).2
  have hvector : ∀ data : Bytes, data.length < 253 → (writeVector data).length = data.length + 1 := by
    intro data hdata
    rw [writeVector, writeCompactSize, if_pos hdata]
    simp
  have hsize : (kubuNicknameMagic ++ NicknameOpType.register.toByte ::
      (writeVector (normalizeNickname nickname) ++
        (writeVector ownerPubKey ++ writeVector (destinationBytes dest)))).length ≤
      maxOpReturnRelay := by
    rw [List.length_append, List.length_cons, List.length_append, List.length_append,
      hvector _ (by omega), hvector _ (by rw [hkey]; decide),
      hvector _ (by rw [destinationBytes_length]; decide), hkey, destinationBytes_length]
    simp only [kubuNicknameMagic, maxOpReturnRelay, compressedSize, List.length_cons, List.length_nil]
    omega
  refine ⟨pushBytes (kubuNicknameMagic ++ NicknameOpType.register.toByte ::
    (writeVector (normalizeNickname nickname) ++
      (writeVector ownerPubKey ++ writeVector (destinationBytes dest)))), ?_⟩
  simp only [buildNicknameOpScript, eq_ok]
  refine ⟨(), hvalid, destinationBytes dest, ?_, (), ⟨fun _ => hkey, ?_⟩, _, rfl, (), hsize, rfl⟩
  · simp [payoutBytes, registration, encodeDestinationBytes, haddress]
  · intro htransfer
    cases htransfer

/-- The bond that consensus looks for is among the outputs exactly if the wallet paid it. -/
theorem bond_found_iff {wallet : CWallet} {coinControl : Option CCoinControl} {payload : Bytes}
    {ownerPubKey : CPubKey} {paid demanded : CAmount} {draft : Draft} {tx : CTransaction}
    (hkey : ownerPubKey.length = compressedSize)
    (built : Built wallet coinControl
      [⟨opReturn :: payload, 0, false⟩, ⟨getScriptForRawPubKey ownerPubKey, paid, false⟩] draft)
    (htx : tx.vout = draft.vout) :
    (∃ v, findUniqueBondOutput tx (getScriptForRawPubKey ownerPubKey) demanded = .ok v) ↔
      paid = demanded := by
  obtain ⟨vout, change, worth, ok, -⟩ := built.ok
  obtain ⟨lost, hpays, -⟩ := ok.pays
  have hexact := payees_exact (by simp) hpays.pays
  have hchange : ∀ item ∈ change, item.2 ≠ ⟨demanded, getScriptForRawPubKey ownerPubKey⟩ := by
    intro item hmem heq
    obtain ⟨dest, hdest⟩ := ok.script item hmem
    rw [heq] at hdest
    exact destination_ne_rawPubKey hkey dest hdest.symm
  have hannounce : (⟨0, opReturn :: payload⟩ : CTxOut) ≠
      ⟨demanded, getScriptForRawPubKey ownerPubKey⟩ := by
    intro heq
    have hhead := rawPubKey_head hkey
    rw [← (CTxOut.mk.inj heq).2] at hhead
    exact absurd (Option.some.inj hhead) (by decide)
  rw [findUniqueBondOutput, findBondOutput_isOk, htx, ok.shape, count_withChange ok.inside hchange,
    hexact]
  simp only [List.map_cons, List.count_cons_of_ne hannounce]
  by_cases hpaid : paid = demanded
  · simp [hpaid]
  · simp [hpaid]

/-- The wallet's prices for a registration are those that consensus demands of the operation in
the script, and the transaction it creates meets them, exactly for the names priced alike. -/
theorem registration_priced_alike (env : Env) (parseAddress : String → Option CTxDestination)
    (nickname : Bytes) (ownerPubKey : CPubKey) (payoutAddress : String) {dest : CTxDestination}
    (hvalid : isValidNormalizedNickname (normalizeNickname nickname) = .ok ())
    (hkey : CPubKey.isCompressed (CPubKey.set ownerPubKey) = true)
    (haddress : parseAddress payoutAddress = some dest) (m : Int) :
    ∃ opScript plan decoded,
      buildNicknameOpScript parseAddress (registration nickname ownerPubKey payoutAddress) =
        .ok opScript ∧
      planOperation env m (registration nickname ownerPubKey payoutAddress) opScript ownerPubKey
        none none = .ok plan ∧
      extractNicknameOperation env opScript = .ok decoded ∧
      (plan.createdBond = some (getScriptForRawPubKey (CPubKey.set decoded.ownerPubKey),
          (getPricing decoded.nickname.length m).bondAmount) ∧
        getRequiredNicknameFeeForRPC (registration nickname ownerPubKey payoutAddress) m =
          getRequiredNicknameFee decoded m ↔ PricedAlike nickname) ∧
      ∀ (wallet : CWallet) (choices : Nat → PassChoices) (nChangePosRequest : Int) (sign : Bool)
        (selected : List COutPoint) (limit : Nat) (draft : Draft) (tx : CTransaction),
        0 < wallet.minRelayTxFeeRate →
        createTransaction wallet choices
          (some (operationControl (registration nickname ownerPubKey payoutAddress) m selected))
          nChangePosRequest sign plan.vecSend limit = some (.ok draft) →
        tx.vout = draft.vout →
        ((∃ v, findUniqueBondOutput tx (getScriptForRawPubKey (CPubKey.set decoded.ownerPubKey))
            (getPricing decoded.nickname.length m).bondAmount = .ok v) ∧
          getRequiredNicknameFee decoded m ≤ draft.nFeeRet ↔ PricedAlike nickname) := by
  have hset := CPubKey.set_eq_of_isCompressed hkey
  have hlen : ownerPubKey.length = compressedSize := by
    rw [hset] at hkey
    simpa [CPubKey.isCompressed] using hkey
  obtain ⟨payload, hbuild⟩ := build_registration hvalid hlen haddress
  have hextract : extractNicknameOperation env _ = _ := (extract_build hbuild).2
  have hleast := (valid_length hvalid).1
  have hlonger := length_normalizeNickname_le nickname
  have hbonds := bondAmount_eq_iff hleast hlonger m
  have hprices : PricedAlike nickname →
      getPricing nickname.length m = getPricing (normalizeNickname nickname).length m :=
    fun halike => getPricing_of_tier halike hlonger m
  have hdecoded : decodedOperation parseAddress env
      (registration nickname ownerPubKey payoutAddress) =
      { type := .register, nickname := normalizeNickname nickname, ownerPubKey,
        payoutAddress := env.addressToString dest } := by
    simp [decodedOperation, registration, haddress]
  rw [hdecoded] at hextract
  refine ⟨_, _, _, hbuild, rfl, hextract, ?_, ?_⟩
  · rw [hset]
    constructor
    · rintro ⟨hbond, -⟩
      exact hbonds.mp (Prod.mk.inj (Option.some.inj hbond)).2
    · intro halike
      refine ⟨?_, ?_⟩
      · dsimp only [registration]
        rw [hprices halike]
      · dsimp only [registration, getRequiredNicknameFeeForRPC, getRequiredNicknameFee]
        rw [hprices halike]
  · intro wallet choices nChangePosRequest sign selected limit draft tx hrelay hcreate htx
    obtain ⟨-, hbuilt⟩ := createTransaction_built hcreate
    have hfee := hbuilt.minimum hrelay rfl rfl
    rw [hset, bond_found_iff hlen hbuilt htx]
    constructor
    · rintro ⟨hpaid, -⟩
      exact hbonds.mp hpaid
    · intro halike
      refine ⟨hbonds.mpr halike, ?_⟩
      dsimp only [operationControl, registration, getRequiredNicknameFeeForRPC] at hfee
      rw [hprices halike] at hfee
      exact hfee

/-- A name with an at sign in front is one byte longer as it was typed. -/
def atName : Bytes := [0x40, 0x6e, 0x61, 0x6d, 0x65]

def atKey : CPubKey := 2 :: List.replicate 32 0

def atDestination : CTxDestination := .keyID ⟨List.replicate 20 0, length_zeros⟩

def typedRegistration (nickname : Bytes) : NicknameOperation := registration nickname atKey ""

def typedScript (nickname : Bytes) : CScript :=
  (buildNicknameOpScript (fun _ => some atDestination) (typedRegistration nickname)).toOption.getD []

/-- A draft that pays a fee and a bond out of 100 coins. -/
def typedDraft (nickname : Bytes) (fee bond : CAmount) : Draft where
  inputs := [(⟨0, 0⟩, 100 * coin)]
  vout := [⟨0, typedScript nickname⟩, ⟨bond, getScriptForRawPubKey atKey⟩,
    ⟨100 * coin - fee - bond, getScriptForDestination atDestination⟩]
  nChangePos := some 2
  nFeeRet := fee

/-- What the wallet creates for the registration at the base prices. -/
def typedCreated (nickname : Bytes) : Option (Except String Draft) :=
  createTransaction sampleWallet (fun _ => sampleChoices)
    (some (operationControl (typedRegistration nickname) 1000 [])) (-1) true
    [⟨typedScript nickname, 0, false⟩,
      ⟨getScriptForRawPubKey atKey, (getPricing nickname.length 1000).bondAmount, false⟩] 3

/-- The wallet pays the fee and the bond of a name of five bytes. -/
theorem at_sign_registration_underpaid :
    isValidNormalizedNickname (normalizeNickname atName) = .ok () ∧
    buildNicknameOpScript (fun _ => some atDestination) (typedRegistration atName) =
      .ok (typedScript atName) ∧
    typedCreated atName = some (.ok (typedDraft atName (12 * coin) (24 * coin))) ∧
    12 * coin < (getPricing (normalizeNickname atName).length 1000).registrationFee ∧
    findBondOutput (getScriptForRawPubKey atKey)
      (getPricing (normalizeNickname atName).length 1000).bondAmount 0 none
        (typedDraft atName (12 * coin) (24 * coin)).vout =
      .error "transaction is missing required nickname bond output" := by
  decide +kernel

/-- Without the at sign it pays what consensus demands. -/
theorem registration_priced_alike_plain :
    PricedAlike atName.tail ∧
    ∃ opScript plan decoded draft,
      buildNicknameOpScript (fun _ => some atDestination) (typedRegistration atName.tail) =
        .ok opScript ∧
      planOperation sampleEnv 1000 (typedRegistration atName.tail) opScript atKey none none =
        .ok plan ∧
      createTransaction sampleWallet (fun _ => sampleChoices)
        (some (operationControl (typedRegistration atName.tail) 1000 [])) (-1) true plan.vecSend 3 =
        some (.ok draft) ∧
      extractNicknameOperation sampleEnv opScript = .ok decoded ∧
      (∃ v, findBondOutput (getScriptForRawPubKey (CPubKey.set decoded.ownerPubKey))
        (getPricing decoded.nickname.length 1000).bondAmount 0 none draft.vout = .ok v) ∧
      getRequiredNicknameFee decoded 1000 ≤ draft.nFeeRet := by
  have alike : PricedAlike atName.tail := by decide
  obtain ⟨opScript, plan, decoded, hbuild, hplan, hextract, -, hmeets⟩ :=
    registration_priced_alike sampleEnv (fun _ => some atDestination) atName.tail atKey ""
      (by decide) (by decide) rfl 1000
  have hscript : buildNicknameOpScript (fun _ => some atDestination)
      (typedRegistration atName.tail) = .ok (typedScript atName.tail) := by
    decide +kernel
  obtain rfl := Except.ok.inj (hscript.symm.trans hbuild)
  obtain rfl := Except.ok.inj hplan
  have hcreated : typedCreated atName.tail =
      some (.ok (typedDraft atName.tail (24 * coin) (48 * coin))) := by
    decide +kernel
  exact ⟨alike, _, _, decoded, _, hbuild, hplan, hcreated, hextract,
    (hmeets sampleWallet _ (-1) true [] 3 _ ⟨1, [], _, 0, by decide +kernel⟩ (by decide) hcreated
      rfl).mpr alike⟩

end Registration

end KubuCore.Wallet
