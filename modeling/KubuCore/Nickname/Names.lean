import KubuCore.Base.Checked
import KubuCore.Primitives

/-!
# Names, prices and status

The rules of `nicknames.cpp`: which names are well formed, what they cost, and
the status of a record at a height.
-/

namespace KubuCore.Nicknames

open Checked

def minLength : Nat := 4
def maxLength : Nat := 16
def renewalPercent : Int := 25
def pricingWindowBlocks : Int := 11200
def pricingEpochBlocks : Int := 1600
def pricingTargetRegistrations7D : Int := 280
def pricingAlphaPercent : Int := 20
def pricingStepLimitPercent : Int := 10
def defaultPricingMultiplierPermille : Int := 1000
def minPricingMultiplierPermille : Int := 500
def maxPricingMultiplierPermille : Int := 3000

inductive Status where
  | active
  | expiredGrace
  | expiredAvailable
  | released
  | bondClaimable
deriving DecidableEq, Repr

structure Pricing where
  registrationFee : CAmount
  bondAmount : CAmount
deriving DecidableEq, Repr

/-! ## Names -/

def isAsciiLowerLetter (c : UInt8) : Bool := 0x61 ≤ c && c ≤ 0x7a

def isAsciiDigit (c : UInt8) : Bool := 0x30 ≤ c && c ≤ 0x39

def isAllowedChar (c : UInt8) : Bool := isAsciiLowerLetter c || isAsciiDigit c || c == 0x5f

/-- `std::isspace` in the C locale. -/
def isSpace (c : UInt8) : Bool := c == 0x20 || (0x09 ≤ c && c ≤ 0x0d)

/-- `std::tolower` in the C locale. -/
def toLower (c : UInt8) : UInt8 := if 0x41 ≤ c && c ≤ 0x5a then c + 0x20 else c

/-- Drop one leading at sign. -/
def stripAt : Bytes → Bytes
  | [] => []
  | c :: rest => if c = 0x40 then rest else c :: rest

/-- `NormalizeNickname`: trim white space, drop one leading at sign, lower
the case. -/
def normalizeNickname (input : Bytes) : Bytes :=
  let trimmed := ((input.dropWhile isSpace).reverse.dropWhile isSpace).reverse
  (stripAt trimmed).map toLower

/-- The character loop of `IsValidNormalizedNickname`; it returns `hasLetter`. -/
def scanNickname (hasLetter previousUnderscore : Bool) : Bytes → Except String Bool
  | [] => .ok hasLetter
  | c :: rest => do
    require (isAllowedChar c)
      "nickname may only contain lowercase ascii letters, digits, and underscores"
    if c = 0x5f then
      require (previousUnderscore = false) "nickname cannot contain consecutive underscores"
      scanNickname hasLetter true rest
    else scanNickname (hasLetter || isAsciiLowerLetter c) false rest

def isValidNormalizedNickname (name : Bytes) : Except String Unit := do
  require (minLength ≤ name.length ∧ name.length ≤ maxLength)
    "nickname length must be between 4 and 16 characters"
  require (name.head? ≠ some 0x5f ∧ name.getLast? ≠ some 0x5f)
    "nickname cannot start or end with underscore"
  let hasLetter ← scanNickname false false name
  require hasLetter "nickname must contain at least one letter"

/-! ## Prices -/

def getBasePricing (normalizedLength : Nat) : Pricing :=
  match normalizedLength with
  | 4 => ⟨24 * coin, 48 * coin⟩
  | 5 => ⟨12 * coin, 24 * coin⟩
  | 6 => ⟨6 * coin, 12 * coin⟩
  | 7 => ⟨3 * coin, 6 * coin⟩
  | _ => ⟨1 * coin, 3 * coin⟩

def scaleByMultiplierPermille (baseAmount : CAmount) (multiplierPermille : Int) : CAmount :=
  if baseAmount ≤ 0 ∨ multiplierPermille ≤ 0 then 0
  else (baseAmount * multiplierPermille + 500) / 1000

def clampPricingMultiplierPermille (multiplierPermille : Int) : Int :=
  if multiplierPermille < minPricingMultiplierPermille then minPricingMultiplierPermille
  else if maxPricingMultiplierPermille < multiplierPermille then maxPricingMultiplierPermille
  else multiplierPermille

/-- `ComputeNextPricingMultiplierPermille`. Every quotient here has a
non-negative dividend, so rounding down is C++ division. -/
def computeNextPricingMultiplierPermille (previousMultiplierPermille recentRegistrations : Int) :
    Int :=
  let prev := clampPricingMultiplierPermille previousMultiplierPermille
  let raw := if 0 < recentRegistrations then
    recentRegistrations * 1000 / pricingTargetRegistrations7D else 0
  let smoothed := ((100 - pricingAlphaPercent) * prev + pricingAlphaPercent * raw + 50) / 100
  let smoothed := clampPricingMultiplierPermille smoothed
  let lowerBound := (prev * (100 - pricingStepLimitPercent) + 99) / 100
  let upperBound := prev * (100 + pricingStepLimitPercent) / 100
  let smoothed := if smoothed < lowerBound then lowerBound else smoothed
  let smoothed := if upperBound < smoothed then upperBound else smoothed
  clampPricingMultiplierPermille smoothed

def getPricing (normalizedLength : Nat) (multiplierPermille : Int) : Pricing :=
  let base := getBasePricing normalizedLength
  let clampedMultiplier := clampPricingMultiplierPermille multiplierPermille
  ⟨scaleByMultiplierPermille base.registrationFee clampedMultiplier,
    scaleByMultiplierPermille base.bondAmount clampedMultiplier⟩

def getRenewalFee (normalizedLength : Nat) (multiplierPermille : Int) : CAmount :=
  (getPricing normalizedLength multiplierPermille).registrationFee * renewalPercent / 100

def getRenewalBondIncrease (normalizedLength : Nat) (multiplierPermille : Int) : CAmount :=
  getRenewalFee normalizedLength multiplierPermille

/-- Trim trailing zeros, written last digit first, while the character two
places further on is still a digit. -/
def trimZeros : List Char → List Char
  | c :: d :: e :: rest =>
    if c = '0' ∧ e.isDigit then trimZeros (d :: e :: rest) else c :: d :: e :: rest
  | cs => cs

/-- `FormatMoney` of utilmoneystr.cpp. -/
def formatMoney (n : CAmount) : String :=
  let nAbs := n.natAbs
  let quotient := toString (nAbs / coin.toNat)
  let remainder := toString (nAbs % coin.toNat)
  let str := quotient ++ "." ++ String.ofList (List.replicate (8 - remainder.length) '0') ++ remainder
  let str := String.ofList (trimZeros str.toList.reverse).reverse
  if n < 0 then "-" ++ str else str

/-! ## Status -/

def getStatus (currentHeight activeUntilHeight graceUntilHeight : Int)
    (released bondClaimed : Bool) : Status :=
  if released then (if bondClaimed then .released else .bondClaimable)
  else if currentHeight ≤ activeUntilHeight then .active
  else if currentHeight ≤ graceUntilHeight then .expiredGrace
  else if bondClaimed then .expiredAvailable else .bondClaimable

/-- `IsMutableNicknameStatus` of validation.cpp. -/
def isMutableNicknameStatus (status : Status) : Bool :=
  status == .active || status == .expiredGrace

/-! ## Facts used by the ledger -/

theorem clamp_eq (m : Int) : clampPricingMultiplierPermille m = max 500 (min m 3000) := by
  simp only [clampPricingMultiplierPermille, minPricingMultiplierPermille,
    maxPricingMultiplierPermille]
  split_ifs <;> omega

theorem clamp_idem (m : Int) :
    clampPricingMultiplierPermille (clampPricingMultiplierPermille m) =
      clampPricingMultiplierPermille m := by
  rw [clamp_eq, clamp_eq]
  omega

theorem allowed_of_scan {name : Bytes} {hasLetter previous result : Bool}
    (h : scanNickname hasLetter previous name = .ok result) :
    ∀ c ∈ name, isAllowedChar c = true := by
  induction name generalizing hasLetter previous with
  | nil => simp
  | cons c rest ih =>
    simp only [scanNickname, eq_ok] at h
    obtain ⟨-, hc, h⟩ := h
    intro d hd
    rcases List.mem_cons.mp hd with rfl | hd
    · exact hc
    · split at h
      · obtain ⟨-, -, h⟩ := bind_eq_ok.mp h
        exact ih h d hd
      · exact ih h d hd

theorem valid_length {name : Bytes} (h : isValidNormalizedNickname name = .ok ()) :
    4 ≤ name.length ∧ name.length ≤ 16 := by
  simp only [isValidNormalizedNickname, eq_ok] at h
  obtain ⟨-, hlen, -⟩ := h
  exact hlen

theorem allowed_of_valid {name : Bytes} (h : isValidNormalizedNickname name = .ok ()) :
    ∀ c ∈ name, isAllowedChar c = true := by
  simp only [isValidNormalizedNickname, eq_ok] at h
  obtain ⟨-, -, -, -, hasLetter, hscan, -⟩ := h
  exact allowed_of_scan hscan

section

variable {c : UInt8} (h : isAllowedChar c = true)
include h

theorem allowed_not_space : isSpace c = false := by
  revert c
  decide +kernel

theorem allowed_toLower : toLower c = c := by
  revert c
  decide +kernel

theorem allowed_ne_at : c ≠ 0x40 := by
  revert c
  decide +kernel

end

theorem dropWhile_space_of_allowed {name : Bytes} (h : ∀ c ∈ name, isAllowedChar c = true) :
    name.dropWhile isSpace = name := by
  cases name with
  | nil => rfl
  | cons c rest => simp [allowed_not_space (h c List.mem_cons_self)]

/-- A name that passes the check is its own normal form, so every key a
nickname operation leads to is the name itself. -/
theorem normalizeNickname_of_valid {name : Bytes} (h : isValidNormalizedNickname name = .ok ()) :
    normalizeNickname name = name := by
  have hc := allowed_of_valid h
  have hr : ∀ c ∈ name.reverse, isAllowedChar c = true := fun c hm => hc c (List.mem_reverse.mp hm)
  have ha : stripAt name = name := by
    cases name with
    | nil => rfl
    | cons c rest => simp [stripAt, allowed_ne_at (hc c List.mem_cons_self)]
  have hm : name.map toLower = name := by
    rw [List.map_congr_left fun c hm => allowed_toLower (hc c hm), List.map_id']
  simp only [normalizeNickname, dropWhile_space_of_allowed hc, dropWhile_space_of_allowed hr,
    List.reverse_reverse, ha, hm]

example : normalizeNickname [0x20, 0x40, 0x41, 0x62, 0x5f, 0x31, 0x0a] =
    [0x61, 0x62, 0x5f, 0x31] := by
  decide

end KubuCore.Nicknames
