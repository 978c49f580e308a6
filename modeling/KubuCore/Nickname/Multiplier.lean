import KubuCore.Base.Approach
import KubuCore.Base.Int64
import KubuCore.Nickname.Names

/-!
# The pricing multiplier

One step of `ComputeNextPricingMultiplierPermille` fits its 64 bits, stays in
its range and moves by at most a tenth (`multiplier_step_bounded`). Under a
constant number of registrations the steps approach the multiplier that number
asks for and come to rest next to it (`multiplier_feedback_stable`).
-/

namespace KubuCore.Nicknames

/-! ## In 64 bits -/

/-- The result of a signed operation, undefined when it does not fit. -/
def int64 (n : Int) : Option Int := if InInt64 n then some n else none

variable {m n r p q s a : Int} {len longer : Nat}

theorem int64_of_fits (h : InInt64 n) : int64 n = some n := if_pos h

def rawInt64 (recentRegistrations : Int) : Option Int :=
  if 0 < recentRegistrations then
    (int64 (recentRegistrations * 1000)).map (·.tdiv pricingTargetRegistrations7D)
  else some 0

/-- `ComputeNextPricingMultiplierPermille` operation by operation, with the division of C++. -/
def computeNextInt64 (previousMultiplierPermille recentRegistrations : Int) : Option Int := do
  let prev := clampPricingMultiplierPermille previousMultiplierPermille
  let raw ← rawInt64 recentRegistrations
  let kept ← int64 ((100 - pricingAlphaPercent) * prev)
  let added ← int64 (pricingAlphaPercent * raw)
  let sum ← int64 (kept + added)
  let rounded ← int64 (sum + 50)
  let smoothed := clampPricingMultiplierPermille (rounded.tdiv 100)
  let low ← int64 (prev * (100 - pricingStepLimitPercent))
  let low ← int64 (low + 99)
  let high ← int64 (prev * (100 + pricingStepLimitPercent))
  let lowerBound := low.tdiv 100
  let upperBound := high.tdiv 100
  let smoothed := if smoothed < lowerBound then lowerBound else smoothed
  let smoothed := if upperBound < smoothed then upperBound else smoothed
  pure (clampPricingMultiplierPermille smoothed)

theorem clamp_mono : Monotone clampPricingMultiplierPermille := by
  intro m n h
  rw [clamp_eq, clamp_eq]
  omega

/-- The multiplier a number of registrations asks for, before it is clamped. -/
def rawMultiplier (recentRegistrations : Int) : Int :=
  if 0 < recentRegistrations then recentRegistrations * 1000 / 280 else 0

theorem rawMultiplier_mono : Monotone rawMultiplier := by
  intro r s h
  rw [rawMultiplier, rawMultiplier]
  split_ifs <;> omega

theorem rawMultiplier_of_nonneg (h : 0 ≤ r) : rawMultiplier r = 1000 * r / 280 := by
  rw [rawMultiplier]
  split_ifs <;> omega

theorem rawMultiplier_nonneg (r : Int) : 0 ≤ rawMultiplier r := by
  rw [rawMultiplier]
  split_ifs <;> omega

/-- The step from a clamped multiplier: smoothing, then the limit on the step. -/
def limitedStep (prev raw : Int) : Int :=
  min (max (max 500 (min ((80 * prev + 20 * raw + 50) / 100) 3000)) ((prev * 90 + 99) / 100))
    (prev * 110 / 100)

theorem computeNext_eq (previous recent : Int) :
    computeNextPricingMultiplierPermille previous recent =
      max 500 (min (limitedStep (clampPricingMultiplierPermille previous) (rawMultiplier recent))
        3000) := by
  have hlower : ∀ s l : Int, (if s < l then l else s) = max s l := by
    intro s l
    split_ifs <;> omega
  have hupper : ∀ s u : Int, (if u < s then u else s) = min s u := by
    intro s u
    split_ifs <;> omega
  simp only [computeNextPricingMultiplierPermille, hlower, hupper, clamp_eq]
  rfl

theorem limitedStep_mono (hp : p ≤ q) (hr : r ≤ s) : limitedStep p r ≤ limitedStep q s := by
  have hsum : (80 * p + 20 * r + 50) / 100 ≤ (80 * q + 20 * s + 50) / 100 := by omega
  have hlow : (p * 90 + 99) / 100 ≤ (q * 90 + 99) / 100 := by omega
  have hhigh : p * 110 / 100 ≤ q * 110 / 100 := by omega
  exact min_le_min (max_le_max (max_le_max le_rfl (min_le_min hsum le_rfl)) hlow) hhigh

theorem computeNext_mono (hp : p ≤ q) (hr : r ≤ s) :
    computeNextPricingMultiplierPermille p r ≤ computeNextPricingMultiplierPermille q s := by
  rw [computeNext_eq, computeNext_eq]
  exact max_le_max le_rfl
    (min_le_min (limitedStep_mono (clamp_mono hp) (rawMultiplier_mono hr)) le_rfl)

theorem clamp_bounds (m : Int) :
    500 ≤ clampPricingMultiplierPermille m ∧ clampPricingMultiplierPermille m ≤ 3000 := by
  rw [clamp_eq]
  omega

theorem computeNext_bounds (previous recent : Int) :
    500 ≤ computeNextPricingMultiplierPermille previous recent ∧
      computeNextPricingMultiplierPermille previous recent ≤ 3000 := by
  rw [computeNext_eq]
  omega

/-- A step moves the clamped multiplier by at most a tenth. -/
theorem computeNext_within_tenth (previous recent : Int) :
    90 * clampPricingMultiplierPermille previous ≤
        100 * computeNextPricingMultiplierPermille previous recent ∧
      100 * computeNextPricingMultiplierPermille previous recent ≤
        110 * clampPricingMultiplierPermille previous := by
  have hp := clamp_bounds previous
  rw [computeNext_eq, limitedStep]
  omega

/-- No operation of a step leaves 64 bits. -/
theorem computeNextInt64_eq (previous : Int) {recent : Int} (h0 : 0 ≤ recent)
    (h : recent ≤ 2 ^ 53) :
    computeNextInt64 previous recent =
      some (computeNextPricingMultiplierPermille previous recent) := by
  have hp := clamp_bounds previous
  have hfits : ∀ n : Int, 0 ≤ n → n < 2 ^ 63 → int64 n = some n := by
    intro n hn hmax
    exact int64_of_fits ⟨by omega, hmax⟩
  have hraw : rawInt64 recent = some (rawMultiplier recent) := by
    rw [rawInt64, rawMultiplier, hfits (recent * 1000) (by omega) (by omega), Option.map_some,
      Int.tdiv_eq_ediv_of_nonneg (by omega)]
    split_ifs <;> rfl
  have hraw0 := rawMultiplier_nonneg recent
  have hrawMax : rawMultiplier recent ≤ 2 ^ 56 := by
    rw [rawMultiplier_of_nonneg h0]
    omega
  simp only [computeNextInt64, pricingAlphaPercent,
    pricingStepLimitPercent, Option.bind_eq_bind]
  rw [hraw, Option.bind_some]
  -- the operands of every operation are known to be small and not negative
  rw [hfits _ (by omega) (by omega), Option.bind_some, hfits _ (by omega) (by omega),
    Option.bind_some, hfits _ (by omega) (by omega), Option.bind_some,
    hfits _ (by omega) (by omega), Option.bind_some, hfits _ (by omega) (by omega),
    Option.bind_some, hfits _ (by omega) (by omega), Option.bind_some,
    hfits _ (by omega) (by omega), Option.bind_some]
  rw [Int.tdiv_eq_ediv_of_nonneg (by omega), Int.tdiv_eq_ediv_of_nonneg (by omega),
    Int.tdiv_eq_ediv_of_nonneg (by omega)]
  rfl

/-! ## Prices -/

theorem scale_of_nonneg (ha : 0 ≤ a) (hm : 0 ≤ m) :
    scaleByMultiplierPermille a m = (a * m + 500) / 1000 := by
  rw [scaleByMultiplierPermille]
  split_ifs with hzero
  · have hmul : a * m = 0 := by
      rcases hzero with h | h
      · rw [le_antisymm h ha, zero_mul]
      · rw [le_antisymm h hm, mul_zero]
    rw [hmul]
    rfl
  · rfl

theorem scale_mono {b : Int} (ha : 0 ≤ a) (hm : 0 ≤ m) (hab : a ≤ b) (hmn : m ≤ n) :
    scaleByMultiplierPermille a m ≤ scaleByMultiplierPermille b n := by
  have hmul : a * m ≤ b * n := mul_le_mul hab hmn hm (ha.trans hab)
  rw [scale_of_nonneg ha hm, scale_of_nonneg (ha.trans hab) (hm.trans hmn)]
  exact Int.ediv_le_ediv (by decide) (add_le_add_left hmul 500)

/-- Names of eight characters and more have one price. -/
theorem getBasePricing_min (len : Nat) : getBasePricing len = getBasePricing (min len 8) := by
  rcases le_total len 8 with h | h
  · rw [min_eq_left h]
  · rw [min_eq_right h]
    unfold getBasePricing
    split <;> first | omega | rfl

/-- Longer names have lower base prices, none of them negative. -/
theorem getBasePricing_antitone (h4 : 4 ≤ len) (h : len ≤ longer) :
    (0 ≤ (getBasePricing longer).registrationFee ∧
      (getBasePricing longer).registrationFee ≤ (getBasePricing len).registrationFee) ∧
    0 ≤ (getBasePricing longer).bondAmount ∧
      (getBasePricing longer).bondAmount ≤ (getBasePricing len).bondAmount := by
  have hsmall : ∀ b ≤ 8, ∀ a ≤ b, 4 ≤ a →
      (0 ≤ (getBasePricing b).registrationFee ∧
        (getBasePricing b).registrationFee ≤ (getBasePricing a).registrationFee) ∧
      0 ≤ (getBasePricing b).bondAmount ∧
        (getBasePricing b).bondAmount ≤ (getBasePricing a).bondAmount := by decide
  rw [getBasePricing_min len, getBasePricing_min longer]
  exact hsmall _ (by omega) _ (by omega) (by omega)

/-- Prices rise with the multiplier and fall with the length of the name. -/
theorem getPricing_mono (h4 : 4 ≤ len) (hlen : len ≤ longer) (hmn : m ≤ n) :
    (getPricing longer m).registrationFee ≤ (getPricing len n).registrationFee ∧
      (getPricing longer m).bondAmount ≤ (getPricing len n).bondAmount ∧
      getRenewalFee longer m ≤ getRenewalFee len n := by
  obtain ⟨⟨hfee0, hfee⟩, hbond0, hbond⟩ := getBasePricing_antitone h4 hlen
  have hm0 : 0 ≤ clampPricingMultiplierPermille m := by
    have := clamp_bounds m
    omega
  have hm := clamp_mono hmn
  have hreg : (getPricing longer m).registrationFee ≤ (getPricing len n).registrationFee :=
    scale_mono hfee0 hm0 hfee hm
  refine ⟨hreg, scale_mono hbond0 hm0 hbond hm, ?_⟩
  exact Int.ediv_le_ediv (by decide) (mul_le_mul_of_nonneg_right hreg (by decide))

/-- A step fits its 64 bits, stays in range, moves by at most a tenth and is monotone in both
arguments, and the prices are monotone in what they are computed from. -/
theorem multiplier_step_bounded :
    (∀ previous recent, InInt64 previous → 0 ≤ recent → recent ≤ 2 ^ 53 →
      computeNextInt64 previous recent =
          some (computeNextPricingMultiplierPermille previous recent) ∧
        (500 ≤ computeNextPricingMultiplierPermille previous recent ∧
          computeNextPricingMultiplierPermille previous recent ≤ 3000) ∧
        (90 * clampPricingMultiplierPermille previous ≤
            100 * computeNextPricingMultiplierPermille previous recent ∧
          100 * computeNextPricingMultiplierPermille previous recent ≤
            110 * clampPricingMultiplierPermille previous) ∧
        (∀ larger, previous ≤ larger →
          computeNextPricingMultiplierPermille previous recent ≤
            computeNextPricingMultiplierPermille larger recent) ∧
        ∀ more, recent ≤ more →
          computeNextPricingMultiplierPermille previous recent ≤
            computeNextPricingMultiplierPermille previous more) ∧
    (∀ (len : Nat) (m n : Int), 4 ≤ len → len ≤ 16 → m ≤ n →
      (getPricing len m).registrationFee ≤ (getPricing len n).registrationFee ∧
        (getPricing len m).bondAmount ≤ (getPricing len n).bondAmount ∧
        getRenewalFee len m ≤ getRenewalFee len n) ∧
    ∀ (len longer : Nat) (m : Int), 4 ≤ len → len ≤ longer → longer ≤ 16 →
      (getPricing longer m).registrationFee ≤ (getPricing len m).registrationFee ∧
        (getPricing longer m).bondAmount ≤ (getPricing len m).bondAmount ∧
        getRenewalFee longer m ≤ getRenewalFee len m := by
  refine ⟨fun previous recent _ h0 h => ?_, fun len m n h4 _ hmn => getPricing_mono h4 le_rfl hmn,
    fun len longer m h4 hlen _ => getPricing_mono h4 hlen le_rfl⟩
  exact ⟨computeNextInt64_eq previous h0 h, computeNext_bounds previous recent,
    computeNext_within_tenth previous recent, fun _ hle => computeNext_mono hle le_rfl,
    fun _ hle => computeNext_mono le_rfl hle⟩

/-- From 1000 permille, a window with no registration costs a tenth. -/
theorem multiplier_step_bounded_quiet :
    computeNextInt64 1000 0 = some (computeNextPricingMultiplierPermille 1000 0) ∧
      computeNextPricingMultiplierPermille 1000 0 = 900 :=
  ⟨(multiplier_step_bounded.1 1000 0 (by decide) (by decide) (by decide)).1, by decide⟩

/-! ## Feedback -/

/-- With a constant number of registrations the steps approach what it asks for. -/
theorem computeNext_approaches (recent : Int) :
    Approach.Approaches (computeNextPricingMultiplierPermille · recent)
      (clampPricingMultiplierPermille (rawMultiplier recent)) := by
  constructor
  · intro m hm
    rw [clamp_eq] at hm
    rw [computeNext_eq, limitedStep, clamp_eq, clamp_eq]
    omega
  · intro m hm
    rw [clamp_eq] at hm
    rw [computeNext_eq, limitedStep, clamp_eq, clamp_eq]
    omega

/-- The steps rest within 2 permille of it. -/
theorem computeNext_fixed {recent : Int} (h : computeNextPricingMultiplierPermille m recent = m) :
    |m - clampPricingMultiplierPermille (rawMultiplier recent)| ≤ 2 := by
  rw [computeNext_eq, limitedStep, clamp_eq] at h
  rw [clamp_eq, abs_le]
  omega

/-- Iterating the step with a constant number of registrations never overflows, becomes constant
after finitely many steps, within 2 permille of the target, and goes there from its side of the
target. -/
theorem multiplier_feedback_stable (start recent : Int) (h0 : 0 ≤ recent) (h : recent ≤ 2 ^ 53) :
    (∀ n, computeNextInt64 ((computeNextPricingMultiplierPermille · recent)^[n] start) recent =
      some ((computeNextPricingMultiplierPermille · recent)^[n + 1] start)) ∧
    ∃ rest last, (∀ n, last ≤ n → (computeNextPricingMultiplierPermille · recent)^[n] start = rest) ∧
      computeNextPricingMultiplierPermille rest recent = rest ∧
      |rest - clampPricingMultiplierPermille (1000 * recent / 280)| ≤ 2 ∧
      (start ≤ clampPricingMultiplierPermille (1000 * recent / 280) →
        rest ≤ clampPricingMultiplierPermille (1000 * recent / 280) ∧
        ∀ n, (computeNextPricingMultiplierPermille · recent)^[n] start ≤
            (computeNextPricingMultiplierPermille · recent)^[n + 1] start ∧
          (computeNextPricingMultiplierPermille · recent)^[n] start ≤ rest) ∧
      (clampPricingMultiplierPermille (1000 * recent / 280) ≤ start →
        clampPricingMultiplierPermille (1000 * recent / 280) ≤ rest ∧
        ∀ n, (computeNextPricingMultiplierPermille · recent)^[n + 1] start ≤
            (computeNextPricingMultiplierPermille · recent)^[n] start ∧
          rest ≤ (computeNextPricingMultiplierPermille · recent)^[n] start) := by
  have approaches := computeNext_approaches recent
  obtain ⟨last, hfixed⟩ := Approach.exists_fixed approaches start
  have hconst : ∀ n, last ≤ n → (computeNextPricingMultiplierPermille · recent)^[n] start =
      (computeNextPricingMultiplierPermille · recent)^[last] start :=
    fun n hn => Approach.iterate_of_fixed hfixed hn
  refine ⟨fun n => ?_, ?_⟩
  · rw [Function.iterate_succ_apply', computeNextInt64_eq _ h0 h]
  rw [← rawMultiplier_of_nonneg h0]
  refine ⟨_, last, hconst, hfixed, computeNext_fixed hfixed, fun hstart => ?_, fun hstart => ?_⟩
  · have hmono := Approach.iterate_monotone approaches hstart
    refine ⟨Approach.iterate_le approaches hstart last, fun n => ⟨hmono (Nat.le_succ n), ?_⟩⟩
    rw [← hconst (max n last) (le_max_right n last)]
    exact hmono (le_max_left n last)
  · have hanti := Approach.iterate_antitone approaches hstart
    refine ⟨Approach.le_iterate approaches hstart last, fun n => ⟨hanti (Nat.le_succ n), ?_⟩⟩
    rw [← hconst (max n last) (le_max_right n last)]
    exact hanti (le_max_left n last)

/-- From the largest multiplier with the targeted number of registrations. -/
theorem multiplier_feedback_stable_target :
    ∃ rest last, ∀ n, last ≤ n → (computeNextPricingMultiplierPermille · 280)^[n] 3000 = rest := by
  obtain ⟨-, rest, last, hconst, -⟩ := multiplier_feedback_stable 3000 280 (by decide) (by decide)
  exact ⟨rest, last, hconst⟩

end KubuCore.Nicknames
