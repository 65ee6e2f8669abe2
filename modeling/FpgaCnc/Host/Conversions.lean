import FpgaCnc.Host.De2

/-!
# The values `do_work` converts to integers

Seven floating-point values become 32-bit words: a period for each axis, the
PWM period and the PWM compare value. Nothing bounds them. The deadband sets
the velocity to zero and leaves the division; a slow axis, a slow PWM and a
spindle command far above full speed leave the range of the target type.

§1 sign, magnitude, deadband · §2 the values · §3 when they fit.
-/

namespace FpgaCnc.De2

/-! ## §1  Sign, magnitude, deadband -/

/-- The direction bit is set exactly for velocities from the deadband up. -/
theorem sgDir_eq (p : AxisPins) : sgDir p = decide (1 / 100 ≤ p.velocityCmd) := by
  unfold sgDir dirVelocity
  by_cases hpos : p.velocityCmd > 0
  · rw [if_pos hpos]
    by_cases hdead : p.velocityCmd < 1 / 100
    · rw [if_pos hdead, decide_eq_false (not_le.mpr hdead)]
    · rw [if_neg hdead, decide_eq_true (not_lt.mp hdead)]
  · have hsmall : p.velocityCmd < 1 / 100 := by
      refine lt_of_le_of_lt (not_lt.mp hpos) (by norm_num)
    rw [if_neg hpos, decide_eq_false (not_le.mpr hsmall)]
    dsimp only
    split_ifs <;> rfl

theorem sgVelocity_of_ge {p : AxisPins} (h : 1 / 100 ≤ |p.velocityCmd|) :
    sgVelocity p = |p.velocityCmd| := by
  rw [sgVelocity, dirVelocity]
  by_cases hpos : p.velocityCmd > 0
  · rw [abs_of_pos hpos] at h ⊢
    rw [if_pos hpos, if_neg (not_lt.mpr h)]
  · rw [abs_of_nonpos (not_lt.mp hpos)] at h ⊢
    rw [if_neg hpos, mul_neg_one, if_neg (not_lt.mpr h)]

theorem dirVelocity_of_deadband {v : ℚ} (h : |v| < 1 / 100) : dirVelocity v = (false, 0) := by
  obtain ⟨hneg, hpos⟩ := abs_lt.mp h
  unfold dirVelocity
  by_cases hv : v > 0
  · rw [if_pos hv]
    exact if_pos hpos
  · rw [if_neg hv]
    exact if_pos (by linarith)

/-! ## §2  The values -/

theorem perValue_of_ge {p : AxisPins} (hv : 1 / 100 ≤ |p.velocityCmd|) (hscale : p.scale ≠ 0) :
    perValue p = .fin (50000000 / (2 * |p.velocityCmd| * p.scale) - 1) := by
  have hvpos : 0 < |p.velocityCmd| := lt_of_lt_of_le (by norm_num) hv
  have hdiv : |p.velocityCmd| * p.scale * 2 ≠ 0 :=
    mul_ne_zero (mul_ne_zero hvpos.ne' hscale) two_ne_zero
  have hcomm : |p.velocityCmd| * p.scale * 2 = 2 * |p.velocityCmd| * p.scale := by ring
  rw [perValue, sgVelocity_of_ge hv, FVal.div_of_ne hdiv, FVal.sub_fin, hcomm]

/-- In the deadband the divisor is zero. -/
theorem perValue_of_deadband {p : AxisPins} (hv : |p.velocityCmd| < 1 / 100)
    (hscale : 0 < p.scale) : perValue p = .posInf := by
  have hneg : decide (p.scale < 0) = false := decide_eq_false (not_lt.mpr hscale.le)
  rw [perValue, sgVelocity, dirVelocity_of_deadband hv, hneg, zero_mul, zero_mul,
    FVal.div_zero_of_pos (by norm_num), FVal.sub_posInf]

/-- What is converted to `pwm_counter`. -/
def pwmCounterValue (c : CompState) : FVal := FVal.div 50000000 c.pwmFreq false

/-- What is converted to `pwm_capture`. -/
def pwmCaptureValue (ub : FVal → BitVec 32) (c : CompState) : FVal :=
  .fin (spindleRpmAbs c * (pwmCounter ub c).toNat)

theorem pwmCounterValue_of_pos {c : CompState} (hfreq : 0 < c.pwmFreq) :
    pwmCounterValue c = .fin (50000000 / c.pwmFreq) := FVal.div_of_ne hfreq.ne' _

/-- Where it fits, `pwm_counter` is the quotient rounded down. -/
theorem pwmCounter_toNat (ub : FVal → BitVec 32) {c : CompState} (hfreq : 0 < c.pwmFreq)
    (hfit : 50000000 / c.pwmFreq < 2 ^ 32) :
    ((pwmCounter ub c).toNat : ℚ) = (⌊50000000 / c.pwmFreq⌋ : ℤ) := by
  have hpos : 0 ≤ 50000000 / c.pwmFreq := (div_pos (by norm_num) hfreq).le
  have hfloor : 0 ≤ ⌊50000000 / c.pwmFreq⌋ := Int.floor_nonneg.mpr hpos
  have hlt : ⌊50000000 / c.pwmFreq⌋ < 2 ^ 32 := by
    refine Int.floor_lt.mpr ?_
    rwa [Int.cast_pow, Int.cast_ofNat]
  have htrunc : trunc (50000000 / c.pwmFreq) = ⌊50000000 / c.pwmFreq⌋ := if_pos hpos
  have hword : pwmCounter ub c = BitVec.ofInt 32 ⌊50000000 / c.pwmFreq⌋ := by
    show toUInt ub (pwmCounterValue c) = _
    rw [pwmCounterValue_of_pos hfreq, toUInt_fin ub (by rw [htrunc]; exact ⟨hfloor, hlt⟩), htrunc]
  rw [hword, BitVec.toNat_ofInt, ← Int.cast_natCast,
    Int.toNat_of_nonneg (Int.emod_nonneg _ (by norm_num))]
  congr 1
  exact Int.emod_eq_of_lt hfloor hlt

/-! ## §3  When they fit -/

/-- Every value is a number in the range of the type it is converted to. -/
structure ConversionsFit (ub : FVal → BitVec 32) (c : CompState) : Prop where
  per : ∀ i, (perValue (c.sg i)).FitsInt
  pwmCounter : (pwmCounterValue c).FitsUInt
  pwmCapture : (pwmCaptureValue ub c).FitsUInt

theorem perValue_fits_iff {p : AxisPins} (hscale : 0 < p.scale) :
    (perValue p).FitsInt ↔
      1 / 100 ≤ |p.velocityCmd| ∧ 50000000 / (2 * |p.velocityCmd| * p.scale) < 2 ^ 31 + 1 := by
  rcases lt_or_ge |p.velocityCmd| (1 / 100) with hdead | hv
  · rw [perValue_of_deadband hdead hscale]
    refine ⟨fun h => absurd h FVal.not_fitsInt_posInf, fun h => ?_⟩
    exact absurd hdead (not_lt.mpr h.1)
  · have hvpos : 0 < |p.velocityCmd| := lt_of_lt_of_le (by norm_num) hv
    have hpos : 0 < 50000000 / (2 * |p.velocityCmd| * p.scale) :=
      div_pos (by norm_num) (mul_pos (mul_pos two_pos hvpos) hscale)
    rw [perValue_of_ge hv hscale.ne', FVal.fitsInt_fin_iff (by linarith), sub_lt_iff_lt_add]
    exact ⟨fun h => ⟨hv, h⟩, fun h => h.2⟩

/-- **Exactly the safe region.** With positive scales and a positive PWM
frequency the seven conversions are all in range if and only if every axis is
outside the deadband and not too slow, the PWM period fits, and so does its
share at the commanded speed. -/
theorem conversionsFit_iff (ub : FVal → BitVec 32) (c : CompState)
    (hscale : ∀ i, 0 < (c.sg i).scale) (hfreq : 0 < c.pwmFreq) :
    ConversionsFit ub c ↔
      (∀ i, 1 / 100 ≤ |(c.sg i).velocityCmd| ∧
        50000000 / (2 * |(c.sg i).velocityCmd| * (c.sg i).scale) < 2 ^ 31 + 1) ∧
      50000000 / c.pwmFreq < 2 ^ 32 ∧
      |c.spindleRpm| * (⌊50000000 / c.pwmFreq⌋ : ℤ) < 2 ^ 32 := by
  have hper := fun i => perValue_fits_iff (hscale i)
  have hcounter : (pwmCounterValue c).FitsUInt ↔ 50000000 / c.pwmFreq < 2 ^ 32 := by
    have hpos : 0 < 50000000 / c.pwmFreq := div_pos (by norm_num) hfreq
    rw [pwmCounterValue_of_pos hfreq]
    exact FVal.fitsUInt_fin_iff (by linarith)
  -- the compare value is computed from the converted period
  have hcapture : 50000000 / c.pwmFreq < 2 ^ 32 → ((pwmCaptureValue ub c).FitsUInt ↔
      |c.spindleRpm| * (⌊50000000 / c.pwmFreq⌋ : ℤ) < 2 ^ 32) := by
    intro hfit
    have hword := pwmCounter_toNat ub hfreq hfit
    have hnonneg : 0 ≤ |c.spindleRpm| * ((pwmCounter ub c).toNat : ℚ) :=
      mul_nonneg (abs_nonneg _) (Nat.cast_nonneg _)
    rw [pwmCaptureValue, spindleRpmAbs_eq, FVal.fitsUInt_fin_iff (by linarith), hword]
  constructor
  · rintro ⟨h1, h2, h3⟩
    have hfit := hcounter.mp h2
    exact ⟨fun i => (hper i).mp (h1 i), hfit, (hcapture hfit).mp h3⟩
  · rintro ⟨h1, h2, h3⟩
    exact ⟨fun i => (hper i).mpr (h1 i), hcounter.mpr h2, (hcapture h2).mpr h3⟩

/-- Five axes at `v` units per second and 1000 steps per unit, the spindle at
half speed. -/
def cruisePins (v : ℚ) : CompState where
  sg0 := ⟨.fin 0, v, true, 1000⟩
  sg1 := ⟨.fin 0, v, true, 1000⟩
  sg2 := ⟨.fin 0, v, true, 1000⟩
  sg3 := ⟨.fin 0, v, true, 1000⟩
  sg4 := ⟨.fin 0, v, true, 1000⟩
  spindleRpm := 1 / 2
  gpioOut := fun _ => false
  gpioIn := fun _ => false
  pwmFreq := 1000

theorem sg_cruisePins (v : ℚ) (i : Fin 5) : (cruisePins v).sg i = ⟨.fin 0, v, true, 1000⟩ := by
  match i with
  | 0 | 1 | 2 | 3 | 4 => rfl

theorem conversionsFit_cruise :
    ConversionsFit (fun _ => 0) (cruisePins (-2)) ↔
      (∀ i, 1 / 100 ≤ |((cruisePins (-2)).sg i).velocityCmd| ∧
        50000000 / (2 * |((cruisePins (-2)).sg i).velocityCmd| * ((cruisePins (-2)).sg i).scale)
          < 2 ^ 31 + 1) ∧
      50000000 / (cruisePins (-2)).pwmFreq < 2 ^ 32 ∧
      |(cruisePins (-2)).spindleRpm| * (⌊50000000 / (cruisePins (-2)).pwmFreq⌋ : ℤ) < 2 ^ 32 :=
  conversionsFit_iff _ (cruisePins (-2))
    (fun i => by rw [sg_cruisePins]; norm_num) (by norm_num [cruisePins])

/-- **Standing still is outside the range**: every axis at zero, the values are
infinite. -/
theorem not_conversionsFit_halt :
    (∀ i, 0 < ((cruisePins 0).sg i).scale) ∧ 0 < (cruisePins 0).pwmFreq ∧
      (∀ i, perValue ((cruisePins 0).sg i) = .posInf) ∧
      ∀ ub, ¬ ConversionsFit ub (cruisePins 0) := by
  have hinf : ∀ i, perValue ((cruisePins 0).sg i) = .posInf := by
    intro i
    rw [sg_cruisePins]
    exact perValue_of_deadband (by norm_num) (by norm_num)
  refine ⟨fun i => by rw [sg_cruisePins]; norm_num, by norm_num [cruisePins], hinf, ?_⟩
  intro ub hfit
  have hper := hfit.per 0
  rw [hinf 0] at hper
  exact FVal.not_fitsInt_posInf hper

end FpgaCnc.De2
