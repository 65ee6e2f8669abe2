import Mathlib.Algebra.BigOperators.Field
import FpgaCnc.Hdl.Odometer
import FpgaCnc.System.DirectionLoop

/-!
# Distance against commanded velocity

A command asks for `velocity * scale` steps a second. The period word is half
the step period rounded down and less one, and the step generator takes two
clocks more than the word: for half a period of `x` clocks it takes
`⌊x⌋ + 1`. The axis is a little slow; what it loses is bounded by the square of
what it is asked for, clock by clock, and the position that is fed back follows
the integral of the velocity up to that.

§1 what a command asks for · §2 what its words ask for · §3 any number of
commands · §4 as it is fed back.
-/

namespace FpgaCnc

open Clocked

/-! ## §1  What a command asks for -/

namespace De2

/-- Steps a clock: `velocity * scale` a second, at 50 MHz. -/
def AxisPins.stepsPerClock (p : AxisPins) : ℚ :=
  if p.enable then p.velocityCmd * p.scale / 50000000 else 0

/-- A command the conversions are good for: an axis that is not enabled, or one
whose velocity is out of the deadband and gives a period that fits. -/
structure Steerable (p : AxisPins) : Prop where
  scale : 0 < p.scale
  velocity : p.enable = true → 1 / 100 ≤ |p.velocityCmd|
  lower : p.enable = true → 1 ≤ halfPeriod p
  upper : p.enable = true → halfPeriod p < 2 ^ 31

/-- The registers of an axis hold the words of a command. -/
structure InForce (ub : FVal → BitVec 32) (p : AxisPins) (i : StepGenIn) : Prop where
  period : i.period = per ub p
  dirIn : i.dirIn = sgDir p
  en : i.en = p.enable

section Command

variable {ub : FVal → BitVec 32} {p : AxisPins} {i : StepGenIn}

/-- Rounding down and two clocks more cost less than the square of the rate. -/
theorem slow_by_square {x f : ℚ} (h1 : 1 ≤ x) (hfx : f ≤ x) (hxf : x < f + 1) :
    |1 / (f + 1) - 1 / x| ≤ (1 / x) ^ 2 := by
  have hx : 0 < x := by linarith
  have hf : 0 < f + 1 := by linarith
  have hslower : 1 / (f + 1) ≤ 1 / x := one_div_le_one_div_of_le hx hxf.le
  rw [abs_of_nonpos (sub_nonpos.mpr hslower), neg_sub, div_sub_div _ _ hx.ne' hf.ne', one_div,
    inv_pow, ← one_div, div_le_div_iff₀ (mul_pos hx hf) (pow_pos hx 2)]
  nlinarith

/-- The half period is the inverse of the edges a clock. -/
theorem one_div_halfPeriod (hs : Steerable p) (hen : p.enable = true) :
    1 / halfPeriod p = 2 * |p.stepsPerClock| := by
  rw [halfPeriod, AxisPins.stepsPerClock, if_pos hen, abs_div, abs_mul, abs_of_pos hs.scale,
    one_div_div, abs_of_pos (show (0 : ℚ) < 50000000 by norm_num)]
  ring

theorem period_toNat (hforce : InForce ub p i) (hs : Steerable p) (hen : p.enable = true) :
    (i.period.toNat : ℤ) = ⌊halfPeriod p⌋ - 1 := by
  have hfloor := floor_halfPeriod_range (hs.lower hen) (hs.upper hen)
  have hword : per ub p = BitVec.ofInt 32 (⌊halfPeriod p⌋ - 1) := by
    rw [← trunc_halfPeriod_sub_one (hs.lower hen)]
    exact periodRight_of_pos ub (hs.velocity hen) hs.scale (hs.lower hen) (hs.upper hen)
  rw [hforce.period, hword, BitVec.toNat_ofInt]
  omega

/-- The direction bit is the sign of the velocity. -/
theorem sign_stepsPerClock (hforce : InForce ub p i) (hs : Steerable p) (hen : p.enable = true) :
    p.stepsPerClock = StepGen.sign i * |p.stepsPerClock| := by
  have hdir : StepGen.dirOut i = decide (1 / 100 ≤ p.velocityCmd) := hforce.dirIn.trans (sgDir_eq p)
  have hrate : p.stepsPerClock = p.velocityCmd * (p.scale / 50000000) := by
    rw [AxisPins.stepsPerClock, if_pos hen, mul_div_assoc]
  have hunit : 0 < p.scale / 50000000 := div_pos hs.scale (by norm_num)
  have hv := hs.velocity hen
  rw [hrate, abs_mul, abs_of_pos hunit, StepGen.sign, hdir]
  rcases le_or_gt 0 p.velocityCmd with hpos | hneg
  · rw [abs_of_nonneg hpos] at hv ⊢
    rw [decide_eq_true hv, if_pos rfl, one_mul]
  · have hnot : ¬ 1 / 100 ≤ p.velocityCmd := by linarith
    rw [abs_of_neg hneg, decide_eq_false hnot, if_neg Bool.false_ne_true]
    ring

/-- **A command and its words**: the edges they ask for differ by less than the
square of what the command asks for. -/
theorem rate_of_inForce (hforce : InForce ub p i) (hs : Steerable p) :
    |StepGen.rate i - 2 * p.stepsPerClock| ≤ (2 * p.stepsPerClock) ^ 2 := by
  cases hen : p.enable with
  | false =>
      have hstill : StepGen.rate i = 0 := by
        rw [StepGen.rate, if_neg]
        rintro ⟨henabled, -⟩
        exact absurd (hforce.en.symm.trans henabled) (by rw [hen]; decide)
      have hnone : p.stepsPerClock = 0 := by
        rw [AxisPins.stepsPerClock, hen, if_neg Bool.false_ne_true]
      rw [hstill, hnone]
      norm_num
  | true =>
      have hperiod := period_toNat hforce hs hen
      have hfloor := floor_halfPeriod_range (hs.lower hen) (hs.upper hen)
      have hedges : StepGen.HasEdges i := by
        unfold StepGen.HasEdges
        omega
      have hclocks : (i.period.toNat : ℚ) + 2 = (⌊halfPeriod p⌋ : ℚ) + 1 := by
        have hcast : ((i.period.toNat : ℤ) : ℚ) = ((⌊halfPeriod p⌋ - 1 : ℤ) : ℚ) := by rw [hperiod]
        push_cast at hcast
        linarith
      have hsquare := slow_by_square (hs.lower hen) (Int.floor_le (halfPeriod p))
        (Int.lt_floor_add_one (halfPeriod p))
      have hdiff : StepGen.rate i - 2 * p.stepsPerClock =
          StepGen.sign i * (1 / ((⌊halfPeriod p⌋ : ℚ) + 1) - 1 / halfPeriod p) := by
        rw [StepGen.rate, if_pos ⟨hforce.en.trans hen, hedges⟩, hclocks,
          one_div_halfPeriod hs hen, mul_sub, ← div_eq_mul_one_div,
          mul_left_comm (StepGen.sign i) 2, ← sign_stepsPerClock hforce hs hen]
      have hunit : |StepGen.sign i| = 1 := by
        rcases StepGen.sign_cases i with hsign | hsign
        · rw [hsign, abs_one]
        · rw [hsign, abs_neg, abs_one]
      calc |StepGen.rate i - 2 * p.stepsPerClock|
          = |1 / ((⌊halfPeriod p⌋ : ℚ) + 1) - 1 / halfPeriod p| := by
              rw [hdiff, abs_mul, hunit, one_mul]
        _ ≤ (1 / halfPeriod p) ^ 2 := hsquare
        _ = (2 * p.stepsPerClock) ^ 2 := by
              rw [one_div_halfPeriod hs hen, mul_pow, mul_pow, sq_abs]

end Command

end De2

/-! ## §3  Any number of commands -/

section Distance

variable {ub : FVal → BitVec 32} {s : CncModule} {sched : ℕ → CncIn} {i : Fin 5} {t n : ℕ}
  {p : ℕ → De2.AxisPins}

/-- How far a stretch may be off, in steps: two, a step and a half for each new
command, and what the rounding of the periods costs. -/
def slack (p : ℕ → De2.AxisPins) (inputs : ℕ → StepGenIn) (n : ℕ) : ℚ :=
  2 + 3 / 2 * StepGen.commands inputs n + 2 * ∑ k ∈ Finset.range n, (p k).stepsPerClock ^ 2

/-- **Distance.** Over clocks in each of which the registers of an axis hold some
command, the axis goes the distance that the commands ask for. -/
theorem location_follows_velocity
    (hforce : ∀ k < n, De2.InForce ub (p k) (CncModule.axisInputs s.reset sched i (t + k)))
    (hsteer : ∀ k < n, De2.Steerable (p k)) :
    ∃ d : ℤ, s.locationAt sched i (t + n) = s.locationAt sched i t + BitVec.ofInt 32 d ∧
      |(d : ℚ) - ∑ k ∈ Finset.range n, (p k).stepsPerClock| ≤
        slack p (fun k => CncModule.axisInputs s.reset sched i (t + k)) n := by
  obtain ⟨d, hlocation, hbound⟩ := CncModule.location_stretch s sched i t n
  refine ⟨d, hlocation, ?_⟩
  have hclocks : |StepGen.asked (fun k => CncModule.axisInputs s.reset sched i (t + k)) n -
      2 * ∑ k ∈ Finset.range n, (p k).stepsPerClock| ≤
        4 * ∑ k ∈ Finset.range n, (p k).stepsPerClock ^ 2 := by
    rw [StepGen.asked, Finset.mul_sum, Finset.mul_sum, ← Finset.sum_sub_distrib]
    refine (Finset.abs_sum_le_sum_abs _ _).trans (Finset.sum_le_sum fun k hk => ?_)
    have hk' := Finset.mem_range.mp hk
    refine (De2.rate_of_inForce (hforce k hk') (hsteer k hk')).trans (le_of_eq ?_)
    ring
  have hsteps := abs_le.mp hbound
  have hrates := abs_le.mp hclocks
  unfold slack
  rw [abs_le]
  constructor <;> linarith

/-! ## §4  As it is fed back -/

/-- A location word as it is decoded. -/
theorem toInt_add_ofInt {l : BitVec 32} {d : ℤ}
    (hlow : -2 ^ 31 ≤ (l - 0x80000000#32).toInt + d)
    (hhigh : (l - 0x80000000#32).toInt + d < 2 ^ 31) :
    (l + BitVec.ofInt 32 d - 0x80000000#32).toInt = (l - 0x80000000#32).toInt + d := by
  have hsame : l + BitVec.ofInt 32 d - 0x80000000#32 =
      BitVec.ofInt 32 ((l - 0x80000000#32).toInt + d) := by
    rw [BitVec.ofInt_add, BitVec.ofInt_toInt, BitVec.sub_eq_add_neg, BitVec.sub_eq_add_neg,
      BitVec.add_assoc, BitVec.add_comm (BitVec.ofInt 32 d), ← BitVec.add_assoc]
  rw [hsame, BitVec.toInt_ofInt_eq_self (by decide) hlow hhigh]

/-- With room for the way asked for and for the error, nothing wraps around. -/
theorem in_range_of_room {a d : ℤ} {x e : ℚ} (hd : |(d : ℚ) - x| ≤ e)
    (hroom : |(a : ℚ)| + |x| + e < 2 ^ 31) : -2 ^ 31 ≤ a + d ∧ a + d < 2 ^ 31 := by
  have hstart := abs_le.mp (le_refl |(a : ℚ)|)
  have hasked := abs_le.mp (le_refl |x|)
  have hmoved := abs_le.mp hd
  have hlow : (-2 ^ 31 : ℚ) ≤ (a : ℚ) + d := by linarith
  have hhigh : (a : ℚ) + d < 2 ^ 31 := by linarith
  exact ⟨by exact_mod_cast hlow, by exact_mod_cast hhigh⟩

/-- The velocity of a command, if the axis is enabled. -/
def De2.AxisPins.velocity (p : De2.AxisPins) : ℚ := if p.enable then p.velocityCmd else 0

theorem De2.AxisPins.stepsPerClock_eq (p : De2.AxisPins) :
    p.stepsPerClock = p.velocity * p.scale / 50000000 := by
  unfold stepsPerClock velocity
  split_ifs
  · rfl
  · rw [zero_mul, zero_div]

/-- **The position that is fed back follows the velocity that is commanded**,
summed over the clocks, as far as the location does not wrap around. -/
theorem feedback_follows_velocity {scale : ℚ} {off : ℕ} {before after : Buffer}
    (hforce : ∀ k < n, De2.InForce ub (p k) (CncModule.axisInputs s.reset sched i (t + k)))
    (hsteer : ∀ k < n, De2.Steerable (p k))
    (hscale : 0 < scale) (hsame : ∀ k < n, (p k).scale = scale)
    (hbefore : before.loadLe32 off = s.locationAt sched i t)
    (hafter : after.loadLe32 off = s.locationAt sched i (t + n))
    (hroom : |((s.locationAt sched i t - 0x80000000#32).toInt : ℚ)| +
      |∑ k ∈ Finset.range n, (p k).stepsPerClock| +
        slack p (fun k => CncModule.axisInputs s.reset sched i (t + k)) n < 2 ^ 31) :
    ∃ q q', De2.positionFb before off scale = .fin q ∧ De2.positionFb after off scale = .fin q' ∧
      |q' - q - (∑ k ∈ Finset.range n, (p k).velocity) / 50000000| ≤
        slack p (fun k => CncModule.axisInputs s.reset sched i (t + k)) n / scale := by
  obtain ⟨d, hlocation, hbound⟩ := location_follows_velocity hforce hsteer
  have hsteps : ∑ k ∈ Finset.range n, (p k).stepsPerClock =
      (∑ k ∈ Finset.range n, (p k).velocity) / 50000000 * scale := by
    rw [Finset.sum_div, Finset.sum_mul]
    refine Finset.sum_congr rfl fun k hk => ?_
    rw [De2.AxisPins.stepsPerClock_eq, hsame k (Finset.mem_range.mp hk)]
    ring
  obtain ⟨hlow, hhigh⟩ := in_range_of_room hbound hroom
  refine ⟨_, _, FVal.div_of_ne hscale.ne' _, FVal.div_of_ne hscale.ne' _, ?_⟩
  rw [hbefore, hafter, hlocation, toInt_add_ofInt hlow hhigh]
  have hmove : (((s.locationAt sched i t - 0x80000000#32).toInt + d : ℤ) : ℚ) / scale -
      ((s.locationAt sched i t - 0x80000000#32).toInt : ℚ) / scale -
      (∑ k ∈ Finset.range n, (p k).velocity) / 50000000 =
        (d - ∑ k ∈ Finset.range n, (p k).stepsPerClock) / scale := by
    rw [hsteps, sub_div, mul_div_cancel_right₀ _ hscale.ne', ← sub_div]
    push_cast
    ring
  rw [hmove, abs_div, abs_of_pos hscale]
  exact div_le_div_of_nonneg_right hbound hscale.le

end Distance

/-- Two writes after reset send axis 0 off as `joggedAxis` says. -/
def jogSched : ℕ → CncIn
  | 0 => .writeTo 0 4999
  | 1 => .writeTo 5 0x21
  | _ => .idle

theorem axisInputs_jogSched (k : ℕ) :
    CncModule.axisInputs CncModule.powerUp.reset jogSched 0 (2 + k) = ⟨4999, true, true⟩ := by
  have hquiet : ∀ t, (jogSched (2 + t)).busWrite = none := by
    intro t
    rw [Nat.add_comm]
    rfl
  rw [CncModule.axisInputs, stateAt_add, CncModule.sgIn, CncModule.ctl_stateAt_of_no_write hquiet]
  decide

theorem inForce_jogSched (k : ℕ) : De2.InForce (fun _ => 0x80000000) joggedAxis
    (CncModule.axisInputs CncModule.powerUp.reset jogSched 0 (2 + k)) := by
  have hv : 1 / 100 ≤ |joggedAxis.velocityCmd| := by norm_num [joggedAxis, abs_of_pos]
  have hscale : 0 < joggedAxis.scale := by norm_num [joggedAxis]
  rw [axisInputs_jogSched]
  refine ⟨?_, ?_, rfl⟩
  · rw [De2.per_of_integral _ hv hscale joggedAxis_clocks (by decide) (by decide)]
    rfl
  · rw [De2.sgDir_eq]
    norm_num [joggedAxis]

theorem steerable_joggedAxis : De2.Steerable joggedAxis where
  scale := by norm_num [joggedAxis]
  velocity _ := by norm_num [joggedAxis, abs_of_pos]
  lower _ := by norm_num [De2.halfPeriod, joggedAxis, abs_of_pos]
  upper _ := by norm_num [De2.halfPeriod, joggedAxis, abs_of_pos]

theorem stepsPerClock_joggedAxis : joggedAxis.stepsPerClock = 1 / 10000 := by
  norm_num [De2.AxisPins.stepsPerClock, joggedAxis]

theorem feedback_follows_velocity_jog :
    ∃ q q',
      De2.positionFb ((De2.rxBuf []).storeLe32 18 (CncModule.powerUp.locationAt jogSched 0 2)) 18
        4000 = .fin q ∧
      De2.positionFb ((De2.rxBuf []).storeLe32 18
        (CncModule.powerUp.locationAt jogSched 0 20002)) 18 4000 = .fin q' ∧
      |q' - q - (∑ _k ∈ Finset.range 20000, joggedAxis.velocity) / 50000000| ≤
        slack (fun _ => joggedAxis)
          (fun k => CncModule.axisInputs CncModule.powerUp.reset jogSched 0 (2 + k)) 20000 /
            4000 := by
  have hcount : StepGen.commands
      (fun k => CncModule.axisInputs CncModule.powerUp.reset jogSched 0 (2 + k)) 20000 ≤ 20000 :=
    Nat.count_le _
  have hcount' : (StepGen.commands
      (fun k => CncModule.axisInputs CncModule.powerUp.reset jogSched 0 (2 + k)) 20000 : ℚ) ≤
        20000 := by exact_mod_cast hcount
  have hzero : (CncModule.powerUp.locationAt jogSched 0 2 - 0x80000000#32).toInt = 0 := by
    decide +kernel
  refine feedback_follows_velocity (fun k _ => inForce_jogSched k)
    (fun _ _ => steerable_joggedAxis) (by norm_num) (fun _ _ => rfl)
    (Buffer.loadLe32_storeLe32 ..) (Buffer.loadLe32_storeLe32 ..) ?_
  have hasked : |((20000 : ℕ) : ℚ) * (1 / 10000)| = 2 := by norm_num
  have hrounding : ((20000 : ℕ) : ℚ) * (1 / 10000) ^ 2 = 1 / 5000 := by norm_num
  rw [hzero, slack, stepsPerClock_joggedAxis, Finset.sum_const, Finset.sum_const,
    Finset.card_range, nsmul_eq_mul, nsmul_eq_mul, hasked, hrounding, Int.cast_zero, abs_zero]
  generalize (StepGen.commands _ 20000 : ℚ) = c at hcount' ⊢
  linarith

end FpgaCnc
