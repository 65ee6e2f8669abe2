import FpgaCnc.Hdl.Watchdog
import FpgaCnc.Host.Conversions
import FpgaCnc.System.StepRate

/-!
# The direction of the position loop

The direction bit is the sign of the velocity; the period comes from velocity
times scale; the position that is fed back is the step count divided by the
scale. A negative scale turns the last two around and leaves the first as it
is: the period word goes negative, and the axis is seen to move the other way
from where it was sent.

§1 the period word · §2 one step, fed back · §3 when the loop closes.
-/

namespace FpgaCnc

open Clocked

/-! ## §1  The period word -/

/-- Clocks per half step period, `50e6 / (2 * |v| * |scale|)`. -/
def De2.halfPeriod (p : De2.AxisPins) : ℚ := 50000000 / (2 * |p.velocityCmd| * |p.scale|)

/-- `do_work` sends the half period less one, truncated. -/
def PeriodRight (ub : FVal → BitVec 32) (p : De2.AxisPins) : Prop :=
  De2.per ub p = BitVec.ofInt 32 (trunc (De2.halfPeriod p - 1))

theorem ofInt_inj_of_range {a b : ℤ} (ha : -2 ^ 31 ≤ a ∧ a < 2 ^ 31)
    (hb : -2 ^ 31 ≤ b ∧ b < 2 ^ 31) (h : BitVec.ofInt 32 a = BitVec.ofInt 32 b) : a = b := by
  calc
    a = (BitVec.ofInt 32 a).toInt :=
      (BitVec.toInt_ofInt_eq_self (by decide) ha.1 ha.2).symm
    _ = (BitVec.ofInt 32 b).toInt := by rw [h]
    _ = b := BitVec.toInt_ofInt_eq_self (by decide) hb.1 hb.2

section Period

variable {p : De2.AxisPins}

theorem trunc_halfPeriod_sub_one (h1 : 1 ≤ De2.halfPeriod p) :
    trunc (De2.halfPeriod p - 1) = ⌊De2.halfPeriod p⌋ - 1 := by
  rw [trunc, if_pos (sub_nonneg.mpr h1), Int.floor_sub_one]

theorem floor_halfPeriod_range (h1 : 1 ≤ De2.halfPeriod p) (h2 : De2.halfPeriod p < 2 ^ 31) :
    1 ≤ ⌊De2.halfPeriod p⌋ ∧ ⌊De2.halfPeriod p⌋ < 2 ^ 31 := by
  refine ⟨Int.le_floor.mpr (by rwa [Int.cast_one]), Int.floor_lt.mpr ?_⟩
  rwa [Int.cast_pow, Int.cast_ofNat]

theorem periodRight_of_pos (ub : FVal → BitVec 32) (hv : 1 / 100 ≤ |p.velocityCmd|)
    (hscale : 0 < p.scale) (h1 : 1 ≤ De2.halfPeriod p) (h2 : De2.halfPeriod p < 2 ^ 31) :
    PeriodRight ub p := by
  have hfloor := floor_halfPeriod_range h1 h2
  have hvalue : De2.perValue p = .fin (De2.halfPeriod p - 1) := by
    rw [De2.perValue_of_ge hv hscale.ne', De2.halfPeriod, abs_of_pos hscale]
  rw [PeriodRight, De2.per, hvalue]
  refine toInt_fin ub ?_
  rw [trunc_halfPeriod_sub_one h1]
  omega

/-- With a negative scale the quotient is negative before the one is taken
off, so the word is off by twice the half period. -/
theorem not_periodRight_of_neg (ub : FVal → BitVec 32) (hv : 1 / 100 ≤ |p.velocityCmd|)
    (hscale : p.scale < 0) (h1 : 1 ≤ De2.halfPeriod p) (h2 : De2.halfPeriod p < 2 ^ 31) :
    ¬ PeriodRight ub p := by
  have hfloor := floor_halfPeriod_range h1 h2
  have hvalue : De2.perValue p = .fin (-(De2.halfPeriod p + 1)) := by
    rw [De2.perValue_of_ge hv hscale.ne, De2.halfPeriod, abs_of_neg hscale, mul_neg, div_neg,
      neg_add, neg_neg, sub_eq_add_neg]
  have htrunc : trunc (-(De2.halfPeriod p + 1)) = -(⌊De2.halfPeriod p⌋ + 1) := by
    rw [trunc, if_neg (by linarith), Int.ceil_neg, Int.floor_add_one]
  intro hright
  rw [PeriodRight, De2.per, hvalue, toInt_fin ub (by rw [htrunc]; omega), htrunc,
    trunc_halfPeriod_sub_one h1] at hright
  have heq := ofInt_inj_of_range (by omega) (by omega) hright
  omega

end Period

/-! ## §2  One step, fed back -/

/-- The sign of the commanded velocity. -/
def De2.velocitySign (p : De2.AxisPins) : ℚ := if 0 < p.velocityCmd then 1 else -1

/-- A step in direction `dir` does not leave the range of the accumulator. -/
def NoWrap (dir : Bool) (location : BitVec 32) : Prop :=
  if dir then location ≠ 0xFFFFFFFF#32 else location ≠ 0#32

/-- The accumulator of axis `i` over time, from reset. -/
def CncModule.locationAt (s : CncModule) (sched : ℕ → CncIn) (i : Fin 5) (t : ℕ) : BitVec 32 :=
  ((stateAt CncModule.posedge s.reset sched t).sg i).location

/-- A step of axis `i` at clock `t` of a run from reset, with the direction bit
of the command. -/
structure CommandedStep (p : De2.AxisPins) (s : CncModule) (sched : ℕ → CncIn) (i : Fin 5)
    (t : ℕ) : Prop where
  rises : Rises (s.reset.stepSignal sched i) t
  dir : (stateAt CncModule.posedge s.reset sched t).ctl.sgDir i = De2.sgDir p
  noWrap : NoWrap (De2.sgDir p) (s.locationAt sched i t)

/-- Two replies decoded with the pins of the command: one with the location
before the step and one with the location after it. -/
structure RepliesAround (p : De2.AxisPins) (s : CncModule) (sched : ℕ → CncIn) (i : Fin 5) (t : ℕ)
    (c : De2.CompState) (before after : Buffer) : Prop where
  scale : (c.sg i).scale = p.scale
  before : before.loadLe32 (18 + 4 * i) = s.locationAt sched i t
  after : after.loadLe32 (18 + 4 * i) = s.locationAt sched i (t + 1)

/-- Every step moves the decoded position by `d`. -/
def FeedbackMoves (p : De2.AxisPins) (d : ℚ) : Prop :=
  ∀ (i : Fin 5) (s : CncModule) (sched : ℕ → CncIn) (t : ℕ), CommandedStep p s sched i t →
    ∀ (c : De2.CompState) (before after : Buffer), RepliesAround p s sched i t c before after →
      ∃ q, ((De2.decode before c).sg i).positionFb = .fin q ∧
        ((De2.decode after c).sg i).positionFb = .fin (q + d)

/-- Every step moves the decoded position by one unit of the scale, the way the
velocity points. -/
def FeedbackRight (p : De2.AxisPins) : Prop := FeedbackMoves p (De2.velocitySign p / |p.scale|)

theorem location_toInt (l : BitVec 32) : (l - 0x80000000#32).toInt = (l.toNat : ℤ) - 2 ^ 31 := by
  have hl := l.isLt
  rw [BitVec.toInt_eq_toNat_cond, BitVec.toNat_sub, BitVec.toNat_ofNat]
  split_ifs <;> omega

theorem location_step_toInt {dir : Bool} {l : BitVec 32} (h : NoWrap dir l) :
    ((if dir then l + 1 else l - 1) - 0x80000000#32).toInt =
      (l - 0x80000000#32).toInt + if dir then 1 else -1 := by
  have hl := l.isLt
  cases dir with
  | true =>
      have hne : l.toNat ≠ 0xFFFFFFFF := fun he => h (BitVec.eq_of_toNat_eq he)
      rw [if_pos rfl, if_pos rfl, location_toInt, location_toInt, BitVec.toNat_add]
      simp
      omega
  | false =>
      have hne : l.toNat ≠ 0 := fun he => h (BitVec.eq_of_toNat_eq he)
      rw [if_neg Bool.false_ne_true, if_neg Bool.false_ne_true, location_toInt, location_toInt,
        BitVec.toNat_sub]
      simp
      omega

/-- The accumulator moves in the direction of the step, one clock later. -/
theorem CommandedStep.locationAt_succ {p : De2.AxisPins} {s : CncModule} {sched : ℕ → CncIn}
    {i : Fin 5} {t : ℕ} (h : CommandedStep p s sched i t) :
    s.locationAt sched i (t + 1) =
      if De2.sgDir p then s.locationAt sched i t + 1 else s.locationAt sched i t - 1 := by
  have hlow : (s.reset.sg i).stepOut = false := by rw [CncModule.sg_reset, StepGen.reset_stepOut]
  have hpulse := (StepGen.pulse_iff_rises hlow
    (fun k => (stateAt CncModule.posedge s.reset sched k).sgIn i) t).mpr (by
      have hrises := h.rises
      rwa [CncModule.stepSignal_eq] at hrises)
  rw [← CncModule.sg_stateAt] at hpulse
  rw [CncModule.locationAt, stateAt_succ, CncModule.sg_posedge, StepGen.posedge, if_pos hpulse,
    ← h.dir]
  rfl

/-- **What a step does to the decoded position**: it adds or takes away, by the
direction bit, one over the scale as it is. -/
theorem feedbackMoves {p : De2.AxisPins} (hv : 1 / 100 ≤ |p.velocityCmd|) (hscale : p.scale ≠ 0) :
    FeedbackMoves p (De2.velocitySign p / p.scale) := by
  intro i s sched t hstep c before after hreplies
  obtain ⟨hcscale, hbefore, hafter⟩ := hreplies
  have hsign : ((if De2.sgDir p then 1 else -1 : ℤ) : ℚ) = De2.velocitySign p := by
    rw [De2.sgDir_eq, De2.velocitySign]
    by_cases hpos : 0 < p.velocityCmd
    · rw [abs_of_pos hpos] at hv
      rw [if_pos hpos, if_pos (decide_eq_true hv), Int.cast_one]
    · have hslow : ¬ 1 / 100 ≤ p.velocityCmd := fun hle => hpos (lt_of_lt_of_le (by norm_num) hle)
      rw [if_neg hpos, if_neg (by rw [decide_eq_true_eq]; exact hslow), Int.cast_neg, Int.cast_one]
  refine ⟨((s.locationAt sched i t - 0x80000000#32).toInt : ℚ) / p.scale, ?_, ?_⟩
  · rw [De2.decode_positionFb, De2.positionFb, hcscale, hbefore]
    exact FVal.div_of_ne hscale _
  · rw [De2.decode_positionFb, De2.positionFb, hcscale, hafter, hstep.locationAt_succ,
      location_step_toInt hstep.noWrap]
    refine (FVal.div_of_ne hscale _).trans ?_
    rw [Int.cast_add, hsign, add_div]

theorem FeedbackMoves.unique {p : De2.AxisPins} {d d' : ℚ} (h : FeedbackMoves p d)
    (h' : FeedbackMoves p d') {i : Fin 5} {s : CncModule} {sched : ℕ → CncIn} {t : ℕ}
    (hstep : CommandedStep p s sched i t) {c : De2.CompState} {before after : Buffer}
    (hreplies : RepliesAround p s sched i t c before after) : d = d' := by
  obtain ⟨q, hq, hd⟩ := h i s sched t hstep c before after hreplies
  obtain ⟨q', hq', hd'⟩ := h' i s sched t hstep c before after hreplies
  have hqq : q = q' := FVal.fin.inj (hq.symm.trans hq')
  have hsum : q + d = q' + d' := FVal.fin.inj (hd.symm.trans hd')
  linarith

/-! ## §3  When the loop closes -/

/-- The first write enables axis 0 in direction `dir`, with its period at zero. -/
def nudge (dir : Bool) (t : ℕ) : CncIn :=
  if t = 0 then CncIn.writeTo 5 (if dir then 0x21 else 0x20) else CncIn.idle

theorem commandedStep_nudge (p : De2.AxisPins) :
    CommandedStep p CncModule.powerUp (nudge (De2.sgDir p)) 0 3 := by
  have hrun : ∀ dir, Rises (CncModule.powerUp.reset.stepSignal (nudge dir) 0) 3 ∧
      (stateAt CncModule.posedge CncModule.powerUp.reset (nudge dir) 3).ctl.sgDir 0 = dir ∧
      NoWrap dir (CncModule.powerUp.locationAt (nudge dir) 0 3) := by
    intro dir
    cases dir <;> exact ⟨by decide, by decide, by unfold NoWrap; decide⟩
  obtain ⟨hrises, hdir, hnoWrap⟩ := hrun (De2.sgDir p)
  exact ⟨hrises, hdir, hnoWrap⟩

theorem exists_repliesAround (p : De2.AxisPins) (s : CncModule) (sched : ℕ → CncIn) (t : ℕ) :
    ∃ c before after, RepliesAround p s sched 0 t c before after :=
  ⟨⟨p, p, p, p, p, 0, fun _ => false, fun _ => false, 1⟩,
    Buffer.zero.storeLe32 18 (s.locationAt sched 0 t),
    Buffer.zero.storeLe32 18 (s.locationAt sched 0 (t + 1)),
    rfl, Buffer.loadLe32_storeLe32 _ _ _, Buffer.loadLe32_storeLe32 _ _ _⟩

theorem velocitySign_ne_zero (p : De2.AxisPins) : De2.velocitySign p ≠ 0 := by
  rw [De2.velocitySign]
  split_ifs <;> norm_num

/-- With a negative scale the axis is seen to move against its command. -/
theorem not_feedbackRight_of_neg {p : De2.AxisPins} (hv : 1 / 100 ≤ |p.velocityCmd|)
    (hscale : p.scale < 0) : ¬ FeedbackRight p := by
  intro hright
  obtain ⟨c, before, after, hreplies⟩ := exists_repliesAround p CncModule.powerUp
    (nudge (De2.sgDir p)) 3
  have heq := hright.unique (feedbackMoves hv hscale.ne) (commandedStep_nudge p) hreplies
  rw [abs_of_neg hscale, div_neg] at heq
  have hne : De2.velocitySign p / p.scale ≠ 0 := div_ne_zero (velocitySign_ne_zero p) hscale.ne
  exact hne (by linarith)

/-- **The loop closes exactly for positive scales.** For every axis outside the
deadband whose half period fits, the period word is the one intended and every
step moves the decoded position by one unit of the scale in the direction of
the command if and only if the scale is positive; with a negative scale both
fail. -/
theorem direction_loop_iff (ub : FVal → BitVec 32) (p : De2.AxisPins) (hscale : p.scale ≠ 0)
    (hv : 1 / 100 ≤ |p.velocityCmd|) (h1 : 1 ≤ De2.halfPeriod p)
    (h2 : De2.halfPeriod p < 2 ^ 31) :
    (PeriodRight ub p ∧ FeedbackRight p ↔ 0 < p.scale) ∧
      (p.scale < 0 → ¬ PeriodRight ub p ∧ ¬ FeedbackRight p) := by
  have hneg : p.scale < 0 → ¬ PeriodRight ub p ∧ ¬ FeedbackRight p := fun h =>
    ⟨not_periodRight_of_neg ub hv h h1 h2, not_feedbackRight_of_neg hv h⟩
  refine ⟨⟨?_, ?_⟩, hneg⟩
  · rintro ⟨hperiod, -⟩
    rcases lt_or_gt_of_ne hscale with hlt | hgt
    · exact absurd hperiod (hneg hlt).1
    · exact hgt
  · intro hpos
    refine ⟨periodRight_of_pos ub hv hpos h1 h2, ?_⟩
    rw [FeedbackRight, abs_of_pos hpos]
    exact feedbackMoves hv hscale

/-- The jogged axis with its scale turned around. -/
def reversedAxis : De2.AxisPins := ⟨.fin 0, 5 / 4, true, -4000⟩

theorem halfPeriod_reversedAxis : De2.halfPeriod reversedAxis = 5000 := by
  norm_num [De2.halfPeriod, reversedAxis, abs_of_pos]

theorem direction_loop_of_reversed :
    (PeriodRight (fun _ => 0) reversedAxis ∧ FeedbackRight reversedAxis ↔
        0 < reversedAxis.scale) ∧
      (reversedAxis.scale < 0 →
        ¬ PeriodRight (fun _ => 0) reversedAxis ∧ ¬ FeedbackRight reversedAxis) :=
  direction_loop_iff _ reversedAxis (by norm_num [reversedAxis])
    (by norm_num [reversedAxis, abs_of_pos]) (by rw [halfPeriod_reversedAxis]; norm_num)
    (by rw [halfPeriod_reversedAxis]; norm_num)

/-- **A scale of -4000**: the period word is -5001 where 4999 was meant, and
each step moves the decoded position the wrong way. -/
theorem reversed_axis_runs_away :
    De2.halfPeriod reversedAxis = 5000 ∧
      (∀ ub, De2.per ub reversedAxis = BitVec.ofInt 32 (-5001)) ∧
      (∀ ub, ¬ PeriodRight ub reversedAxis) ∧
      FeedbackMoves reversedAxis (-1 / 4000) ∧ ¬ FeedbackRight reversedAxis := by
  have hv : 1 / 100 ≤ |reversedAxis.velocityCmd| := by norm_num [reversedAxis, abs_of_pos]
  have hscale : reversedAxis.scale < 0 := by norm_num [reversedAxis]
  have hvalue : De2.perValue reversedAxis = .fin (-(5001 : ℕ)) := by
    rw [De2.perValue_of_ge hv hscale.ne]
    norm_num [reversedAxis, abs_of_pos]
  have htrunc : trunc (-((5001 : ℕ) : ℚ)) = -5001 := by
    rw [trunc, if_neg (by norm_num), Int.ceil_neg, Int.floor_natCast]
    rfl
  refine ⟨halfPeriod_reversedAxis, fun ub => ?_, fun ub => ?_, ?_,
    not_feedbackRight_of_neg hv hscale⟩
  · rw [De2.per, hvalue, toInt_fin ub (by rw [htrunc]; norm_num), htrunc]
  · exact not_periodRight_of_neg ub hv hscale (by rw [halfPeriod_reversedAxis]; norm_num)
      (by rw [halfPeriod_reversedAxis]; norm_num)
  · have hmoves := feedbackMoves hv hscale.ne
    rwa [show De2.velocitySign reversedAxis / reversedAxis.scale = -1 / 4000 by
      norm_num [De2.velocitySign, reversedAxis]] at hmoves

end FpgaCnc
