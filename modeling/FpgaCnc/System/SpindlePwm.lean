import FpgaCnc.Hdl.Watchdog
import FpgaCnc.Host.De2

/-!
# Commanded spindle speed and duty cycle

The component sends the PWM period as `N = 50e6 / pwm_freq` clocks and the
high time as `C = |spindle_rpm| * N` clocks. The generator is high for `C`
clocks all right, but its counter, compared with `>`, takes `N + 2` values:
every period is two clocks too long and full speed is never reached.

§1 the words · §2 the output · §3 period and duty.
-/

namespace FpgaCnc

open Clocked

/-! ## §1  The words -/

namespace De2

theorem pwmCounter_of_integral (ub : FVal → BitVec 32) {c : CompState} {N : ℕ}
    (hfreq : 0 < c.pwmFreq) (hN : 50000000 / c.pwmFreq = (N : ℚ)) (h2 : N < 2 ^ 32) :
    pwmCounter ub c = BitVec.ofNat 32 N := by
  rw [pwmCounter, FVal.div_of_ne hfreq.ne', hN]
  exact toUInt_natCast ub h2

theorem pwmCapture_of_integral (ub : FVal → BitVec 32) {c : CompState} {N C : ℕ}
    (hcounter : pwmCounter ub c = BitVec.ofNat 32 N) (hC : |c.spindleRpm| * N = (C : ℚ))
    (hN : N < 2 ^ 32) (hCN : C ≤ N) : pwmCapture ub c = BitVec.ofNat 32 C := by
  rw [pwmCapture, hcounter, BitVec.toNat_ofNat, Nat.mod_eq_of_lt hN, spindleRpmAbs_eq, hC]
  exact toUInt_natCast ub (by omega)

end De2

/-! ## §2  The output -/

namespace CncModule

/-- The spindle output over time. -/
def spindleSignal (s : CncModule) (sched : ℕ → CncIn) (t : ℕ) : Bool :=
  (stateAt posedge s sched t).ospindlePwm

/-- The spindle generator runs on its own, over the registers it is connected
to. -/
theorem spindleSignal_eq (s : CncModule) (sched : ℕ → CncIn) :
    spindleSignal s sched =
      PwmGen.pwmSignal s.pwm1 fun k => (stateAt posedge s sched k).pwmIn := by
  funext t
  have hproj : (stateAt posedge s sched t).pwm1 =
      stateAt PwmGen.posedge s.pwm1 (fun k => (stateAt posedge s sched k).pwmIn) t :=
    stateAt_proj (fun s => s.pwm1) (fun _ s => s.pwmIn) (fun _ _ => rfl) s sched t
  rw [spindleSignal, ospindlePwm, hproj, PwmGen.pwmSignal]

theorem spindle_pulseTrain {s : CncModule} {sched : ℕ → CncIn} {N C : ℕ}
    (hN : N < 2 ^ 32 - 1) (hCN : C ≤ N)
    (hcounter : ∀ t, (stateAt posedge s sched t).ctl.pwmCounter = BitVec.ofNat 32 N)
    (hcapture : ∀ t, (stateAt posedge s sched t).ctl.pwmCapture = BitVec.ofNat 32 C) :
    ∃ a, ∀ n, PulseTrain (s.spindleSignal sched) a (N + 2) C n := by
  have hNword : (BitVec.ofNat 32 N).toNat = N := by
    rw [BitVec.toNat_ofNat]
    omega
  have hCword : (BitVec.ofNat 32 C).toNat = C := by
    rw [BitVec.toNat_ofNat]
    omega
  have hconst : ∀ t, (stateAt posedge s sched t).pwmIn =
      ⟨BitVec.ofNat 32 N, BitVec.ofNat 32 C⟩ := by
    intro t
    rw [pwmIn, hcounter, hcapture]
  have htrain := PwmGen.pulseTrain_of_const (s := s.pwm1)
    (show (BitVec.ofNat 32 N).toNat + 1 < 2 ^ 32 by omega) hconst
  rwa [hNword, hCword, ← spindleSignal_eq] at htrain

end CncModule

/-! ## §3  Period and duty -/

/-- In the end `out` repeats every `p` clocks, and is high for `c` clocks of
every period. -/
def PwmPeriod (out : ℕ → Bool) (p c : ℕ) : Prop :=
  ∃ a, (∀ t ≥ a, out (t + p) = out t) ∧ ∀ t ≥ a, highs out t p = c

section PulseTrain

variable {x : ℕ → Bool} {a p c : ℕ}

theorem Clocked.PulseTrain.pwmPeriod (h : ∀ n, PulseTrain x a p c n) (hcp : c ≤ p) :
    PwmPeriod x p c := by
  refine ⟨a, fun t ht => PulseTrain.periodic h ht, ?_⟩
  intro t ht
  obtain ⟨u, rfl⟩ := Nat.exists_eq_add_of_le ht
  exact PulseTrain.highs_period h hcp u

/-- A train that is never high has every period. -/
theorem Clocked.PulseTrain.pwmPeriod_of_zero (h : ∀ n, PulseTrain x a p 0 n) (q : ℕ) :
    PwmPeriod x q 0 := by
  have hlow : ∀ t ≥ a, x t = false := by
    intro t ht
    obtain ⟨u, rfl⟩ := Nat.exists_eq_add_of_le ht
    exact ((h (u + 1)).low_iff (Nat.lt_succ_self u)).mpr (Nat.zero_le _)
  refine ⟨a, fun t ht => ?_, fun t ht => ?_⟩
  · rw [hlow t ht, hlow (t + q) (by omega)]
  · refine Nat.count_iff_forall_not.mpr fun k _ => ?_
    rw [hlow (t + k) (by omega)]
    exact Bool.false_ne_true

/-- A train with high clocks does not have a period shorter than its own that
holds them all: a window that starts on the second high clock and ends before
the next period misses the first one. -/
theorem Clocked.PulseTrain.not_pwmPeriod (h : ∀ n, PulseTrain x a p c n) (hc : 0 < c) {q : ℕ}
    (hq : q < p) : ¬ PwmPeriod x q c := by
  rintro ⟨b, -, hhighs⟩
  have hle : b ≤ p * b := Nat.le_mul_of_pos_left b (by omega)
  have hwindow := PulseTrain.highs_within h b q (show 1 + q ≤ p by omega)
  rw [hhighs _ (by omega)] at hwindow
  omega

end PulseTrain

/-- **The period is two clocks too long for every command.** With the PWM
registers at the words `do_work` computes, the spindle output repeats every
`N + 2` clocks with `C` of them high; it repeats every `N` clocks with `C` of
them high exactly if the spindle is to stand still. -/
theorem spindle_pwm_of_command (ub : FVal → BitVec 32) (c : De2.CompState) (N C : ℕ)
    (hfreq : 0 < c.pwmFreq) (hN : 50000000 / c.pwmFreq = (N : ℚ)) (h1 : 1 ≤ N)
    (h2 : N < 2 ^ 32 - 1) (hrpm : |c.spindleRpm| ≤ 1) (hC : |c.spindleRpm| * N = (C : ℚ))
    (s : CncModule) (sched : ℕ → CncIn)
    (hcounter : ∀ t, (stateAt CncModule.posedge s sched t).ctl.pwmCounter = De2.pwmCounter ub c)
    (hcapture : ∀ t, (stateAt CncModule.posedge s sched t).ctl.pwmCapture = De2.pwmCapture ub c) :
    (PwmPeriod (s.spindleSignal sched) N C ↔ c.spindleRpm = 0) ∧
      PwmPeriod (s.spindleSignal sched) (N + 2) C := by
  have hNpos : (0 : ℚ) < N := Nat.cast_pos.mpr h1
  have hCN : C ≤ N := by
    have hle : |c.spindleRpm| * N ≤ N := mul_le_of_le_one_left hNpos.le hrpm
    rw [hC] at hle
    exact Nat.cast_le.mp hle
  have hword := De2.pwmCounter_of_integral ub hfreq hN (by omega)
  have hcapword := De2.pwmCapture_of_integral ub hword hC (by omega) hCN
  obtain ⟨a, htrain⟩ := CncModule.spindle_pulseTrain h2 hCN
    (fun t => (hcounter t).trans hword) (fun t => (hcapture t).trans hcapword)
  have hzero : C = 0 ↔ c.spindleRpm = 0 := by
    rw [← Nat.cast_eq_zero (R := ℚ), ← hC, mul_eq_zero, abs_eq_zero]
    exact or_iff_left hNpos.ne'
  refine ⟨?_, PulseTrain.pwmPeriod htrain (by omega)⟩
  rw [← hzero]
  constructor
  · intro hperiod
    by_contra hne
    exact PulseTrain.not_pwmPeriod htrain (Nat.pos_of_ne_zero hne) (by omega) hperiod
  · rintro rfl
    exact PulseTrain.pwmPeriod_of_zero htrain N

/-- A spindle at 50 kHz, commanded to `rpm` of its full speed. -/
def spindlePins (rpm : ℚ) : De2.CompState where
  sg0 := ⟨.fin 0, 0, false, 1⟩
  sg1 := ⟨.fin 0, 0, false, 1⟩
  sg2 := ⟨.fin 0, 0, false, 1⟩
  sg3 := ⟨.fin 0, 0, false, 1⟩
  sg4 := ⟨.fin 0, 0, false, 1⟩
  spindleRpm := rpm
  gpioOut := fun _ => false
  gpioIn := fun _ => false
  pwmFreq := 50000

/-- The module with the PWM registers of a spindle at 50 kHz. -/
def spindleModule (capture : BitVec 32) : CncModule :=
  { CncModule.powerUp.reset with
    ctl := { CncModule.powerUp.reset.ctl with pwmCounter := 1000, pwmCapture := capture } }

theorem ctl_spindleModule (capture : BitVec 32) (t : ℕ) :
    (stateAt CncModule.posedge (spindleModule capture) (fun _ => CncIn.idle) t).ctl =
      (spindleModule capture).ctl :=
  CncModule.ctl_stateAt_of_no_write (fun _ => rfl) t

theorem pwmCounter_spindlePins (ub : FVal → BitVec 32) (rpm : ℚ) :
    De2.pwmCounter ub (spindlePins rpm) = 1000#32 :=
  De2.pwmCounter_of_integral ub (N := 1000) (by norm_num [spindlePins])
    (by norm_num [spindlePins]) (by norm_num)

theorem pwmCapture_full (ub : FVal → BitVec 32) :
    De2.pwmCapture ub (spindlePins 1) = 1000#32 :=
  De2.pwmCapture_of_integral ub (pwmCounter_spindlePins ub 1) (C := 1000)
    (by norm_num [spindlePins]) (by norm_num) le_rfl

theorem spindle_pwm_of_half :
    (PwmPeriod ((spindleModule 500).spindleSignal fun _ => CncIn.idle) 1000 500 ↔
        (spindlePins (-(1 / 2))).spindleRpm = 0) ∧
      PwmPeriod ((spindleModule 500).spindleSignal fun _ => CncIn.idle) (1000 + 2) 500 := by
  have hrpm : |(spindlePins (-(1 / 2))).spindleRpm| = 1 / 2 := by norm_num [spindlePins, abs_of_pos]
  have hC : |(spindlePins (-(1 / 2))).spindleRpm| * ((1000 : ℕ) : ℚ) = ((500 : ℕ) : ℚ) := by
    rw [hrpm]
    norm_num
  refine spindle_pwm_of_command (fun _ => 0) (spindlePins (-(1 / 2))) 1000 500
    (by norm_num [spindlePins]) (by norm_num [spindlePins]) (by norm_num) (by norm_num)
    (by rw [hrpm]; norm_num) hC _ _ ?_ ?_
  · intro t
    rw [ctl_spindleModule, pwmCounter_spindlePins]
    rfl
  · intro t
    rw [ctl_spindleModule, De2.pwmCapture_of_integral _ (pwmCounter_spindlePins _ _) hC
      (by norm_num) (by norm_num)]
    rfl

/-- **Full speed is not full on**: at `spindle_rpm = 1` the registers hold what
`do_work` computes, and the output goes low again and again. -/
theorem full_speed_not_full_on :
    50000000 / (spindlePins 1).pwmFreq = ((1000 : ℕ) : ℚ) ∧
      |(spindlePins 1).spindleRpm| * ((1000 : ℕ) : ℚ) = ((1000 : ℕ) : ℚ) ∧
      (∀ ub, De2.pwmCounter ub (spindlePins 1) = (spindleModule 1000).ctl.pwmCounter ∧
        De2.pwmCapture ub (spindlePins 1) = (spindleModule 1000).ctl.pwmCapture) ∧
      ¬ PwmPeriod ((spindleModule 1000).spindleSignal fun _ => CncIn.idle) 1000 1000 ∧
      ∀ b, ∃ t ≥ b, (spindleModule 1000).spindleSignal (fun _ => CncIn.idle) t = false := by
  obtain ⟨a, htrain⟩ : ∃ a, ∀ n,
      PulseTrain ((spindleModule 1000).spindleSignal fun _ => CncIn.idle) a (1000 + 2) 1000 n :=
    CncModule.spindle_pulseTrain (by norm_num) le_rfl
      (fun t => by rw [ctl_spindleModule]; rfl) (fun t => by rw [ctl_spindleModule]; rfl)
  refine ⟨by norm_num [spindlePins], by norm_num [spindlePins], fun ub => ?_,
    PulseTrain.not_pwmPeriod htrain (by norm_num) (by norm_num), fun b => ?_⟩
  · exact ⟨pwmCounter_spindlePins ub 1, pwmCapture_full ub⟩
  · obtain ⟨k, -, hlow⟩ := (htrain _).exists_low (by norm_num) (u := b) le_rfl
    exact ⟨a + (b + k), by omega, hlow⟩

end FpgaCnc
