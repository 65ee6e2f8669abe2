import FpgaCnc.Hdl.Watchdog
import FpgaCnc.Host.Conversions

/-!
# Commanded velocity and step frequency

The component encodes a velocity as `N - 1` with `N = 50e6 / (2 v scale)`; the
step generator decodes a period `p` as half periods of `p + 2` clocks, since
its counter is compared with `>` and reset to zero. The two conventions do not
cancel: the step period is `2 * (N + 1)` clocks.
-/

namespace FpgaCnc

open Clocked

/-! ## The encoded period -/

namespace De2

/-- **Encoding.** Where the half period is a whole number `N` of clocks, the
period word is `N - 1`. -/
theorem per_of_integral (ub : FVal → BitVec 32) {p : AxisPins} {N : ℕ}
    (hv : 1 / 100 ≤ |p.velocityCmd|) (hscale : 0 < p.scale)
    (hN : 50000000 / (2 * |p.velocityCmd| * p.scale) = (N : ℚ))
    (h1 : 1 ≤ N) (h2 : N < 2 ^ 31) : per ub p = BitVec.ofNat 32 (N - 1) := by
  rw [per, perValue_of_ge hv hscale.ne', hN, ← Nat.cast_one, ← Nat.cast_sub h1]
  exact toInt_natCast ub (by omega)

end De2

/-! ## The decoded period -/

namespace CncModule

/-- The step output of axis `i` over time. -/
def stepSignal (s : CncModule) (sched : ℕ → CncIn) (i : Fin 5) (t : ℕ) : Bool :=
  (stateAt posedge s sched t).osteps i

/-- It is the step output of the axis' generator, over the registers it is
connected to. -/
theorem stepSignal_eq (s : CncModule) (sched : ℕ → CncIn) (i : Fin 5) :
    stepSignal s sched i =
      StepGen.stepSignal (s.sg i) fun k => (stateAt posedge s sched k).sgIn i := by
  funext t
  rw [StepGen.stepSignal, stepSignal, osteps, sg_stateAt]

/-- While its enable bit and period register are constant, an axis of the
module toggles its step output like the counter of its generator. -/
theorem toggles {s : CncModule} {sched : ℕ → CncIn} {i : Fin 5} {period : BitVec 32}
    (hroom : period.toNat + 1 < 2 ^ 32)
    (hen : ∀ t, (stateAt posedge s sched t).ctl.sgEn i = true)
    (hper : ∀ t, (stateAt posedge s sched t).ctl.sgPer i = period) :
    CompareCounter.Toggles period
      (fun t => ((stateAt posedge s sched t).sg i).counter) (stepSignal s sched i) := by
  have hen' : ∀ k, ((stateAt posedge s sched k).sgIn i).en = true := hen
  have h := StepGen.toggles (s := s.sg i) hroom hen' hper
  rw [← stepSignal_eq] at h
  simpa only [sg_stateAt] using h

end CncModule

/-! ## Both together -/

/-- `out` goes on rising, and consecutive rising edges are `d` clocks apart. -/
def StepPeriod (out : ℕ → Bool) (d : ℕ) : Prop :=
  (∃ t₁ t₂, ConsecutiveRises out t₁ t₂) ∧
    ∀ t₁ t₂, ConsecutiveRises out t₁ t₂ → t₂ = t₁ + d

theorem CompareCounter.Toggles.stepPeriod {w : ℕ} {top : BitVec w}
    {count : ℕ → BitVec w} {out : ℕ → Bool} (h : CompareCounter.Toggles top count out) :
    StepPeriod out (2 * (top.toNat + 2)) := by
  obtain ⟨hrise, -⟩ := h.first_rise
  refine ⟨⟨_, _, (h.square_of_rises hrise).next (by omega) hrise⟩, ?_⟩
  intro t₁ t₂ h12
  exact h.consecutive h12

theorem StepPeriod.unique {out : ℕ → Bool} {d d' : ℕ} (h : StepPeriod out d)
    (h' : StepPeriod out d') : d = d' := by
  obtain ⟨⟨t₁, t₂, h12⟩, hd⟩ := h
  have heq := hd t₁ t₂ h12
  have heq' := h'.2 t₁ t₂ h12
  omega

/-- The step period of an enabled axis whose period register holds `N - 1`. -/
theorem CncModule.stepPeriod {s : CncModule} {sched : ℕ → CncIn} {i : Fin 5} {N : ℕ}
    (h1 : 1 ≤ N) (h2 : N < 2 ^ 31)
    (hen : ∀ t, (stateAt posedge s sched t).ctl.sgEn i = true)
    (hper : ∀ t, (stateAt posedge s sched t).ctl.sgPer i = BitVec.ofNat 32 (N - 1)) :
    StepPeriod (s.stepSignal sched i) (2 * (N + 1)) := by
  have hword : (BitVec.ofNat 32 (N - 1)).toNat = N - 1 := by
    rw [BitVec.toNat_ofNat]
    omega
  have htog := CncModule.toggles (by omega) hen hper
  have hperiod := htog.stepPeriod
  rwa [hword, show N - 1 + 2 = N + 1 by omega] at hperiod

/-- **The step period is two clocks too long for every command.** With the
period register at the word `do_work` computes and the axis enabled, the
rising edges of the step output are `2 * (N + 1)` clocks apart, so they are
never the `2 * N` clocks apart that `|v| * scale` steps per second asks for. -/
theorem step_period_of_command (ub : FVal → BitVec 32) (i : Fin 5) (p : De2.AxisPins)
    (N : ℕ) (hv : 1 / 100 ≤ |p.velocityCmd|) (hscale : 0 < p.scale)
    (hN : 50000000 / (2 * |p.velocityCmd| * p.scale) = (N : ℚ))
    (h1 : 1 ≤ N) (h2 : N < 2 ^ 31) (s : CncModule) (sched : ℕ → CncIn)
    (hen : ∀ t, (stateAt CncModule.posedge s sched t).ctl.sgEn i = true)
    (hper : ∀ t, (stateAt CncModule.posedge s sched t).ctl.sgPer i = De2.per ub p) :
    StepPeriod (s.stepSignal sched i) (2 * (N + 1)) ∧
      ¬ StepPeriod (s.stepSignal sched i) (2 * N) := by
  have hword := De2.per_of_integral ub hv hscale hN h1 h2
  have hperiod := CncModule.stepPeriod h1 h2 hen fun t => (hper t).trans hword
  refine ⟨hperiod, fun hclaimed => ?_⟩
  -- two periods of one output are equal, and `2 * (N + 1)` is not `2 * N`
  have := hperiod.unique hclaimed
  omega

/-- An axis at 4000 steps per unit, commanded to 1.25 units per second. -/
def joggedAxis : De2.AxisPins := ⟨.fin 0, 5 / 4, true, 4000⟩

/-- The module with axis 0 enabled at the period word of `joggedAxis`. -/
def joggedModule : CncModule :=
  { CncModule.powerUp.reset with
    ctl := { CncModule.powerUp.reset.ctl with sg0Per := 4999, sgEns := 1 } }

theorem ctl_joggedModule (t : ℕ) :
    (stateAt CncModule.posedge joggedModule (fun _ => CncIn.idle) t).ctl = joggedModule.ctl :=
  CncModule.ctl_stateAt_of_no_write (fun _ => rfl) t

theorem joggedAxis_clocks :
    50000000 / (2 * |joggedAxis.velocityCmd| * joggedAxis.scale) = ((5000 : ℕ) : ℚ) := by
  norm_num [joggedAxis, abs_of_pos]

theorem step_period_of_jog :
    StepPeriod (joggedModule.stepSignal (fun _ => CncIn.idle) 0) 10002 ∧
      ¬ StepPeriod (joggedModule.stepSignal (fun _ => CncIn.idle) 0) 10000 := by
  have hv : 1 / 100 ≤ |joggedAxis.velocityCmd| := by norm_num [joggedAxis, abs_of_pos]
  have hscale : 0 < joggedAxis.scale := by norm_num [joggedAxis]
  refine step_period_of_command (fun _ => 0x80000000) 0 joggedAxis 5000 hv hscale
    joggedAxis_clocks (by decide) (by decide) joggedModule _ ?_ ?_
  · intro t
    rw [ctl_joggedModule]
    rfl
  · intro t
    rw [ctl_joggedModule, De2.per_of_integral _ hv hscale joggedAxis_clocks (by decide) (by decide)]
    rfl

/-- **Off by two clocks**: `do_work` computes the word the register holds, and
the step period is not `2 * N`. -/
theorem jog_two_clocks_late :
    50000000 / (2 * |joggedAxis.velocityCmd| * joggedAxis.scale) = ((5000 : ℕ) : ℚ) ∧
      joggedModule.ctl.sgEn 0 = true ∧
      (∀ ub, De2.per ub joggedAxis = joggedModule.ctl.sgPer 0) ∧
      ¬ StepPeriod (joggedModule.stepSignal (fun _ => CncIn.idle) 0) (2 * 5000) := by
  have hv : 1 / 100 ≤ |joggedAxis.velocityCmd| := by norm_num [joggedAxis, abs_of_pos]
  have hscale : 0 < joggedAxis.scale := by norm_num [joggedAxis]
  have hperiod : StepPeriod (joggedModule.stepSignal (fun _ => CncIn.idle) 0) (2 * (5000 + 1)) :=
    CncModule.stepPeriod (by decide) (by decide)
      (fun t => by rw [ctl_joggedModule]; rfl) (fun t => by rw [ctl_joggedModule]; rfl)
  refine ⟨joggedAxis_clocks, rfl, fun ub => ?_, fun hclaimed => ?_⟩
  · exact De2.per_of_integral ub hv hscale joggedAxis_clocks (by decide) (by decide)
  · exact absurd (hperiod.unique hclaimed) (by decide)

end FpgaCnc
