import FpgaCnc.Hdl.CncModule

/-!
# Safe start

What the outputs do before the host has set them up. A disabled axis holds its
step output down, so its accumulator never sees a pulse, whatever the edge
memory held at power-up; a compare value of zero keeps the spindle off whatever
the period; the output pins stay at their reset value. None of the registers
without a reset has a part in it.

§1 registers that no write has touched · §2 axes · §3 all outputs.
-/

namespace FpgaCnc.CncModule

open Clocked

/-! ## §1  Registers that no write has touched -/

/-- What the reset establishes and no write of the schedule breaks, holds of
the control registers throughout. -/
theorem ctl_stateAt_induction {P : CtlRegs → Prop} {s : CncModule} {sched : ℕ → CncIn} {T : ℕ}
    (h0 : P s.ctl)
    (hwrite : ∀ t < T, ∀ a d, (sched t).busWrite = some (a, d) → ∀ r, P r → P (r.write a d)) :
    ∀ t ≤ T, P (stateAt posedge s sched t).ctl := by
  refine stateAt_induction (P := fun s : CncModule => P s.ctl) h0 ?_
  intro t ht s hs
  show P (s.posedge (sched t)).ctl
  rw [ctl_posedge]
  rcases hw : (sched t).busWrite with _ | ⟨a, d⟩
  · exact hs
  · exact hwrite t ht a d hw _ hs

theorem pwmCapture_of_no_write (s : CncModule) {sched : ℕ → CncIn} {T : ℕ}
    (hnone : ∀ t < T, ∀ d, (sched t).busWrite = some (7, d) → d = 0) :
    ∀ t ≤ T, (stateAt posedge s.reset sched t).ctl.pwmCapture = 0 := by
  refine ctl_stateAt_induction (P := fun r => r.pwmCapture = 0) rfl ?_
  intro t ht a d hw r hr
  rw [CtlRegs.pwmCapture_write]
  split_ifs with ha
  · obtain rfl : a = 7 := BitVec.eq_of_toNat_eq ha
    exact hnone t ht d hw
  · exact hr

theorem ogpio_of_no_write (s : CncModule) {sched : ℕ → CncIn} {T : ℕ}
    (hnone : ∀ t < T, ∀ d, (sched t).busWrite ≠ some (8, d)) :
    ∀ t ≤ T, (stateAt posedge s.reset sched t).ctl.ogpio = 0 := by
  refine ctl_stateAt_induction (P := fun r => r.ogpio = 0) rfl ?_
  intro t ht a d hw r hr
  rw [CtlRegs.ogpio_write]
  split_ifs with ha
  · obtain rfl : a = 8 := BitVec.eq_of_toNat_eq ha
    exact absurd hw (hnone t ht d)
  · exact hr

/-! ## §2  Axes -/

/-- Axis `i` disabled, its step output low, its accumulator at the centre. -/
structure AtRest (i : Fin 5) (s : CncModule) : Prop where
  en : s.ctl.sgEn i = false
  stepOut : (s.sg i).stepOut = false
  location : (s.sg i).location = 0x80000000#32

theorem atRest_reset (s : CncModule) (i : Fin 5) : AtRest i s.reset where
  en := by simp [reset, CtlRegs.reset, CtlRegs.sgEn]
  stepOut := by rw [sg_reset, StepGen.reset_stepOut]
  location := by rw [sg_reset, StepGen.reset_location]

/-- A clock that does not set the enable bit of the axis leaves it at rest: a
low output is no pulse for the accumulator, whatever the edge memory holds. -/
theorem AtRest.posedge {i : Fin 5} {s : CncModule} (h : AtRest i s) {b : CncIn}
    (hb : ∀ d, b.busWrite = some (5, d) → d.getLsbD (5 + i) = false) :
    AtRest i (s.posedge b) where
  en := by
    rw [ctl_posedge]
    rcases hw : b.busWrite with _ | ⟨a, d⟩
    · exact h.en
    · show (s.ctl.write a d).sgEn i = false
      rw [CtlRegs.sgEn_write]
      split_ifs with ha
      · obtain rfl : a = 5 := BitVec.eq_of_toNat_eq ha
        exact hb d hw
      · exact h.en
  stepOut := by
    have hen : (s.sgIn i).en = false := h.en
    rw [sg_posedge, StepGen.posedge, hen]
    rfl
  location := by
    have hpulse : ¬ ((s.sg i).stepOut = true ∧ (s.sg i).lastStepOut = false) :=
      fun hp => Bool.false_ne_true (h.stepOut.symm.trans hp.1)
    rw [sg_posedge, StepGen.posedge, if_neg hpulse, h.location]

theorem atRest_of_no_enable (s : CncModule) {sched : ℕ → CncIn} {T : ℕ} {i : Fin 5}
    (hnone : ∀ t < T, ∀ d, (sched t).busWrite = some (5, d) → d.getLsbD (5 + i) = false) :
    ∀ t ≤ T, AtRest i (stateAt posedge s.reset sched t) :=
  stateAt_induction (atRest_reset s i) fun t ht _ hs => hs.posedge (hnone t ht)

/-! ## §3  All outputs -/

/-- **Safe start.** In every run from reset, whatever the registers without a
reset held and whatever the bus and the input pins do: before a write has
enabled axis `i` its step output is low and its location is the centre; before
a nonzero compare value has been written the spindle output is low; before
register 8 has been written the output pins are low. -/
theorem safe_start (s : CncModule) (sched : ℕ → CncIn) (T : ℕ) :
    (∀ i : Fin 5,
      (∀ t < T, ∀ d, (sched t).busWrite = some (5, d) → d.getLsbD (5 + i) = false) →
      ∀ t ≤ T, (stateAt posedge s.reset sched t).osteps i = false ∧
        ((stateAt posedge s.reset sched t).sg i).location = 0x80000000#32) ∧
    ((∀ t < T, ∀ d, (sched t).busWrite = some (7, d) → d = 0) →
      ∀ t ≤ T, (stateAt posedge s.reset sched t).ospindlePwm = false) ∧
    ((∀ t < T, ∀ d, (sched t).busWrite ≠ some (8, d)) →
      ∀ t ≤ T, (stateAt posedge s.reset sched t).ctl.ogpio = 0) := by
  refine ⟨?_, ?_, fun hnone => ogpio_of_no_write s hnone⟩
  · intro i hnone t ht
    have hrest := atRest_of_no_enable s hnone t ht
    exact ⟨hrest.stepOut, hrest.location⟩
  · intro hnone t ht
    have hzero := pwmCapture_of_no_write s hnone t ht
    rw [ospindlePwm, ← Bool.not_eq_true, PwmGen.pwmOut_iff, pwmIn, hzero]
    exact Nat.not_lt_zero _

end FpgaCnc.CncModule
