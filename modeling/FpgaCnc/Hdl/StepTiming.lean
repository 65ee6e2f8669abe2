import FpgaCnc.Hdl.CncModule

/-!
# Pulse timing of a step generator

`period`, `en` and reset may change on any clock. The counter still bounds
from below how long the step output has been at its level, since whatever
inverts or clears the output also clears the counter; so no edge that the
comparison makes comes early, and with constant inputs it comes on time.

§1 clocks with reset · §2 the counter and the level · §3 edges · §4 distance
of edges · §5 the axes of the module.
-/

namespace FpgaCnc.StepGen

open Clocked

/-! ## §1  Clocks with reset -/

/-- One clock of a run in which reset may be asserted: `none` is a clock at
which, or before the next one of which, it is. Only the edge memory is clocked
then. -/
def clock : Option StepGenIn → StepGen → StepGen
  | some i, s => s.posedge i
  | none, s => { s.reset with lastStepOut := s.stepOut }

/-- The step output of such a run. -/
def stepOutAt (s : StepGen) (sched : ℕ → Option StepGenIn) (t : ℕ) : Bool :=
  (stateAt clock s sched t).stepOut

/-- Without resets it is the run of the other modules. -/
theorem stateAt_clock_some (s : StepGen) (sched : ℕ → StepGenIn) (t : ℕ) :
    stateAt clock s (fun k => some (sched k)) t = stateAt posedge s sched t := by
  induction t with
  | zero => rfl
  | succ t ih => rw [stateAt_succ, stateAt_succ, ih, clock]

/-! ## §2  The counter and the level -/

theorem posedge_of_le {i : StepGenIn} {s : StepGen} (hen : i.en = true)
    (h : s.counter.toNat ≤ i.period.toNat) :
    (s.posedge i).counter = s.counter + 1 ∧ (s.posedge i).stepOut = s.stepOut := by
  have hle : ¬ s.counter > i.period := fun hlt => absurd (BitVec.lt_def.mp hlt) (Nat.not_lt.mpr h)
  simp [posedge, hen, hle]

theorem posedge_of_lt {i : StepGenIn} {s : StepGen} (hen : i.en = true)
    (h : i.period.toNat < s.counter.toNat) :
    (s.posedge i).counter = 0 ∧ (s.posedge i).stepOut = !s.stepOut := by
  have hlt : s.counter > i.period := BitVec.lt_def.mpr h
  simp [posedge, hen, hlt]

theorem posedge_of_disabled {i : StepGenIn} {s : StepGen} (hen : i.en = false) :
    (s.posedge i).counter = 0 ∧ (s.posedge i).stepOut = false := by
  simp [posedge, hen]

/-- **What a clock can do** to counter and output: clear the counter, or add
one to it and leave the output alone. A counter that wraps is cleared. -/
theorem clock_cases (i : Option StepGenIn) (s : StepGen) :
    (clock i s).counter.toNat = 0 ∨
      ((clock i s).counter.toNat = s.counter.toNat + 1 ∧ (clock i s).stepOut = s.stepOut) := by
  rcases i with _ | i
  · exact .inl rfl
  · cases hen : i.en with
    | false =>
        refine .inl ?_
        rw [clock, (posedge_of_disabled hen).1]
        rfl
    | true =>
        rcases Nat.lt_or_ge i.period.toNat s.counter.toNat with hlt | hle
        · refine .inl ?_
          rw [clock, (posedge_of_lt hen hlt).1]
          rfl
        · obtain ⟨hcounter, hout⟩ := posedge_of_le hen hle
          have hbound := s.counter.isLt
          rw [clock, hcounter, hout, BitVec.toNat_add]
          rcases Nat.lt_or_ge (s.counter.toNat + 1) (2 ^ 32) with hroom | hfull
          · exact .inr ⟨Nat.mod_eq_of_lt hroom, rfl⟩
          · refine .inl ?_
            rw [show s.counter.toNat = 2 ^ 32 - 1 by omega]
            rfl

/-- **The counter bounds the age of the level.** In every run from reset the
output has been at its level for at least `counter + 1` clocks. -/
theorem steadyFor_counter (s : StepGen) (sched : ℕ → Option StepGenIn) (t : ℕ) :
    SteadyFor (stepOutAt s.reset sched) t
      ((stateAt clock s.reset sched t).counter.toNat + 1) := by
  induction t with
  | zero => exact steadyFor_one _ 0
  | succ t ih =>
      rcases clock_cases (sched t) (stateAt clock s.reset sched t) with hzero | ⟨hsucc, hout⟩
      · rw [stateAt_succ, hzero]
        exact steadyFor_one _ (t + 1)
      · rw [stateAt_succ, hsucc]
        exact ih.succ hout

/-- A counter beyond `P` has seen its level for `P + 2` clocks. -/
theorem level_of_lt_counter {s : StepGen} {sched : ℕ → Option StepGenIn} {t P : ℕ} {level : Bool}
    (hlt : P < (stateAt clock s.reset sched t).counter.toNat)
    (hlevel : stepOutAt s.reset sched t = level) :
    ∀ k < P + 2, k ≤ t ∧ stepOutAt s.reset sched (t - k) = level := by
  intro k hk
  obtain ⟨hkt, hsame⟩ := (steadyFor_counter s sched t).mono (Nat.succ_le_succ hlt) k hk
  exact ⟨hkt, hsame.trans hlevel⟩

/-! ## §3  Edges -/

/-- Only an enabled generator whose counter has passed the period raises its
output. -/
theorem clock_rising {i : Option StepGenIn} {s : StepGen} (hlow : s.stepOut = false)
    (hhigh : (clock i s).stepOut = true) :
    ∃ j, i = some j ∧ j.en = true ∧ j.period.toNat < s.counter.toNat := by
  rcases i with _ | i
  · exact absurd hhigh Bool.false_ne_true
  · refine ⟨i, rfl, ?_⟩
    cases hen : i.en with
    | false =>
        rw [clock, (posedge_of_disabled hen).2] at hhigh
        exact absurd hhigh Bool.false_ne_true
    | true =>
        refine ⟨rfl, Nat.not_le.mp fun hle => ?_⟩
        rw [clock, (posedge_of_le hen hle).2, hlow] at hhigh
        exact absurd hhigh Bool.false_ne_true

theorem clock_falling {i : StepGenIn} {s : StepGen} (hen : i.en = true)
    (hhigh : s.stepOut = true) (hlow : (clock (some i) s).stepOut = false) :
    i.period.toNat < s.counter.toNat := by
  refine Nat.not_le.mp fun hle => ?_
  rw [clock, (posedge_of_le hen hle).2, hhigh] at hlow
  exact Bool.false_ne_true hlow.symm

/-- An edge clears the counter. -/
theorem counter_of_changes {s : StepGen} {sched : ℕ → Option StepGenIn} {t : ℕ}
    (h : Changes (stepOutAt s sched) t) : (stateAt clock s sched t).counter.toNat = 0 := by
  cases t with
  | zero => exact h.elim
  | succ t =>
      rcases clock_cases (sched t) (stateAt clock s sched t) with hzero | ⟨-, hout⟩
      · exact hzero
      · exact absurd hout h

/-! ## §4  Distance of edges -/

/-- On the clocks `t₁ .. t₂ - 1` the generator is enabled with period `P`. -/
def Steady (sched : ℕ → Option StepGenIn) (P t₁ t₂ : ℕ) : Prop :=
  ∀ t, t₁ ≤ t → t < t₂ → ∃ i, sched t = some i ∧ i.en = true ∧ i.period.toNat = P

/-- After an edge a steady generator counts clocks and leaves the output
alone, until the counter has reached `P + 1`. -/
theorem ramp_of_changes {s : StepGen} {sched : ℕ → Option StepGenIn} {P t₁ : ℕ}
    (hP : P < 2 ^ 32 - 1) (h1 : Changes (stepOutAt s sched) t₁) :
    ∀ k ≤ P + 1, Steady sched P t₁ (t₁ + k) →
      (stateAt clock s sched (t₁ + k)).counter.toNat = k ∧
        stepOutAt s sched (t₁ + k) = stepOutAt s sched t₁ := by
  intro k
  induction k with
  | zero => exact fun _ _ => ⟨counter_of_changes h1, rfl⟩
  | succ k ih =>
      intro hk hsteady
      obtain ⟨hcounter, hout⟩ := ih (by omega) fun t ht hlt => hsteady t ht (by omega)
      obtain ⟨i, hi, hen, hper⟩ := hsteady (t₁ + k) (Nat.le_add_right t₁ k) (by omega)
      obtain ⟨hadd, hsame⟩ := posedge_of_le hen
        (show (stateAt clock s sched (t₁ + k)).counter.toNat ≤ i.period.toNat by omega)
      rw [← Nat.add_assoc, stepOutAt, stateAt_succ, hi, clock, hadd, hsame, BitVec.toNat_add,
        hcounter]
      exact ⟨Nat.mod_eq_of_lt (by simp; omega), hout⟩

/-- **The next edge** of a steady generator comes `P + 2` clocks after the
last. -/
theorem changes_next {s : StepGen} {sched : ℕ → Option StepGenIn} {P t₁ : ℕ}
    (hP : P < 2 ^ 32 - 1) (h1 : Changes (stepOutAt s sched) t₁)
    (hsteady : Steady sched P t₁ (t₁ + (P + 2))) :
    ConsecutiveChanges (stepOutAt s sched) t₁ (t₁ + (P + 2)) := by
  have hramp := fun k (hk : k ≤ P + 1) => ramp_of_changes hP h1 k hk
    fun t ht hlt => hsteady t ht (by omega)
  refine ⟨h1, ?_, by omega, ?_⟩
  · obtain ⟨hcounter, -⟩ := hramp (P + 1) le_rfl
    obtain ⟨i, hi, hen, hper⟩ := hsteady (t₁ + (P + 1)) (by omega) (by omega)
    have hflip := (posedge_of_lt hen
      (show i.period.toNat < (stateAt clock s sched (t₁ + (P + 1))).counter.toNat by omega)).2
    rw [show t₁ + (P + 2) = t₁ + (P + 1) + 1 from rfl, changes_succ, stepOutAt, stateAt_succ, hi,
      clock, hflip]
    exact Bool.not_ne_self _
  · intro t hlt hlt' hchange
    obtain ⟨k, rfl⟩ : ∃ k, t = t₁ + k + 1 := ⟨t - t₁ - 1, by omega⟩
    -- up to the counter's last value the output is what it was at `t₁`
    refine hchange ?_
    rw [(hramp k (by omega)).2, Nat.add_assoc, (hramp (k + 1) (by omega)).2]

/-- Of two edges with none in between, and the generator steady since the
first, the second is that next edge. -/
theorem distance_of_steady {s : StepGen} {sched : ℕ → Option StepGenIn} {P t₁ t₂ : ℕ}
    (hP : P < 2 ^ 32 - 1) (h12 : ConsecutiveChanges (stepOutAt s sched) t₁ t₂)
    (hsteady : Steady sched P t₁ t₂) : t₂ = t₁ + (P + 2) := by
  rcases Nat.lt_trichotomy t₂ (t₁ + (P + 2)) with hlt | heq | hgt
  · -- too early: at the clock before, the counter was still within the period
    have h12lt := h12.lt
    obtain ⟨k, rfl⟩ : ∃ k, t₂ = t₁ + k + 1 := ⟨t₂ - t₁ - 1, by omega⟩
    have hbefore := ramp_of_changes hP h12.first k (by omega)
      fun t ht hlt => hsteady t ht (by omega)
    have hat := ramp_of_changes hP h12.first (k + 1) (by omega) hsteady
    exact absurd (hat.2.trans hbefore.2.symm) h12.second
  · exact heq
  · have hnext := changes_next hP h12.first fun t ht hlt => hsteady t ht (by omega)
    exact absurd hnext.second (h12.between _ (by omega) hgt)

/-- **No over-speed and no runt pulses.** In every run from reset, whatever
`period`, `en` and reset do on the way: at a rising edge the output has been
low for at least `period + 2` clocks, with the period in force at that edge; at
a falling edge that neither `en` nor reset makes, it has been high for that
long; and while the generator is steady, edges are `period + 2` clocks
apart. -/
theorem stepOut_timing (s : StepGen) (sched : ℕ → Option StepGenIn) :
    (∀ t, Rises (stepOutAt s.reset sched) (t + 1) → ∃ i, sched t = some i ∧
      ∀ k < i.period.toNat + 2, k ≤ t ∧ stepOutAt s.reset sched (t - k) = false) ∧
    (∀ t i, sched t = some i → i.en = true → stepOutAt s.reset sched t = true →
      stepOutAt s.reset sched (t + 1) = false →
      ∀ k < i.period.toNat + 2, k ≤ t ∧ stepOutAt s.reset sched (t - k) = true) ∧
    (∀ t₁ t₂ P, P < 2 ^ 32 - 1 → ConsecutiveChanges (stepOutAt s.reset sched) t₁ t₂ →
      Steady sched P t₁ t₂ → t₂ = t₁ + (P + 2)) := by
  refine ⟨?_, ?_, fun t₁ t₂ P hP h12 hsteady => distance_of_steady hP h12 hsteady⟩
  · rintro t ⟨hlow, hhigh⟩
    obtain ⟨i, hi, -, hlt⟩ := clock_rising hlow hhigh
    exact ⟨i, hi, level_of_lt_counter hlt hlow⟩
  · intro t i hi hen hhigh hlow
    rw [stepOutAt, stateAt_succ, hi] at hlow
    exact level_of_lt_counter (clock_falling hen hhigh hlow) hhigh

end FpgaCnc.StepGen

/-! ## §5  The axes of the module -/

namespace FpgaCnc.CncModule

open Clocked

/-- The step output of an axis is that of its generator, over the registers it
is connected to. -/
theorem osteps_eq_stepOutAt (s : CncModule) (sched : ℕ → CncIn) (i : Fin 5) (t : ℕ) :
    (stateAt posedge s sched t).osteps i =
      StepGen.stepOutAt (s.sg i) (fun k => some ((stateAt posedge s sched k).sgIn i)) t := by
  rw [osteps, sg_stateAt, StepGen.stepOutAt, StepGen.stateAt_clock_some]

/-- Whatever is written to the period and enable registers, a step output of
the module has been low for at least the period in force plus two clocks when
it rises. -/
theorem osteps_low_before_rise (s : CncModule) (sched : ℕ → CncIn) (i : Fin 5) (t : ℕ)
    (hrise : Rises (fun t => (stateAt posedge s.reset sched t).osteps i) (t + 1)) :
    ∀ k < ((stateAt posedge s.reset sched t).ctl.sgPer i).toNat + 2,
      k ≤ t ∧ (stateAt posedge s.reset sched (t - k)).osteps i = false := by
  simp only [osteps_eq_stepOutAt, sg_reset] at hrise ⊢
  obtain ⟨hlow, hhigh⟩ := hrise
  obtain ⟨j, hj, -, hlt⟩ := StepGen.clock_rising hlow hhigh
  obtain rfl := Option.some.inj hj
  exact StepGen.level_of_lt_counter hlt hlow

end FpgaCnc.CncModule
