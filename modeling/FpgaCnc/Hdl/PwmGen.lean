import FpgaCnc.Lib.PulseTrain

/-!
# `pwm_gen`: pulse width generator

`ip/cnc_modules/pwm_gen.v`: a counter that restarts once it has passed
`pwm_counter`, and an output that is high while the counter is below
`pwm_capture`. The module drives the spindle output and, with constant
`pwm_counter`, the charge pump.

§1 module · §2 the output with constant inputs · §3 the cycle.
-/

namespace FpgaCnc

open Clocked

/-! ## §1  The module -/

/-- The inputs of the generator; both are sampled continuously. -/
structure PwmGenIn where
  pwmCounter : BitVec 32
  pwmCapture : BitVec 32
deriving DecidableEq, Repr

/-- The counter register. -/
structure PwmGen where
  count : BitVec 32
deriving DecidableEq, Repr

namespace PwmGen

/-- The reset branch. -/
def reset (_ : PwmGen) : PwmGen := { count := 0xFFFFFFFF#32 }

/-- One clock edge. -/
def posedge (i : PwmGenIn) (s : PwmGen) : PwmGen where
  count := if s.count > i.pwmCounter then 0 else s.count + 1

/-- `assign pwm_out = (count < pwm_capture) ? 1 : 0`. -/
def pwmOut (i : PwmGenIn) (s : PwmGen) : Bool := decide (s.count < i.pwmCapture)

@[simp] theorem reset_count (s : PwmGen) : s.reset.count = 0xFFFFFFFF#32 := rfl

theorem posedge_count (i : PwmGenIn) (s : PwmGen) :
    (s.posedge i).count = CompareCounter.next i.pwmCounter s.count := rfl

theorem pwmOut_iff (i : PwmGenIn) (s : PwmGen) :
    s.pwmOut i = true ↔ s.count.toNat < i.pwmCapture.toNat := by
  rw [pwmOut, decide_eq_true_eq, BitVec.lt_def]

/-! ## §2  The output with constant inputs -/

/-- The output over time, its inputs given clock by clock. -/
def pwmSignal (s : PwmGen) (sched : ℕ → PwmGenIn) (t : ℕ) : Bool :=
  (stateAt posedge s sched t).pwmOut (sched t)

section Const

variable {s : PwmGen} {sched : ℕ → PwmGenIn} {i : PwmGenIn} {T : ℕ}

/-- The counter from clock `T` on, where the inputs stay what they are. -/
theorem count_succ_of_const (hconst : ∀ t, T ≤ t → sched t = i) (t : ℕ) :
    (stateAt posedge s sched (T + (t + 1))).count =
      CompareCounter.next i.pwmCounter (stateAt posedge s sched (T + t)).count := by
  rw [← Nat.add_assoc, stateAt_succ, hconst (T + t) (Nat.le_add_right T t)]
  exact posedge_count _ _

theorem pwmSignal_of_const (hconst : ∀ t, T ≤ t → sched t = i) {t : ℕ} (ht : T ≤ t) :
    pwmSignal s sched t =
      decide ((stateAt posedge s sched t).count.toNat < i.pwmCapture.toNat) := by
  rw [pwmSignal, hconst t ht, pwmOut]
  exact decide_eq_decide.mpr BitVec.lt_def

/-- **Cycle of `pwm_counter + 2` clocks.** With constant inputs the output
becomes a pulse train, whatever the counter held: `pwm_capture` clocks high out
of every `pwm_counter + 2`, since the counter takes the value
`pwm_counter + 1` before it is reset. -/
theorem pulseTrain_of_const_from (hroom : i.pwmCounter.toNat + 1 < 2 ^ 32)
    (hconst : ∀ t, T ≤ t → sched t = i) :
    ∃ a ≤ i.pwmCounter.toNat + 2, (stateAt posedge s sched (T + a)).count.toNat = 0 ∧
      ∀ n, PulseTrain (fun t => pwmSignal s sched (T + t)) a (i.pwmCounter.toNat + 2)
        i.pwmCapture.toNat n := by
  have hstep := count_succ_of_const (s := s) hconst
  have hzero := @CompareCounter.restarts 32 i.pwmCounter
    (fun t => (stateAt posedge s sched (T + t)).count) hroom hstep
  refine ⟨_, CompareCounter.clocksToToggle_le _ _, hzero, fun n => ?_⟩
  exact @CompareCounter.pulseTrain 32 i.pwmCounter
    (fun t => (stateAt posedge s sched (T + t)).count) hroom hstep _ _ _ _ hzero
    fun t _ => pwmSignal_of_const hconst (Nat.le_add_right T _)

/-- With `pwm_counter` at all ones the counter wraps, and the cycle has `2^32`
clocks. -/
theorem pulseTrain_of_allOnes (hfull : i.pwmCounter.toNat + 1 = 2 ^ 32)
    (hconst : ∀ t, T ≤ t → sched t = i) :
    ∃ a ≤ 2 ^ 32, (stateAt posedge s sched (T + a)).count.toNat = 0 ∧
      ∀ n, PulseTrain (fun t => pwmSignal s sched (T + t)) a (2 ^ 32) i.pwmCapture.toNat n := by
  have hstep := count_succ_of_const (s := s) hconst
  have hzero := @CompareCounter.wraps_to_zero 32 i.pwmCounter
    (fun t => (stateAt posedge s sched (T + t)).count) hfull hstep
  refine ⟨_, Nat.sub_le _ _, hzero, fun n => ?_⟩
  exact @CompareCounter.pulseTrain_of_wraps 32 i.pwmCounter
    (fun t => (stateAt posedge s sched (T + t)).count) hfull hstep _ _ _ _ hzero
    fun t _ => pwmSignal_of_const hconst (Nat.le_add_right T _)

end Const

/-- The cycle of a generator with constant inputs from the start. -/
theorem pulseTrain_of_const {s : PwmGen} {sched : ℕ → PwmGenIn} {i : PwmGenIn}
    (hroom : i.pwmCounter.toNat + 1 < 2 ^ 32) (hconst : ∀ t, sched t = i) :
    ∃ a, ∀ n, PulseTrain (pwmSignal s sched) a (i.pwmCounter.toNat + 2) i.pwmCapture.toNat n := by
  obtain ⟨a, -, -, htrain⟩ := pulseTrain_of_const_from (s := s) (T := 0) hroom
    fun t _ => hconst t
  simp only [Nat.zero_add] at htrain
  exact ⟨a, htrain⟩

/-! ## §3  The cycle -/

/-- **The generator converges to its cycle from any state.** Wherever the
counter stands at the clock from which the inputs stay constant, it reaches
zero within one cycle, and from there every cycle is a run of high clocks, one
for each value below `pwm_capture`, and then low clocks only. A cycle has
`pwm_counter + 2` clocks, or `2^32` with `pwm_counter` at all ones. -/
theorem pwm_cycle (s : PwmGen) (sched : ℕ → PwmGenIn) (i : PwmGenIn) (T : ℕ)
    (hconst : ∀ t, T ≤ t → sched t = i) :
    (i.pwmCounter.toNat ≤ 2 ^ 32 - 2 → ∃ a ≤ i.pwmCounter.toNat + 2,
      (stateAt posedge s sched (T + a)).count = 0 ∧
        ∀ t, pwmSignal s sched (T + (a + t)) = decide (t % (i.pwmCounter.toNat + 2) <
          min i.pwmCapture.toNat (i.pwmCounter.toNat + 2))) ∧
    (i.pwmCounter.toNat = 2 ^ 32 - 1 → ∃ a ≤ 2 ^ 32,
      (stateAt posedge s sched (T + a)).count = 0 ∧
        ∀ t, pwmSignal s sched (T + (a + t)) = decide (t % 2 ^ 32 < i.pwmCapture.toNat)) := by
  constructor
  · intro hroom
    obtain ⟨a, ha, hzero, htrain⟩ :=
      pulseTrain_of_const_from (s := s) (show i.pwmCounter.toNat + 1 < 2 ^ 32 by omega) hconst
    refine ⟨a, ha, BitVec.eq_of_toNat_eq hzero, fun t => ?_⟩
    exact (htrain (t + 1)).cap (Nat.succ_pos _) t (Nat.lt_succ_self t)
  · intro hfull
    obtain ⟨a, ha, hzero, htrain⟩ :=
      pulseTrain_of_allOnes (s := s) (show i.pwmCounter.toNat + 1 = 2 ^ 32 by omega) hconst
    exact ⟨a, ha, BitVec.eq_of_toNat_eq hzero, fun t => htrain (t + 1) t (Nat.lt_succ_self t)⟩

/-- A spindle whose period is shortened under way: from clock 2 on the counter
is past its new top. -/
def shortened (t : ℕ) : PwmGenIn := if t < 2 then ⟨10, 1⟩ else ⟨0, 1⟩

theorem pwm_cycle_of_shortened :
    ((0#32).toNat ≤ 2 ^ 32 - 2 → ∃ a ≤ (0#32).toNat + 2,
      (stateAt posedge ⟨7⟩ shortened (2 + a)).count = 0 ∧
        ∀ t, pwmSignal ⟨7⟩ shortened (2 + (a + t)) = decide (t % ((0#32).toNat + 2) <
          min (1#32).toNat ((0#32).toNat + 2))) ∧
    ((0#32).toNat = 2 ^ 32 - 1 → ∃ a ≤ 2 ^ 32,
      (stateAt posedge ⟨7⟩ shortened (2 + a)).count = 0 ∧
        ∀ t, pwmSignal ⟨7⟩ shortened (2 + (a + t)) = decide (t % 2 ^ 32 < (1#32).toNat)) :=
  pwm_cycle ⟨7⟩ shortened ⟨0, 1⟩ 2 fun _ ht => if_neg (Nat.not_lt.mpr ht)

end PwmGen

end FpgaCnc
