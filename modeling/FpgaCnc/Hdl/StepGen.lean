import Mathlib.Data.Nat.Count
import Mathlib.Data.BitVec
import Mathlib.Tactic.Ring
import FpgaCnc.Lib.CompareCounter

/-!
# `step_gen`: step pulse generator and step accumulator

One axis of the controller (`ip/cnc_modules/step_gen.v`): three clocked
processes. The generator counts clocks against `period` and inverts `step_out`
when the counter has passed it; the edge memory delays `step_out` by one clock
and has no reset; the accumulator adds or subtracts one, by the direction
input, where `step_out` is high and the edge memory is still low.

§1 module · §2 the generator as a toggling counter · §3 the accumulator counts
rising edges.
-/

namespace FpgaCnc

open Clocked

/-! ## §1  The module -/

/-- The inputs sampled at a clock edge. -/
structure StepGenIn where
  period : BitVec 32
  dirIn : Bool
  en : Bool
deriving DecidableEq, Repr

/-- The registers. -/
structure StepGen where
  counter : BitVec 32
  stepOut : Bool
  lastStepOut : Bool
  location : BitVec 32
deriving DecidableEq, Repr

namespace StepGen

/-- `assign dir_out = dir_in`. -/
def dirOut (i : StepGenIn) : Bool := i.dirIn

/-- The reset branches; `last_step_out` has none. -/
def reset (s : StepGen) : StepGen :=
  { s with counter := 0, stepOut := false, location := 0x80000000#32 }

/-- One clock edge. Every right-hand side reads the registers as they were
before the edge. -/
def posedge (i : StepGenIn) (s : StepGen) : StepGen where
  counter :=
    if i.en then
      if s.counter > i.period then 0 else s.counter + 1
    else 0
  -- a pulse is cut short when the axis is disabled
  stepOut :=
    if i.en then
      if s.counter > i.period then !s.stepOut else s.stepOut
    else false
  lastStepOut := s.stepOut
  location :=
    if s.stepOut = true ∧ s.lastStepOut = false then
      if dirOut i then s.location + 1 else s.location - 1
    else s.location

@[simp] theorem reset_counter (s : StepGen) : s.reset.counter = 0 := rfl
@[simp] theorem reset_stepOut (s : StepGen) : s.reset.stepOut = false := rfl
@[simp] theorem reset_location (s : StepGen) : s.reset.location = 0x80000000#32 := rfl
@[simp] theorem reset_lastStepOut (s : StepGen) : s.reset.lastStepOut = s.lastStepOut := rfl

@[simp] theorem posedge_lastStepOut (i : StepGenIn) (s : StepGen) :
    (s.posedge i).lastStepOut = s.stepOut := rfl

/-- The step output over time. -/
def stepSignal (s : StepGen) (sched : ℕ → StepGenIn) (t : ℕ) : Bool :=
  (stateAt posedge s sched t).stepOut

/-! ## §2  The generator as a toggling counter -/

/-- While the axis is enabled and the period is constant (and not all ones),
the generator is the toggling counter of `CompareCounter`. -/
theorem toggles {s : StepGen} {sched : ℕ → StepGenIn} {period : BitVec 32}
    (hroom : period.toNat + 1 < 2 ^ 32) (hen : ∀ t, (sched t).en = true)
    (hper : ∀ t, (sched t).period = period) :
    CompareCounter.Toggles period (fun t => (stateAt posedge s sched t).counter)
      (stepSignal s sched) where
  room := hroom
  count_succ t := by
    rw [stateAt_succ, posedge, hen t, hper t]
    rfl
  out_succ t := by
    rw [stepSignal, stateAt_succ, posedge, hen t, hper t]
    rfl

/-! ## §3  The accumulator counts rising edges -/

/-- A rising edge of `step_out` at clock `t`, with `dir_out` high (`dir`) or
low (`!dir`) in that first high clock. -/
def RisesWith (s : StepGen) (sched : ℕ → StepGenIn) (dir : Bool) (t : ℕ) : Prop :=
  Rises (stepSignal s sched) t ∧ dirOut (sched t) = dir

instance (s : StepGen) (sched : ℕ → StepGenIn) (dir : Bool) :
    DecidablePred (RisesWith s sched dir) := fun _ => instDecidableAnd

/-- Rising edges before clock `t` whose first high clock had direction `dir`. -/
def steps (s : StepGen) (sched : ℕ → StepGenIn) (dir : Bool) (t : ℕ) : ℕ :=
  Nat.count (RisesWith s sched dir) t

/-- The condition under which the accumulator moves is the rising edge: after
the first clock the edge memory holds the previous step output, and at the
first clock there is no pulse yet. -/
theorem pulse_iff_rises {s : StepGen} (h0 : s.stepOut = false)
    (sched : ℕ → StepGenIn) (t : ℕ) :
    ((stateAt posedge s sched t).stepOut = true ∧
        (stateAt posedge s sched t).lastStepOut = false) ↔
      Rises (stepSignal s sched) t := by
  cases t with
  | zero => simp [h0]
  | succ t =>
      rw [rises_succ, stepSignal, stepSignal]
      have hlast : (stateAt posedge s sched (t + 1)).lastStepOut =
          (stateAt posedge s sched t).stepOut := by
        rw [stateAt_succ, posedge_lastStepOut]
      rw [hlast]
      exact and_comm

/-- One clock of the accumulator, in terms of the edge counts. -/
theorem location_step {s : StepGen} (h0 : s.stepOut = false)
    (sched : ℕ → StepGenIn) (t : ℕ) :
    (stateAt posedge s sched (t + 1)).location =
      (stateAt posedge s sched t).location +
        (if RisesWith s sched true t then 1 else 0) -
        (if RisesWith s sched false t then 1 else 0) := by
  have hpulse := pulse_iff_rises h0 sched t
  rw [stateAt_succ, posedge]
  by_cases hrise : Rises (stepSignal s sched) t
  · rw [if_pos (hpulse.mpr hrise)]
    cases hdir : dirOut (sched t) <;> simp [RisesWith, hrise, hdir]
  · rw [if_neg fun h => hrise (hpulse.mp h)]
    simp [RisesWith, hrise]

/-- **Location is the signed count of steps.** Whatever the schedule does and
whatever the edge memory held at reset release, the accumulator is at its
centre plus the rising edges with direction 1 minus those with direction 0,
each counted one clock after it appears. -/
theorem location_counts_steps (s : StepGen) (sched : ℕ → StepGenIn) (t : ℕ) :
    (stateAt posedge s.reset sched t).location =
      0x80000000#32 + BitVec.ofNat 32 (steps s.reset sched true t)
        - BitVec.ofNat 32 (steps s.reset sched false t) := by
  induction t with
  | zero => simp [steps]
  | succ t ih =>
      rw [location_step (reset_stepOut s), ih, steps, steps, steps, steps,
        Nat.count_succ, Nat.count_succ]
      by_cases hup : RisesWith s.reset sched true t <;>
        by_cases hdown : RisesWith s.reset sched false t <;>
          simp [hup, hdown, BitVec.ofNat_add] <;> ring
end StepGen

end FpgaCnc
