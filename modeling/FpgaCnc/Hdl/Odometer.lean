import Mathlib.Algebra.BigOperators.Intervals
import Mathlib.Algebra.Order.Field.Basic
import Mathlib.Tactic.Linarith
import Mathlib.Tactic.Positivity
import FpgaCnc.Hdl.StepTiming

/-!
# Location against the commanded rate

While `period`, direction and enable of an axis are what they are, its inputs
ask for an edge every `period + 2` clocks. The accumulator does not follow them
exactly: a step is counted a clock after it appears, half a period may have
been counted off, and what was counted off under one command goes on under the
next. What it is ahead by is a function of the registers and of the inputs;
every clock keeps the balance, and a new command moves it by a bounded amount.

§1 what the inputs ask for · §2 what the generator is ahead by · §3 one clock ·
§4 a new command · §5 any number of clocks.
-/

namespace FpgaCnc.StepGen

open Clocked

/-! ## §1  What the inputs ask for -/

/-- The direction as a factor. -/
def sign (i : StepGenIn) : ℚ := if dirOut i then 1 else -1

/-- The counter can pass the period. -/
def HasEdges (i : StepGenIn) : Prop := i.period.toNat + 1 < 2 ^ 32

instance (i : StepGenIn) : Decidable (HasEdges i) := inferInstanceAs (Decidable (_ < _))

/-- Edges a clock; two of them are a step. -/
def rate (i : StepGenIn) : ℚ :=
  if i.en = true ∧ HasEdges i then sign i / (i.period.toNat + 2) else 0

theorem sign_cases (i : StepGenIn) : sign i = 1 ∨ sign i = -1 := by
  unfold sign
  split_ifs
  · exact .inl rfl
  · exact .inr rfl

/-! ## §2  What the generator is ahead by -/

/-- A step that has not been counted. -/
def Pending (s : StepGen) : Prop := s.stepOut = true ∧ s.lastStepOut = false

instance (s : StepGen) : Decidable (Pending s) := inferInstanceAs (Decidable (_ ∧ _))

/-- What the next clock adds to the location. -/
def move (i : StepGenIn) (s : StepGen) : ℤ :=
  if Pending s then if dirOut i then 1 else -1 else 0

/-- The part of the way to the next edge that has been counted off. -/
def phase (i : StepGenIn) (s : StepGen) : ℚ :=
  if HasEdges i then ((min s.counter.toNat (i.period.toNat + 1) : ℕ) : ℚ) / (i.period.toNat + 2)
  else 0

/-- Edges that are in the registers and not in the location: two for a step not
counted; the way to the next edge; and after the rise of a step, which counts
for both of its edges, the fall is still owed. -/
def ahead (i : StepGenIn) (s : StepGen) : ℚ :=
  sign i * ((if Pending s then 2 else 0) +
    if i.en then phase i s - (if s.stepOut then 1 else 0) else 0)

/-! ## §3  One clock -/

theorem location_posedge (i : StepGenIn) (s : StepGen) :
    (s.posedge i).location = s.location + BitVec.ofInt 32 (move i s) := by
  show (if Pending s then if dirOut i then s.location + 1 else s.location - 1 else s.location) = _
  unfold move
  split_ifs
  · rfl
  · exact sub_eq_add_neg _ _
  · exact (BitVec.add_zero _).symm

theorem move_eq (i : StepGenIn) (s : StepGen) :
    ((move i s : ℤ) : ℚ) = sign i * if Pending s then 1 else 0 := by
  unfold move sign
  split_ifs <;> simp

/-- Of the counter, a clock makes the way to the next edge shorter by one part
of it, or there is the edge. -/
theorem phase_posedge {i : StepGenIn} (hen : i.en = true) (s : StepGen) :
    phase i (s.posedge i) +
        (if (s.posedge i).stepOut = s.stepOut then 0 else if HasEdges i then 1 else 0) =
      phase i s + if HasEdges i then 1 / ((i.period.toNat : ℚ) + 2) else 0 := by
  have hpos : (i.period.toNat : ℚ) + 2 ≠ 0 := by positivity
  have hcount := s.counter.isLt
  unfold phase
  rcases Nat.lt_or_ge i.period.toNat s.counter.toNat with hlt | hle
  · have hedges : HasEdges i := show i.period.toNat + 1 < 2 ^ 32 by omega
    obtain ⟨hzero, hflip⟩ := posedge_of_lt hen hlt
    rw [if_pos hedges, if_pos hedges, if_pos hedges, if_pos hedges, hzero, hflip,
      if_neg (Bool.not_ne_self _), Nat.min_eq_right hlt, BitVec.ofNat_eq_ofNat, BitVec.toNat_zero,
      Nat.zero_min, Nat.cast_zero, zero_div, zero_add, ← add_div, Nat.cast_succ, add_assoc,
      one_add_one_eq_two, div_self hpos]
  · obtain ⟨hnext, hsame⟩ := posedge_of_le hen hle
    rw [if_pos hsame]
    by_cases hedges : HasEdges i
    · have hroom : i.period.toNat + 1 < 2 ^ 32 := hedges
      have hval : (s.counter + 1).toNat = s.counter.toNat + 1 := by
        rw [BitVec.toNat_add]
        exact Nat.mod_eq_of_lt (by simp; omega)
      rw [if_pos hedges, if_pos hedges, if_pos hedges, hnext, hval,
        Nat.min_eq_left (Nat.succ_le_succ hle), Nat.min_eq_left (Nat.le_succ_of_le hle)]
      push_cast
      ring
    · rw [if_neg hedges, if_neg hedges, if_neg hedges]

theorem pending_posedge (i : StepGenIn) (s : StepGen) :
    Pending (s.posedge i) ↔ (s.posedge i).stepOut = true ∧ s.stepOut = false := Iff.rfl

/-- The output of a disabled generator. -/
theorem not_pending_of_disabled {i : StepGenIn} (hen : i.en = false) (s : StepGen) :
    ¬ Pending (s.posedge i) := by
  rw [pending_posedge, (posedge_of_disabled hen).2]
  exact fun h => Bool.false_ne_true h.1

/-- Only a counter past the period makes an edge. -/
theorem hasEdges_of_flip {i : StepGenIn} (hen : i.en = true) {s : StepGen}
    (h : (s.posedge i).stepOut ≠ s.stepOut) : HasEdges i := by
  have hcount := s.counter.isLt
  rcases Nat.lt_or_ge i.period.toNat s.counter.toNat with hlt | hle
  · exact lt_of_le_of_lt hlt hcount
  · exact absurd (posedge_of_le hen hle).2 h

/-- `ahead` of an enabled generator, without the direction. -/
theorem ahead_of_enabled {i : StepGenIn} (hen : i.en = true) (s : StepGen) :
    ahead i s = sign i *
      ((if Pending s then 2 else 0) + (phase i s - if s.stepOut then 1 else 0)) := by
  rw [ahead, hen, if_pos rfl]

theorem rate_of_enabled {i : StepGenIn} (hen : i.en = true) :
    rate i = sign i * if HasEdges i then 1 / ((i.period.toNat : ℚ) + 2) else 0 := by
  rw [rate, hen]
  by_cases hedges : HasEdges i
  · rw [if_pos ⟨rfl, hedges⟩, if_pos hedges, mul_one_div]
  · rw [if_neg fun h => hedges h.2, if_neg hedges, mul_zero]

/-- **The balance of one clock**: what goes to the location and what the inputs
ask for account for the change of `ahead`. -/
theorem balance (i : StepGenIn) (s : StepGen) :
    2 * (move i s : ℚ) + ahead i (s.posedge i) = ahead i s + rate i := by
  rw [move_eq]
  cases hen : i.en with
  | false =>
      unfold ahead rate
      rw [hen, if_neg (not_pending_of_disabled hen s)]
      simp
      split_ifs <;> ring
  | true =>
      have hphase := phase_posedge hen s
      rw [ahead_of_enabled hen, ahead_of_enabled hen, rate_of_enabled hen]
      by_cases hflip : (s.posedge i).stepOut = s.stepOut
      · -- no edge: nothing new is pending
        have hquiet : ¬ Pending (s.posedge i) := by
          rw [pending_posedge, hflip]
          exact fun h => Bool.false_ne_true (h.2.symm.trans h.1)
        rw [if_pos hflip, add_zero] at hphase
        rw [if_neg hquiet, hflip, hphase]
        split_ifs <;> ring
      · have hedges := hasEdges_of_flip hen hflip
        rw [if_neg hflip, if_pos hedges] at hphase
        rw [if_pos hedges] at hphase ⊢
        rw [eq_sub_of_add_eq hphase]
        cases hout : s.stepOut with
        | false =>
            -- the rise of a step
            have hup : (s.posedge i).stepOut = true := by
              rw [hout] at hflip
              exact Bool.eq_true_of_not_eq_false hflip
            have hpending : Pending (s.posedge i) := (pending_posedge i s).mpr ⟨hup, hout⟩
            rw [if_pos hpending, if_pos hup, if_neg Bool.false_ne_true]
            split_ifs <;> ring
        | true =>
            have hdown : (s.posedge i).stepOut = false := by
              rw [hout] at hflip
              exact Bool.eq_false_of_not_eq_true hflip
            have hquiet : ¬ Pending (s.posedge i) := fun h => by
              rw [pending_posedge, hdown] at h
              exact Bool.false_ne_true h.1
            rw [if_neg hquiet, hdown, if_neg Bool.false_ne_true, if_pos rfl]
            split_ifs <;> ring

/-! ## §4  A new command -/

/-- A step that has not been counted has just risen. -/
def JustRisen (s : StepGen) : Prop := Pending s → s.counter = 0

theorem justRisen_posedge (i : StepGenIn) (s : StepGen) : JustRisen (s.posedge i) := by
  rintro ⟨hup, hlow⟩
  obtain ⟨j, hj, hen, hlt⟩ := clock_rising (i := some i) hlow hup
  obtain rfl := Option.some.inj hj
  exact (posedge_of_lt hen hlt).1

theorem phase_nonneg (i : StepGenIn) (s : StepGen) : 0 ≤ phase i s := by
  unfold phase
  split_ifs
  · positivity
  · exact le_rfl

theorem phase_le_one (i : StepGenIn) (s : StepGen) : phase i s ≤ 1 := by
  unfold phase
  split_ifs
  · rw [div_le_one (by positivity)]
    have hmin : min s.counter.toNat (i.period.toNat + 1) ≤ i.period.toNat + 2 := by omega
    exact_mod_cast hmin
  · exact zero_le_one

/-- With a step not counted, `ahead` is one edge or two, whichever way. -/
theorem ahead_of_pending {s : StepGen} (hs : JustRisen s) (hpending : Pending s) (i : StepGenIn) :
    ahead i s = sign i * if i.en then 1 else 2 := by
  have hzero : phase i s = 0 := by
    unfold phase
    rw [hs hpending]
    split_ifs <;> simp
  unfold ahead
  rw [if_pos hpending, hzero, if_pos hpending.1]
  split_ifs <;> norm_num

/-- Otherwise it is less than an edge. -/
theorem ahead_of_counted {s : StepGen} (hcounted : ¬ Pending s) (i : StepGenIn) :
    |ahead i s| ≤ 1 := by
  have hlow := phase_nonneg i s
  have hhigh := phase_le_one i s
  unfold ahead
  rw [if_neg hcounted, abs_le]
  rcases sign_cases i with hsign | hsign
  · rw [hsign]
    split_ifs <;> constructor <;> linarith
  · rw [hsign]
    split_ifs <;> constructor <;> linarith

theorem abs_ahead_le {s : StepGen} (hs : JustRisen s) (i : StepGenIn) : |ahead i s| ≤ 2 := by
  by_cases hpending : Pending s
  · rw [ahead_of_pending hs hpending, abs_le]
    rcases sign_cases i with hsign | hsign
    · rw [hsign]
      split_ifs <;> norm_num
    · rw [hsign]
      split_ifs <;> norm_num
  · exact (ahead_of_counted hpending i).trans (by norm_num)

/-- **A new command** after a clock moves `ahead` by at most three edges. -/
theorem ahead_of_command (i j : StepGenIn) (s : StepGen) :
    |ahead j (s.posedge i) - ahead i (s.posedge i)| ≤ 3 := by
  have hs := justRisen_posedge i s
  by_cases hpending : Pending (s.posedge i)
  · -- the step has risen under the old command, and counts for one edge there
    have hen : i.en = true := by
      refine Bool.eq_true_of_not_eq_false fun hen => ?_
      exact not_pending_of_disabled hen s hpending
    have hold : |ahead i (s.posedge i)| ≤ 1 := by
      rw [ahead_of_pending hs hpending, hen, if_pos rfl, mul_one]
      rcases sign_cases i with hsign | hsign <;> rw [hsign] <;> norm_num
    have hnew := abs_ahead_le hs j
    exact (abs_sub _ _).trans ((add_le_add hnew hold).trans (by norm_num))
  · have hold := ahead_of_counted hpending i
    have hnew := ahead_of_counted hpending j
    exact (abs_sub _ _).trans ((add_le_add hnew hold).trans (by norm_num))

/-! ## §5  Any number of clocks -/

section Run

variable (s : StepGen) (sched : ℕ → StepGenIn)

/-- What `n` clocks add to the location. -/
def moved (n : ℕ) : ℤ := ∑ t ∈ Finset.range n, move (sched t) (stateAt posedge s sched t)

/-- The edges the inputs have asked for. -/
def asked (n : ℕ) : ℚ := ∑ t ∈ Finset.range n, rate (sched t)

/-- The clocks with another command behind them. -/
def commands (n : ℕ) : ℕ := Nat.count (fun t => sched (t + 1) ≠ sched t) n

theorem location_stateAt (n : ℕ) :
    (stateAt posedge s sched n).location = s.location + BitVec.ofInt 32 (moved s sched n) := by
  induction n with
  | zero => exact (BitVec.add_zero _).symm
  | succ n ih =>
      have hmoved : moved s sched (n + 1) =
          moved s sched n + move (sched n) (stateAt posedge s sched n) :=
        Finset.sum_range_succ _ n
      rw [stateAt_succ, location_posedge, ih, hmoved, BitVec.ofInt_add, ← BitVec.add_assoc]

/-- The balance of any number of clocks, up to the new commands. -/
theorem balance_run (n : ℕ) :
    |2 * (moved s sched n : ℚ) + ahead (sched n) (stateAt posedge s sched n) -
      ahead (sched 0) s - asked sched n| ≤ 3 * commands sched n := by
  induction n with
  | zero => simp [moved, asked, commands]
  | succ n ih =>
      have hmoved : moved s sched (n + 1) =
          moved s sched n + move (sched n) (stateAt posedge s sched n) :=
        Finset.sum_range_succ _ n
      have hasked : asked sched (n + 1) = asked sched n + rate (sched n) :=
        Finset.sum_range_succ _ n
      have hclock : 2 * (move (sched n) (stateAt posedge s sched n) : ℚ) +
          ahead (sched n) (stateAt posedge s sched (n + 1)) =
            ahead (sched n) (stateAt posedge s sched n) + rate (sched n) := balance _ _
      have hcommand : |ahead (sched (n + 1)) (stateAt posedge s sched (n + 1)) -
          ahead (sched n) (stateAt posedge s sched (n + 1))| ≤
            if sched (n + 1) ≠ sched n then 3 else 0 := by
        split_ifs with hnew
        · exact ahead_of_command (sched n) (sched (n + 1)) (stateAt posedge s sched n)
        · rw [not_not.mp hnew, sub_self, abs_zero]
      have hcount : (3 * commands sched (n + 1) : ℚ) =
          3 * commands sched n + if sched (n + 1) ≠ sched n then 3 else 0 := by
        rw [show commands sched (n + 1) = commands sched n + _ from Nat.count_succ _ _]
        push_cast
        split_ifs <;> ring
      rw [hcount]
      refine le_trans (le_of_eq ?_) ((abs_add_le _ _).trans (add_le_add ih hcommand))
      congr 1
      rw [hmoved, hasked, Int.cast_add]
      linarith

/-- **Location follows the commanded rate.** From a state in which a step that
has not been counted has just risen, as after any clock: in `n` clocks the
location has moved by half the edges the inputs have asked for, to within two
steps, and a step and a half more for each new command. -/
theorem location_follows_rate {s : StepGen} (hs : JustRisen s) (n : ℕ) :
    (stateAt posedge s sched n).location = s.location + BitVec.ofInt 32 (moved s sched n) ∧
      |2 * (moved s sched n : ℚ) - asked sched n| ≤ 4 + 3 * commands sched n := by
  refine ⟨location_stateAt s sched n, ?_⟩
  have hend : JustRisen (stateAt posedge s sched n) := by
    cases n with
    | zero => exact hs
    | succ n => exact justRisen_posedge _ _
  have hbalance := abs_le.mp (balance_run s sched n)
  have hfirst := abs_le.mp (abs_ahead_le hs (sched 0))
  have hlast := abs_le.mp (abs_ahead_le hend (sched n))
  rw [abs_le]
  constructor <;> linarith

end Run

end FpgaCnc.StepGen

namespace FpgaCnc.CncModule

open Clocked

/-- The commands of axis `i`, clock by clock. -/
def axisInputs (s : CncModule) (sched : ℕ → CncIn) (i : Fin 5) (t : ℕ) : StepGenIn :=
  (stateAt posedge s sched t).sgIn i

theorem justRisen_stateAt (s : CncModule) (sched : ℕ → CncIn) (i : Fin 5) (t : ℕ) :
    StepGen.JustRisen ((stateAt posedge s.reset sched t).sg i) := by
  cases t with
  | zero =>
      show StepGen.JustRisen (s.reset.sg i)
      rw [sg_reset]
      exact fun h => absurd h.1 Bool.false_ne_true
  | succ t =>
      rw [stateAt_succ, sg_posedge]
      exact StepGen.justRisen_posedge _ _

/-- A stretch of a run from reset is one of the axis' generator. -/
theorem location_stretch (s : CncModule) (sched : ℕ → CncIn) (i : Fin 5) (t n : ℕ) :
    ∃ d : ℤ,
      ((stateAt posedge s.reset sched (t + n)).sg i).location =
        ((stateAt posedge s.reset sched t).sg i).location + BitVec.ofInt 32 d ∧
      |2 * (d : ℚ) - StepGen.asked (fun k => axisInputs s.reset sched i (t + k)) n| ≤
        4 + 3 * StepGen.commands (fun k => axisInputs s.reset sched i (t + k)) n := by
  obtain ⟨hlocation, hbound⟩ := StepGen.location_follows_rate
    (fun k => axisInputs s.reset sched i (t + k)) (justRisen_stateAt s sched i t) n
  refine ⟨_, ?_, hbound⟩
  have hinputs : (fun k => (stateAt posedge (stateAt posedge s.reset sched t)
      (fun j => sched (t + j)) k).sgIn i) = fun k => axisInputs s.reset sched i (t + k) := by
    funext k
    rw [axisInputs, stateAt_add]
  rw [stateAt_add, sg_stateAt, hinputs, hlocation]

/-- **The odometer of an axis.** Whatever the bus does, and over whatever clocks
of a run from reset: the location register moves by half the edges that the
registers of the axis have asked for meanwhile (`1 / (period + 2)` a clock with
the sign of the direction, while it is enabled), to within two steps, and a step
and a half more for each time these registers have changed. -/
theorem odometer (s : CncModule) (sched : ℕ → CncIn) (i : Fin 5) (t n : ℕ) :
    ∃ d : ℤ,
      ((stateAt posedge s.reset sched (t + n)).sg i).location =
        ((stateAt posedge s.reset sched t).sg i).location + BitVec.ofInt 32 d ∧
      |2 * (d : ℚ) - ∑ k ∈ Finset.range n, StepGen.rate (axisInputs s.reset sched i (t + k))| ≤
        4 + 3 * Nat.count (fun k => axisInputs s.reset sched i (t + k + 1) ≠
          axisInputs s.reset sched i (t + k)) n := by
  exact location_stretch s sched i t n

end FpgaCnc.CncModule
