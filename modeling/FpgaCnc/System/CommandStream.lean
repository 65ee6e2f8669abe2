import FpgaCnc.Hdl.RegisterFile
import FpgaCnc.System.CommandPath
import FpgaCnc.System.StepRate

/-!
# Streams of command frames

The register file of `cnc_module` while frame after frame is applied, nine
writes each, with any other clocks in between. There is no shadow register: a
period register changes with its own write, the direction and enable bits with
the write of address 5, and an axis runs on whatever is there.

§1 the writes of a stream · §2 the registers after some writes · §3 what is in
force at a clock · §4 a step under two commands.
-/

namespace FpgaCnc

open Clocked
open CncModule (writesBefore)

/-! ## §1  The writes of a stream -/

/-- Write number `n` of a stream of frames. -/
def nthWrite (frames : ℕ → Buffer) (n : ℕ) : BitVec 6 × BitVec 32 :=
  (BitVec.ofNat 6 (n % 9), (frames (n / 9)).loadLe32 (14 + 4 * (n % 9)))

/-- Nine writes a frame, in the handler's order. -/
theorem map_nthWrite (frames : ℕ → Buffer) (m : ℕ) :
    (List.range (9 * m)).map (nthWrite frames) =
      (List.range m).flatMap fun k => frameWrites (frames k) := by
  induction m with
  | zero => rfl
  | succ m ih =>
      rw [List.range_succ, List.flatMap_append, ← ih, Nat.mul_succ, List.range_add,
        List.map_append, List.flatMap_singleton]
      congr 1
      rw [List.map_map, frameWrites, busWrites, HelloLed.regWrites, List.map_map]
      apply List.map_congr_left
      intro k hk
      have hk9 := List.mem_range.mp hk
      simp only [Function.comp_apply, nthWrite]
      rw [Nat.mul_add_mod, Nat.mod_eq_of_lt hk9, Nat.mul_add_div (by decide),
        Nat.div_eq_of_lt hk9, Nat.add_zero]

/-- The register writes of the frames, in order, are all the schedule writes. -/
def Issues (sched : ℕ → CncIn) (frames : ℕ → Buffer) : Prop :=
  ∀ t, writesBefore sched t =
    (List.range (writesBefore sched t).length).map (nthWrite frames)

/-- A finite list of clocks, then nothing. -/
def padded (bs : List CncIn) (t : ℕ) : CncIn := bs.getD t CncIn.idle

theorem writesBefore_padded (bs : List CncIn) (t : ℕ) :
    writesBefore (padded bs) t = CncModule.writesOf (bs.take t) := by
  induction t with
  | zero => rfl
  | succ t ih =>
      unfold writesBefore at ih ⊢
      rw [List.range_succ, List.map_append, CncModule.writesOf_append, ih]
      rcases Nat.lt_or_ge t bs.length with hlt | hge
      · rw [List.take_add_one, List.getElem?_eq_getElem hlt, CncModule.writesOf_append,
          List.map_singleton, padded, List.getD_eq_getElem _ _ hlt]
        rfl
      · rw [List.take_of_length_le hge, List.take_of_length_le (Nat.le_succ_of_le hge),
          List.map_singleton, padded, List.getD_eq_default _ _ hge]
        exact List.append_nil _

/-- A list whose writes are the first `n` of a stream. -/
theorem issues_padded {bs : List CncIn} {frames : ℕ → Buffer} {n : ℕ}
    (h : CncModule.writesOf bs = (List.range n).map (nthWrite frames)) :
    Issues (padded bs) frames := by
  intro t
  rw [writesBefore_padded]
  have hprefix : CncModule.writesOf (bs.take t) <+: CncModule.writesOf bs := by
    conv_rhs => rw [← List.take_append_drop t bs]
    rw [CncModule.writesOf_append]
    exact List.prefix_append _ _
  rw [h] at hprefix
  have htake := List.prefix_iff_eq_take.mp hprefix
  have hle := hprefix.length_le
  rw [List.length_map, List.length_range] at hle
  rw [← List.map_take, List.take_range, Nat.min_eq_left hle] at htake
  exact htake

/-! ## §2  The registers after some writes -/

/-- Period, direction and enable of one axis. -/
structure AxisCommand where
  per : BitVec 32
  dir : Bool
  en : Bool
deriving DecidableEq, Repr

/-- What the register file tells axis `i`. -/
def CtlRegs.axis (r : CtlRegs) (i : Fin 5) : AxisCommand := ⟨r.sgPer i, r.sgDir i, r.sgEn i⟩

/-- The commands of a stream to axis `i`: the register file before it, then
what each frame says. -/
def cmd (r : CtlRegs) (frames : ℕ → Buffer) (i : Fin 5) : ℕ → AxisCommand
  | 0 => r.axis i
  | k + 1 => (CtlRegs.ofFrame (frames k)).axis i

/-- What one write of the stream changes for axis `i`: its period at its own
address, direction and enable at address 5. -/
theorem axis_nthWrite (r : CtlRegs) (frames : ℕ → Buffer) (i : Fin 5) (n : ℕ) :
    (r.write (nthWrite frames n).1 (nthWrite frames n).2).axis i =
      if n % 9 = i then
        { r.axis i with per := ((CtlRegs.ofFrame (frames (n / 9))).axis i).per }
      else if n % 9 = 5 then
        { (CtlRegs.ofFrame (frames (n / 9))).axis i with per := (r.axis i).per }
      else r.axis i := by
  have hi := i.isLt
  have haddr : (BitVec.ofNat 6 (n % 9)).toNat = n % 9 := by
    rw [BitVec.toNat_ofNat]
    omega
  unfold CtlRegs.axis
  rw [CtlRegs.sgPer_write, CtlRegs.sgDir_write, CtlRegs.sgEn_write, CtlRegs.sgPer_ofFrame,
    CtlRegs.sgDir_ofFrame, CtlRegs.sgEn_ofFrame, nthWrite, haddr]
  by_cases hown : n % 9 = i
  · rw [if_pos hown, if_pos hown, if_neg (by omega), if_neg (by omega), hown]
  · rw [if_neg hown, if_neg hown]
    by_cases h5 : n % 9 = 5
    · rw [if_pos h5, if_pos h5, if_pos h5, h5]
    · rw [if_neg h5, if_neg h5, if_neg h5]

/-- **After `n` writes** axis `i` has the period of frame `(n + 8 - i) / 9` and
the direction and enable bits of frame `(n + 3) / 9`. -/
theorem axis_writes (r : CtlRegs) (frames : ℕ → Buffer) (i : Fin 5) (n : ℕ) :
    (r.writes ((List.range n).map (nthWrite frames))).axis i =
      { cmd r frames i ((n + 3) / 9) with per := (cmd r frames i ((n + 8 - i) / 9)).per } := by
  have hi := i.isLt
  induction n with
  | zero =>
      rw [show (0 + 8 - i.val) / 9 = 0 by omega]
      rfl
  | succ n ih =>
      rw [List.range_succ, List.map_append, CtlRegs.writes_append, List.map_singleton,
        CtlRegs.writes_cons, CtlRegs.writes_nil, axis_nthWrite, ih]
      -- write `n` is to the period of the axis, to address 5, or to neither
      by_cases hown : n % 9 = i
      · rw [if_pos hown, show (n + 1 + 8 - i.val) / 9 = n / 9 + 1 by omega,
          show (n + 1 + 3) / 9 = (n + 3) / 9 by omega]
        rfl
      · rw [if_neg hown, show (n + 1 + 8 - i.val) / 9 = (n + 8 - i.val) / 9 by omega]
        by_cases h5 : n % 9 = 5
        · rw [if_pos h5, show (n + 1 + 3) / 9 = n / 9 + 1 by omega]
          rfl
        · rw [if_neg h5, show (n + 1 + 3) / 9 = (n + 3) / 9 by omega]

/-! ## §3  What is in force at a clock -/

/-- The register file of a run is that of its stream, as far as it got. -/
theorem Issues.axis {sched : ℕ → CncIn} {frames : ℕ → Buffer} (h : Issues sched frames)
    (s : CncModule) (i : Fin 5) (t : ℕ) :
    (stateAt CncModule.posedge s sched t).ctl.axis i =
      { cmd s.ctl frames i (((writesBefore sched t).length + 3) / 9) with
        per := (cmd s.ctl frames i (((writesBefore sched t).length + 8 - i) / 9)).per } := by
  rw [stateAt_eq_run, CncModule.ctl_run, ← writesBefore, h t, List.length_map,
    List.length_range, axis_writes]

/-- Between the write of the period of axis `i` and the write of address 5 of
the same frame. -/
def Torn (i : Fin 5) (n : ℕ) : Prop := i < n % 9 ∧ n % 9 ≤ 5

instance (i : Fin 5) (n : ℕ) : Decidable (Torn i n) := inferInstanceAs (Decidable (_ ∧ _))

/-- **Commands take effect in two steps.** At every clock of every run, after
`n` register writes: outside the window between the write of its period
register and the write of address 5, an axis is under one command, that of the
last frame that has written its period (or the reset values); inside the
window it has the new period and the direction and enable of the frame
before. -/
theorem command_in_force {sched : ℕ → CncIn} {frames : ℕ → Buffer}
    (h : Issues sched frames) (s : CncModule) (i : Fin 5) (t : ℕ) :
    (¬ Torn i (writesBefore sched t).length →
      (stateAt CncModule.posedge s.reset sched t).ctl.axis i =
        cmd s.reset.ctl frames i (((writesBefore sched t).length + 8 - i) / 9)) ∧
    (Torn i (writesBefore sched t).length →
      (stateAt CncModule.posedge s.reset sched t).ctl.axis i =
        { cmd s.reset.ctl frames i ((writesBefore sched t).length / 9) with
          per := (cmd s.reset.ctl frames i ((writesBefore sched t).length / 9 + 1)).per }) := by
  have hi := i.isLt
  rw [h.axis s.reset i t]
  generalize (writesBefore sched t).length = n
  unfold Torn
  constructor
  · intro hwhole
    rw [show (n + 3) / 9 = (n + 8 - i.val) / 9 by omega]
  · rintro ⟨hlow, hhigh⟩
    rw [show (n + 3) / 9 = n / 9 by omega, show (n + 8 - i.val) / 9 = n / 9 + 1 by omega]

/-! ## §4  A step under two commands -/

/-- A frame for axis 0 alone. -/
def axisFrame (per dirsEns : BitVec 32) : Buffer :=
  (Buffer.zero.storeLe32 14 per).storeLe32 34 dirsEns

/-- Axis 0 fast and backward, then slow and forward. -/
def reversal : ℕ → Buffer
  | 0 => axisFrame 0 0x20
  | _ + 1 => axisFrame 1 0x21

/-- The writes of the first two frames, with a pause after the tenth. -/
def reversalClocks : List CncIn :=
  ((List.range 10).map fun n => CncIn.writeTo (nthWrite reversal n).1 (nthWrite reversal n).2) ++
    List.replicate 8 CncIn.idle ++
    (List.range 8).map fun n =>
      CncIn.writeTo (nthWrite reversal (10 + n)).1 (nthWrite reversal (10 + n)).2

theorem issues_reversalClocks : Issues (padded reversalClocks) reversal :=
  issues_padded (n := 18) (by decide +kernel)

theorem command_in_force_reversal :
    (stateAt CncModule.posedge CncModule.powerUp.reset (padded reversalClocks) 30).ctl.axis 0 =
      cmd CncModule.powerUp.reset.ctl reversal 0 2 := by
  have hlen : (writesBefore (padded reversalClocks) 30).length = 18 := by decide +kernel
  have h := (command_in_force issues_reversalClocks CncModule.powerUp 0 30).1
  rw [hlen] at h
  exact h (by decide)

/-- **A torn step.** In the pause the axis rises with the period of the second
frame and the direction of the first: no command of the stream says so. -/
theorem torn_step :
    Issues (padded reversalClocks) reversal ∧
      Rises (CncModule.powerUp.reset.stepSignal (padded reversalClocks) 0) 13 ∧
      ∀ k, (stateAt CncModule.posedge CncModule.powerUp.reset (padded reversalClocks) 12).ctl.axis 0 ≠
          cmd CncModule.powerUp.reset.ctl reversal 0 k ∧
        (stateAt CncModule.posedge CncModule.powerUp.reset (padded reversalClocks) 13).ctl.axis 0 ≠
          cmd CncModule.powerUp.reset.ctl reversal 0 k := by
  refine ⟨issues_reversalClocks, by decide +kernel, ?_⟩
  rintro (_ | _ | k)
  · decide +kernel
  · decide +kernel
  · exact (by decide +kernel :
      (stateAt CncModule.posedge CncModule.powerUp.reset (padded reversalClocks) 12).ctl.axis 0 ≠
          cmd CncModule.powerUp.reset.ctl reversal 0 2 ∧
        (stateAt CncModule.posedge CncModule.powerUp.reset (padded reversalClocks) 13).ctl.axis 0 ≠
          cmd CncModule.powerUp.reset.ctl reversal 0 2)

end FpgaCnc
