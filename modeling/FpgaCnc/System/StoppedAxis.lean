import FpgaCnc.System.CommandStream

/-!
# A stopped axis

Speed zero is a period word. In the deadband `do_work` divides by zero, the
quotient converts to `0x80000000`, and the step generator goes on counting
toward it. Repeating the command writes the same word again and does not touch
the counter: after `2^31 + 2` clocks, 43 seconds, the output is inverted.

§1 the stop frame · §2 the axis under stop frames · §3 when it moves.
-/

namespace FpgaCnc

open Clocked
open CncModule (writesBefore)

/-! ## §1  The stop frame -/

/-- `b` is a command frame that leaves axis `i` enabled, in the deadband. -/
def StopFrame (ub : FVal → BitVec 32) (i : Fin 5) (b : Buffer) : Prop :=
  ∃ (c : De2.CompState) (buf : Buffer), De2.CmdBuf buf ∧ |(c.sg i).velocityCmd| < 1 / 100 ∧
    0 < (c.sg i).scale ∧ (c.sg i).enable = true ∧ b = De2.encode (De2.words ub c) c buf

/-- **The stop word** is the conversion of `+infinity`. -/
theorem De2.per_of_deadband (ub : FVal → BitVec 32) {p : De2.AxisPins}
    (hv : |p.velocityCmd| < 1 / 100) (hscale : 0 < p.scale) : De2.per ub p = ub .posInf := by
  rw [De2.per, De2.perValue_of_deadband hv hscale, toInt_posInf]

/-- What a stop frame tells its axis. -/
theorem StopFrame.axis {ub : FVal → BitVec 32} {i : Fin 5} {b : Buffer}
    (h : StopFrame ub i b) : (CtlRegs.ofFrame b).axis i = ⟨ub .posInf, false, true⟩ := by
  obtain ⟨c, buf, hbuf, hv, hscale, hen, rfl⟩ := h
  have hholds := CtlRegs.ofFrame_holds (De2.words ub c) c hbuf
  have hslow : ¬ 1 / 100 ≤ (c.sg i).velocityCmd :=
    not_le.mpr (lt_of_le_of_lt (le_abs_self _) hv)
  rw [CtlRegs.axis, hholds.per, hholds.dir, hholds.en, De2.words_per,
    De2.per_of_deadband ub hv hscale, hen, decide_eq_false hslow]

/-! ## §2  The axis under stop frames -/

section Stopped

variable {ub : FVal → BitVec 32} {i : Fin 5} {first : Buffer} {frames : ℕ → Buffer}
  {bs : List CncIn} {sched : ℕ → CncIn}

/-- While stop frames keep coming the registers of the axis do not change. -/
theorem axis_of_stopFrames (hfirst : StopFrame ub i first) (hstop : ∀ k, StopFrame ub i (frames k))
    (s₀ : CncModule) (hbs : CncModule.writesOf bs = frameWrites first)
    (hissues : Issues sched frames) (t : ℕ) :
    (stateAt CncModule.posedge (run CncModule.posedge s₀ bs) sched t).ctl.axis i =
      ⟨ub .posInf, false, true⟩ := by
  have hcmd : ∀ k, cmd (run CncModule.posedge s₀ bs).ctl frames i k = ⟨ub .posInf, false, true⟩ := by
    rintro (_ | k)
    · rw [cmd, CncModule.ctl_run, hbs, CtlRegs.writes_frameWrites, hfirst.axis]
    · exact (hstop k).axis
  rw [hissues.axis, hcmd, hcmd]

/-- The generator then is a counter with the stop word as its top. -/
theorem toggles_of_stopFrames (hub : ub .posInf = 0x80000000#32)
    (hfirst : StopFrame ub i first) (hstop : ∀ k, StopFrame ub i (frames k))
    (s₀ : CncModule) (hbs : CncModule.writesOf bs = frameWrites first)
    (hissues : Issues sched frames) :
    CompareCounter.Toggles 0x80000000#32
      (fun t => ((stateAt CncModule.posedge (run CncModule.posedge s₀ bs) sched t).sg i).counter)
      ((run CncModule.posedge s₀ bs).stepSignal sched i) := by
  have haxis := axis_of_stopFrames hfirst hstop s₀ hbs hissues
  refine CncModule.toggles (by decide) (fun t => ?_) (fun t => ?_)
  · exact congrArg AxisCommand.en (haxis t)
  · exact (congrArg AxisCommand.per (haxis t)).trans hub

end Stopped

/-! ## §3  When it moves -/

/-- **How long a stopped axis stands still.** After the registers of the first
stop frame have been written, whatever was before and while stop frames keep
coming, the run of `T` clocks has no rising edge exactly if `T` is less than
what the counter still needs to pass the stop word, with one more half period
if the output is high. -/
theorem stopped_axis_still_iff (ub : FVal → BitVec 32) (hub : ub .posInf = 0x80000000#32)
    (i : Fin 5) (first : Buffer) (hfirst : StopFrame ub i first) (frames : ℕ → Buffer)
    (hstop : ∀ k, StopFrame ub i (frames k)) (s₀ : CncModule) (bs : List CncIn)
    (hbs : CncModule.writesOf bs = frameWrites first) (sched : ℕ → CncIn)
    (hissues : Issues sched frames) (T : ℕ) :
    (∀ t ≤ T, ¬ Rises ((run CncModule.posedge s₀ bs).stepSignal sched i) t) ↔
      T < CompareCounter.clocksToRise (2 ^ 31)
        ((run CncModule.posedge s₀ bs).sg i).counter.toNat
        ((run CncModule.posedge s₀ bs).osteps i) :=
  (toggles_of_stopFrames hub hfirst hstop s₀ hbs hissues).no_rise_iff T

/-- Axis 0 enabled and commanded to stand still. -/
def haltPins : De2.CompState := { samplePins with sg0 := ⟨.fin 0, 0, true, 4000⟩ }

/-- On a host that converts `+infinity` to `0x80000000`. -/
def x86 (_ : FVal) : BitVec 32 := 0x80000000

def haltFrame : Buffer :=
  De2.encode (De2.words x86 haltPins) haltPins (De2.initBuf fun _ => 0)

theorem stopFrame_haltFrame : StopFrame x86 0 haltFrame := by
  refine ⟨haltPins, _, .init _, ?_, ?_, rfl, rfl⟩
  · show |(0 : ℚ)| < 1 / 100
    norm_num
  · show (0 : ℚ) < 4000
    norm_num

/-- A frame every millisecond, its writes back to back. -/
def paced (frames : ℕ → Buffer) (t : ℕ) : CncIn :=
  if t % 50000 < 9 then
    let w := nthWrite frames (9 * (t / 50000) + t % 50000)
    CncIn.writeTo w.1 w.2
  else CncIn.idle

theorem writesBefore_paced (frames : ℕ → Buffer) (t : ℕ) :
    writesBefore (paced frames) t =
      (List.range (9 * (t / 50000) + min 9 (t % 50000))).map (nthWrite frames) := by
  induction t with
  | zero => rfl
  | succ t ih =>
      unfold writesBefore at ih ⊢
      rw [List.range_succ, List.map_append, CncModule.writesOf_append, ih, List.map_singleton, paced]
      by_cases h : t % 50000 < 9
      · have hlen : 9 * ((t + 1) / 50000) + min 9 ((t + 1) % 50000) =
            9 * (t / 50000) + t % 50000 + 1 := by omega
        rw [if_pos h, hlen, List.range_succ, List.map_append, Nat.min_eq_right (by omega)]
        rfl
      · have hlen : 9 * ((t + 1) / 50000) + min 9 ((t + 1) % 50000) =
            9 * (t / 50000) + min 9 (t % 50000) := by omega
        rw [if_neg h, hlen]
        exact List.append_nil _

theorem issues_paced (frames : ℕ → Buffer) : Issues (paced frames) frames := by
  intro t
  rw [writesBefore_paced, List.length_map, List.length_range]

/-- The nine writes of the first stop frame, from reset. -/
def halted : CncModule :=
  run CncModule.posedge CncModule.powerUp.reset
    ((frameWrites haltFrame).map fun x => CncIn.writeTo x.1 x.2)

/-- For a second the axis does stand still. -/
theorem stopped_axis_still_second :
    (halted.sg 0).counter.toNat = 3 ∧ halted.osteps 0 = false ∧
      ∀ t ≤ 50000000, ¬ Rises (halted.stepSignal (paced fun _ => haltFrame) 0) t := by
  have hcounter : (halted.sg 0).counter.toNat = 3 := by decide +kernel
  have hlow : halted.osteps 0 = false := by decide +kernel
  refine ⟨hcounter, hlow, ?_⟩
  refine (stopped_axis_still_iff x86 rfl 0 haltFrame stopFrame_haltFrame _
    (fun _ => stopFrame_haltFrame) CncModule.powerUp.reset _
    (CncModule.writesOf_map_writeTo (frameWrites haltFrame)) _ (issues_paced _) 50000000).mpr ?_
  rw [← halted, hcounter, hlow]
  decide

/-- **The stopped axis moves**, with a stop frame every millisecond. -/
theorem stopped_axis_moves :
    StopFrame x86 0 haltFrame ∧ Issues (paced fun _ => haltFrame) (fun _ => haltFrame) ∧
      ∃ t, Rises (halted.stepSignal (paced fun _ => haltFrame) 0) t := by
  have htog := toggles_of_stopFrames rfl stopFrame_haltFrame (fun _ => stopFrame_haltFrame)
    CncModule.powerUp.reset (CncModule.writesOf_map_writeTo (frameWrites haltFrame))
    (issues_paced fun _ => haltFrame)
  exact ⟨stopFrame_haltFrame, issues_paced _, _, htog.first_rise.1⟩

end FpgaCnc
