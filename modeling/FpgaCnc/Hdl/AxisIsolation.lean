import FpgaCnc.Hdl.Watchdog

/-!
# Isolation of the axes

Two runs of the module that treat one axis alike look alike on that axis,
whatever they do to everything else. The axes share register 5, the bus and
the clock; what an axis takes from them is its own period word and its own two
bits of register 5.

§1 what a clock gives an axis · §2 one step generator in two runs · §3 one
axis in two runs.
-/

namespace FpgaCnc

open Clocked

/-! ## §1  What a clock gives an axis -/

namespace CncIn

/-- The period word a clock writes for axis `i`, if it does. -/
def periodWrite (b : CncIn) (i : Fin 5) : Option (BitVec 32) :=
  b.busWrite.bind fun x => if x.1.toNat = i then some x.2 else none

/-- The direction and enable bits a clock writes for axis `i`, if it does: bits
`i` and `5 + i` of a write to register 5. -/
def dirEnWrite (b : CncIn) (i : Fin 5) : Option (Bool × Bool) :=
  b.busWrite.bind fun x =>
    if x.1.toNat = 5 then some (x.2.getLsbD i, x.2.getLsbD (5 + i)) else none

/-- Two clocks treat axis `i` alike. -/
structure AlikeFor (i : Fin 5) (b b' : CncIn) : Prop where
  period : b.periodWrite i = b'.periodWrite i
  dirEn : b.dirEnWrite i = b'.dirEnWrite i

end CncIn

namespace CncModule

/-- A clock sets the wires of an axis from what it writes for that axis, and
from nothing else. -/
theorem sgIn_posedge (b : CncIn) (s : CncModule) (i : Fin 5) :
    (s.posedge b).sgIn i =
      { period := (b.periodWrite i).getD (s.sgIn i).period
        dirIn := ((b.dirEnWrite i).map Prod.fst).getD (s.sgIn i).dirIn
        en := ((b.dirEnWrite i).map Prod.snd).getD (s.sgIn i).en } := by
  rw [sgIn, ctl_posedge, CncIn.periodWrite, CncIn.dirEnWrite]
  rcases b.busWrite with _ | ⟨a, d⟩
  · rfl
  · show StepGenIn.mk ((s.ctl.write a d).sgPer i) ((s.ctl.write a d).sgDir i)
      ((s.ctl.write a d).sgEn i) = _
    rw [CtlRegs.sgPer_write, CtlRegs.sgDir_write, CtlRegs.sgEn_write, Option.bind_some,
      Option.bind_some]
    congr 1
    · split_ifs <;> rfl
    · split_ifs <;> rfl
    · split_ifs <;> rfl

end CncModule

/-! ## §2  One step generator in two runs -/

namespace StepGen

/-- Two generators that cannot be told apart: the edge memory, which has no
reset, counts only while the output is high. -/
structure Alike (s s' : StepGen) : Prop where
  counter : s.counter = s'.counter
  stepOut : s.stepOut = s'.stepOut
  location : s.location = s'.location
  lastStepOut : s.stepOut = true → s.lastStepOut = s'.lastStepOut

theorem alike_reset (s s' : StepGen) : Alike s.reset s'.reset where
  counter := rfl
  stepOut := rfl
  location := rfl
  lastStepOut h := absurd h Bool.false_ne_true

theorem Alike.posedge {s s' : StepGen} (h : Alike s s') (i : StepGenIn) :
    Alike (s.posedge i) (s'.posedge i) where
  counter := by rw [StepGen.posedge, StepGen.posedge, h.counter]
  stepOut := by rw [StepGen.posedge, StepGen.posedge, h.counter, h.stepOut]
  location := by
    have hpulse : (s.stepOut = true ∧ s.lastStepOut = false) ↔
        (s'.stepOut = true ∧ s'.lastStepOut = false) := by
      constructor
      · rintro ⟨hout, hlast⟩
        exact ⟨h.stepOut ▸ hout, h.lastStepOut hout ▸ hlast⟩
      · rintro ⟨hout, hlast⟩
        have hout' : s.stepOut = true := h.stepOut ▸ hout
        exact ⟨hout', (h.lastStepOut hout').trans hlast⟩
    rw [StepGen.posedge, StepGen.posedge, h.location]
    exact if_congr hpulse rfl rfl
  lastStepOut _ := h.stepOut

end StepGen

/-! ## §3  One axis in two runs -/

namespace CncModule

/-- Two states of the module that are alike on axis `i`. -/
structure AlikeOn (i : Fin 5) (s s' : CncModule) : Prop where
  sgIn : s.sgIn i = s'.sgIn i
  sg : StepGen.Alike (s.sg i) (s'.sg i)

theorem alikeOn_reset (i : Fin 5) (s s' : CncModule) : AlikeOn i s.reset s'.reset where
  sgIn := by fin_cases i <;> rfl
  sg := by
    rw [sg_reset, sg_reset]
    exact StepGen.alike_reset _ _

theorem AlikeOn.posedge {i : Fin 5} {s s' : CncModule} (h : AlikeOn i s s') {b b' : CncIn}
    (hb : b.AlikeFor i b') : AlikeOn i (s.posedge b) (s'.posedge b') where
  sgIn := by rw [sgIn_posedge, sgIn_posedge, hb.period, hb.dirEn, h.sgIn]
  sg := by
    rw [sg_posedge, sg_posedge, h.sgIn]
    exact h.sg.posedge _

/-- **An axis depends on its own words only.** Two runs from reset, from
whatever power-up states, that treat axis `i` alike on their first `T` clocks
have equal step outputs, direction outputs and locations of that axis on all of
them. -/
theorem axis_isolated (i : Fin 5) (s s' : CncModule) (sched sched' : ℕ → CncIn) (T : ℕ)
    (halike : ∀ t < T, (sched t).AlikeFor i (sched' t)) :
    ∀ t ≤ T,
      (stateAt posedge s.reset sched t).osteps i = (stateAt posedge s'.reset sched' t).osteps i ∧
      (stateAt posedge s.reset sched t).odirs i = (stateAt posedge s'.reset sched' t).odirs i ∧
      ((stateAt posedge s.reset sched t).sg i).location =
        ((stateAt posedge s'.reset sched' t).sg i).location := by
  intro t ht
  have hrel : AlikeOn i (stateAt posedge s.reset sched t) (stateAt posedge s'.reset sched' t) :=
    stateAt_related (alikeOn_reset i s s') (fun t ht _ _ h => h.posedge (halike t ht)) t ht
  exact ⟨hrel.sg.stepOut, congrArg StepGen.dirOut hrel.sgIn, hrel.sg.location⟩

/-- Axis 1 is enabled, forward, in the one run alone and in the other together
with all axes, with other traffic around it. -/
def quietRun (t : ℕ) : CncIn := if t = 3 then CncIn.writeTo 5 0x42 else CncIn.idle

def busyRun (t : ℕ) : CncIn :=
  if t = 3 then CncIn.writeTo 5 0xFFFFFFFE else CncIn.writeTo (BitVec.ofNat 6 (2 + t % 2)) 7

theorem alikeFor_quiet_busy (t : ℕ) : (quietRun t).AlikeFor 1 (busyRun t) := by
  unfold quietRun busyRun
  by_cases h3 : t = 3
  · rw [if_pos h3, if_pos h3]
    exact ⟨by decide, by decide⟩
  · rw [if_neg h3, if_neg h3]
    rcases Nat.mod_two_eq_zero_or_one t with h | h
    · rw [h]
      exact ⟨by decide, by decide⟩
    · rw [h]
      exact ⟨by decide, by decide⟩

theorem axis_isolated_of_busy :
    (stateAt posedge powerUp.reset quietRun 1000).osteps 1 =
        (stateAt posedge powerUp.reset busyRun 1000).osteps 1 ∧
      (stateAt posedge powerUp.reset quietRun 1000).odirs 1 =
        (stateAt posedge powerUp.reset busyRun 1000).odirs 1 ∧
      ((stateAt posedge powerUp.reset quietRun 1000).sg 1).location =
        ((stateAt posedge powerUp.reset busyRun 1000).sg 1).location :=
  axis_isolated 1 powerUp powerUp quietRun busyRun 1000 (fun t _ => alikeFor_quiet_busy t) 1000
    le_rfl

end CncModule

end FpgaCnc
