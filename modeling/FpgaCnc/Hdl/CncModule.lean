import FpgaCnc.Hdl.StepGen
import FpgaCnc.Hdl.PwmGen
import FpgaCnc.Hdl.EncoderX1
import Mathlib.Tactic.FinCases

/-!
# `cnc_module`: register file, step generators, PWM and charge pump

`ip/cnc_modules/cnc_module.v`. The registers written from the bus are grouped
in `CtlRegs`; everything that runs on its own (five step generators, two PWM
generators, two encoders, the watchdog counter and the compare value derived
from it) is a component of `CncModule`.

§1 bus · §2 control registers · §3 module · §4 one clock, part by part ·
§5 the writes of a schedule determine the control registers.
-/

namespace FpgaCnc

open Clocked

/-! ## §1  The bus -/

/-- The Avalon slave signals and the input pins, as sampled at a clock edge. -/
structure CncIn where
  chipselect : Bool
  read : Bool
  write : Bool
  address : BitVec 6
  writedata : BitVec 32
  igpio : BitVec 32
deriving DecidableEq, Repr

/-- What the register process does at a clock: `write` is tested first. -/
inductive Strobe where
  | write
  | read
  | idle
deriving DecidableEq, Repr

namespace CncIn

/-- The `if`/`else if`/`else` chain of the register process. -/
def strobe (b : CncIn) : Strobe :=
  if b.chipselect && b.write then .write
  else if b.chipselect && b.read then .read
  else .idle

/-- The write a clock performs, if any. -/
def busWrite (b : CncIn) : Option (BitVec 6 × BitVec 32) :=
  if b.chipselect && b.write then some (b.address, b.writedata) else none

/-- A clock without any access. -/
def idle : CncIn := ⟨false, false, false, 0, 0, 0⟩

/-- A clock that writes `d` to register `a`. -/
def writeTo (a : BitVec 6) (d : BitVec 32) : CncIn := ⟨true, false, true, a, d, 0⟩

@[simp] theorem strobe_idle : idle.strobe = .idle := rfl

theorem busWrite_eq_none {b : CncIn} : b.busWrite = none ↔ b.strobe ≠ .write := by
  cases hc : b.chipselect <;> cases hw : b.write <;> cases hr : b.read <;>
    simp [busWrite, strobe, hc, hw, hr]

theorem busWrite_of_write {b : CncIn} (h : b.strobe = .write) :
    b.busWrite = some (b.address, b.writedata) := by
  cases hc : b.chipselect <;> cases hw : b.write <;> cases hr : b.read <;>
    simp_all [busWrite, strobe]

end CncIn

/-! ## §2  The control registers -/

/-- The registers a bus write can change. -/
structure CtlRegs where
  sg0Per : BitVec 32
  sg1Per : BitVec 32
  sg2Per : BitVec 32
  sg3Per : BitVec 32
  sg4Per : BitVec 32
  sgDirs : BitVec 5
  sgEns : BitVec 5
  pwmEn : Bool
  spare : BitVec 21
  pwmCounter : BitVec 32
  pwmCapture : BitVec 32
  ogpio : BitVec 32
deriving DecidableEq, Repr

namespace CtlRegs

/-- The reset branch; `pwm_en` and `spare` are not in it, and of the two
assignments to `ogpio` the later one counts. -/
def reset (r : CtlRegs) : CtlRegs :=
  { r with
    sg0Per := 0, sg1Per := 0, sg2Per := 0, sg3Per := 0, sg4Per := 0
    sgEns := 0, sgDirs := 0, ogpio := 0, pwmCounter := 0, pwmCapture := 0 }

/-- The `case (address)` of the write branch. -/
def write (address : BitVec 6) (writedata : BitVec 32) (r : CtlRegs) : CtlRegs :=
  match address.toNat with
  | 0x0 => { r with sg0Per := writedata }
  | 0x1 => { r with sg1Per := writedata }
  | 0x2 => { r with sg2Per := writedata }
  | 0x3 => { r with sg3Per := writedata }
  | 0x4 => { r with sg4Per := writedata }
  | 0x5 =>
      { r with
        sgDirs := writedata.extractLsb' 0 5
        sgEns := writedata.extractLsb' 5 5
        pwmEn := writedata.getLsbD 10
        spare := writedata.extractLsb' 11 21 }
  | 0x6 => { r with pwmCounter := writedata }
  | 0x7 => { r with pwmCapture := writedata }
  | 0x8 => { r with ogpio := writedata }
  | _ => r

/-- Register 5 as a read assembles it. -/
def dirsEnsWord (r : CtlRegs) : BitVec 32 :=
  (r.spare ++ BitVec.ofBool r.pwmEn ++ r.sgEns ++ r.sgDirs).setWidth 32

/-- The period register of axis `i`. -/
def sgPer (r : CtlRegs) : Fin 5 → BitVec 32
  | 0 => r.sg0Per
  | 1 => r.sg1Per
  | 2 => r.sg2Per
  | 3 => r.sg3Per
  | 4 => r.sg4Per

/-- `sg0_dir` .. `sg4_dir`. -/
def sgDir (r : CtlRegs) (i : Fin 5) : Bool := r.sgDirs.getLsbD i

/-- `sg0_en` .. `sg4_en`. -/
def sgEn (r : CtlRegs) (i : Fin 5) : Bool := r.sgEns.getLsbD i

theorem sgPer_write (r : CtlRegs) (a : BitVec 6) (d : BitVec 32) (i : Fin 5) :
    (r.write a d).sgPer i = if a.toNat = i then d else r.sgPer i := by
  unfold write
  split <;> rename_i h <;> fin_cases i <;> simp_all [sgPer]

theorem sgDir_write (r : CtlRegs) (a : BitVec 6) (d : BitVec 32) (i : Fin 5) :
    (r.write a d).sgDir i = if a.toNat = 5 then d.getLsbD i else r.sgDir i := by
  unfold write
  split <;> rename_i h <;> simp_all [sgDir]

theorem sgEn_write (r : CtlRegs) (a : BitVec 6) (d : BitVec 32) (i : Fin 5) :
    (r.write a d).sgEn i = if a.toNat = 5 then d.getLsbD (5 + i) else r.sgEn i := by
  unfold write
  split <;> rename_i h <;> simp_all [sgEn]

theorem pwmCapture_write (r : CtlRegs) (a : BitVec 6) (d : BitVec 32) :
    (r.write a d).pwmCapture = if a.toNat = 7 then d else r.pwmCapture := by
  unfold write
  split <;> rename_i h <;> simp_all

theorem ogpio_write (r : CtlRegs) (a : BitVec 6) (d : BitVec 32) :
    (r.write a d).ogpio = if a.toNat = 8 then d else r.ogpio := by
  unfold write
  split <;> rename_i h <;> simp_all

/-- The control registers after a list of writes. -/
def writes (r : CtlRegs) (ws : List (BitVec 6 × BitVec 32)) : CtlRegs :=
  ws.foldl (fun r w => r.write w.1 w.2) r

@[simp] theorem writes_nil (r : CtlRegs) : r.writes [] = r := rfl

@[simp] theorem writes_cons (r : CtlRegs) (w : BitVec 6 × BitVec 32)
    (ws : List (BitVec 6 × BitVec 32)) :
    r.writes (w :: ws) = (r.write w.1 w.2).writes ws := rfl

theorem writes_append (r : CtlRegs) (ws₁ ws₂ : List (BitVec 6 × BitVec 32)) :
    r.writes (ws₁ ++ ws₂) = (r.writes ws₁).writes ws₂ :=
  List.foldl_append

end CtlRegs

/-! ## §3  The module -/

/-- All registers of the module and of its instances. -/
structure CncModule where
  ctl : CtlRegs
  readdata : BitVec 32
  wdCounter : BitVec 32
  cpCapture : BitVec 32
  sg0 : StepGen
  sg1 : StepGen
  sg2 : StepGen
  sg3 : StepGen
  sg4 : StepGen
  pwm1 : PwmGen
  cp1 : PwmGen
  enc0 : EncoderX1
  enc1 : EncoderX1
deriving DecidableEq, Repr

namespace CncModule

/-- The step generator of axis `i`. -/
def sg (s : CncModule) : Fin 5 → StepGen
  | 0 => s.sg0
  | 1 => s.sg1
  | 2 => s.sg2
  | 3 => s.sg3
  | 4 => s.sg4

/-- The port connections of the step generator instance of axis `i`. -/
def sgIn (s : CncModule) (i : Fin 5) : StepGenIn where
  period := s.ctl.sgPer i
  dirIn := s.ctl.sgDir i
  en := s.ctl.sgEn i

/-- The `case (address)` of the read branch: what `readdata` becomes. -/
def readCase (s : CncModule) (b : CncIn) : BitVec 32 :=
  match b.address.toNat with
  | 0x0 => s.ctl.sg0Per
  | 0x1 => s.ctl.sg1Per
  | 0x2 => s.ctl.sg2Per
  | 0x3 => s.ctl.sg3Per
  | 0x4 => s.ctl.sg4Per
  | 0x5 => s.ctl.dirsEnsWord
  | 0x6 => s.ctl.pwmCounter
  | 0x7 => s.ctl.pwmCapture
  | 0x8 => s.ctl.ogpio
  | 0x9 => b.igpio
  | 0xA => s.sg0.location
  | 0xB => s.sg1.location
  | 0xC => s.sg2.location
  | 0xD => s.sg3.location
  | 0xE => s.sg4.location
  | 0xF => s.enc0.count
  | 0x10 => s.enc1.count
  | _ => s.readdata

/-- Asynchronous reset of every register that has one. -/
def reset (s : CncModule) : CncModule :=
  { s with
    ctl := s.ctl.reset
    wdCounter := 0
    sg0 := s.sg0.reset, sg1 := s.sg1.reset, sg2 := s.sg2.reset
    sg3 := s.sg3.reset, sg4 := s.sg4.reset
    pwm1 := s.pwm1.reset, cp1 := s.cp1.reset
    enc0 := s.enc0.reset, enc1 := s.enc1.reset }

/-- The inputs of the charge pump generator. -/
def cpIn (s : CncModule) : PwmGenIn := ⟨5000#32, s.cpCapture⟩

/-- The inputs of the spindle generator. -/
def pwmIn (s : CncModule) : PwmGenIn := ⟨s.ctl.pwmCounter, s.ctl.pwmCapture⟩

/-- One clock edge with reset released. -/
def posedge (b : CncIn) (s : CncModule) : CncModule where
  ctl :=
    match b.strobe with
    | .write => s.ctl.write b.address b.writedata
    | .read => s.ctl
    | .idle => s.ctl
  readdata :=
    match b.strobe with
    | .write => s.readdata
    | .read => s.readCase b
    | .idle => s.readdata
  wdCounter :=
    match b.strobe with
    | .write => s.wdCounter
    | .read => 0
    | .idle => s.wdCounter + 1
  cpCapture := if s.wdCounter > 50000000#32 then 0xFFFFFFFF#32 else 2500#32
  sg0 := s.sg0.posedge (s.sgIn 0)
  sg1 := s.sg1.posedge (s.sgIn 1)
  sg2 := s.sg2.posedge (s.sgIn 2)
  sg3 := s.sg3.posedge (s.sgIn 3)
  sg4 := s.sg4.posedge (s.sgIn 4)
  pwm1 := s.pwm1.posedge s.pwmIn
  cp1 := s.cp1.posedge s.cpIn
  enc0 := s.enc0.posedge ⟨b.igpio.getLsbD 5, b.igpio.getLsbD 6⟩
  enc1 := s.enc1.posedge ⟨b.igpio.getLsbD 7, b.igpio.getLsbD 8⟩

/-- `osteps[i]`. -/
def osteps (s : CncModule) (i : Fin 5) : Bool := (s.sg i).stepOut

/-- `odirs[i]`. -/
def odirs (s : CncModule) (i : Fin 5) : Bool := StepGen.dirOut (s.sgIn i)

/-- The charge pump output. -/
def cp (s : CncModule) : Bool := s.cp1.pwmOut s.cpIn

/-- The spindle output. -/
def ospindlePwm (s : CncModule) : Bool := s.pwm1.pwmOut s.pwmIn

/-! ## §4  One clock, part by part -/

@[simp] theorem sg_posedge (b : CncIn) (s : CncModule) (i : Fin 5) :
    (s.posedge b).sg i = (s.sg i).posedge (s.sgIn i) := by
  fin_cases i <;> rfl

@[simp] theorem sg_reset (s : CncModule) (i : Fin 5) :
    s.reset.sg i = (s.sg i).reset := by
  fin_cases i <;> rfl

theorem ctl_posedge (b : CncIn) (s : CncModule) :
    (s.posedge b).ctl = s.ctl.writes b.busWrite.toList := by
  cases hs : b.strobe with
  | write => simp [posedge, hs, CncIn.busWrite_of_write hs]
  | read =>
      have hw : b.busWrite = none := CncIn.busWrite_eq_none.mpr (by simp [hs])
      simp [posedge, hs, hw]
  | idle =>
      have hw : b.busWrite = none := CncIn.busWrite_eq_none.mpr (by simp [hs])
      simp [posedge, hs, hw]

/-! ## §5  Schedules and their writes -/

/-- The writes of a bus schedule, in order. -/
def writesOf (bs : List CncIn) : List (BitVec 6 × BitVec 32) :=
  bs.filterMap CncIn.busWrite

@[simp] theorem writesOf_nil : writesOf [] = [] := rfl

theorem writesOf_cons (b : CncIn) (bs : List CncIn) :
    writesOf (b :: bs) = b.busWrite.toList ++ writesOf bs := by
  rw [writesOf, List.filterMap_cons]
  cases b.busWrite <;> rfl

theorem writesOf_append (bs₁ bs₂ : List CncIn) :
    writesOf (bs₁ ++ bs₂) = writesOf bs₁ ++ writesOf bs₂ :=
  List.filterMap_append

/-- Writes back to back. -/
theorem writesOf_map_writeTo (ws : List (BitVec 6 × BitVec 32)) :
    writesOf (ws.map fun x => CncIn.writeTo x.1 x.2) = ws := by
  induction ws with
  | nil => rfl
  | cons x ws ih =>
      rw [List.map_cons, writesOf_cons, ih]
      rfl

/-- **The control registers after a run** are those of its writes, whatever
idle and read clocks stand in between and whatever the rest of the module
does. -/
theorem ctl_run (s : CncModule) (bs : List CncIn) :
    (run posedge s bs).ctl = s.ctl.writes (writesOf bs) := by
  induction bs generalizing s with
  | nil => rfl
  | cons b bs ih =>
      rw [run_cons, ih, ctl_posedge, writesOf_cons, CtlRegs.writes_append]

theorem ctl_stateAt_of_no_write {s : CncModule} {sched : ℕ → CncIn}
    (h : ∀ t, (sched t).busWrite = none) (t : ℕ) : (stateAt posedge s sched t).ctl = s.ctl := by
  induction t with
  | zero => rfl
  | succ t ih =>
      rw [stateAt_succ, ctl_posedge, ih, h t]
      rfl

/-- The step generator of axis `i` runs on its own, over the wires it is
connected to. -/
theorem sg_stateAt (s : CncModule) (sched : ℕ → CncIn) (i : Fin 5) (t : ℕ) :
    (stateAt posedge s sched t).sg i =
      stateAt StepGen.posedge (s.sg i)
        (fun k => (stateAt posedge s sched k).sgIn i) t :=
  stateAt_proj (fun s => s.sg i) (fun _ s => s.sgIn i)
    (fun b s => sg_posedge b s i) s sched t

end CncModule

end FpgaCnc
