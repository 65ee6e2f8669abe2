import FpgaCnc.Lib.Clocked
import FpgaCnc.Lib.SerialLine

/-!
# `system_0_uart_0_tx`: the transmitter of the pendant's UART

`submodules/system_0_uart_0.v`. A write takes `tx_ready` away; when the shift
register has run empty it is filled from the register behind `tx_data`, on two
clocks running, and `tx_ready` is given back. Two registers stand between the
shift register and the line.

§1 the module · §2 one byte · §3 from one byte to the next · §4 what is written
goes out.
-/

namespace FpgaCnc

open Clocked SerialLine

/-! ## §1  The module -/

/-- The inputs sampled at a clock edge; `clk_en` is tied to one. -/
structure UartTxIn where
  baudDivisor : BitVec 13
  begintransfer : Bool
  doForceBreak : Bool
  statusWrStrobe : Bool
  txData : BitVec 8
  txWrStrobe : Bool
deriving DecidableEq, Repr

/-- The registers. -/
structure UartTx where
  baudClkEn : Bool
  baudRateCounter : BitVec 13
  doLoadShifter : Bool
  preTxd : Bool
  txOverrun : Bool
  txReady : Bool
  txShiftEmpty : Bool
  txd : Bool
  /-- `tx_shift_register_contents`. -/
  txShiftReg : BitVec 10
deriving DecidableEq, Repr

namespace UartTx

def reset : UartTx := ⟨false, 0, false, true, false, true, true, true, 0⟩

def txWrStrobeOnset (i : UartTxIn) : Bool := i.txWrStrobe && i.begintransfer

def txLoadVal (i : UartTxIn) : BitVec 10 := (1#1 ++ i.txData ++ 0#1).setWidth 10

def shiftDone (s : UartTx) : Bool := s.txShiftReg == 0

def doShift (s : UartTx) : Bool := s.baudClkEn && !shiftDone s && !s.doLoadShifter

def txShiftRegOut (s : UartTx) : Bool := s.txShiftReg.getLsbD 0

/-- `{1'b0, out[9:1]}`. -/
def shiftOut (r : BitVec 10) : BitVec 10 := (0#1 ++ r.extractLsb' 1 9).setWidth 10

/-- One clock edge. -/
def posedge (i : UartTxIn) (s : UartTx) : UartTx where
  baudClkEn := s.baudRateCounter == 0
  baudRateCounter :=
    if s.baudRateCounter == 0 || s.doLoadShifter then i.baudDivisor else s.baudRateCounter - 1
  doLoadShifter := !s.txReady && shiftDone s
  preTxd := if !shiftDone s then txShiftRegOut s else s.preTxd
  txOverrun :=
    if i.statusWrStrobe then false
    else if !s.txReady && txWrStrobeOnset i then true
    else s.txOverrun
  -- a write on the same clock is stronger
  txReady :=
    if txWrStrobeOnset i then false
    else if s.doLoadShifter then true
    else s.txReady
  txShiftEmpty := s.txReady && shiftDone s
  txd := s.preTxd && !i.doForceBreak
  txShiftReg :=
    if s.doLoadShifter then txLoadVal i
    else if doShift s then shiftOut s.txShiftReg
    else s.txShiftReg

/-! ## §2  One byte -/

theorem shiftOut_eq (r : BitVec 10) : shiftOut r = r >>> 1 := by
  apply BitVec.eq_of_getLsbD_eq
  intro j hj
  rw [shiftOut, BitVec.getLsbD_setWidth, BitVec.getLsbD_append, BitVec.getLsbD_extractLsb',
    BitVec.getLsbD_ushiftRight]
  rcases Nat.lt_or_ge j 9 with h | h
  · simp [hj, h]
  · obtain rfl : j = 9 := by omega
    simp

/-- `k` cells of a byte have gone out of the shift register, and the next one
goes in `n` clocks. -/
structure Sending (div : BitVec 13) (d : BitVec 8) (k n : ℕ) (s : UartTx) : Prop where
  due : Due div n s.baudClkEn s.baudRateCounter
  load : s.doLoadShifter = false
  shift : s.txShiftReg = frame d >>> k

/-- The shift register has run empty, and the line is high. -/
structure Free (s : UartTx) : Prop where
  load : s.doLoadShifter = false
  shift : s.txShiftReg = 0
  level : s.preTxd = true

/-- The shift register will be loaded. -/
structure Woken (s : UartTx) : Prop where
  load : s.doLoadShifter = true
  shift : s.txShiftReg = 0
  level : s.preTxd = true
  ready : s.txReady = false

/-- The shift register has been loaded once, and will be again. -/
structure Loaded (div : BitVec 13) (d : BitVec 8) (s : UartTx) : Prop where
  load : s.doLoadShifter = true
  shift : s.txShiftReg = frame d
  level : s.preTxd = true
  ready : s.txReady = true
  counter : s.baudRateCounter = div

section Byte

variable {div : BitVec 13} {d : BitVec 8} {k n : ℕ} {i : UartTxIn} {s : UartTx}

theorem frame_shiftRight_ne (d : BitVec 8) (hk : k < 10) : frame d >>> k ≠ 0 := by
  intro hzero
  have hstop := congrArg (fun r => r.getLsbD (9 - k)) hzero
  simp only [BitVec.getLsbD_ushiftRight, show k + (9 - k) = 9 by omega, frame_stop] at hstop
  exact absurd hstop (by simp)

theorem Sending.not_done (h : Sending div d k n s) (hk : k < 10) : shiftDone s = false := by
  rw [shiftDone, h.shift]
  exact beq_eq_false_iff_ne.mpr (frame_shiftRight_ne d hk)

/-- The bit in the shift register is the next to go. -/
theorem Sending.preTxd (h : Sending div d k n s) (hk : k < 10) :
    (posedge i s).preTxd = (frame d).getLsbD k := by
  show (if !shiftDone s then txShiftRegOut s else _) = _
  rw [h.not_done hk, txShiftRegOut, h.shift, BitVec.getLsbD_ushiftRight]
  rfl

theorem Sending.load_posedge (h : Sending div d k n s) (hk : k < 10) :
    (posedge i s).doLoadShifter = false := by
  show (!s.txReady && shiftDone s) = false
  rw [h.not_done hk, Bool.and_false]

theorem Sending.counter_posedge (h : Sending div d k n s) (hdiv : i.baudDivisor = div) :
    (posedge i s).baudRateCounter = tick div s.baudRateCounter := by
  show (if s.baudRateCounter == 0 || s.doLoadShifter then i.baudDivisor else _) = _
  rw [h.load, Bool.or_false, hdiv]
  rfl

theorem Sending.shift_posedge (h : Sending div d k n s) (hk : k < 10) :
    (posedge i s).txShiftReg = if s.baudClkEn then frame d >>> (k + 1) else frame d >>> k := by
  show (if s.doLoadShifter then _ else if doShift s then shiftOut s.txShiftReg else _) = _
  rw [h.load, doShift, h.not_done hk, h.load, h.shift, shiftOut_eq, BitVec.shiftRight_add]
  simp

theorem Sending.quiet (h : Sending div d k (n + 1) s) (hk : k < 10) (hdiv : i.baudDivisor = div) :
    Sending div d k n (posedge i s) where
  due := by
    rw [h.counter_posedge hdiv]
    exact h.due.succ
  load := h.load_posedge hk
  shift := by
    rw [h.shift_posedge hk, h.due.1]
    rfl

/-- **A shift.** -/
theorem Sending.next (h : Sending div d k 0 s) (hk : k < 10) (hdiv : i.baudDivisor = div)
    (hpos : 0 < div.toNat) : Sending div d (k + 1) div.toNat (posedge i s) where
  due := by
    rw [h.counter_posedge hdiv]
    exact h.due.zero hpos
  load := h.load_posedge hk
  shift := by
    rw [h.shift_posedge hk, h.due.1]
    rfl

/-- The shift register is empty after ten shifts, and the stop bit stays on the
line. -/
theorem Sending.free (h : Sending div d 9 0 s) (hdiv : i.baudDivisor = div)
    (hpos : 0 < div.toNat) : Free (posedge i s) where
  load := h.load_posedge (by omega)
  shift := (h.next (by omega) hdiv hpos).shift.trans (BitVec.ushiftRight_eq_zero le_rfl)
  level := by rw [h.preTxd (by omega), frame_stop]

theorem Free.idle (h : Free s) (hready : s.txReady = true) : Free (posedge i s) := by
  have hdone : shiftDone s = true := by
    rw [shiftDone, h.shift]
    rfl
  refine ⟨?_, ?_, ?_⟩
  · show (!s.txReady && _) = false
    rw [hready]
    rfl
  · show (if s.doLoadShifter then _ else if doShift s then _ else s.txShiftReg) = 0
    rw [h.load, doShift, hdone, h.shift]
    simp
  · show (if !shiftDone s then _ else s.preTxd) = true
    rw [hdone, h.level]
    rfl

theorem Free.woken (h : Free s) (hready : s.txReady = false) (hi : txWrStrobeOnset i = false) :
    Woken (posedge i s) := by
  have hdone : shiftDone s = true := by
    rw [shiftDone, h.shift]
    rfl
  refine ⟨?_, ?_, ?_, ?_⟩
  · show (!s.txReady && shiftDone s) = true
    rw [hready, hdone]
    rfl
  · show (if s.doLoadShifter then _ else if doShift s then _ else s.txShiftReg) = 0
    rw [h.load, doShift, hdone, h.shift]
    simp
  · show (if !shiftDone s then _ else s.preTxd) = true
    rw [hdone, h.level]
    rfl
  · show (if txWrStrobeOnset i then _ else if s.doLoadShifter then _ else s.txReady) = false
    rw [hi, h.load, hready]
    rfl

theorem Woken.loaded (h : Woken s) (hdiv : i.baudDivisor = div) (hi : txWrStrobeOnset i = false) :
    Loaded div i.txData (posedge i s) := by
  have hdone : shiftDone s = true := by
    rw [shiftDone, h.shift]
    rfl
  refine ⟨?_, ?_, ?_, ?_, ?_⟩
  · show (!s.txReady && shiftDone s) = true
    rw [h.ready, hdone]
    rfl
  · show (if s.doLoadShifter then txLoadVal i else _) = frame i.txData
    rw [h.load]
    rfl
  · show (if !shiftDone s then _ else s.preTxd) = true
    rw [hdone, h.level]
    rfl
  · show (if txWrStrobeOnset i then _ else if s.doLoadShifter then true else _) = true
    rw [hi, h.load]
    rfl
  · show (if s.baudRateCounter == 0 || s.doLoadShifter then i.baudDivisor else _) = div
    rw [h.load, Bool.or_true, hdiv]
    rfl

/-- **The second load**: the start bit goes, and the counter starts. -/
theorem Loaded.sending (h : Loaded div d s) (hdiv : i.baudDivisor = div) (hpos : 0 < div.toNat) :
    Sending div i.txData 0 (div.toNat + 1) (posedge i s) ∧ (posedge i s).preTxd = false := by
  have hne : div ≠ 0 := by
    rintro rfl
    exact absurd hpos (by decide)
  have hbusy : shiftDone s = false := by
    rw [shiftDone, h.shift]
    exact beq_eq_false_iff_ne.mpr (frame_shiftRight_ne d (show 0 < 10 by omega))
  refine ⟨⟨⟨?_, ?_⟩, ?_, ?_⟩, ?_⟩
  · show (s.baudRateCounter == 0) = false
    rw [h.counter]
    exact beq_eq_false_iff_ne.mpr hne
  · show (if s.baudRateCounter == 0 || s.doLoadShifter then i.baudDivisor else _).toNat = _
    rw [h.load, Bool.or_true, if_pos rfl, hdiv]
  · show (!s.txReady && _) = false
    rw [h.ready]
    rfl
  · show (if s.doLoadShifter then txLoadVal i else _) = frame i.txData >>> 0
    rw [h.load, if_pos rfl, BitVec.ushiftRight_zero]
    rfl
  · show (if !shiftDone s then txShiftRegOut s else _) = false
    rw [hbusy, txShiftRegOut, h.shift, frame_start]
    rfl

end Byte

/-! ## §3  From one byte to the next -/

/-- The bytes written at the clocks before `t`. -/
def written (sched : ℕ → UartTxIn) : ℕ → List (BitVec 8)
  | 0 => []
  | t + 1 =>
      written sched t ++ if txWrStrobeOnset (sched t) then [(sched (t + 1)).txData] else []

/-- What is still to be loaded. -/
def unsent (i : UartTxIn) (s : UartTx) : List (BitVec 8) := if s.txReady then [] else [i.txData]

/-- What goes into the transmitter, up to clock `T`: a constant rate and no break,
the byte last written, and no write before the one before it has been taken. -/
structure Feeds (div : BitVec 13) (s : UartTx) (sched : ℕ → UartTxIn) (T : ℕ) : Prop where
  divisor : ∀ t, (sched t).baudDivisor = div
  unbroken : ∀ t, (sched t).doForceBreak = false
  held : ∀ t < T, txWrStrobeOnset (sched t) = false → (sched (t + 1)).txData = (sched t).txData
  checked : ∀ t < T, txWrStrobeOnset (sched t) = true → (stateAt posedge s sched t).txReady = true

/-- What is about to go to the line, a register before it. -/
def level (s : UartTx) (sched : ℕ → UartTxIn) (t : ℕ) : Bool :=
  (stateAt posedge s sched (t + 1)).preTxd

section Feed

variable {div : BitVec 13} {d : BitVec 8} {s : UartTx} {sched : ℕ → UartTxIn}
  {c k m n t T h : ℕ} {ds : List (BitVec 8)}

theorem no_onset (hin : Feeds div s sched T) (ht : t < T)
    (hready : (stateAt posedge s sched t).txReady = false) :
    txWrStrobeOnset (sched t) = false := by
  apply Bool.eq_false_iff.mpr
  intro hwrite
  exact absurd (hready.symm.trans (hin.checked t ht hwrite)) (by decide)

theorem txReady_succ (t : ℕ) :
    (stateAt posedge s sched (t + 1)).txReady =
      if txWrStrobeOnset (sched t) then false
      else if (stateAt posedge s sched t).doLoadShifter then true
      else (stateAt posedge s sched t).txReady := rfl

/-- **A clock that takes nothing away** keeps what has been written in order. -/
theorem written_succ (hin : Feeds div s sched T) (ht : t < T)
    (hkeep : (stateAt posedge s sched t).doLoadShifter = true →
      (stateAt posedge s sched t).txReady = true)
    (hds : written sched t = ds ++ unsent (sched t) (stateAt posedge s sched t)) :
    written sched (t + 1) =
      ds ++ unsent (sched (t + 1)) (stateAt posedge s sched (t + 1)) := by
  rw [written, hds, unsent, unsent, txReady_succ]
  cases hwrite : txWrStrobeOnset (sched t) with
  | true =>
      rw [hin.checked t ht hwrite]
      simp
  | false =>
      rw [hin.held t ht hwrite]
      cases hload : (stateAt posedge s sched t).doLoadShifter with
      | true =>
          rw [hkeep hload]
          simp
      | false => simp

/-- **The overrun flag** is down a clock later only if the write has found the
one before it taken. -/
theorem checked_of_txOverrun (hquiet : (sched t).statusWrStrobe = false)
    (hwrite : txWrStrobeOnset (sched t) = true)
    (hdown : (stateAt posedge s sched (t + 1)).txOverrun = false) :
    (stateAt posedge s sched t).txReady = true := by
  by_contra hnot
  have hbusy := Bool.eq_false_iff.mpr hnot
  have hup : (stateAt posedge s sched (t + 1)).txOverrun = true := by
    show (if (sched t).statusWrStrobe then _
      else if !(stateAt posedge s sched t).txReady && txWrStrobeOnset (sched t) then true
      else _) = true
    rw [hquiet, hwrite, hbusy]
    rfl
  exact absurd (hdown.symm.trans hup) (by decide)

/-- At clock `c` a byte is going out, and of what has been written `ds`, this
byte the last, has been taken. -/
structure SendingAt (div : BitVec 13) (d : BitVec 8) (ds : List (BitVec 8)) (s : UartTx)
    (sched : ℕ → UartTxIn) (k n c : ℕ) : Prop where
  sending : Sending div d k n (stateAt posedge s sched c)
  written : written sched c = ds ++ unsent (sched c) (stateAt posedge s sched c)

theorem SendingAt.written_succ (h : SendingAt div d ds s sched k n c) (hin : Feeds div s sched T)
    (hc : c < T) : UartTx.written sched (c + 1) =
      ds ++ unsent (sched (c + 1)) (stateAt posedge s sched (c + 1)) := by
  refine UartTx.written_succ hin hc ?_ h.written
  rw [h.sending.load]
  exact fun hload => absurd hload (by decide)

theorem SendingAt.wait (h : SendingAt div d ds s sched k n c) (hin : Feeds div s sched T)
    (hk : k < 10) (hm : m ≤ n) (hc : c + m ≤ T) :
    SendingAt div d ds s sched k (n - m) (c + m) := by
  induction m with
  | zero => exact h
  | succ m ih =>
      have hbefore := ih (by omega) (by omega)
      rw [show n - m = n - (m + 1) + 1 by omega] at hbefore
      exact ⟨hbefore.sending.quiet hk (hin.divisor _), hbefore.written_succ hin (by omega)⟩

/-- **A cell** stands at the end of the shift register until the next shift. -/
theorem SendingAt.cell (h : SendingAt div d ds s sched k n c) (hin : Feeds div s sched T)
    (hpos : 0 < div.toNat) (hk : k < 10) (hc : c + n + 1 ≤ T) :
    SendingAt div d ds s sched (k + 1) div.toNat (c + n + 1) ∧
      Holds (level s sched) c (c + n + 1) ((frame d).getLsbD k) := by
  constructor
  · have hlast := h.wait hin hk le_rfl (by omega)
    rw [Nat.sub_self] at hlast
    exact ⟨hlast.sending.next hk (hin.divisor _) hpos, hlast.written_succ hin (by omega)⟩
  · intro t hat htb
    obtain ⟨m, rfl⟩ := Nat.exists_eq_add_of_le hat
    exact (h.wait hin hk (by omega) (by omega)).sending.preTxd hk

/-- At clock `c` the shift register is empty, and of what has been written `ds`
has gone out. -/
structure FreeAt (div : BitVec 13) (h : ℕ) (ds : List (BitVec 8)) (s : UartTx)
    (sched : ℕ → UartTxIn) (c : ℕ) : Prop where
  free : Free (stateAt posedge s sched c)
  written : written sched c = ds ++ unsent (sched c) (stateAt posedge s sched c)
  line : Session (level s sched) h (div.toNat + 1) 0 ds c

theorem FreeAt.idle (hfree : FreeAt div h ds s sched c) (hin : Feeds div s sched T) (hc : c < T)
    (hready : (stateAt posedge s sched c).txReady = true) : FreeAt div h ds s sched (c + 1) := by
  have hnext : Free (stateAt posedge s sched (c + 1)) := hfree.free.idle hready
  refine ⟨hnext, written_succ hin hc (fun _ => hready) hfree.written, ?_⟩
  have hhigh : Session (level s sched) h (div.toNat + 1) c [] (c + 1) := by
    refine .idle (Nat.le_succ c) ?_
    intro t hat htb
    obtain rfl : t = c := by omega
    exact hnext.level
  have hboth := hfree.line.trans hhigh
  rwa [List.append_nil] at hboth

/-- **The load.** Something is waiting: two clocks later it has been taken, and
its start bit goes. -/
theorem FreeAt.load (hfree : FreeAt div h ds s sched c) (hin : Feeds div s sched T)
    (hpos : 0 < div.toNat) (hc : c + 2 < T)
    (hready : (stateAt posedge s sched c).txReady = false) :
    Holds (level s sched) c (c + 2) true ∧ level s sched (c + 2) = false ∧
      (stateAt posedge s sched (c + 2)).txReady = true ∧
      UartTx.written sched (c + 2) = ds ++ [(sched c).txData] ∧
      SendingAt div (sched c).txData (ds ++ [(sched c).txData]) s sched 0 (div.toNat + 1)
        (c + 3) := by
  have hnone := no_onset hin (by omega) hready
  have hwoken : Woken (stateAt posedge s sched (c + 1)) := hfree.free.woken hready hnone
  have hnone' := no_onset hin (by omega) hwoken.ready
  have hloaded : Loaded div (sched (c + 1)).txData (stateAt posedge s sched (c + 2)) :=
    hwoken.loaded (hin.divisor _) hnone'
  have hdata : (sched (c + 2)).txData = (sched c).txData :=
    (hin.held (c + 1) (by omega) hnone').trans (hin.held c (by omega) hnone)
  obtain ⟨hsending, hlow⟩ := hloaded.sending (hin.divisor (c + 2)) hpos
  have htaken : UartTx.written sched (c + 2) = ds ++ [(sched c).txData] := by
    rw [UartTx.written, hnone', UartTx.written, hnone, hfree.written, unsent, hready]
    simp
  have hin_order : UartTx.written sched (c + 2) =
      ds ++ [(sched c).txData] ++ unsent (sched (c + 2)) (stateAt posedge s sched (c + 2)) := by
    rw [htaken, unsent, hloaded.ready]
    simp
  refine ⟨?_, hlow, hloaded.ready, htaken, ?_⟩
  · intro t hat htb
    rcases (show t = c ∨ t = c + 1 by omega) with rfl | rfl
    · exact hwoken.level
    · exact hloaded.level
  · rw [← hdata]
    rw [← hdata] at hin_order
    exact ⟨hsending, written_succ hin hc (fun _ => hloaded.ready) hin_order⟩

/-- The cells of a byte whose load began at clock `c`. -/
theorem SendingAt.cells (hsending : SendingAt div d ds s sched 0 (div.toNat + 1) (c + 3))
    (hlow : level s sched (c + 2) = false) (hin : Feeds div s sched T) (hpos : 0 < div.toNat)
    (hc : c + 4 + 10 * (div.toNat + 1) ≤ T) :
    ∀ k < 10, SendingAt div d ds s sched (k + 1) div.toNat
        (SerialLine.cells (c + 2) (div.toNat + 1) 2 (k + 1)) ∧
      Holds (level s sched) (SerialLine.cells (c + 2) (div.toNat + 1) 2 k)
        (SerialLine.cells (c + 2) (div.toNat + 1) 2 (k + 1)) ((frame d).getLsbD k) := by
  intro k
  induction k with
  | zero =>
      intro _
      have hfirst := hsending.cell hin hpos (by omega) (by omega)
      rw [show c + 3 + (div.toNat + 1) + 1 = SerialLine.cells (c + 2) (div.toNat + 1) 2 1 by
        rw [SerialLine.cells]; omega] at hfirst
      refine ⟨hfirst.1, ?_⟩
      refine Holds.trans (b := c + 3) ?_ hfirst.2
      intro t (hat : c + 2 ≤ t) htb
      obtain rfl : t = c + 2 := by omega
      rw [hlow, frame_start]
  | succ k ih =>
      intro hk
      obtain ⟨hbefore, -⟩ := ih (by omega)
      have hbound : (k + 1 + 1) * (div.toNat + 1) ≤ 10 * (div.toNat + 1) :=
        Nat.mul_le_mul_right _ (by omega)
      have hend : SerialLine.cells (c + 2) (div.toNat + 1) 2 (k + 1) + div.toNat + 1 =
          SerialLine.cells (c + 2) (div.toNat + 1) 2 (k + 1 + 1) := by
        rw [SerialLine.cells, SerialLine.cells, Nat.succ_mul (k + 1)]
        omega
      have hcell := hbefore.cell hin hpos hk (by
        rw [hend, SerialLine.cells]
        omega)
      rwa [hend] at hcell

/-- The clocks from the load of a byte to the end of its stop bit. -/
def span (div : BitVec 13) : ℕ := 4 + 10 * (div.toNat + 1)

/-- **One byte.** -/
theorem FreeAt.send (hfree : FreeAt div h ds s sched c) (hin : Feeds div s sched T)
    (hearly : 2 < h) (hlate : h < div.toNat + 1) (hc : c + span div ≤ T)
    (hready : (stateAt posedge s sched c).txReady = false) :
    FreeAt div h (ds ++ [(sched c).txData]) s sched (c + span div) := by
  have hpos : 0 < div.toNat := by omega
  unfold span at hc ⊢
  obtain ⟨hhigh, hlow, -, -, hsending⟩ := hfree.load hin hpos (by omega) hready
  have hcells := hsending.cells hlow hin hpos (by omega)
  have hend : c + (4 + 10 * (div.toNat + 1)) = SerialLine.cells (c + 2) (div.toNat + 1) 2 10 := by
    rw [SerialLine.cells]
    omega
  have hlast : SerialLine.cells (c + 2) (div.toNat + 1) 2 10 =
      SerialLine.cells (c + 2) (div.toNat + 1) 2 9 + div.toNat + 1 := by
    rw [SerialLine.cells, SerialLine.cells]
    omega
  have hnine : SendingAt div _ _ s sched 9 div.toNat
      (SerialLine.cells (c + 2) (div.toNat + 1) 2 9) := (hcells 8 (by omega)).1
  have hstop := hnine.wait hin (by omega) le_rfl (by omega)
  rw [Nat.sub_self] at hstop
  refine ⟨?_, ?_, ?_⟩
  · rw [hend, hlast]
    exact hstop.sending.free (hin.divisor _) hpos
  · rw [hend]
    exact (hcells 9 (by omega)).1.written
  · refine hfree.line.trans (.byte (Nat.le_add_right c 2) hhigh (fun k hk => (hcells k hk).2)
      (readable_cells (c + 2) hearly hlate) ?_)
    rw [hend]
    exact .idle le_rfl fun t hat htb => absurd htb (by omega)

/-- The shift register is empty again and again. -/
theorem FreeAt.again (hfree : FreeAt div h ds s sched 0) (hin : Feeds div s sched T)
    (hearly : 2 < h) (hlate : h < div.toNat + 1) (ht : t + span div ≤ T) :
    ∃ c ds, t ≤ c ∧ c ≤ t + span div ∧ FreeAt div h ds s sched c := by
  induction t with
  | zero => exact ⟨0, ds, le_rfl, Nat.zero_le _, hfree⟩
  | succ t ih =>
      obtain ⟨c, ds, htc, hct, hfree⟩ := ih (by omega)
      rcases Nat.lt_or_ge t c with hlt | hge
      · exact ⟨c, ds, hlt, by omega, hfree⟩
      · obtain rfl : c = t := by omega
        cases hready : (stateAt posedge s sched c).txReady with
        | true => exact ⟨c + 1, ds, le_rfl, by omega, hfree.idle hin (by omega) hready⟩
        | false =>
            have hspan : 0 < span div := by
              unfold span
              omega
            exact ⟨c + span div, _, by omega, by omega,
              hfree.send hin hearly hlate (by omega) hready⟩

end Feed

/-! ## §4  What is written goes out -/

section Link

variable {div : BitVec 13} {sched : ℕ → UartTxIn} {T h t : ℕ}

theorem freeAt_reset (div : BitVec 13) (h : ℕ) (sched : ℕ → UartTxIn) :
    FreeAt div h [] reset sched 0 where
  free := ⟨rfl, rfl, rfl⟩
  written := rfl
  line := .idle le_rfl fun t _ ht => absurd ht (Nat.not_lt_zero t)

/-- The line. -/
def line (sched : ℕ → UartTxIn) (t : ℕ) : Bool := (stateAt posedge reset sched t).txd

/-- The line follows two clocks later. -/
theorem session_line {b : ℕ} {ds : List (BitVec 8)} (hin : Feeds div reset sched T)
    (hs : Session (level reset sched) h (div.toNat + 1) 0 ds b) :
    Session (line sched) h (div.toNat + 1) 0 ds (b + 2) := by
  have hlater : ∀ t, line sched (t + 2) = level reset sched t := by
    intro t
    show (level reset sched t && !(sched (t + 1)).doForceBreak) = _
    rw [hin.unbroken (t + 1)]
    exact Bool.and_true _
  have hhigh : Holds (line sched) 0 2 true := by
    intro t _ ht
    rcases (show t = 0 ∨ t = 1 by omega) with rfl | rfl
    · rfl
    · show (true && !(sched 0).doForceBreak) = true
      rw [hin.unbroken 0]
      rfl
  have hmoved := hs.delay hlater
  rw [Nat.zero_add] at hmoved
  exact hmoved.wait (Nat.zero_le 2) hhigh

/-- **The transmitter.** What has been written by clock `t` is on the line two
bytes later, in order and in cells that can be read, and the writer has had
`tx_ready` again. -/
theorem sent_in_time (hin : Feeds div reset sched T) (hearly : 2 < h)
    (hlate : h < div.toNat + 1) (ht : t + 2 * span div ≤ T) :
    ∃ u b, t ≤ u ∧ u < b ∧ b ≤ t + 2 * span div + 2 ∧
      (stateAt posedge reset sched u).txReady = true ∧
      Session (line sched) h (div.toNat + 1) 0 (written sched u) b := by
  obtain ⟨c, ds, htc, hct, hfree⟩ := (freeAt_reset div h sched).again hin hearly hlate (t := t)
    (by omega)
  have hspan : 2 < span div := by
    unfold span
    omega
  cases hready : (stateAt posedge reset sched c).txReady with
  | true =>
      refine ⟨c, c + 2, htc, by omega, by omega, hready, ?_⟩
      have hall := hfree.written
      rw [unsent, hready, if_pos rfl, List.append_nil] at hall
      rw [hall]
      exact session_line hin hfree.line
  | false =>
      have hsent := hfree.send hin hearly hlate (by omega) hready
      obtain ⟨-, -, hagain, hall, -⟩ := hfree.load hin (by omega) (by omega) hready
      refine ⟨c + 2, c + span div + 2, by omega, by omega, by omega, hagain, ?_⟩
      rw [hall]
      exact session_line hin hsent.line

theorem txReady_kept {s : UartTx} {u : ℕ} (hut : u ≤ t)
    (hready : (stateAt posedge s sched u).txReady = true)
    (hnone : ∀ w, u ≤ w → w < t → txWrStrobeOnset (sched w) = false) :
    (stateAt posedge s sched t).txReady = true := by
  induction t, hut using Nat.le_induction with
  | base => exact hready
  | succ t hut ih =>
      rw [txReady_succ, hnone t hut (Nat.lt_succ_self t),
        ih fun w huw hwt => hnone w huw (hwt.trans (Nat.lt_succ_self t))]
      simp

/-- **Without asking**: writes that are far enough apart find the one before
taken. -/
theorem checked_of_spaced (hdiv : 2 < div.toNat) (hdivisor : ∀ t, (sched t).baudDivisor = div)
    (hunbroken : ∀ t, (sched t).doForceBreak = false)
    (hheld : ∀ t, txWrStrobeOnset (sched t) = false → (sched (t + 1)).txData = (sched t).txData)
    (hspaced : ∀ t u, t < u → txWrStrobeOnset (sched t) = true →
      txWrStrobeOnset (sched u) = true → t + (2 * span div + 3) ≤ u) :
    txWrStrobeOnset (sched t) = true → (stateAt posedge reset sched t).txReady = true := by
  induction t using Nat.strong_induction_on with
  | _ t ih =>
      intro hwrite
      have hin : Feeds div reset sched t := ⟨hdivisor, hunbroken, fun u _ => hheld u, ih⟩
      have hnone : ∀ w, w < t → t < w + (2 * span div + 3) →
          txWrStrobeOnset (sched w) = false := by
        intro w hwt hnear
        apply Bool.eq_false_iff.mpr
        intro hwrite'
        have hfar := hspaced w t hwt hwrite' hwrite
        omega
      rcases Nat.lt_or_ge t (2 * span div + 3) with hfirst | hlater
      · exact txReady_kept (Nat.zero_le t) rfl fun w _ hwt => hnone w hwt (by omega)
      · obtain ⟨u, b, hle, hub, hbt, hready, -⟩ := sent_in_time (h := div.toNat)
          (t := t - (2 * span div + 2)) hin hdiv (Nat.lt_succ_self _) (by omega)
        exact txReady_kept (by omega) hready fun w huw hwt => hnone w hwt (by omega)

end Link

end UartTx

end FpgaCnc
