import FpgaCnc.Lib.Clocked
import FpgaCnc.Lib.SerialLine

/-!
# `system_0_uart_0_rx`: the receiver of the pendant's UART

`submodules/system_0_uart_0.v`, the receiver behind its synchronizer. A counter
is set to half a cell at every edge of the line and to a whole one whenever it
runs out; a falling edge while nothing is being received fills the shift
register with ones, and as long as bit 0 of it is one, the line is shifted in
each time the counter has run out. After ten times bit 0 is the start bit.

§1 the module · §2 when it looks · §3 one byte · §4 a session · §5 the one-byte
mailbox.
-/

namespace FpgaCnc

open Clocked SerialLine

/-! ## §1  The module -/

/-- The inputs sampled at a clock edge; `clk_en` is tied to one. -/
structure UartRxIn where
  baudDivisor : BitVec 13
  begintransfer : Bool
  rxRdStrobe : Bool
  statusWrStrobe : Bool
  /-- What comes out of the synchronizer. -/
  syncRxd : Bool
deriving DecidableEq, Repr

/-- The registers. -/
structure UartRx where
  baudClkEn : Bool
  baudRateCounter : BitVec 13
  breakDetect : Bool
  delayedRxInProcess : Bool
  delayedSyncRxd1 : Bool
  delayedSyncRxd2 : Bool
  doStartRx : Bool
  framingError : Bool
  rxCharReady : Bool
  rxData : BitVec 8
  rxOverrun : Bool
  rxdShiftReg : BitVec 10
deriving DecidableEq, Repr

namespace UartRx

def reset : UartRx := ⟨false, 0, false, false, false, false, false, false, false, 0, false, 0⟩

def rxdFalling (i : UartRxIn) (s : UartRx) : Bool := !i.syncRxd && s.delayedSyncRxd1

def rxdEdge (i : UartRxIn) (s : UartRx) : Bool := i.syncRxd ^^ s.delayedSyncRxd2

def rxRdStrobeOnset (i : UartRxIn) : Bool := i.rxRdStrobe && i.begintransfer

def halfBitCellDivisor (i : UartRxIn) : BitVec 12 := i.baudDivisor.extractLsb' 1 12

def baudLoadValue (i : UartRxIn) (s : UartRx) : BitVec 13 :=
  if rxdEdge i s then (halfBitCellDivisor i).setWidth 13 else i.baudDivisor

/-- `shift_reg_start_bit_n`. -/
def rxInProcess (s : UartRx) : Bool := s.rxdShiftReg.getLsbD 0

def sampleEnable (s : UartRx) : Bool := s.baudClkEn && rxInProcess s

def stopBit (s : UartRx) : Bool := s.rxdShiftReg.getLsbD 9

def rawDataIn (s : UartRx) : BitVec 8 := s.rxdShiftReg.extractLsb' 1 8

def isBreak (s : UartRx) : Bool := s.rxdShiftReg == 0

def isFramingError (s : UartRx) : Bool := !stopBit s && !isBreak s

def gotNewChar (s : UartRx) : Bool := !rxInProcess s && s.delayedRxInProcess

/-- `{sync_rxd, out[9:1]}`. -/
def shiftIn (b : Bool) (r : BitVec 10) : BitVec 10 :=
  (BitVec.ofBool b ++ r.extractLsb' 1 9).setWidth 10

/-- One clock edge. -/
def posedge (i : UartRxIn) (s : UartRx) : UartRx where
  baudClkEn := if rxdEdge i s then false else s.baudRateCounter == 0
  baudRateCounter :=
    if s.baudRateCounter == 0 || rxdEdge i s then baudLoadValue i s else s.baudRateCounter - 1
  breakDetect :=
    if i.statusWrStrobe then false
    else if gotNewChar s && isBreak s then true
    else s.breakDetect
  delayedRxInProcess := rxInProcess s
  delayedSyncRxd1 := i.syncRxd
  delayedSyncRxd2 := i.syncRxd
  doStartRx := !rxInProcess s && rxdFalling i s
  framingError :=
    if i.statusWrStrobe then false
    else if gotNewChar s && isFramingError s then true
    else s.framingError
  -- a read on the same clock is stronger
  rxCharReady :=
    if rxRdStrobeOnset i then false
    else if gotNewChar s then true
    else s.rxCharReady
  rxData := if gotNewChar s then rawDataIn s else s.rxData
  rxOverrun :=
    if i.statusWrStrobe then false
    else if gotNewChar s && s.rxCharReady then true
    else s.rxOverrun
  rxdShiftReg :=
    if s.doStartRx then BitVec.allOnes 10
    else if sampleEnable s then shiftIn i.syncRxd s.rxdShiftReg
    else s.rxdShiftReg

/-! ## §2  When it looks -/

/-- In `n` clocks the receiver looks at the line, if no edge comes before. -/
def Looks (div : BitVec 13) (n : ℕ) (s : UartRx) : Prop :=
  Due div n s.baudClkEn s.baudRateCounter

section Looks

variable {div : BitVec 13} {i : UartRxIn} {s : UartRx}

/-- **An edge** makes it look half a cell later. -/
theorem looks_of_edge (hdiv : i.baudDivisor = div) (hedge : rxdEdge i s = true) :
    Looks div (div.toNat / 2 + 1) (posedge i s) := by
  have hlt := div.isLt
  have hhalf : (halfBitCellDivisor i).toNat = div.toNat / 2 := by
    rw [halfBitCellDivisor, hdiv, BitVec.extractLsb'_toNat, Nat.shiftRight_eq_div_pow]
    exact Nat.mod_eq_of_lt (by omega)
  refine ⟨?_, ?_⟩
  · show (if rxdEdge i s then false else _) = false
    rw [if_pos hedge]
  · show (if s.baudRateCounter == 0 || rxdEdge i s then baudLoadValue i s else _).toNat = _
    rw [hedge, Bool.or_true, if_pos rfl, baudLoadValue, if_pos hedge, BitVec.toNat_setWidth, hhalf]
    exact Nat.mod_eq_of_lt (by omega)

/-- Without an edge the counter runs. -/
theorem counter_of_no_edge (hdiv : i.baudDivisor = div) (hedge : rxdEdge i s = false) :
    (posedge i s).baudClkEn = (s.baudRateCounter == 0) ∧
      (posedge i s).baudRateCounter = tick div s.baudRateCounter := by
  refine ⟨?_, ?_⟩
  · show (if rxdEdge i s then false else s.baudRateCounter == 0) = _
    rw [hedge]
    rfl
  · show (if s.baudRateCounter == 0 || rxdEdge i s then baudLoadValue i s else _) = _
    rw [hedge, Bool.or_false, baudLoadValue, hedge, hdiv]
    rfl

theorem looks_succ {n : ℕ} (hdiv : i.baudDivisor = div) (hedge : rxdEdge i s = false)
    (h : Looks div (n + 1) s) : Looks div n (posedge i s) := by
  obtain ⟨hen, hcount⟩ := counter_of_no_edge hdiv hedge
  unfold Looks
  rw [hen, hcount]
  exact Due.succ h

/-- Having looked, it looks a cell later. -/
theorem looks_again (hdiv : i.baudDivisor = div) (hedge : rxdEdge i s = false)
    (hpos : 0 < div.toNat) (h : Looks div 0 s) : Looks div div.toNat (posedge i s) := by
  obtain ⟨hen, hcount⟩ := counter_of_no_edge hdiv hedge
  unfold Looks
  rw [hen, hcount]
  exact Due.zero hpos h

theorem baudClkEn_of_looks {n : ℕ} (h : Looks div n s) : s.baudClkEn = decide (n = 0) := by
  cases n with
  | zero => exact h.1
  | succ n => exact h.1

end Looks

/-! ## §3  One byte -/

theorem getLsbD_shiftIn (b : Bool) (r : BitVec 10) {j : ℕ} (hj : j < 10) :
    (shiftIn b r).getLsbD j = if j = 9 then b else r.getLsbD (j + 1) := by
  rw [shiftIn, BitVec.getLsbD_setWidth, BitVec.getLsbD_append, BitVec.getLsbD_extractLsb']
  rcases Nat.lt_or_ge j 9 with h | h
  · rw [if_pos h, if_neg (by omega)]
    simp [hj, h, Nat.add_comm]
  · obtain rfl : j = 9 := by omega
    simp

/-- The shift register after `k` looks. -/
def shifted (d : BitVec 8) : ℕ → BitVec 10
  | 0 => BitVec.allOnes 10
  | k + 1 => shiftIn ((frame d).getLsbD k) (shifted d k)

theorem getLsbD_shifted (d : BitVec 8) {j k : ℕ} (hj : j < 10) (hk : k ≤ 10) :
    (shifted d k).getLsbD j = if j + k < 10 then true else (frame d).getLsbD (j + k - 10) := by
  induction k generalizing j with
  | zero =>
      rw [shifted, BitVec.getLsbD_allOnes, if_pos (by omega)]
      exact decide_eq_true hj
  | succ k ih =>
      rw [shifted, getLsbD_shiftIn _ _ hj]
      rcases Nat.lt_or_ge j 9 with h | h
      · rw [if_neg (by omega), ih (by omega) (by omega), Nat.add_right_comm, ← Nat.add_assoc]
      · obtain rfl : j = 9 := by omega
        rw [if_pos rfl, if_neg (by omega), show 9 + (k + 1) - 10 = k by omega]

theorem shifted_ten (d : BitVec 8) : shifted d 10 = frame d := by
  apply BitVec.eq_of_getLsbD_eq
  intro j hj
  rw [getLsbD_shifted d hj le_rfl, if_neg (by omega), Nat.add_sub_cancel]

/-- A byte is coming in: `k` cells have been looked at, the next look is in `n`
clocks, and the line was last at `v`. -/
structure Reading (div : BitVec 13) (d : BitVec 8) (k n : ℕ) (v : Bool) (s : UartRx) : Prop where
  looks : Looks div n s
  level1 : s.delayedSyncRxd1 = v
  level2 : s.delayedSyncRxd2 = v
  shift : s.rxdShiftReg = shifted d k
  start : s.doStartRx = false

/-- Nothing is coming in, and the line was last high. -/
structure Ready (s : UartRx) : Prop where
  inProcess : rxInProcess s = false
  level1 : s.delayedSyncRxd1 = true
  level2 : s.delayedSyncRxd2 = true
  start : s.doStartRx = false

section Byte

variable {div : BitVec 13} {d : BitVec 8} {k n : ℕ} {v : Bool} {i : UartRxIn} {s : UartRx}

theorem Reading.inProcess (h : Reading div d k n v s) (hk : k < 10) : rxInProcess s = true := by
  rw [rxInProcess, h.shift, getLsbD_shifted d (by omega) hk.le, if_pos (by omega)]

theorem Reading.no_edge (h : Reading div d k n v s) (hline : i.syncRxd = v) :
    rxdEdge i s = false := by
  rw [rxdEdge, hline, h.level2]
  exact Bool.xor_self v

/-- While a byte comes in, a falling edge starts nothing. -/
theorem Reading.no_start (h : Reading div d k n v s) (hk : k < 10) :
    (posedge i s).doStartRx = false := by
  show (!rxInProcess s && rxdFalling i s) = false
  rw [h.inProcess hk]
  rfl

theorem Reading.shift_posedge (h : Reading div d k n v s) (hk : k < 10) :
    (posedge i s).rxdShiftReg =
      if n = 0 then shiftIn i.syncRxd s.rxdShiftReg else s.rxdShiftReg := by
  show (if s.doStartRx then _ else if sampleEnable s then _ else _) = _
  rw [h.start, sampleEnable, h.inProcess hk, baudClkEn_of_looks h.looks]
  simp

theorem Reading.quiet (h : Reading div d k (n + 1) v s) (hk : k < 10) (hdiv : i.baudDivisor = div)
    (hline : i.syncRxd = v) : Reading div d k n v (posedge i s) where
  looks := looks_succ hdiv (h.no_edge hline) h.looks
  level1 := hline
  level2 := hline
  shift := by rw [h.shift_posedge hk, if_neg (Nat.succ_ne_zero n), h.shift]
  start := h.no_start hk

theorem Reading.edge (h : Reading div d k (n + 1) v s) (hk : k < 10) (hdiv : i.baudDivisor = div)
    (hline : i.syncRxd = !v) : Reading div d k (div.toNat / 2 + 1) (!v) (posedge i s) where
  looks := by
    apply looks_of_edge hdiv
    rw [rxdEdge, hline, h.level2]
    cases v <;> rfl
  level1 := hline
  level2 := hline
  shift := by rw [h.shift_posedge hk, if_neg (Nat.succ_ne_zero n), h.shift]
  start := h.no_start hk

/-- **A look** into a cell. -/
theorem Reading.look (h : Reading div d k 0 v s) (hk : k < 10) (hdiv : i.baudDivisor = div)
    (hpos : 0 < div.toNat) (hline : i.syncRxd = v) (hv : v = (frame d).getLsbD k) :
    Reading div d (k + 1) div.toNat v (posedge i s) where
  looks := looks_again hdiv (h.no_edge hline) hpos h.looks
  level1 := hline
  level2 := hline
  shift := by rw [h.shift_posedge hk, if_pos rfl, h.shift, hline, hv, shifted]
  start := h.no_start hk

/-- **The start bit**: two clocks after the falling edge the register is full of
ones. -/
theorem Ready.start_bit {j : UartRxIn} (h : Ready s) (hdiv : i.baudDivisor = div)
    (hdiv' : j.baudDivisor = div) (hi : i.syncRxd = false) (hj : j.syncRxd = false) :
    Reading div d 0 (div.toNat / 2) false (posedge j (posedge i s)) where
  looks := by
    apply looks_succ hdiv'
    · show (j.syncRxd ^^ i.syncRxd) = false
      rw [hi, hj]
      rfl
    · apply looks_of_edge hdiv
      rw [rxdEdge, hi, h.level2]
      rfl
  level1 := hj
  level2 := hj
  shift := by
    have hstart : (posedge i s).doStartRx = true := by
      show (!rxInProcess s && (!i.syncRxd && s.delayedSyncRxd1)) = true
      rw [h.inProcess, hi, h.level1]
      rfl
    show (if (posedge i s).doStartRx then BitVec.allOnes 10 else _) = _
    rw [hstart, if_pos rfl]
    rfl
  start := by
    show (!rxInProcess (posedge i s) && (!j.syncRxd && i.syncRxd)) = false
    rw [hi, Bool.and_false, Bool.and_false]

/-- As long as nothing starts, nothing is coming in. -/
theorem rxInProcess_posedge (hidle : rxInProcess s = false) (hstart : s.doStartRx = false) :
    rxInProcess (posedge i s) = false := by
  have hshift : (posedge i s).rxdShiftReg = s.rxdShiftReg := by
    show (if s.doStartRx then _ else if sampleEnable s then _ else _) = _
    rw [hstart, sampleEnable, hidle, Bool.and_false]
    rfl
  rw [rxInProcess, hshift]
  exact hidle

theorem gotNewChar_posedge (hidle : rxInProcess s = false) : gotNewChar (posedge i s) = false := by
  show (!rxInProcess (posedge i s) && rxInProcess s) = false
  rw [hidle, Bool.and_false]

theorem Ready.idle (h : Ready s) (hline : i.syncRxd = true) : Ready (posedge i s) where
  inProcess := rxInProcess_posedge h.inProcess h.start
  level1 := hline
  level2 := hline
  start := by
    show (!rxInProcess s && (!i.syncRxd && s.delayedSyncRxd1)) = false
    rw [hline]
    exact Bool.and_false _

end Byte

/-! ## §4  A session -/

/-- The characters that `got_new_char` has announced up to clock `t`, `t`
included: when, and as they stand in the shift register. -/
def received (s : UartRx) (sched : ℕ → UartRxIn) : ℕ → List (ℕ × BitVec 10)
  | 0 => if gotNewChar s then [(0, s.rxdShiftReg)] else []
  | t + 1 =>
      received s sched t ++
        if gotNewChar (stateAt posedge s sched (t + 1)) then
          [(t + 1, (stateAt posedge s sched (t + 1)).rxdShiftReg)]
        else []

section Session

variable {div : BitVec 13} {d : BitVec 8} {k n c m b e j : ℕ} {v : Bool} {s : UartRx}
  {sched : ℕ → UartRxIn} {line : ℕ → Bool} {cs : List (ℕ × BitVec 10)} {start : ℕ → ℕ}

theorem received_succ_of_not {t : ℕ} (h : gotNewChar (stateAt posedge s sched (t + 1)) = false) :
    received s sched (t + 1) = received s sched t := by
  rw [received, h]
  exact List.append_nil _

/-- What goes into the receiver: the line, at a constant rate. -/
structure Listens (div : BitVec 13) (line : ℕ → Bool) (sched : ℕ → UartRxIn) : Prop where
  divisor : ∀ t, (sched t).baudDivisor = div
  line : ∀ t, (sched t).syncRxd = line t

/-- At clock `c` a byte is coming in, and `cs` have come before. -/
structure ReadingAt (div : BitVec 13) (d : BitVec 8) (cs : List (ℕ × BitVec 10)) (s : UartRx)
    (sched : ℕ → UartRxIn) (k n : ℕ) (v : Bool) (c : ℕ) : Prop where
  reading : Reading div d k n v (stateAt posedge s sched c)
  received : received s sched c = cs

theorem ReadingAt.succ (hlt : k < 10) (hcs : UartRx.received s sched c = cs)
    (h : Reading div d k n v (stateAt posedge s sched (c + 1))) :
    ReadingAt div d cs s sched k n v (c + 1) := by
  refine ⟨h, ?_⟩
  rw [received_succ_of_not, hcs]
  rw [gotNewChar, h.inProcess hlt]
  rfl

/-- Clocks without an edge, before the next look. -/
theorem ReadingAt.wait (h : ReadingAt div d cs s sched k n v c) (hin : Listens div line sched)
    (hk : k < 10) (hm : m ≤ n) (hline : Holds line c (c + m) v) :
    ReadingAt div d cs s sched k (n - m) v (c + m) := by
  induction m with
  | zero => exact h
  | succ m ih =>
      have hbefore := ih (by omega) (hline.mono le_rfl (by omega))
      rw [show n - m = n - (m + 1) + 1 by omega] at hbefore
      refine ReadingAt.succ hk hbefore.received (hbefore.reading.quiet hk (hin.divisor _) ?_)
      rw [hin.line]
      exact hline (c + m) (by omega) (by omega)

/-- **A cell**, from some clock in it before the look: after its end the next
look is a cell later than this one. -/
theorem ReadingAt.cell (h : ReadingAt div d cs s sched k n v c) (hin : Listens div line sched)
    (hpos : 0 < div.toNat) (hk : k < 9) (hv : v = (frame d).getLsbD k) (hline : Holds line c b v)
    (hlate : c + n < b) (hearly : b ≤ c + n + (div.toNat + 1)) :
    ∃ n', ReadingAt div d cs s sched (k + 1) n' v b ∧ b + n' = c + n + (div.toNat + 1) := by
  have hlook := h.wait hin (by omega) le_rfl (hline.mono le_rfl (by omega))
  rw [Nat.sub_self] at hlook
  have hnext : ReadingAt div d cs s sched (k + 1) div.toNat v (c + n + 1) := by
    refine ReadingAt.succ (by omega) hlook.received
      (hlook.reading.look (by omega) (hin.divisor _) hpos ?_ hv)
    rw [hin.line]
    exact hline _ (by omega) (by omega)
  refine ⟨div.toNat - (b - (c + n + 1)), ?_, by omega⟩
  have hend := hnext.wait hin (by omega) (m := b - (c + n + 1)) (by omega)
    (hline.mono (by omega) (by omega))
  rwa [show c + n + 1 + (b - (c + n + 1)) = b by omega] at hend

/-- In cell `k`, with the look into it to come: `j` cells after the last edge, at
the beginning of cell `e`. -/
def InCell (div : BitVec 13) (d : BitVec 8) (cs : List (ℕ × BitVec 10)) (s : UartRx)
    (sched : ℕ → UartRxIn) (start : ℕ → ℕ) (k : ℕ) : Prop :=
  ∃ c n e j, e + j = k ∧ start k ≤ c ∧
    ReadingAt div d cs s sched k n ((frame d).getLsbD k) c ∧
    c + n = start e + (div.toNat / 2 + 2) + j * (div.toNat + 1)

/-- At the beginning of cell `k`, with the look into the cell before it made. -/
def AtCell (div : BitVec 13) (d : BitVec 8) (cs : List (ℕ × BitVec 10)) (s : UartRx)
    (sched : ℕ → UartRxIn) (start : ℕ → ℕ) (k : ℕ) (v : Bool) : Prop :=
  ∃ n e j, e + j + 1 = k ∧ ReadingAt div d cs s sched k n v (start k) ∧
    start k + n = start e + (div.toNat / 2 + 2) + (j + 1) * (div.toNat + 1)

theorem InCell.next (h : InCell div d cs s sched start k) (hin : Listens div line sched)
    (hpos : 0 < div.toNat) (hread : Readable (div.toNat / 2 + 2) (div.toNat + 1) start)
    (hcarry : Carries line d start) (hk : k < 9) :
    AtCell div d cs s sched start (k + 1) ((frame d).getLsbD k) := by
  obtain ⟨c, n, e, j, rfl, hc, hreading, hlook⟩ := h
  have hlate := hread.late e j (by omega)
  have hearly := hread.early e j hk
  rw [Nat.succ_mul] at hearly
  obtain ⟨n', hreading', hlook'⟩ := hreading.cell hin hpos hk rfl
    ((hcarry (e + j) (by omega)).mono hc le_rfl) (by omega) (by omega)
  refine ⟨n', e, j, rfl, hreading', ?_⟩
  rw [Nat.succ_mul]
  omega

theorem AtCell.enter (h : AtCell div d cs s sched start k v) (hin : Listens div line sched)
    (hread : Readable (div.toNat / 2 + 2) (div.toNat + 1) start)
    (hcarry : Carries line d start) (hk : k < 10) : InCell div d cs s sched start k := by
  obtain ⟨n, e, j, rfl, hreading, hlook⟩ := h
  by_cases hv : v = (frame d).getLsbD (e + j + 1)
  · exact ⟨start (e + j + 1), n, e, j + 1, rfl, le_rfl, hv ▸ hreading, hlook⟩
  · -- an edge: the look is not due yet, and is put off
    have hearly := hread.early e j (by omega)
    obtain ⟨n, rfl⟩ : ∃ n', n = n' + 1 := ⟨n - 1, by omega⟩
    have hbit : (frame d).getLsbD (e + j + 1) = !v := by
      rw [Bool.eq_not]
      exact fun h => hv h.symm
    have hlate : start (e + j + 1) + (div.toNat / 2 + 2) + 0 * (div.toNat + 1) <
        start (e + j + 1 + 1) := hread.late (e + j + 1) 0 (by omega)
    refine ⟨start (e + j + 1) + 1, div.toNat / 2 + 1, e + j + 1, 0, rfl, by omega, ?_, by omega⟩
    refine ReadingAt.succ hk hreading.received ?_
    rw [hbit]
    refine hreading.reading.edge hk (hin.divisor _) ?_
    rw [hin.line, ← hbit]
    exact hcarry (e + j + 1) hk _ le_rfl (by omega)

/-- A falling edge, and nothing is coming in: the start bit. -/
theorem inCell_zero (hready : Ready (stateAt posedge s sched (start 0)))
    (hcs : received s sched (start 0) = cs) (hin : Listens div line sched)
    (hread : Readable (div.toNat / 2 + 2) (div.toNat + 1) start) (hcarry : Carries line d start) :
    InCell div d cs s sched start 0 := by
  have hlate : start 0 + (div.toNat / 2 + 2) + 0 * (div.toNat + 1) < start 1 :=
    hread.late 0 0 (by omega)
  have hlow : ∀ t, start 0 ≤ t → t < start 1 → (sched t).syncRxd = false := by
    intro t hat htb
    rw [hin.line, hcarry 0 (by omega) t hat htb, frame_start]
  have hfirst : gotNewChar (stateAt posedge s sched (start 0 + 1)) = false :=
    gotNewChar_posedge hready.inProcess
  refine ⟨start 0 + 1 + 1, div.toNat / 2, 0, 0, rfl, by omega, ?_, by omega⟩
  refine ReadingAt.succ (by omega) ((received_succ_of_not hfirst).trans hcs) ?_
  rw [frame_start]
  exact hready.start_bit (hin.divisor _) (hin.divisor _) (hlow _ le_rfl (by omega))
    (hlow _ (by omega) (by omega))

theorem inCell (hready : Ready (stateAt posedge s sched (start 0)))
    (hcs : received s sched (start 0) = cs) (hin : Listens div line sched) (hpos : 0 < div.toNat)
    (hread : Readable (div.toNat / 2 + 2) (div.toNat + 1) start) (hcarry : Carries line d start) :
    ∀ k < 10, InCell div d cs s sched start k := by
  intro k
  induction k with
  | zero => exact fun _ => inCell_zero hready hcs hin hread hcarry
  | succ k ih =>
      intro hk
      exact ((ih (by omega)).next hin hpos hread hcarry (by omega)).enter hin hread hcarry hk

/-- The last look, into the stop bit, ends the byte. -/
theorem InCell.stop (h : InCell div d cs s sched start 9) (hin : Listens div line sched)
    (hpos : 0 < div.toNat) (hread : Readable (div.toNat / 2 + 2) (div.toNat + 1) start)
    (hcarry : Carries line d start) :
    ∃ c, start 9 < c ∧ c ≤ start 10 ∧ Ready (stateAt posedge s sched c) ∧
      received s sched c = cs ++ [(c, frame d)] := by
  obtain ⟨c, n, e, j, hej, hc, hreading, hlook⟩ := h
  have hlate : start e + (div.toNat / 2 + 2) + j * (div.toNat + 1) < start 10 := by
    have hend := hread.late e j (by omega)
    rwa [hej] at hend
  have hcell : Holds line (start 9) (start 10) ((frame d).getLsbD 9) := hcarry 9 (by omega)
  have hlast := hreading.wait hin (by omega) le_rfl (hcell.mono hc (by omega))
  rw [Nat.sub_self] at hlast
  have hline : (sched (c + n)).syncRxd = (frame d).getLsbD 9 := by
    rw [hin.line]
    exact hcell _ (by omega) (by omega)
  have hdone : Reading div d 10 div.toNat true (stateAt posedge s sched (c + n + 1)) := by
    rw [← frame_stop d]
    exact hlast.reading.look (by omega) (hin.divisor (c + n)) hpos hline rfl
  have hidle : rxInProcess (stateAt posedge s sched (c + n + 1)) = false := by
    rw [rxInProcess, hdone.shift, shifted_ten, frame_start]
  refine ⟨c + n + 1, by omega, by omega,
    ⟨hidle, hdone.level1, hdone.level2, hdone.start⟩, ?_⟩
  have hgot : gotNewChar (stateAt posedge s sched (c + n + 1)) = true := by
    rw [gotNewChar, hidle]
    exact hlast.reading.inProcess (by omega)
  rw [received, hlast.received, if_pos hgot, hdone.shift, shifted_ten]

/-- An idle line. -/
theorem Ready.wait (h : Ready (stateAt posedge s sched c)) (hin : Listens div line sched)
    (hcb : c ≤ b) (hline : Holds line c b true) :
    Ready (stateAt posedge s sched b) ∧ received s sched b = received s sched c := by
  induction b, hcb using Nat.le_induction with
  | base => exact ⟨h, rfl⟩
  | succ b hcb ih =>
      obtain ⟨hready, hsame⟩ := ih (hline.mono le_rfl (by omega))
      refine ⟨hready.idle ?_, ?_⟩
      · rw [hin.line]
        exact hline b hcb (by omega)
      · exact (received_succ_of_not (gotNewChar_posedge hready.inProcess)).trans hsame

/-- **One byte.** -/
theorem received_byte (hready : Ready (stateAt posedge s sched (start 0)))
    (hin : Listens div line sched) (hpos : 0 < div.toNat)
    (hread : Readable (div.toNat / 2 + 2) (div.toNat + 1) start) (hcarry : Carries line d start) :
    Ready (stateAt posedge s sched (start 10)) ∧ ∃ c, start 9 < c ∧ c ≤ start 10 ∧
      received s sched (start 10) = received s sched (start 0) ++ [(c, frame d)] := by
  obtain ⟨c, hc, hend, hready', hgot⟩ :=
    (inCell hready rfl hin hpos hread hcarry 9 (by omega)).stop hin hpos hread hcarry
  have hhigh : Holds line c (start 10) true := by
    have hstop := hcarry 9 (by omega)
    rw [frame_stop] at hstop
    exact hstop.mono (by omega) le_rfl
  obtain ⟨hready'', hsame⟩ := hready'.wait hin hend hhigh
  exact ⟨hready'', c, hc, hend, hsame.trans hgot⟩

/-- The least distance of two characters: half a cell and eight whole ones. -/
def gap (div : BitVec 13) : ℕ := div.toNat / 2 + 2 + 8 * (div.toNat + 1)

/-- **A session.** Whatever reads and status writes are made meanwhile: the
receiver announces the bytes on the line, each once and in order, with their
stop bits, and never two of them within `gap` clocks. -/
theorem received_session {a : ℕ} {ds : List (BitVec 8)} (hin : Listens div line sched)
    (hpos : 0 < div.toNat) (hready : Ready (stateAt posedge s sched a))
    (hline : Session line (div.toNat / 2 + 2) (div.toNat + 1) a ds b) :
    ∃ news, received s sched b = received s sched a ++ news ∧
      news.map Prod.snd = ds.map frame ∧ (∀ x ∈ news, a + gap div < x.1) ∧
      news.Pairwise fun x y => x.1 + gap div < y.1 := by
  induction hline with
  | idle hab hhigh =>
      obtain ⟨-, hsame⟩ := hready.wait hin hab hhigh
      exact ⟨[], hsame.trans (List.append_nil _).symm, rfl, List.forall_mem_nil _, .nil⟩
  | @byte a b d ds start ha hhigh hcarry hread _ ih =>
      obtain ⟨hready₁, hsame⟩ := hready.wait hin ha hhigh
      obtain ⟨hready₂, c, hc, hend, hbyte⟩ := received_byte hready₁ hin hpos hread hcarry
      obtain ⟨news, hrest, hbytes, hfirst, hgaps⟩ := ih hready₂
      have hfar : start 0 + gap div < start 9 := by
        have hlate := hread.late 0 8 (by omega)
        unfold gap
        rw [← Nat.add_assoc]
        exact hlate
      refine ⟨(c, frame d) :: news, ?_, ?_, ?_, .cons ?_ hgaps⟩
      · rw [hrest, hbyte, hsame, List.append_assoc]
        rfl
      · rw [List.map_cons, List.map_cons, hbytes]
      · rintro x hx
        rcases List.mem_cons.mp hx with rfl | hx'
        · show a + gap div < c
          omega
        · have hlater := hfirst x hx'
          omega
      · rintro x hx
        have hlater := hfirst x hx
        show c + gap div < x.1
        omega

end Session

/-! ## §5  The one-byte mailbox -/

/-- The values read at the clocks before `t`. -/
def taken (s : UartRx) (sched : ℕ → UartRxIn) : ℕ → List (BitVec 8)
  | 0 => []
  | t + 1 =>
      taken s sched t ++
        if rxRdStrobeOnset (sched t) then [(stateAt posedge s sched t).rxData] else []

/-- What is there to be read. -/
def waiting (s : UartRx) : List (BitVec 8) := if s.rxCharReady then [s.rxData] else []

/-- The reader: it reads only what is ready, and what is ready before `g` clocks
are over. -/
structure Prompt (g : ℕ) (s : UartRx) (sched : ℕ → UartRxIn) (T : ℕ) : Prop where
  checked : ∀ t ≤ T, rxRdStrobeOnset (sched t) = true →
    (stateAt posedge s sched t).rxCharReady = true
  prompt : ∀ t ≤ T, (stateAt posedge s sched t).rxCharReady = true →
    ∃ u, t ≤ u ∧ u < t + g ∧ rxRdStrobeOnset (sched u) = true

theorem Prompt.mono {g T T' : ℕ} {s : UartRx} {sched : ℕ → UartRxIn} (h : Prompt g s sched T)
    (hT : T' ≤ T) : Prompt g s sched T' where
  checked t ht := h.checked t (ht.trans hT)
  prompt t ht := h.prompt t (ht.trans hT)

theorem Prompt.slower {g g' T : ℕ} {s : UartRx} {sched : ℕ → UartRxIn} (h : Prompt g s sched T)
    (hg : g ≤ g') : Prompt g' s sched T where
  checked := h.checked
  prompt t ht hready := by
    obtain ⟨u, htu, hut, hread⟩ := h.prompt t ht hready
    exact ⟨u, htu, by omega, hread⟩

section Mailbox

variable {s : UartRx} {sched : ℕ → UartRxIn} {T g : ℕ}

theorem mem_received {t : ℕ} (hgot : gotNewChar (stateAt posedge s sched t) = true) (ht : t ≤ T) :
    (t, (stateAt posedge s sched t).rxdShiftReg) ∈ received s sched T := by
  induction T with
  | zero =>
      obtain rfl := Nat.le_zero.mp ht
      rw [received, if_pos (show gotNewChar s = true from hgot)]
      exact List.mem_singleton_self _
  | succ T ih =>
      rw [received]
      rcases Nat.lt_or_ge T t with hlt | hle
      · obtain rfl : t = T + 1 := by omega
        rw [if_pos hgot]
        exact List.mem_append_right _ (List.mem_singleton_self _)
      · exact List.mem_append_left _ (ih hle)

theorem rxCharReady_succ (t : ℕ) :
    (stateAt posedge s sched (t + 1)).rxCharReady =
      if rxRdStrobeOnset (sched t) then false
      else if gotNewChar (stateAt posedge s sched t) then true
      else (stateAt posedge s sched t).rxCharReady := rfl

theorem rxData_succ (t : ℕ) :
    (stateAt posedge s sched (t + 1)).rxData =
      if gotNewChar (stateAt posedge s sched t) then rawDataIn (stateAt posedge s sched t)
      else (stateAt posedge s sched t).rxData := rfl

/-- Only a read takes away what is ready. -/
theorem rxCharReady_kept {t u : ℕ} (htu : t ≤ u)
    (hready : (stateAt posedge s sched t).rxCharReady = true)
    (hnone : ∀ w, t ≤ w → w < u → rxRdStrobeOnset (sched w) = false) :
    (stateAt posedge s sched u).rxCharReady = true := by
  induction u, htu using Nat.le_induction with
  | base => exact hready
  | succ u htu ih =>
      rw [rxCharReady_succ, hnone u htu (Nat.lt_succ_self u),
        ih fun w htw hwu => hnone w htw (hwu.trans (Nat.lt_succ_self u))]
      simp

/-- What is ready has come since the last read. -/
theorem ready_since (h0 : s.rxCharReady = false) {t : ℕ}
    (h : (stateAt posedge s sched t).rxCharReady = true) :
    ∃ u < t, gotNewChar (stateAt posedge s sched u) = true ∧
      ∀ w, u ≤ w → w < t → rxRdStrobeOnset (sched w) = false := by
  induction t with
  | zero => exact absurd (h0.symm.trans h) (by decide)
  | succ t ih =>
      rw [rxCharReady_succ] at h
      cases hread : rxRdStrobeOnset (sched t) with
      | true =>
          rw [hread] at h
          exact absurd h (by simp)
      | false =>
          rw [hread] at h
          cases hgot : gotNewChar (stateAt posedge s sched t) with
          | true =>
              refine ⟨t, Nat.lt_succ_self t, hgot, fun w hw hwt => ?_⟩
              obtain rfl : w = t := by omega
              exact hread
          | false =>
              rw [hgot] at h
              obtain ⟨u, hu, hgot', hnone⟩ := ih h
              refine ⟨u, by omega, hgot', fun w hw hwt => ?_⟩
              rcases Nat.lt_succ_iff_lt_or_eq.mp hwt with hlt | rfl
              · exact hnone w hw hlt
              · exact hread

/-- A prompt reader has read before the next character comes. -/
theorem not_ready_of_prompt (h0 : s.rxCharReady = false) (hreader : Prompt g s sched T)
    (hgaps : ∀ t u, t < u → u ≤ T → gotNewChar (stateAt posedge s sched t) = true →
      gotNewChar (stateAt posedge s sched u) = true → t + g < u) {u : ℕ} (hu : u ≤ T)
    (hgot : gotNewChar (stateAt posedge s sched u) = true) :
    (stateAt posedge s sched u).rxCharReady = false := by
  apply Bool.eq_false_iff.mpr
  intro hready
  obtain ⟨t, htu, hgot', hnone⟩ := ready_since h0 hready
  have hfar := hgaps t u htu hu hgot' hgot
  have hnext : (stateAt posedge s sched (t + 1)).rxCharReady = true := by
    rw [rxCharReady_succ, hnone t le_rfl htu, hgot']
    rfl
  obtain ⟨w, hw, hwg, hread⟩ := hreader.prompt (t + 1) (by omega) hnext
  rw [hnone w (by omega) (by omega)] at hread
  exact absurd hread (by decide)

/-- **Reads are apart** by what characters are, less the time the reader may
take. -/
theorem reads_apart {G r r' : ℕ} (h0 : s.rxCharReady = false) (hreader : Prompt g s sched T)
    (hgaps : ∀ t u, t < u → u ≤ T → gotNewChar (stateAt posedge s sched t) = true →
      gotNewChar (stateAt posedge s sched u) = true → t + G < u) (hr' : r' ≤ T) (hrr : r < r')
    (hread : rxRdStrobeOnset (sched r) = true) (hread' : rxRdStrobeOnset (sched r') = true) :
    r + G < r' + g := by
  obtain ⟨t, htr, hgot, hnone⟩ := ready_since h0 (hreader.checked r (by omega) hread)
  obtain ⟨t', htr', hgot', hnone'⟩ := ready_since h0 (hreader.checked r' hr' hread')
  have hbetween : r < t' := by
    by_contra hle
    rw [hnone' r (by omega) hrr] at hread
    exact absurd hread (by decide)
  have hfar := hgaps t t' (by omega) (by omega) hgot hgot'
  have hnext : (stateAt posedge s sched (t + 1)).rxCharReady = true := by
    rw [rxCharReady_succ, hnone t le_rfl htr, hgot]
    rfl
  obtain ⟨w, hw, hwg, hreadw⟩ := hreader.prompt (t + 1) (by omega) hnext
  have hlate : r ≤ w := by
    by_contra hlt
    rw [hnone w (by omega) (by omega)] at hreadw
    exact absurd hreadw (by decide)
  omega

/-- What a clock takes out of the mailbox and leaves in it is what was in it and
what has come. -/
theorem waiting_succ {t : ℕ}
    (hchecked : rxRdStrobeOnset (sched t) = true →
      (stateAt posedge s sched t).rxCharReady = true)
    (hempty : gotNewChar (stateAt posedge s sched t) = true →
      (stateAt posedge s sched t).rxCharReady = false) :
    (if rxRdStrobeOnset (sched t) then [(stateAt posedge s sched t).rxData] else []) ++
        waiting (stateAt posedge s sched (t + 1)) =
      waiting (stateAt posedge s sched t) ++
        if gotNewChar (stateAt posedge s sched t) then
          [rawDataIn (stateAt posedge s sched t)]
        else [] := by
  rw [waiting, waiting, rxCharReady_succ, rxData_succ]
  cases hgot : gotNewChar (stateAt posedge s sched t) with
  | true =>
      have hfree := hempty hgot
      have hno : rxRdStrobeOnset (sched t) = false := by
        apply Bool.eq_false_iff.mpr
        intro hread
        exact absurd (hfree.symm.trans (hchecked hread)) (by decide)
      rw [hfree, hno]
      rfl
  | false =>
      cases hread : rxRdStrobeOnset (sched t) with
      | true =>
          rw [hchecked hread]
          rfl
      | false => simp

/-- **The mailbox** loses nothing as long as it is empty when a character
comes. -/
theorem taken_waiting (h0 : s.rxCharReady = false)
    (hchecked : ∀ t ≤ T, rxRdStrobeOnset (sched t) = true →
      (stateAt posedge s sched t).rxCharReady = true)
    (hempty : ∀ t ≤ T, gotNewChar (stateAt posedge s sched t) = true →
      (stateAt posedge s sched t).rxCharReady = false) :
    taken s sched (T + 1) ++ waiting (stateAt posedge s sched (T + 1)) =
      (received s sched T).map fun x => x.2.extractLsb' 1 8 := by
  induction T with
  | zero =>
      have hnone : waiting (stateAt posedge s sched 0) = [] := by
        rw [stateAt_zero, waiting, h0]
        rfl
      rw [taken, taken, List.append_assoc, waiting_succ (hchecked 0 le_rfl) (hempty 0 le_rfl),
        hnone, received, stateAt_zero]
      split <;> rfl
  | succ T ih =>
      rw [taken, List.append_assoc, waiting_succ (hchecked _ le_rfl) (hempty _ le_rfl),
        ← List.append_assoc, ih (fun t ht => hchecked t (by omega))
          (fun t ht => hempty t (by omega)), received, List.map_append]
      congr 1
      split <;> rfl

/-- No flag says that a character was bad or lost. -/
structure Flawless (s : UartRx) : Prop where
  framingError : s.framingError = false
  breakDetect : s.breakDetect = false
  rxOverrun : s.rxOverrun = false

theorem flag_low {wr event flag : Bool} (hevent : event = false) (hflag : flag = false) :
    (if wr then false else if event then true else flag) = false := by
  rw [hevent, hflag]
  cases wr <;> rfl

/-- Only a bad character, or one that finds another, raises a flag. -/
theorem Flawless.posedge {i : UartRxIn} (h : Flawless s)
    (hgood : gotNewChar s = true → stopBit s = true ∧ s.rxCharReady = false) :
    Flawless (posedge i s) := by
  cases hgot : gotNewChar s with
  | false =>
      exact ⟨flag_low (by rw [hgot, Bool.false_and]) h.framingError,
        flag_low (by rw [hgot, Bool.false_and]) h.breakDetect,
        flag_low (by rw [hgot, Bool.false_and]) h.rxOverrun⟩
  | true =>
      obtain ⟨hstop, hfree⟩ := hgood hgot
      have hbreak : isBreak s = false := by
        apply Bool.eq_false_iff.mpr
        intro hzero
        rw [stopBit, eq_of_beq hzero] at hstop
        exact absurd hstop (by decide)
      refine ⟨flag_low ?_ h.framingError, flag_low ?_ h.breakDetect, flag_low ?_ h.rxOverrun⟩
      · rw [isFramingError, hstop]
        exact Bool.and_false _
      · rw [hbreak]
        exact Bool.and_false _
      · rw [hfree]
        exact Bool.and_false _

end Mailbox

section Link

variable {div : BitVec 13} {sched : ℕ → UartRxIn} {line : ℕ → Bool} {ds : List (BitVec 8)} {m b : ℕ}

/-- The line is low for `m` clocks after reset, while the synchronizer is still
cleared: that is no start bit. -/
theorem blank_of_reset (hin : Listens div line sched) (hlow : Holds line 0 m false) :
    rxInProcess (stateAt posedge reset sched m) = false ∧
      (stateAt posedge reset sched m).delayedSyncRxd1 = false ∧
      (stateAt posedge reset sched m).doStartRx = false ∧ received reset sched m = [] := by
  induction m with
  | zero => exact ⟨(by decide : rxInProcess reset = false), rfl, rfl, rfl⟩
  | succ m ih =>
      obtain ⟨hidle, hlevel, hstart, hnone⟩ := ih (hlow.mono le_rfl (Nat.le_succ m))
      refine ⟨rxInProcess_posedge hidle hstart, ?_, ?_,
        (received_succ_of_not (gotNewChar_posedge hidle)).trans hnone⟩
      · exact (hin.line m).trans (hlow m (Nat.zero_le m) (Nat.lt_succ_self m))
      · show (!rxInProcess _ && (!_ && (stateAt posedge reset sched m).delayedSyncRxd1)) = false
        rw [hlevel, Bool.and_false, Bool.and_false]

/-- It takes the receiver a clock to see that the line is high. -/
theorem ready_of_reset (hin : Listens div line sched) (hlow : Holds line 0 m false)
    (hidle : line m = true) :
    Ready (stateAt posedge reset sched (m + 1)) ∧ received reset sched (m + 1) = [] := by
  obtain ⟨hblank, hlevel, hstart, hnone⟩ := blank_of_reset hin hlow
  have hhigh : (sched m).syncRxd = true := (hin.line m).trans hidle
  refine ⟨⟨rxInProcess_posedge hblank hstart, hhigh, hhigh, ?_⟩,
    (received_succ_of_not (gotNewChar_posedge hblank)).trans hnone⟩
  show (!rxInProcess _ && (!_ && (stateAt posedge reset sched m).delayedSyncRxd1)) = false
  rw [hlevel, Bool.and_false, Bool.and_false]

/-- Characters that are pairwise apart are announced apart. -/
theorem apart_of_pairwise {g t u : ℕ} {cs : List (ℕ × BitVec 10)} {x y : BitVec 10}
    (hgaps : cs.Pairwise fun x y => x.1 + g < y.1) (hx : (t, x) ∈ cs) (hy : (u, y) ∈ cs)
    (htu : t < u) : t + g < u := by
  obtain ⟨i, hi, hix⟩ := List.getElem_of_mem hx
  obtain ⟨j, hj, hjy⟩ := List.getElem_of_mem hy
  have hpair := List.pairwise_iff_getElem.mp hgaps
  rcases Nat.lt_trichotomy i j with hij | rfl | hji
  · have hfar := hpair i j hi hj hij
    rwa [hix, hjy] at hfar
  · have hsame := congrArg Prod.fst (hix.symm.trans hjy)
    exact absurd hsame htu.ne
  · have hfar := hpair j i hj hi hji
    rw [hix, hjy] at hfar
    exact absurd (show u + g < t from hfar) (by omega)

/-- The characters of a session from reset on. -/
theorem received_of_reset (hin : Listens div line sched) (hpos : 0 < div.toNat)
    (hlow : Holds line 0 m false) (hidle : line m = true)
    (hline : Session line (div.toNat / 2 + 2) (div.toNat + 1) (m + 1) ds b) :
    (received reset sched b).map Prod.snd = ds.map frame ∧
      (received reset sched b).Pairwise fun x y => x.1 + gap div < y.1 := by
  obtain ⟨hready, hnone⟩ := ready_of_reset hin hlow hidle
  obtain ⟨news, hall, hbytes, -, hgaps⟩ := received_session hin hpos hready hline
  rw [hnone, List.nil_append] at hall
  rw [hall]
  exact ⟨hbytes, hgaps⟩

theorem got_apart {t u : ℕ} (hgaps : (received reset sched b).Pairwise fun x y =>
      x.1 + gap div < y.1) (htu : t < u) (hu : u ≤ b)
    (hgot : gotNewChar (stateAt posedge reset sched t) = true)
    (hgot' : gotNewChar (stateAt posedge reset sched u) = true) : t + gap div < u :=
  apart_of_pairwise hgaps (mem_received hgot (by omega)) (mem_received hgot' hu) htu

/-- **The receiver.** Bytes whose cells can be read, and a reader that takes what
is ready before the shortest byte is over: what it has read, and what is still
there for it, is what was on the line, and no flag is ever raised. -/
theorem bytes_in_time (hin : Listens div line sched) (hpos : 0 < div.toNat)
    (hlow : Holds line 0 m false) (hidle : line m = true)
    (hline : Session line (div.toNat / 2 + 2) (div.toNat + 1) (m + 1) ds b)
    (hreader : Prompt (gap div) reset sched b) :
    taken reset sched (b + 1) ++ waiting (stateAt posedge reset sched (b + 1)) = ds ∧
      ∀ t ≤ b + 1, Flawless (stateAt posedge reset sched t) := by
  obtain ⟨hbytes, hgaps⟩ := received_of_reset hin hpos hlow hidle hline
  have hempty : ∀ t ≤ b, gotNewChar (stateAt posedge reset sched t) = true →
      (stateAt posedge reset sched t).rxCharReady = false := by
    intro t ht hgot
    exact not_ready_of_prompt rfl hreader (fun t u => got_apart hgaps) ht hgot
  have hstop : ∀ t ≤ b, gotNewChar (stateAt posedge reset sched t) = true →
      stopBit (stateAt posedge reset sched t) = true := by
    intro t ht hgot
    have hframe := List.mem_map_of_mem (f := Prod.snd) (mem_received hgot ht)
    rw [hbytes] at hframe
    obtain ⟨d, -, hd⟩ := List.mem_map.mp hframe
    rw [stopBit, ← frame_stop d, hd]
  constructor
  · rw [taken_waiting rfl hreader.checked hempty]
    calc ((received reset sched b).map fun x => x.2.extractLsb' 1 8)
        = ((received reset sched b).map Prod.snd).map fun r => r.extractLsb' 1 8 := by
            rw [List.map_map]
            rfl
      _ = ds.map fun d => (frame d).extractLsb' 1 8 := by
            rw [hbytes, List.map_map]
            rfl
      _ = ds := by simp only [frame_data, List.map_id']
  · intro t
    induction t with
    | zero => exact fun _ => ⟨rfl, rfl, rfl⟩
    | succ t ih =>
        intro ht
        exact (ih (by omega)).posedge fun hgot =>
          ⟨hstop t (by omega) hgot, hempty t (by omega) hgot⟩

end Link

end UartRx

end FpgaCnc
