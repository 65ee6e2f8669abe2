import FpgaCnc.Hdl.UartRx
import FpgaCnc.Hdl.UartTx

/-!
# `system_0_uart_0`: the pendant's UART

`submodules/system_0_uart_0.v`: the registers on the bus, and with them the
transmitter and the receiver. The rate is a constant of the module, 4 in
simulation and 5208 in synthesis.

§1 the module · §2 transfers · §3 what is written · §4 what is read · §5 one
UART to another.
-/

namespace FpgaCnc

open Clocked SerialLine

/-! ## §1  The module -/

/-- The inputs sampled at a clock edge. -/
structure UartIn where
  address : BitVec 3
  begintransfer : Bool
  chipselect : Bool
  readN : Bool
  writeN : Bool
  writedata : BitVec 16
  /-- `rxd`, behind the receiver's synchronizer. -/
  syncRxd : Bool
deriving DecidableEq, Repr

/-- The registers of `system_0_uart_0_regs`, and the two parts below it. -/
structure Uart where
  controlReg : BitVec 10
  d1RxCharReady : Bool
  d1TxReady : Bool
  irq : Bool
  readdata : BitVec 16
  txData : BitVec 8
  rx : UartRx
  tx : UartTx
deriving DecidableEq, Repr

namespace Uart

def reset : Uart := ⟨0, false, false, false, 0, 0, UartRx.reset, UartTx.reset⟩

def rxRdStrobe (i : UartIn) : Bool := i.chipselect && !i.readN && i.address == 0

def txWrStrobe (i : UartIn) : Bool := i.chipselect && !i.writeN && i.address == 1

def statusWrStrobe (i : UartIn) : Bool := i.chipselect && !i.writeN && i.address == 2

def controlWrStrobe (i : UartIn) : Bool := i.chipselect && !i.writeN && i.address == 3

def doForceBreak (s : Uart) : Bool := s.controlReg.getLsbD 9

/-- There is no parity: `parity_error` is tied to zero. -/
def anyError (s : Uart) : Bool :=
  s.tx.txOverrun || s.rx.rxOverrun || s.rx.framingError || s.rx.breakDetect

def statusReg (s : Uart) : BitVec 13 :=
  0#4 ++ BitVec.ofBool (anyError s) ++ BitVec.ofBool s.rx.rxCharReady ++
    BitVec.ofBool s.tx.txReady ++ BitVec.ofBool s.tx.txShiftEmpty ++
    BitVec.ofBool s.tx.txOverrun ++ BitVec.ofBool s.rx.rxOverrun ++
    BitVec.ofBool s.rx.breakDetect ++ BitVec.ofBool s.rx.framingError ++ 0#1

def selectedReadData (i : UartIn) (s : Uart) : BitVec 16 :=
  (if i.address == 0 then s.rx.rxData.setWidth 16 else 0) |||
    (if i.address == 1 then s.txData.setWidth 16 else 0) |||
    (if i.address == 2 then (statusReg s).setWidth 16 else 0) |||
    (if i.address == 3 then s.controlReg.setWidth 16 else 0)

/-- The enables are the bits of the control register below `do_force_break`. -/
def qualifiedIrq (s : Uart) : Bool :=
  s.controlReg.getLsbD 8 && anyError s ||
    s.controlReg.getLsbD 5 && s.tx.txShiftEmpty ||
    s.controlReg.getLsbD 4 && s.tx.txOverrun ||
    s.controlReg.getLsbD 3 && s.rx.rxOverrun ||
    s.controlReg.getLsbD 2 && s.rx.breakDetect ||
    s.controlReg.getLsbD 1 && s.rx.framingError ||
    s.controlReg.getLsbD 7 && s.rx.rxCharReady ||
    s.controlReg.getLsbD 6 && s.tx.txReady

/-- How the receiver is wired. -/
def rxIn (divisorConstant : BitVec 13) (i : UartIn) : UartRxIn where
  baudDivisor := divisorConstant
  begintransfer := i.begintransfer
  rxRdStrobe := rxRdStrobe i
  statusWrStrobe := statusWrStrobe i
  syncRxd := i.syncRxd

/-- How the transmitter is wired. -/
def txIn (divisorConstant : BitVec 13) (i : UartIn) (s : Uart) : UartTxIn where
  baudDivisor := divisorConstant
  begintransfer := i.begintransfer
  doForceBreak := doForceBreak s
  statusWrStrobe := statusWrStrobe i
  txData := s.txData
  txWrStrobe := txWrStrobe i

/-- One clock edge. -/
def posedge (divisorConstant : BitVec 13) (i : UartIn) (s : Uart) : Uart where
  controlReg := if controlWrStrobe i then i.writedata.setWidth 10 else s.controlReg
  d1RxCharReady := s.rx.rxCharReady
  d1TxReady := s.tx.txReady
  irq := qualifiedIrq s
  readdata := selectedReadData i s
  txData := if txWrStrobe i then i.writedata.setWidth 8 else s.txData
  rx := UartRx.posedge (rxIn divisorConstant i) s.rx
  tx := UartTx.posedge (txIn divisorConstant i s) s.tx

/-! ## §2  Transfers -/

/-- A write on the bus. -/
def isWrite (i : UartIn) : Bool := i.chipselect && !i.writeN

/-- What the slave translator promises: `begintransfer` marks the first clock of a
write, and during the others the write stands. -/
structure Transfers (sched : ℕ → UartIn) : Prop where
  first : isWrite (sched 0) = true → (sched 0).begintransfer = true
  stands : ∀ t, isWrite (sched (t + 1)) = true → (sched (t + 1)).begintransfer = false →
    isWrite (sched t) = true ∧ (sched (t + 1)).address = (sched t).address ∧
      (sched (t + 1)).writedata = (sched t).writedata

/-- What the transmitter sees in a run. -/
def txSched (div : BitVec 13) (s : Uart) (sched : ℕ → UartIn) (t : ℕ) : UartTxIn :=
  txIn div (sched t) (stateAt (posedge div) s sched t)

section Parts

variable {div : BitVec 13} {s : Uart} {sched : ℕ → UartIn} {t : ℕ}

theorem rx_stateAt (t : ℕ) :
    (stateAt (posedge div) s sched t).rx =
      stateAt UartRx.posedge s.rx (fun t => rxIn div (sched t)) t :=
  stateAt_proj Uart.rx (fun i _ => rxIn div i) (fun _ _ => rfl) s sched t

theorem tx_stateAt (t : ℕ) :
    (stateAt (posedge div) s sched t).tx =
      stateAt UartTx.posedge s.tx (txSched div s sched) t :=
  stateAt_proj Uart.tx (txIn div) (fun _ _ => rfl) s sched t

theorem txData_succ (t : ℕ) :
    (stateAt (posedge div) s sched (t + 1)).txData =
      if txWrStrobe (sched t) then (sched t).writedata.setWidth 8
      else (stateAt (posedge div) s sched t).txData := rfl

theorem txWrStrobe_eq (i : UartIn) : txWrStrobe i = (isWrite i && i.address == 1) := rfl

/-- After its first clock a write of a byte writes it again. -/
theorem txData_held (hbus : Transfers sched)
    (hnot : UartTx.txWrStrobeOnset (txSched div s sched t) = false) :
    (stateAt (posedge div) s sched (t + 1)).txData =
      (stateAt (posedge div) s sched t).txData := by
  have hnot' : (txWrStrobe (sched t) && (sched t).begintransfer) = false := hnot
  rw [txData_succ]
  cases hwrite : txWrStrobe (sched t) with
  | false => rfl
  | true =>
      rw [hwrite, Bool.true_and] at hnot'
      rw [txWrStrobe_eq, Bool.and_eq_true] at hwrite
      cases t with
      | zero => exact absurd (hnot'.symm.trans (hbus.first hwrite.1)) (by decide)
      | succ t =>
          obtain ⟨hbefore, haddress, hdata⟩ := hbus.stands t hwrite.1 hnot'
          have hsame : txWrStrobe (sched t) = true := by
            rw [txWrStrobe_eq, hbefore, ← haddress, hwrite.2]
            rfl
          rw [txData_succ, hsame, hdata]
          rfl

end Parts

/-! ## §3  What is written -/

/-- The bytes written to `txdata` in the transfers begun before clock `t`. -/
def written (sched : ℕ → UartIn) : ℕ → List (BitVec 8)
  | 0 => []
  | t + 1 =>
      written sched t ++
        if txWrStrobe (sched t) && (sched t).begintransfer then
          [(sched t).writedata.setWidth 8]
        else []

/-- The line. -/
def txd (div : BitVec 13) (sched : ℕ → UartIn) (t : ℕ) : Bool :=
  (stateAt (posedge div) reset sched t).tx.txd

/-- Two writes, begun at clocks 3 and `n`. -/
def twoWrites (n t : ℕ) : UartIn where
  address := 1
  begintransfer := t == 3 || t == n
  chipselect := t == 3 || t == 4 || t == n || t == n + 1
  readN := true
  writeN := false
  writedata := if t < n then 0x55 else 0x0F
  syncRxd := true

theorem transfers_twoWrites {n : ℕ} (hn : 5 < n) : Transfers (twoWrites n) := by
  have hends : ∀ t, isWrite (twoWrites n t) = true ↔ t = 3 ∨ t = 4 ∨ t = n ∨ t = n + 1 := by
    intro t
    simp [isWrite, twoWrites, or_assoc]
  constructor
  · intro hwrite
    rw [hends] at hwrite
    omega
  · intro t hwrite hbegin
    rw [hends] at hwrite
    have hlater : t + 1 ≠ 3 ∧ t + 1 ≠ n := by simpa [twoWrites] using hbegin
    refine ⟨(hends t).mpr (by omega), rfl, ?_⟩
    show (if t + 1 < n then (0x55 : BitVec 16) else 0x0F) = if t < n then 0x55 else 0x0F
    congr 1
    exact propext (by omega)

theorem control_twoWrites (n t : ℕ) : controlWrStrobe (twoWrites n t) = false :=
  Bool.and_false _

section Written

variable {div : BitVec 13} {s : Uart} {sched : ℕ → UartIn} {t T h : ℕ}

theorem written_eq (t : ℕ) : written sched t = UartTx.written (txSched div s sched) t := by
  induction t with
  | zero => rfl
  | succ t ih =>
      rw [written, UartTx.written, ih]
      congr 1
      show (if txWrStrobe (sched t) && (sched t).begintransfer then _ else _) =
        if txWrStrobe (sched t) && (sched t).begintransfer then
          [(stateAt (posedge div) s sched (t + 1)).txData] else []
      rw [txData_succ]
      cases hwrite : txWrStrobe (sched t) with
      | false => rfl
      | true => rfl

theorem doForceBreak_stateAt (hs : doForceBreak s = false)
    (hunbroken : ∀ t, controlWrStrobe (sched t) = true → (sched t).writedata.getLsbD 9 = false)
    (t : ℕ) : doForceBreak (stateAt (posedge div) s sched t) = false := by
  induction t with
  | zero => exact hs
  | succ t ih =>
      show (if controlWrStrobe (sched t) then (sched t).writedata.setWidth 10
        else (stateAt (posedge div) s sched t).controlReg).getLsbD 9 = false
      cases hwrite : controlWrStrobe (sched t) with
      | false => exact ih
      | true =>
          rw [if_pos rfl, BitVec.getLsbD_setWidth, hunbroken t hwrite]
          rfl

/-- The write of a byte is not one of the status register. -/
theorem status_of_onset (hwrite : UartTx.txWrStrobeOnset (txSched div s sched t) = true) :
    (txSched div s sched t).statusWrStrobe = false := by
  have hboth : (txWrStrobe (sched t) && (sched t).begintransfer) = true := hwrite
  rw [Bool.and_eq_true, txWrStrobe_eq, Bool.and_eq_true] at hboth
  have haddress : (sched t).address = 1 := eq_of_beq hboth.1.2
  show (_ && (sched t).address == 2) = false
  rw [haddress]
  exact Bool.and_false _

/-- What the bus does, as the transmitter sees it. -/
theorem feeds (hbus : Transfers sched)
    (hunbroken : ∀ t, controlWrStrobe (sched t) = true → (sched t).writedata.getLsbD 9 = false)
    (hdown : ∀ t ≤ T, (stateAt (posedge div) reset sched t).tx.txOverrun = false) :
    UartTx.Feeds div UartTx.reset (txSched div reset sched) T where
  divisor _ := rfl
  unbroken t := doForceBreak_stateAt rfl hunbroken t
  held _ _ hnot := txData_held hbus hnot
  checked t ht hwrite := by
    have hnext := hdown (t + 1) ht
    rw [tx_stateAt] at hnext
    exact UartTx.checked_of_txOverrun (status_of_onset hwrite) hwrite hnext

theorem session_txd {b : ℕ} {ds : List (BitVec 8)} {P : ℕ}
    (hs : Session (UartTx.line (txSched div reset sched)) h P 0 ds b) :
    Session (txd div sched) h P 0 ds b := by
  have hsame : txd div sched = UartTx.line (txSched div reset sched) := by
    ext t
    rw [txd, tx_stateAt]
    rfl
  rwa [hsame]

/-- **Sending.** As long as `tx_overrun` has not come up: what has been written by
clock `t` is on the line two bytes later, in order and in cells that can be
read, and `tx_ready` has been up again. -/
theorem sends (hbus : Transfers sched)
    (hunbroken : ∀ t, controlWrStrobe (sched t) = true → (sched t).writedata.getLsbD 9 = false)
    (hdown : ∀ t ≤ T, (stateAt (posedge div) reset sched t).tx.txOverrun = false)
    (hearly : 2 < h) (hlate : h < div.toNat + 1) (ht : t + 2 * UartTx.span div ≤ T) :
    ∃ u b, t ≤ u ∧ u < b ∧ b ≤ t + 2 * UartTx.span div + 2 ∧
      (stateAt (posedge div) reset sched u).tx.txReady = true ∧
      Session (txd div sched) h (div.toNat + 1) 0 (written sched u) b := by
  obtain ⟨u, b, htu, hub, hbt, hready, hline⟩ :=
    UartTx.sent_in_time (feeds hbus hunbroken hdown) hearly hlate ht
  refine ⟨u, b, htu, hub, hbt, ?_, ?_⟩
  · rw [tx_stateAt]
    exact hready
  · rw [@written_eq div reset sched]
    exact session_txd hline

end Written

theorem sends_twoWrites :
    ∃ u b, 10 ≤ u ∧ u < b ∧ b ≤ 120 ∧
      (stateAt (posedge 4) reset (twoWrites 8) u).tx.txReady = true ∧
      Session (txd 4 (twoWrites 8)) 4 5 0 [0x55, 0x0F] b := by
  have hdown : ∀ t ≤ 118, (stateAt (posedge 4) reset (twoWrites 8) t).tx.txOverrun = false := by
    decide +kernel
  obtain ⟨u, b, hu, hub, hb, hready, hline⟩ :=
    sends (h := 4) (t := 10) (transfers_twoWrites (by decide))
      (fun t hwrite => absurd ((control_twoWrites 8 t).symm.trans hwrite) (by decide))
      hdown (by decide) (by decide) (by decide)
  have hboth : ∀ u ≤ 120, 10 ≤ u → written (twoWrites 8) u = [0x55, 0x0F] := by decide +kernel
  have hspan : b ≤ 120 := hb
  exact ⟨u, b, hu, hub, hspan, hready, hboth u (by omega) hu ▸ hline⟩

/-- **Sending without asking.** Writes that are two bytes and three clocks apart
need no look at `tx_ready`: what has been written by clock `t` is on the line two
bytes later. -/
theorem sends_spaced {div : BitVec 13} {sched : ℕ → UartIn} {h : ℕ} (hbus : Transfers sched)
    (hunbroken : ∀ t, controlWrStrobe (sched t) = true → (sched t).writedata.getLsbD 9 = false)
    (hspaced : ∀ t u, t < u → (txWrStrobe (sched t) && (sched t).begintransfer) = true →
      (txWrStrobe (sched u) && (sched u).begintransfer) = true →
      t + (2 * UartTx.span div + 3) ≤ u)
    (hearly : 2 < h) (hlate : h < div.toNat + 1) (t : ℕ) :
    ∃ u b, t ≤ u ∧ u < b ∧ b ≤ t + 2 * UartTx.span div + 2 ∧
      Session (txd div sched) h (div.toNat + 1) 0 (written sched u) b := by
  have hbreak := @doForceBreak_stateAt div reset sched rfl hunbroken
  have hheld : ∀ t, UartTx.txWrStrobeOnset (txSched div reset sched t) = false →
      (txSched div reset sched (t + 1)).txData = (txSched div reset sched t).txData :=
    fun t hnot => txData_held hbus hnot
  have hin : UartTx.Feeds div UartTx.reset (txSched div reset sched) (t + 2 * UartTx.span div) :=
    ⟨fun _ => rfl, hbreak, fun t _ => hheld t, fun t _ => UartTx.checked_of_spaced (by omega)
      (fun _ => rfl) hbreak hheld hspaced⟩
  obtain ⟨u, b, htu, hub, hbt, -, hline⟩ := UartTx.sent_in_time hin hearly hlate le_rfl
  refine ⟨u, b, htu, hub, hbt, ?_⟩
  rw [@written_eq div reset sched]
  exact session_txd hline

theorem sends_spaced_twoWrites :
    ∃ u b, 116 ≤ u ∧ u < b ∧ b ≤ 226 ∧
      Session (txd 4 (twoWrites 114)) 4 5 0 [0x55, 0x0F] b := by
  have hbegins : ∀ t, (txWrStrobe (twoWrites 114 t) && (twoWrites 114 t).begintransfer) = true →
      t = 3 ∨ t = 114 := by
    intro t hwrite
    rw [Bool.and_eq_true] at hwrite
    simpa [twoWrites] using hwrite.2
  have hspaced : ∀ t u, t < u →
      (txWrStrobe (twoWrites 114 t) && (twoWrites 114 t).begintransfer) = true →
      (txWrStrobe (twoWrites 114 u) && (twoWrites 114 u).begintransfer) = true →
      t + (2 * UartTx.span 4 + 3) ≤ u := by
    intro t u htu ht hu
    have hspan : UartTx.span 4 = 54 := rfl
    rcases hbegins t ht with rfl | rfl <;> rcases hbegins u hu with rfl | rfl <;> omega
  obtain ⟨u, b, hu, hub, hb, hline⟩ := @sends_spaced 4 (twoWrites 114) 4
    (transfers_twoWrites (by decide))
    (fun t hwrite => absurd ((control_twoWrites 114 t).symm.trans hwrite) (by decide)) hspaced
    (by decide) (by decide) 116
  have hboth : ∀ u ≤ 226, 116 ≤ u → written (twoWrites 114) u = [0x55, 0x0F] := by decide +kernel
  have hspan : b ≤ 226 := hb
  exact ⟨u, b, hu, hub, hspan, hboth u (by omega) hu ▸ hline⟩

/-! ## §4  What is read -/

/-- The bytes read from `rxdata` in the transfers begun before clock `t`. -/
def read (div : BitVec 13) (sched : ℕ → UartIn) : ℕ → List (BitVec 8)
  | 0 => []
  | t + 1 =>
      read div sched t ++
        if rxRdStrobe (sched t) && (sched t).begintransfer then
          [(stateAt (posedge div) reset sched (t + 1)).readdata.setWidth 8]
        else []

/-- What the receiver sees. -/
def rxSched (div : BitVec 13) (sched : ℕ → UartIn) (t : ℕ) : UartRxIn := rxIn div (sched t)

/-- A wire of two clocks from `twoWrites`, and two reads, begun at clocks 70 and
120. -/
def twoReads (t : ℕ) : UartIn where
  address := 0
  begintransfer := t == 70 || t == 120
  chipselect := t == 70 || t == 71 || t == 120 || t == 121
  readN := false
  writeN := true
  writedata := 0
  syncRxd := decide (2 ≤ t) && txd 4 (twoWrites 8) (t - 2)

theorem prompt_twoReads : UartRx.Prompt 44 UartRx.reset (rxSched 4 twoReads) 124 where
  checked t _ hread := by
    have hwhen : t = 70 ∨ t = 120 := by
      have hboth : (_ && (t == 70 || t == 120)) = true := hread
      rw [Bool.and_eq_true] at hboth
      simpa using hboth.2
    rcases hwhen with rfl | rfl <;> decide +kernel
  prompt t ht hready := by
    have hwhen : ∀ t ≤ 124,
        (stateAt UartRx.posedge UartRx.reset (rxSched 4 twoReads) t).rxCharReady = true →
          26 < t ∧ t ≤ 70 ∨ 76 < t ∧ t ≤ 120 := by decide +kernel
    rcases hwhen t ht hready with ⟨hlate, hearly⟩ | ⟨hlate, hearly⟩
    · exact ⟨70, hearly, by omega, rfl⟩
    · exact ⟨120, hearly, by omega, rfl⟩

section Read

variable {div : BitVec 13} {sched : ℕ → UartIn} {line : ℕ → Bool} {ds : List (BitVec 8)} {m b : ℕ}

theorem read_eq (t : ℕ) : read div sched t = UartRx.taken UartRx.reset (rxSched div sched) t := by
  induction t with
  | zero => rfl
  | succ t ih =>
      rw [read, UartRx.taken, ih]
      congr 1
      show (if rxRdStrobe (sched t) && (sched t).begintransfer then _ else _) =
        if rxRdStrobe (sched t) && (sched t).begintransfer then _ else _
      cases hread : rxRdStrobe (sched t) with
      | false => rfl
      | true =>
          have haddress : (sched t).address = 0 := by
            rw [rxRdStrobe, Bool.and_eq_true] at hread
            exact eq_of_beq hread.2
          have hdata : (stateAt (posedge div) reset sched (t + 1)).readdata.setWidth 8 =
              (stateAt (posedge div) reset sched t).rx.rxData := by
            show (selectedReadData (sched t) _).setWidth 8 = _
            rw [selectedReadData, haddress]
            simp
          rw [hdata, rx_stateAt]
          rfl

/-- **Receiving.** Bytes whose cells can be read, and a reader that takes what is
ready before the shortest byte is over: what it has read, and what is still
there for it, is what was on the line, and the status register has no error of
the receiver. -/
theorem receives (hline : ∀ t, (sched t).syncRxd = line t) (hpos : 0 < div.toNat)
    (hlow : Holds line 0 m false) (hidle : line m = true)
    (hsession : Session line (div.toNat / 2 + 2) (div.toNat + 1) (m + 1) ds b)
    (hreader : UartRx.Prompt (UartRx.gap div) UartRx.reset (rxSched div sched) b) :
    read div sched (b + 1) ++ UartRx.waiting (stateAt (posedge div) reset sched (b + 1)).rx = ds ∧
      ∀ t ≤ b + 1, UartRx.Flawless (stateAt (posedge div) reset sched t).rx := by
  have hin : UartRx.Listens div line (rxSched div sched) := ⟨fun _ => rfl, hline⟩
  obtain ⟨hbytes, hflags⟩ := UartRx.bytes_in_time hin hpos hlow hidle hsession hreader
  constructor
  · rw [read_eq, rx_stateAt]
    exact hbytes
  · intro t ht
    rw [rx_stateAt]
    exact hflags t ht

end Read

theorem receives_twoReads :
    read 4 twoReads 123 ++ UartRx.waiting (stateAt (posedge 4) reset twoReads 123).rx =
        [0x55, 0x0F] ∧
      ∀ t ≤ 123, UartRx.Flawless (stateAt (posedge 4) reset twoReads t).rx := by
  have hbytes : ∀ i < 10,
      (∀ t < 124, cells 10 5 2 i ≤ t → t < cells 10 5 2 (i + 1) →
        (twoReads t).syncRxd = (frame 0x55).getLsbD i) ∧
      ∀ t < 124, cells 64 5 2 i ≤ t → t < cells 64 5 2 (i + 1) →
        (twoReads t).syncRxd = (frame 0x0F).getLsbD i := by decide +kernel
  have hend : ∀ a, ∀ i < 10, cells a 5 2 (i + 1) ≤ a + 52 := by
    intro a i hi
    rw [cells]
    omega
  have hfirst : Carries (fun t => (twoReads t).syncRxd) 0x55 (cells 10 5 2) := by
    intro i hi t hat htb
    have hbefore := hend 10 i hi
    exact (hbytes i hi).1 t (by omega) hat htb
  have hsecond : Carries (fun t => (twoReads t).syncRxd) 0x0F (cells 64 5 2) := by
    intro i hi t hat htb
    have hbefore := hend 64 i hi
    exact (hbytes i hi).2 t (by omega) hat htb
  have hhigh : ∀ t < 124, 2 ≤ t → t < 10 ∨ 62 ≤ t ∧ t < 64 ∨ 116 ≤ t →
      (twoReads t).syncRxd = true := by
    decide +kernel
  have hlow : ∀ t < 2, (twoReads t).syncRxd = false := by decide +kernel
  have hread : ∀ a, Readable 4 5 (cells a 5 2) :=
    fun a => readable_cells a (by decide) (by decide)
  have hsession : Session (fun t => (twoReads t).syncRxd) 4 5 3 [0x55, 0x0F] 122 := by
    refine .byte (by decide) ?_ hfirst (hread 10) (.byte (by decide) ?_ hsecond (hread 64)
      (.idle (by decide) ?_))
    · intro t hat (htb : t < 10)
      exact hhigh t (by omega) (by omega) (.inl htb)
    · intro t (hat : 62 ≤ t) (htb : t < 64)
      exact hhigh t (by omega) (by omega) (.inr (.inl ⟨hat, htb⟩))
    · intro t (hat : 116 ≤ t) htb
      exact hhigh t (by omega) (by omega) (.inr (.inr hat))
  exact receives (m := 2) (fun _ => rfl) (by decide) (fun t _ ht => hlow t ht)
    (hhigh 2 (by omega) le_rfl (.inl (by omega))) hsession (prompt_twoReads.mono (by decide))

/-! ## §5  One UART to another -/

section Link

variable {div : BitVec 13} {sched sched' : ℕ → UartIn} {m δ t T : ℕ}

theorem txd_zero : txd div sched 0 = true := rfl

/-- What the second of two UARTs receives of a session of the first. -/
theorem session_wired {h P b : ℕ} {ds : List (BitVec 8)}
    (hwire : ∀ t, (sched' (t + δ)).syncRxd = txd div sched t) (hm : m ≤ δ)
    (hhigh : Holds (fun t => (sched' t).syncRxd) m δ true) (hb : 0 < b)
    (hs : Session (txd div sched) h P 0 ds b) :
    (sched' m).syncRxd = true ∧
      Session (fun t => (sched' t).syncRxd) h P (m + 1) ds (b + δ) := by
  have hidle : (sched' m).syncRxd = true := by
    rcases Nat.lt_or_ge m δ with hlt | hge
    · exact hhigh m le_rfl hlt
    · obtain rfl : m = 0 + δ := by omega
      exact (hwire 0).trans txd_zero
  have hmoved : Session (fun t => (sched' t).syncRxd) h P (0 + δ) ds (b + δ) := hs.delay hwire
  rw [Nat.zero_add] at hmoved
  refine ⟨hidle, (hmoved.wait hm hhigh).later (Nat.le_succ m) (by omega) ?_⟩
  intro t hat htb
  obtain rfl : t = m := by omega
  exact hidle

/-- **The round trip.** A first UART writes to a second, through a wire and the
second's synchronizer: as long as the first does not overrun and the second is
read promptly, what the second is read or has ready is what has been written to
the first, each byte once and in order, and each within the time of two bytes. -/
theorem carried (hbus : Transfers sched)
    (hunbroken : ∀ t, controlWrStrobe (sched t) = true → (sched t).writedata.getLsbD 9 = false)
    (hdown : ∀ t ≤ T, (stateAt (posedge div) reset sched t).tx.txOverrun = false)
    (hdiv : 3 ≤ div.toNat) (hwire : ∀ t, (sched' (t + δ)).syncRxd = txd div sched t)
    (hm : m ≤ δ) (hlow : Holds (fun t => (sched' t).syncRxd) 0 m false)
    (hhigh : Holds (fun t => (sched' t).syncRxd) m δ true)
    (hreader : UartRx.Prompt (UartRx.gap div) UartRx.reset (rxSched div sched') (T + 2 + δ))
    (ht : t + 2 * UartTx.span div ≤ T) :
    ∃ u v, t ≤ u ∧ v ≤ t + 2 * UartTx.span div + 3 + δ ∧
      read div sched' v ++ UartRx.waiting (stateAt (posedge div) reset sched' v).rx =
        written sched u := by
  obtain ⟨u, b, htu, hub, hbt, -, hline⟩ :=
    UartTx.sent_in_time (h := div.toNat / 2 + 2) (feeds hbus hunbroken hdown) (by omega)
      (by omega) ht
  obtain ⟨hidle, hsession⟩ := session_wired hwire hm hhigh (by omega) (session_txd hline)
  have hin : UartRx.Listens div (fun t => (sched' t).syncRxd) (rxSched div sched') :=
    ⟨fun _ => rfl, fun _ => rfl⟩
  obtain ⟨hbytes, -⟩ := UartRx.bytes_in_time hin (by omega) hlow hidle hsession
    (hreader.mono (by omega))
  refine ⟨u, b + δ + 1, htu, by omega, ?_⟩
  rw [read_eq, rx_stateAt, @written_eq div reset sched]
  exact hbytes

end Link

theorem carried_twoWrites :
    ∃ u v, 10 ≤ u ∧ v ≤ 123 ∧
      read 4 twoReads v ++ UartRx.waiting (stateAt (posedge 4) reset twoReads v).rx =
        written (twoWrites 8) u := by
  have hdown : ∀ t ≤ 118, (stateAt (posedge 4) reset (twoWrites 8) t).tx.txOverrun = false := by
    decide +kernel
  have hlow : ∀ t < 2, (twoReads t).syncRxd = false := by decide +kernel
  exact carried (m := 2) (t := 10) (δ := 2) (transfers_twoWrites (by decide))
    (fun t hwrite => absurd ((control_twoWrites 8 t).symm.trans hwrite) (by decide))
    hdown (by decide) (fun t => rfl) le_rfl (fun t _ ht => hlow t ht)
    (fun t hat htb => absurd htb (by omega)) (prompt_twoReads.mono (by decide)) (by decide)

end Uart

end FpgaCnc
