import FpgaCnc.Lib.IoProg
import FpgaCnc.Lib.Buffer
import Mathlib.Tactic.SplitIfs
import Mathlib.Tactic.IntervalCases

/-!
# The DM9000A driver

`software/cnc/DM9000A.C`, as programs over the bus of the Nios. Delays
(`usleep`) make no access and are left out. A `for (i = 0; i < n; i += 2)` loop
over the data port is a recursion over its `(n + 1) / 2` rounds.

§1 registers · §2 programs · §3 what `ReceivePacket` does with each answer of
the NIC · §4 what `TransmitPacket` does.
-/

namespace FpgaCnc

/-! ## §1  Bus and registers -/

/-- The peripherals the ethernet handler touches. -/
inductive Base where
  | dm9000a
  | cncModule0
  | ledGreen
deriving DecidableEq, Repr

/-- `IORD(base, off)` / `IOWR(base, off, data)`. -/
structure Addr where
  base : Base
  off : ℕ
deriving DecidableEq, Repr

abbrev Fw := IoProg Addr (BitVec 32)

abbrev BusAccess := Access Addr (BitVec 32)

def iord (base : Base) (off : ℕ) : Fw (BitVec 32) := IoProg.get ⟨base, off⟩

def iowr (base : Base) (off : ℕ) (data : BitVec 32) : Fw Unit := IoProg.put ⟨base, off⟩ data

namespace Dm9000a

def IO_addr : ℕ := 0
def IO_data : ℕ := 1

def NCR : BitVec 32 := 0x00
def NSR : BitVec 32 := 0x01
def TCR : BitVec 32 := 0x02
def RCR : BitVec 32 := 0x05
def ETXCSR : BitVec 32 := 0x30
def MRCMDX : BitVec 32 := 0xF0
def MRCMD : BitVec 32 := 0xF2
def MWCMD : BitVec 32 := 0xF8
def ISR : BitVec 32 := 0xFE
def IMR : BitVec 32 := 0xFF

def NCR_set : BitVec 32 := 0x00
def TX_REQUEST : BitVec 32 := 0x01
def RCR_set : BitVec 32 := 0x30
def RX_ENABLE : BitVec 32 := 0x01
def PASS_MULTICAST : BitVec 32 := 0x08
def BPTR_set : BitVec 32 := 0x3F
def FCTR_set : BitVec 32 := 0x5A
def RTFCR_set : BitVec 32 := 0x29
def ETXCSR_set : BitVec 32 := 0x83
def INTR_set : BitVec 32 := 0x81
def PAR_set : BitVec 32 := 0x80

def DMFE_SUCCESS : BitVec 32 := 0
def DMFE_FAIL : BitVec 32 := 1
def DM9000_PKT_READY : BitVec 32 := 0x01
def MAX_PACKET_SIZE : BitVec 32 := 1522

/-! ## §2  The driver -/

def iow (reg data : BitVec 32) : Fw Unit := do
  iowr .dm9000a IO_addr reg
  iowr .dm9000a IO_data data

def ior (reg : BitVec 32) : Fw (BitVec 32) := do
  iowr .dm9000a IO_addr reg
  iord .dm9000a IO_data

/-- The rounds of the transmit loop from index `i` on. -/
def sendWords (dataPtr : Buffer) : ℕ → ℕ → Fw Unit
  | 0, _ => pure ()
  | n + 1, i => do
      iowr .dm9000a IO_data
        ((dataPtr.byte (i + 1)).setWidth 32 <<< 8 ||| (dataPtr.byte i).setWidth 32)
      sendWords dataPtr n (i + 2)

/-- `while(!(ior(NSR)&0x0C));` -/
def waitTransmitDone : Fw Unit :=
  .poll ⟨.dm9000a, IO_addr⟩ NSR ⟨.dm9000a, IO_data⟩ (fun v => v &&& 0x0C != 0) (.ret ())

def transmitPacket (dataPtr : Buffer) (txLen : BitVec 32) : Fw (BitVec 32) := do
  iow IMR PAR_set
  iow 0xFD ((txLen >>> 8) &&& 0xFF)
  iow 0xFC (txLen &&& 0xFF)
  iowr .dm9000a IO_addr MWCMD
  sendWords dataPtr ((txLen.toNat + 1) / 2) 0
  iow TCR TX_REQUEST
  waitTransmitDone
  iow NSR 0x00
  iow IMR INTR_set
  return DMFE_SUCCESS

/-- The rounds of the copy loop from index `i` on. -/
def copyWords : ℕ → ℕ → Buffer → Fw Buffer
  | 0, _, dataPtr => pure dataPtr
  | n + 1, i, dataPtr => do
      let tmp ← iord .dm9000a IO_data
      copyWords n (i + 2)
        ((dataPtr.store i ((tmp &&& 0xFF).setWidth 8)).store
          (i + 1) (((tmp >>> 8) &&& 0xFF).setWidth 8))

/-- The rounds of the discard loop. -/
def discardWords : ℕ → Fw Unit
  | 0 => pure ()
  | n + 1 => do
      let _ ← iord .dm9000a IO_data
      discardWords n

/-- The software reset in `ReceivePacket`. -/
def resetNic : Fw Unit := do
  iow NCR 0x03
  iow NCR 0x00
  iow NCR 0x03
  iow NCR 0x00
  iow NCR NCR_set
  iow 0x08 BPTR_set
  iow 0x09 FCTR_set
  iow 0x0A RTFCR_set
  iow 0x0F 0x00
  iow 0x2D 0x80
  iow ETXCSR ETXCSR_set
  iow IMR INTR_set
  iow RCR (RCR_set ||| RX_ENABLE ||| PASS_MULTICAST)

/-- What `ReceivePacket` leaves behind: return value, `rx_len[0]`, buffer. -/
structure RxResult where
  ret : BitVec 32
  rxLen : BitVec 32
  dataPtr : Buffer

/-- The data port has 16 lines, so `rx_len[0]` is below `2^16` and the index of
its loops does not wrap. -/
def receivePacket (dataPtr : Buffer) : Fw RxResult := do
  iow IMR PAR_set
  let _ ← ior MRCMDX
  let mrcmdx ← iord .dm9000a IO_data
  let rxReady := mrcmdx &&& 0x03
  if rxReady = DM9000_PKT_READY then
    iowr .dm9000a IO_addr MRCMD
    let rxStatus ← iord .dm9000a IO_data
    let rxLen ← iord .dm9000a IO_data
    if rxStatus &&& 0xBF00 = 0 ∧ rxLen < MAX_PACKET_SIZE then
      let dataPtr ← copyWords ((rxLen.toNat + 1) / 2) 0 dataPtr
      return ⟨DMFE_SUCCESS, rxLen, dataPtr⟩
    else
      discardWords ((rxLen.toNat + 1) / 2)
      return ⟨DMFE_FAIL, 0, dataPtr⟩
  else if rxReady ≠ 1 ∧ rxReady ≠ 0 then
    resetNic
    return ⟨DMFE_FAIL, 0, dataPtr⟩
  else
    return ⟨DMFE_FAIL, 0, dataPtr⟩

/-! ## §3  `ReceivePacket`, answer by answer -/

open IoProg

/-- An access of the index and of the data port. -/
abbrev wrIdx (reg : BitVec 32) : BusAccess := .wr ⟨.dm9000a, IO_addr⟩ reg
abbrev wrDat (data : BitVec 32) : BusAccess := .wr ⟨.dm9000a, IO_data⟩ data
abbrev rdDat (data : BitVec 32) : BusAccess := .rd ⟨.dm9000a, IO_data⟩ data

theorem completes_iow_bind {α : Type} {reg data : BitVec 32} {f : Unit → Fw α}
    {tr : List BusAccess} {y : α} :
    Completes ((iow reg data).bind f) tr y ↔
      ∃ tr', tr = wrIdx reg :: wrDat data :: tr' ∧ Completes (f ()) tr' y := by
  show Completes ((iowr _ _ _).bind fun _ => (iowr _ _ _).bind f) tr y ↔ _
  simp only [iowr, completes_put_bind]
  constructor
  · rintro ⟨_, rfl, tr', rfl, h⟩
    exact ⟨tr', rfl, h⟩
  · rintro ⟨tr', rfl, h⟩
    exact ⟨_, rfl, tr', rfl, h⟩

theorem completes_ior_bind {α : Type} {reg : BitVec 32} {f : BitVec 32 → Fw α}
    {tr : List BusAccess} {y : α} :
    Completes ((ior reg).bind f) tr y ↔
      ∃ v tr', tr = wrIdx reg :: rdDat v :: tr' ∧ Completes (f v) tr' y := by
  show Completes ((iowr _ _ _).bind fun _ => (iord _ _).bind f) tr y ↔ _
  simp only [iowr, iord, completes_put_bind, completes_get_bind]
  constructor
  · rintro ⟨_, rfl, v, tr', rfl, h⟩
    exact ⟨v, tr', rfl, h⟩
  · rintro ⟨v, tr', rfl, h⟩
    exact ⟨_, rfl, v, tr', rfl, h⟩

theorem completes_iow {reg data : BitVec 32} {tr : List BusAccess} {y : Unit} :
    Completes (iow reg data) tr y ↔ tr = [wrIdx reg, wrDat data] := by
  have hscript : iow reg data =
      script [(⟨.dm9000a, IO_addr⟩, reg), (⟨.dm9000a, IO_data⟩, data)] := rfl
  rw [hscript, completes_script]
  rfl

theorem completes_ior {reg : BitVec 32} {tr : List BusAccess} {y : BitVec 32} :
    Completes (ior reg) tr y ↔ tr = [wrIdx reg, rdDat y] := by
  have hret : ior reg = (ior reg).bind .ret := rfl
  rw [hret, completes_ior_bind]
  simp only [completes_ret]
  constructor
  · rintro ⟨v, _, rfl, rfl, rfl⟩
    rfl
  · rintro rfl
    exact ⟨y, [], rfl, rfl, rfl⟩

/-- The bytes the copy loop stores from the words it reads. -/
def copyBytes : List (BitVec 32) → ℕ → Buffer → Buffer
  | [], _, b => b
  | w :: ws, i, b =>
      copyBytes ws (i + 2)
        ((b.store i ((w &&& 0xFF).setWidth 8)).store
          (i + 1) (((w >>> 8) &&& 0xFF).setWidth 8))

/-- Byte `j` of a sequence of 16-bit words, low byte first. -/
def wordByte (ws : List (BitVec 32)) (j : ℕ) : BitVec 8 :=
  (ws.getD (j / 2) 0 >>> (8 * (j % 2))).setWidth 8

theorem setWidth_and_ff (w : BitVec 32) : (w &&& 0xFF).setWidth 8 = w.setWidth 8 := by
  ext i hi
  interval_cases i <;> simp

theorem wordByte_cons_add_two (w : BitVec 32) (ws : List (BitVec 32)) (j : ℕ) :
    wordByte (w :: ws) (j + 2) = wordByte ws j := by
  rw [wordByte, wordByte, Nat.add_div_right _ (by omega), Nat.add_mod_right]
  rfl

/-- The copy loop fills `2 * ws.length` bytes from `i` on. -/
theorem copyBytes_byte (ws : List (BitVec 32)) (i j : ℕ) (b : Buffer) :
    (copyBytes ws i b).byte j =
      if i ≤ j ∧ j < i + 2 * ws.length then wordByte ws (j - i) else b.byte j := by
  induction ws generalizing i b with
  | nil => rw [copyBytes, if_neg (by simp only [List.length_nil]; omega)]
  | cons w ws ih =>
      rw [copyBytes, ih, List.length_cons]
      rcases Nat.lt_or_ge j (i + 2) with hlow | hhigh
      · rw [if_neg (by omega), Buffer.store_byte, Buffer.store_byte]
        rcases (by omega : j < i ∨ j = i ∨ j = i + 1) with hj | rfl | rfl
        · rw [if_neg (by omega), if_neg (by omega), if_neg (by omega)]
        · rw [if_neg (by omega), if_pos rfl, if_pos (by omega), Nat.sub_self, wordByte,
            setWidth_and_ff]
          simp
        · rw [if_pos rfl, if_pos (by omega), Nat.add_sub_cancel_left, wordByte,
            setWidth_and_ff]
          simp
      · obtain ⟨k, rfl⟩ : ∃ k, j = i + (k + 2) := ⟨j - i - 2, by omega⟩
        rw [Nat.add_sub_cancel_left, wordByte_cons_add_two,
          show i + (k + 2) - (i + 2) = k by omega, Buffer.store_byte, Buffer.store_byte]
        by_cases hk : k < 2 * ws.length
        · rw [if_pos (by omega), if_pos (by omega)]
        · rw [if_neg (by omega), if_neg (by omega), if_neg (by omega), if_neg (by omega)]

theorem completes_copyWords {n i : ℕ} {b y : Buffer} {tr : List BusAccess} :
    Completes (copyWords n i b) tr y ↔
      ∃ ws, ws.length = n ∧ tr = ws.map rdDat ∧ y = copyBytes ws i b := by
  induction n generalizing i b tr with
  | zero =>
      show Completes (.ret b) tr y ↔ _
      rw [completes_ret]
      constructor
      · rintro ⟨rfl, rfl⟩
        exact ⟨[], rfl, rfl, rfl⟩
      · rintro ⟨ws, hlen, rfl, rfl⟩
        obtain rfl := List.eq_nil_of_length_eq_zero hlen
        exact ⟨rfl, rfl⟩
  | succ n ih =>
      show Completes ((iord _ _).bind _) tr y ↔ _
      simp only [iord, completes_get_bind, ih]
      constructor
      · rintro ⟨v, tr', rfl, ws, hlen, rfl, rfl⟩
        exact ⟨v :: ws, by simp [hlen], rfl, rfl⟩
      · rintro ⟨ws, hlen, rfl, rfl⟩
        cases ws with
        | nil => exact absurd hlen (by simp)
        | cons v ws => exact ⟨v, _, rfl, ws, by simpa using hlen, rfl, rfl⟩

theorem completes_discardWords {n : ℕ} {y : Unit} {tr : List BusAccess} :
    Completes (discardWords n) tr y ↔
      ∃ ws : List (BitVec 32), ws.length = n ∧ tr = ws.map rdDat := by
  induction n generalizing tr with
  | zero =>
      show Completes (.ret ()) tr y ↔ _
      rw [completes_ret]
      constructor
      · rintro ⟨rfl, -⟩
        exact ⟨[], rfl, rfl⟩
      · rintro ⟨ws, hlen, rfl⟩
        obtain rfl := List.eq_nil_of_length_eq_zero hlen
        exact ⟨rfl, rfl⟩
  | succ n ih =>
      show Completes ((iord _ _).bind _) tr y ↔ _
      simp only [iord, completes_get_bind, ih]
      constructor
      · rintro ⟨v, tr', rfl, ws, hlen, rfl⟩
        exact ⟨v :: ws, by simp [hlen], rfl⟩
      · rintro ⟨ws, hlen, rfl⟩
        cases ws with
        | nil => exact absurd hlen (by simp)
        | cons v ws => exact ⟨v, _, rfl, ws, by simpa using hlen, rfl⟩

/-- The writes of a sequence of `iow` calls. -/
def iowWrites (xs : List (BitVec 32 × BitVec 32)) : List (Addr × BitVec 32) :=
  xs.flatMap fun x => [(⟨.dm9000a, IO_addr⟩, x.1), (⟨.dm9000a, IO_data⟩, x.2)]

/-- The writes of the software reset. -/
def resetWrites : List (Addr × BitVec 32) :=
  iowWrites [(NCR, 0x03), (NCR, 0x00), (NCR, 0x03), (NCR, 0x00), (NCR, NCR_set),
    (0x08, BPTR_set), (0x09, FCTR_set), (0x0A, RTFCR_set), (0x0F, 0x00), (0x2D, 0x80),
    (ETXCSR, ETXCSR_set), (IMR, INTR_set), (RCR, RCR_set ||| RX_ENABLE ||| PASS_MULTICAST)]

/-- Writes as accesses. -/
def writeTrace (ws : List (Addr × BitVec 32)) : List BusAccess := ws.map fun x => .wr x.1 x.2

def resetTrace : List BusAccess := writeTrace resetWrites

theorem completes_resetNic {tr : List BusAccess} {y : Unit} :
    Completes resetNic tr y ↔ tr = resetTrace := by
  have hscript : resetNic = script resetWrites := rfl
  rw [hscript, completes_script, resetTrace, writeTrace]

/-- The answers of the NIC to one `ReceivePacket`: the dummy byte, the ready
byte, and the status, length and data words of a packet, if one is ready. -/
structure RxResponse where
  dummy : BitVec 32
  ready : BitVec 32
  status : BitVec 32
  len : BitVec 32
  words : List (BitVec 32)

namespace RxResponse

variable (r : RxResponse)

def packetReady : Prop := r.ready &&& 0x03 = DM9000_PKT_READY

/-- The packet status and length test. -/
def good : Prop := r.status &&& 0xBF00 = 0 ∧ r.len < MAX_PACKET_SIZE

instance : Decidable r.packetReady := inferInstanceAs (Decidable (_ = _))
instance : Decidable r.good := inferInstanceAs (Decidable (_ ∧ _))

/-- As many data words as the loops read. -/
def Complete : Prop :=
  r.words.length = if r.packetReady then (r.len.toNat + 1) / 2 else 0

/-- The accesses of a call that gets these answers. -/
def trace : List BusAccess :=
  [wrIdx IMR, wrDat PAR_set, wrIdx MRCMDX, rdDat r.dummy, rdDat r.ready] ++
    if r.packetReady then
      [wrIdx MRCMD, rdDat r.status, rdDat r.len] ++ r.words.map rdDat
    else if r.ready &&& 0x03 ≠ 1 ∧ r.ready &&& 0x03 ≠ 0 then resetTrace
    else []

variable {r}

theorem trace_of_ready (h : r.packetReady) : r.trace =
    [wrIdx IMR, wrDat PAR_set, wrIdx MRCMDX, rdDat r.dummy, rdDat r.ready,
      wrIdx MRCMD, rdDat r.status, rdDat r.len] ++ r.words.map rdDat := by
  rw [trace, if_pos h]
  rfl

theorem trace_of_not_ready (h : ¬ r.packetReady) : r.trace =
    [wrIdx IMR, wrDat PAR_set, wrIdx MRCMDX, rdDat r.dummy, rdDat r.ready] ++
      if r.ready &&& 0x03 ≠ 1 ∧ r.ready &&& 0x03 ≠ 0 then resetTrace else [] := by
  rw [trace, if_neg h]

variable (r)

/-- What the call returns. -/
def result (dataPtr : Buffer) : RxResult :=
  if r.packetReady ∧ r.good then ⟨DMFE_SUCCESS, r.len, copyBytes r.words 0 dataPtr⟩
  else ⟨DMFE_FAIL, 0, dataPtr⟩

variable {r}

theorem result_of_good {dataPtr : Buffer} (hready : r.packetReady) (hgood : r.good) :
    r.result dataPtr = ⟨DMFE_SUCCESS, r.len, copyBytes r.words 0 dataPtr⟩ :=
  if_pos ⟨hready, hgood⟩

/-- The return value tells whether a good packet was copied. -/
theorem result_ret_eq_success {dataPtr : Buffer} :
    (r.result dataPtr).ret = DMFE_SUCCESS ↔ r.packetReady ∧ r.good := by
  rw [result]
  split_ifs with h
  · simp [h]
  · simp [h, DMFE_SUCCESS, DMFE_FAIL]

theorem result_of_not_good {dataPtr : Buffer} (h : ¬ (r.packetReady ∧ r.good)) :
    r.result dataPtr = ⟨DMFE_FAIL, 0, dataPtr⟩ := if_neg h

/-- The buffer after a call: a good packet covers it from the start on, by whole
words. -/
theorem result_byte (hr : r.Complete) (dataPtr : Buffer) (j : ℕ) :
    (r.result dataPtr).dataPtr.byte j =
      if r.packetReady ∧ r.good ∧ j < 2 * ((r.len.toNat + 1) / 2) then wordByte r.words j
      else dataPtr.byte j := by
  by_cases hgood : r.packetReady ∧ r.good
  · have hlen : r.words.length = (r.len.toNat + 1) / 2 := hr.trans (if_pos hgood.1)
    rw [result_of_good hgood.1 hgood.2, copyBytes_byte, hlen, Nat.zero_add, Nat.sub_zero]
    exact if_congr ⟨fun h => ⟨hgood.1, hgood.2, h.2⟩, fun h => ⟨Nat.zero_le j, h.2.2⟩⟩ rfl rfl
  · rw [result_of_not_good hgood, if_neg fun h => hgood ⟨h.1, h.2.1⟩]

/-- The bytes of a good packet. -/
theorem result_byte_of_good (hr : r.Complete) (hready : r.packetReady) (hgood : r.good)
    (dataPtr : Buffer) {j : ℕ} (hj : j < r.len.toNat) :
    (r.result dataPtr).dataPtr.byte j = wordByte r.words j := by
  rw [result_byte hr, if_pos ⟨hready, hgood, by omega⟩]

theorem result_of_ready {dataPtr : Buffer} (h : r.packetReady) :
    r.result dataPtr = if r.status &&& 0xBF00 = 0 ∧ r.len < MAX_PACKET_SIZE then
      ⟨DMFE_SUCCESS, r.len, copyBytes r.words 0 dataPtr⟩
    else ⟨DMFE_FAIL, 0, dataPtr⟩ := by
  by_cases hgood : r.good
  · rw [result_of_good h hgood]
    exact (if_pos hgood).symm
  · rw [result_of_not_good fun hc => hgood hc.2]
    exact (if_neg hgood).symm

end RxResponse

/-- An access of the NIC. -/
def nicAccess (x : BusAccess) : Prop := x.addr.base = .dm9000a

theorem not_nic_of_cnc {x : BusAccess} (hx : x.addr.base = .cncModule0) : ¬ nicAccess x :=
  fun h => absurd (hx.symm.trans h) (by decide)

theorem not_nic_of_led {x : BusAccess} (hx : x.addr.base = .ledGreen) : ¬ nicAccess x :=
  fun h => absurd (hx.symm.trans h) (by decide)

theorem only_iow (reg data : BitVec 32) : Only nicAccess (iow reg data) :=
  Only.bind (Only.put rfl) fun _ => Only.put rfl

theorem only_ior (reg : BitVec 32) : Only nicAccess (ior reg) :=
  Only.bind (Only.put rfl) fun _ => Only.get fun _ => rfl

theorem only_copyWords (n i : ℕ) (b : Buffer) : Only nicAccess (copyWords n i b) := by
  induction n generalizing i b with
  | zero => exact .ret b
  | succ n ih => exact Only.bind (Only.get fun _ => rfl) fun _ => ih _ _

theorem only_discardWords (n : ℕ) : Only nicAccess (discardWords n) := by
  induction n with
  | zero => exact .ret ()
  | succ n ih => exact Only.bind (Only.get fun _ => rfl) fun _ => ih

theorem only_resetNic : Only nicAccess resetNic := by
  repeat' first
    | exact only_iow _ _
    | refine Only.bind (only_iow _ _) fun _ => ?_

theorem only_receivePacket (dataPtr : Buffer) : Only nicAccess (receivePacket dataPtr) := by
  refine Only.bind (only_iow _ _) fun _ => Only.bind (only_ior _) fun _ =>
    Only.bind (Only.get fun _ => rfl) fun mrcmdx => ?_
  show Only nicAccess (if _ then _ else _)
  split_ifs
  · refine Only.bind (Only.put rfl) fun _ => Only.bind (Only.get fun _ => rfl) fun _ =>
      Only.bind (Only.get fun _ => rfl) fun _ => ?_
    show Only nicAccess (if _ then _ else _)
    split_ifs
    · exact Only.bind (only_copyWords _ _ _) fun _ => .ret _
    · exact Only.bind (only_discardWords _) fun _ => .ret _
  · exact Only.bind only_resetNic fun _ => .ret _
  · exact .ret _

/-- The data loop of a packet, good or bad. -/
theorem completes_takePacket {dataPtr : Buffer} {status len : BitVec 32} {tr : List BusAccess}
    {y : RxResult} :
    Completes (if status &&& 0xBF00 = 0 ∧ len < MAX_PACKET_SIZE then
        (copyWords ((len.toNat + 1) / 2) 0 dataPtr).bind fun b =>
          .ret (⟨DMFE_SUCCESS, len, b⟩ : RxResult)
      else
        (discardWords ((len.toNat + 1) / 2)).bind fun _ => .ret ⟨DMFE_FAIL, 0, dataPtr⟩) tr y ↔
      ∃ ws : List (BitVec 32), ws.length = (len.toNat + 1) / 2 ∧ tr = ws.map rdDat ∧
        y = if status &&& 0xBF00 = 0 ∧ len < MAX_PACKET_SIZE then
            ⟨DMFE_SUCCESS, len, copyBytes ws 0 dataPtr⟩
          else ⟨DMFE_FAIL, 0, dataPtr⟩ := by
  split_ifs with hgood
  · constructor
    · intro h
      obtain ⟨b, t₁, t₂, rfl, hcopy, hret⟩ := completes_bind.mp h
      obtain ⟨ws, hlen, rfl, rfl⟩ := completes_copyWords.mp hcopy
      obtain ⟨rfl, rfl⟩ := completes_ret.mp hret
      exact ⟨ws, hlen, List.append_nil _, rfl⟩
    · rintro ⟨ws, hlen, rfl, rfl⟩
      exact completes_bind.mpr ⟨_, _, [], (List.append_nil _).symm,
        completes_copyWords.mpr ⟨ws, hlen, rfl, rfl⟩, completes_ret.mpr ⟨rfl, rfl⟩⟩
  · constructor
    · intro h
      obtain ⟨_, t₁, t₂, rfl, hdiscard, hret⟩ := completes_bind.mp h
      obtain ⟨ws, hlen, rfl⟩ := completes_discardWords.mp hdiscard
      obtain ⟨rfl, rfl⟩ := completes_ret.mp hret
      exact ⟨ws, hlen, List.append_nil _, rfl⟩
    · rintro ⟨ws, hlen, rfl, rfl⟩
      exact completes_bind.mpr ⟨(), _, [], (List.append_nil _).symm,
        completes_discardWords.mpr ⟨ws, hlen, rfl⟩, completes_ret.mpr ⟨rfl, rfl⟩⟩

/-- What the call does when no packet is ready. -/
theorem completes_notReady {dataPtr : Buffer} {rxReady : BitVec 32} {tr : List BusAccess}
    {y : RxResult} :
    Completes (if rxReady ≠ 1 ∧ rxReady ≠ 0 then
        resetNic.bind fun _ => .ret (⟨DMFE_FAIL, 0, dataPtr⟩ : RxResult)
      else .ret ⟨DMFE_FAIL, 0, dataPtr⟩) tr y ↔
      (tr = if rxReady ≠ 1 ∧ rxReady ≠ 0 then resetTrace else []) ∧
        y = ⟨DMFE_FAIL, 0, dataPtr⟩ := by
  split_ifs with hreset
  · constructor
    · intro h
      obtain ⟨_, t₁, t₂, rfl, hr, hret⟩ := completes_bind.mp h
      obtain rfl := completes_resetNic.mp hr
      obtain ⟨rfl, rfl⟩ := completes_ret.mp hret
      exact ⟨List.append_nil _, rfl⟩
    · rintro ⟨rfl, rfl⟩
      exact completes_bind.mpr ⟨(), _, [], (List.append_nil _).symm,
        completes_resetNic.mpr rfl, completes_ret.mpr ⟨rfl, rfl⟩⟩
  · exact completes_ret

/-- **`ReceivePacket`, exactly.** Its complete runs are the traces of the
possible answers of the NIC, each with its result. -/
theorem completes_receivePacket {dataPtr : Buffer} {tr : List BusAccess} {y : RxResult} :
    Completes (receivePacket dataPtr) tr y ↔
      ∃ r : RxResponse, r.Complete ∧ tr = r.trace ∧ y = r.result dataPtr := by
  unfold receivePacket
  simp only [bind_eq, completes_iow_bind, completes_ior_bind, iord, completes_get_bind]
  constructor
  · rintro ⟨_, rfl, dummy, _, rfl, ready, t, rfl, h⟩
    by_cases hready : ready &&& 0x03 = DM9000_PKT_READY
    · rw [if_pos hready] at h
      obtain ⟨_, rfl, h₁⟩ := completes_put_bind.mp h
      obtain ⟨status, _, rfl, h₂⟩ := completes_get_bind.mp h₁
      obtain ⟨len, t, rfl, h₃⟩ := completes_get_bind.mp h₂
      obtain ⟨ws, hlen, rfl, rfl⟩ := completes_takePacket.mp h₃
      refine ⟨⟨dummy, ready, status, len, ws⟩, hlen.trans (if_pos hready).symm, ?_, ?_⟩
      · exact (RxResponse.trace_of_ready (r := ⟨dummy, ready, status, len, ws⟩) hready).symm
      · exact (RxResponse.result_of_ready (r := ⟨dummy, ready, status, len, ws⟩) hready).symm
    · rw [if_neg hready] at h
      obtain ⟨rfl, rfl⟩ := completes_notReady.mp h
      refine ⟨⟨dummy, ready, 0, 0, []⟩, (if_neg hready).symm, ?_,
        (if_neg fun hc => hready hc.1).symm⟩
      exact (RxResponse.trace_of_not_ready (r := ⟨dummy, ready, 0, 0, []⟩) hready).symm
  · rintro ⟨r, hcomplete, rfl, rfl⟩
    by_cases hready : r.packetReady
    · have hlen : r.words.length = (r.len.toNat + 1) / 2 :=
        hcomplete.trans (if_pos hready)
      rw [RxResponse.trace_of_ready hready, RxResponse.result_of_ready hready]
      refine ⟨_, rfl, r.dummy, _, rfl, r.ready, _, rfl, ?_⟩
      rw [if_pos (show r.ready &&& 0x03 = DM9000_PKT_READY from hready)]
      exact completes_put_bind.mpr ⟨_, rfl, completes_get_bind.mpr ⟨r.status, _, rfl,
        completes_get_bind.mpr ⟨r.len, r.words.map rdDat, rfl,
          completes_takePacket.mpr ⟨r.words, hlen, rfl, rfl⟩⟩⟩⟩
    · rw [RxResponse.trace_of_not_ready hready,
        RxResponse.result_of_not_good fun hc => hready hc.1]
      refine ⟨_, rfl, r.dummy, _, rfl, r.ready, _, rfl, ?_⟩
      rw [if_neg (show ¬ r.ready &&& 0x03 = DM9000_PKT_READY from hready)]
      exact completes_notReady.mpr ⟨rfl, rfl⟩

/-! ## §4  `TransmitPacket` -/

/-- The data words written for `n` rounds from index `i` on. -/
def txWords (dataPtr : Buffer) : ℕ → ℕ → List (BitVec 32)
  | 0, _ => []
  | n + 1, i =>
      ((dataPtr.byte (i + 1)).setWidth 32 <<< 8 ||| (dataPtr.byte i).setWidth 32) ::
        txWords dataPtr n (i + 2)

theorem completes_sendWords {dataPtr : Buffer} {n i : ℕ} {tr : List BusAccess} {y : Unit} :
    Completes (sendWords dataPtr n i) tr y ↔ tr = (txWords dataPtr n i).map wrDat := by
  induction n generalizing i tr with
  | zero => exact completes_ret.trans (and_iff_left rfl)
  | succ n ih =>
      show Completes ((iowr _ _ _).bind _) tr y ↔ _
      rw [iowr, completes_put_bind]
      simp only [ih, exists_eq_right]
      rfl

theorem only_sendWords (dataPtr : Buffer) (n i : ℕ) :
    Only nicAccess (sendWords dataPtr n i) := by
  induction n generalizing i with
  | zero => exact .ret ()
  | succ n ih => exact Only.bind (Only.put rfl) fun _ => ih _

theorem only_transmitPacket (dataPtr : Buffer) (txLen : BitVec 32) :
    Only nicAccess (transmitPacket dataPtr txLen) := by
  refine Only.bind (only_iow _ _) fun _ => Only.bind (only_iow _ _) fun _ =>
    Only.bind (only_iow _ _) fun _ => Only.bind (Only.put rfl) fun _ =>
    Only.bind (only_sendWords _ _ _) fun _ => Only.bind (only_iow _ _) fun _ => ?_
  refine Only.bind (.poll rfl (fun _ => rfl) (.ret ())) fun _ => ?_
  exact Only.bind (only_iow _ _) fun _ => Only.bind (only_iow _ _) fun _ => .ret _

/-- The accesses of a call on which the polls see the values `vs`. -/
def txTrace (dataPtr : Buffer) (txLen : BitVec 32) (vs : List (BitVec 32)) : List BusAccess :=
  writeTrace (iowWrites [(IMR, PAR_set), (0xFD, (txLen >>> 8) &&& 0xFF), (0xFC, txLen &&& 0xFF)]) ++
    wrIdx MWCMD :: (txWords dataPtr ((txLen.toNat + 1) / 2) 0).map wrDat ++
    writeTrace (iowWrites [(TCR, TX_REQUEST)]) ++
    pollTrace ⟨.dm9000a, IO_addr⟩ NSR ⟨.dm9000a, IO_data⟩ vs ++
    writeTrace (iowWrites [(NSR, 0x00), (IMR, INTR_set)])

/-- The test of the polling loop. -/
def txDone (v : BitVec 32) : Bool := v &&& 0x0C != 0

theorem txDone_both : txDone 0x0C = true := by decide

/-- **`TransmitPacket`.** A complete run writes the frame once and polls until
the first value with an end-of-transmission bit. -/
theorem completes_transmitPacket {dataPtr : Buffer} {txLen : BitVec 32}
    {tr : List BusAccess} {y : BitVec 32} :
    Completes (transmitPacket dataPtr txLen) tr y ↔
      ∃ vs v, (∀ u ∈ vs, txDone u = false) ∧ txDone v = true ∧
        tr = txTrace dataPtr txLen (vs ++ [v]) ∧ y = DMFE_SUCCESS := by
  unfold transmitPacket
  simp only [bind_eq, completes_iow_bind, iowr, completes_put_bind]
  constructor
  · rintro ⟨_, rfl, _, rfl, _, rfl, _, rfl, h⟩
    obtain ⟨_, t₁, t₂, rfl, hsend, h₁⟩ := completes_bind.mp h
    obtain rfl := completes_sendWords.mp hsend
    obtain ⟨_, rfl, h₂⟩ := completes_iow_bind.mp h₁
    obtain ⟨_, t₃, t₄, rfl, hpoll, h₃⟩ := completes_bind.mp h₂
    obtain ⟨vs, v, _, rfl, hvs, hv, hnil⟩ := completes_poll hpoll
    obtain ⟨rfl, -⟩ := completes_ret.mp hnil
    obtain ⟨_, rfl, h₄⟩ := completes_iow_bind.mp h₃
    obtain ⟨_, rfl, h₅⟩ := completes_iow_bind.mp h₄
    obtain ⟨rfl, rfl⟩ := completes_ret.mp h₅
    exact ⟨vs, v, hvs, hv, by simp [txTrace, writeTrace, iowWrites], rfl⟩
  · rintro ⟨vs, v, hvs, hv, rfl, rfl⟩
    refine ⟨_, rfl, _, rfl, _, rfl, (txWords dataPtr ((txLen.toNat + 1) / 2) 0).map wrDat ++
      (wrIdx TCR :: wrDat TX_REQUEST ::
        (pollTrace ⟨.dm9000a, IO_addr⟩ NSR ⟨.dm9000a, IO_data⟩ (vs ++ [v]) ++
          [wrIdx NSR, wrDat 0x00, wrIdx IMR, wrDat INTR_set])),
      by simp [writeTrace, iowWrites], ?_⟩
    refine completes_bind.mpr ⟨(), _, _, rfl, completes_sendWords.mpr rfl, ?_⟩
    refine completes_iow_bind.mpr ⟨_, rfl, ?_⟩
    refine completes_bind.mpr ⟨(), pollTrace _ _ _ (vs ++ [v]), _, rfl, ?_, ?_⟩
    · have hret : Completes (.ret () : Fw Unit) [] () := completes_ret.mpr ⟨rfl, rfl⟩
      have h := completes_poll_of (i := (⟨.dm9000a, IO_addr⟩ : Addr)) (w := NSR)
        (a := (⟨.dm9000a, IO_data⟩ : Addr)) hvs hv hret
      rwa [List.append_nil] at h
    · exact completes_iow_bind.mpr ⟨_, rfl,
        completes_iow_bind.mpr ⟨_, rfl, completes_ret.mpr ⟨rfl, rfl⟩⟩⟩

end Dm9000a

end FpgaCnc
