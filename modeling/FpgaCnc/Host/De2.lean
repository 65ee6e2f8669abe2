import FpgaCnc.Lib.Buffer
import FpgaCnc.Lib.CArith

/-!
# The HAL component: `do_work`

`DE2_Driver_HAL_component/de2.c`. One call turns the pins into a command frame
(direction and deadband per axis, period words, PWM words, output bits), sends
it, receives one frame and, if that frame has the reply type, turns it into
the input pins. Floats are exact; conversions C leaves open are the parameter
`ub`.

§1 pins · §2 conversions · §3 encoder · §4 decoder · §5 one call.
-/

namespace FpgaCnc.De2

/-! ## §1  Pins and parameters -/

/-- The pins and the parameter of one axis. -/
structure AxisPins where
  positionFb : FVal
  velocityCmd : ℚ
  enable : Bool
  scale : ℚ

/-- `struct __comp_state`. -/
structure CompState where
  sg0 : AxisPins
  sg1 : AxisPins
  sg2 : AxisPins
  sg3 : AxisPins
  sg4 : AxisPins
  spindleRpm : ℚ
  gpioOut : Fin 32 → Bool
  gpioIn : Fin 32 → Bool
  pwmFreq : ℚ

/-- The pins of axis `i`. -/
def CompState.sg (c : CompState) : Fin 5 → AxisPins
  | 0 => c.sg0
  | 1 => c.sg1
  | 2 => c.sg2
  | 3 => c.sg3
  | 4 => c.sg4

/-! ## §2  Directions, velocities and register words -/

/-- Direction bit and velocity of one axis: sign, magnitude, deadband. -/
def dirVelocity (velocityCmd : ℚ) : Bool × ℚ :=
  let signed := if velocityCmd > 0 then (true, velocityCmd) else (false, velocityCmd * -1)
  if signed.2 < 1 / 100 then (false, 0) else signed

def sgDir (p : AxisPins) : Bool := (dirVelocity p.velocityCmd).1

def sgVelocity (p : AxisPins) : ℚ := (dirVelocity p.velocityCmd).2

/-- `(50e6/(velocity*scale*2))-1`. The velocity is never negative, and the
zero of the deadband is the literal `0`, so a zero product has the sign of the
scale. -/
def perValue (p : AxisPins) : FVal :=
  (FVal.div 50000000 (sgVelocity p * p.scale * 2) (p.scale < 0)).sub 1

/-- `int per = ...`. -/
def per (ub : FVal → BitVec 32) (p : AxisPins) : BitVec 32 := toInt ub (perValue p)

/-- `pwm_counter = (50e6/pwm_freq)`. -/
def pwmCounter (ub : FVal → BitVec 32) (c : CompState) : BitVec 32 :=
  toUInt ub (FVal.div 50000000 c.pwmFreq false)

def spindleRpmAbs (c : CompState) : ℚ :=
  if c.spindleRpm < 0 then c.spindleRpm * (-1) else c.spindleRpm

theorem spindleRpmAbs_eq (c : CompState) : spindleRpmAbs c = |c.spindleRpm| := by
  rw [spindleRpmAbs]
  split_ifs with hneg
  · rw [mul_neg_one, abs_of_neg hneg]
  · rw [abs_of_nonneg (not_lt.mp hneg)]

/-- `pwm_capture = spindle_rpm_abs*pwm_counter`. -/
def pwmCapture (ub : FVal → BitVec 32) (c : CompState) : BitVec 32 :=
  toUInt ub (.fin (spindleRpmAbs c * (pwmCounter ub c).toNat))

/-- The words `do_work` computes by conversion. -/
structure Words where
  per0 : BitVec 32
  per1 : BitVec 32
  per2 : BitVec 32
  per3 : BitVec 32
  per4 : BitVec 32
  pwmCounter : BitVec 32
  pwmCapture : BitVec 32
deriving DecidableEq, Repr

def Words.per (w : Words) : Fin 5 → BitVec 32
  | 0 => w.per0
  | 1 => w.per1
  | 2 => w.per2
  | 3 => w.per3
  | 4 => w.per4

def words (ub : FVal → BitVec 32) (c : CompState) : Words where
  per0 := per ub c.sg0
  per1 := per ub c.sg1
  per2 := per ub c.sg2
  per3 := per ub c.sg3
  per4 := per ub c.sg4
  pwmCounter := pwmCounter ub c
  pwmCapture := pwmCapture ub c

theorem words_per (ub : FVal → BitVec 32) (c : CompState) (i : Fin 5) :
    (words ub c).per i = per ub (c.sg i) := by
  match i with
  | 0 | 1 | 2 | 3 | 4 => rfl

/-! ## §3  The encoder -/

/-- A pin as an `int`. -/
def bit (b : Bool) : BitVec 32 := if b then 1 else 0

/-- `buf[34]`. -/
def dirsEnsByte (c : CompState) : BitVec 8 :=
  (bit c.sg2.enable <<< 7 ||| bit c.sg1.enable <<< 6 ||| bit c.sg0.enable <<< 5 |||
    bit (sgDir c.sg4) <<< 4 ||| bit (sgDir c.sg3) <<< 3 ||| bit (sgDir c.sg2) <<< 2 |||
    bit (sgDir c.sg1) <<< 1 ||| bit (sgDir c.sg0)).setWidth 8

/-- `buf[35]`. -/
def ensByte (c : CompState) : BitVec 8 :=
  (bit c.sg4.enable <<< 1 ||| bit c.sg3.enable).setWidth 8

/-- The loop that collects the output pins. -/
def opins (c : CompState) : BitVec 32 :=
  (List.finRange 32).foldl (fun o i => o ||| bit (c.gpioOut i) <<< i.val) 0

/-- The stores of `do_work` into `buf`, with the converted words given. Bytes
36 and 37 are spare and never stored to. -/
def encode (w : Words) (c : CompState) (buf : Buffer) : Buffer :=
  let buf := buf.storeLe32 14 w.per0
  let buf := buf.storeLe32 18 w.per1
  let buf := buf.storeLe32 22 w.per2
  let buf := buf.storeLe32 26 w.per3
  let buf := buf.storeLe32 30 w.per4
  let buf := buf.store 34 (dirsEnsByte c)
  let buf := buf.store 35 (ensByte c)
  let buf := buf.storeLe32 38 w.pwmCounter
  let buf := buf.storeLe32 42 w.pwmCapture
  buf.storeLe32 46 (opins c)

/-- `ETHER_TYPE`, in network order. -/
def etherType : BitVec 8 × BitVec 8 := (0x80#8, 0xab#8)

/-- `buf` as `rtapi_app_main` leaves it: broadcast destination, the host's
address, the type, zeros. -/
def initBuf (ifAddr : Fin 6 → BitVec 8) : Buffer where
  byte j :=
    if j < 6 then 0xff#8
    else if h : j - 6 < 6 then ifAddr ⟨j - 6, h⟩
    else if j = 12 then etherType.1
    else if j = 13 then etherType.2
    else 0
  stores := []

/-- The bytes of `buf` that `send` puts on the wire. -/
def sendLen : ℕ := 64

/-! ## §4  The decoder -/

/-- What `recvfrom` returned: a count that is not positive, or a frame. -/
inductive Received where
  | failed
  | frame (bytes : List (BitVec 8))
deriving DecidableEq, Repr

/-- `rx_buf` after `memset` and `recvfrom`: at most `BUF_SIZE` bytes of the
frame, zeros behind it. -/
def rxBuf (bytes : List (BitVec 8)) : Buffer where
  byte j := (bytes.take 512).getD j 0
  stores := []

/-- `position_fb` of one axis from its location word at `off`. -/
def positionFb (rx : Buffer) (off : ℕ) (scale : ℚ) : FVal :=
  let loc : BitVec 32 := rx.loadLe32 off - 0x80000000#32
  FVal.div loc.toInt scale false

/-- The header test. -/
def isReply (rx : Buffer) : Bool := rx.byte 12 == 0x08#8 && rx.byte 13 == 0xab#8

/-- The pin updates from an accepted reply. -/
def decode (rx : Buffer) (c : CompState) : CompState :=
  { c with
    gpioIn := fun k => (rx.loadLe32 14).getLsbD k
    sg0 := { c.sg0 with positionFb := positionFb rx 18 c.sg0.scale }
    sg1 := { c.sg1 with positionFb := positionFb rx 22 c.sg1.scale }
    sg2 := { c.sg2 with positionFb := positionFb rx 26 c.sg2.scale }
    sg3 := { c.sg3 with positionFb := positionFb rx 30 c.sg3.scale }
    sg4 := { c.sg4 with positionFb := positionFb rx 34 c.sg4.scale } }

/-! ## §5  One call -/

/-- What a call works on: the instance, the command buffer, the error count. -/
structure Host where
  inst : CompState
  buf : Buffer
  errorCount : BitVec 32

/-- `do_work` up to and including `send`: the first `sendLen` bytes of `buf`
are the frame. -/
def doWorkSend (ub : FVal → BitVec 32) (h : Host) : Host :=
  { h with buf := encode (words ub h.inst) h.inst h.buf }

/-- `do_work` from `recvfrom` on. A frame of no bytes is `received <= 0`. -/
def doWorkRecv (r : Received) (h : Host) : Host :=
  match r with
  | .failed => h
  | .frame [] => h
  | .frame bytes =>
      if isReply (rxBuf bytes) then { h with inst := decode (rxBuf bytes) h.inst }
      -- the call returns without another `recvfrom`
      else { h with errorCount := h.errorCount + 1 }

/-- An accepted reply is decoded. -/
theorem doWorkRecv_of_isReply {bytes : List (BitVec 8)} (h : isReply (rxBuf bytes) = true)
    (host : Host) :
    doWorkRecv (.frame bytes) host = { host with inst := decode (rxBuf bytes) host.inst } := by
  cases bytes with
  | nil => exact absurd h (by decide)
  | cons x xs => exact if_pos h

theorem decode_positionFb (rx : Buffer) (c : CompState) (i : Fin 5) :
    ((decode rx c).sg i).positionFb = positionFb rx (18 + 4 * i.val) (c.sg i).scale := by
  match i with
  | 0 | 1 | 2 | 3 | 4 => rfl

end FpgaCnc.De2
