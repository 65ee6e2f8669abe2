import FpgaCnc.Lib.Events
import FpgaCnc.Firmware.HelloLed

/-!
# The main loop and its interrupts

The `while (1)` of `software/cnc/hello_led.c`, one volatile access at a time:
pick up a key byte of the pendant, refresh the display, send the pendant its
LED byte. Between any two accesses an interrupt handler may run, from start to
end: the UART handler, which stores a key byte, or the ethernet handler. What a
statement has loaded already is kept in the program counter; where C leaves the
order of loads open, it is that of the compiled image `cnc.objdump`.

§1 state · §2 the loop body · §3 interrupts and runs.
-/

namespace FpgaCnc.HelloLed

open IoProg Dm9000a

/-! ## §1  State -/

/-- The two bytes of inputs the pendant's buttons set: `igpio_23_16` for
buttons 0 to 7, `igpio_31_24` for 8 to 15. -/
inductive Half where
  | low
  | high
deriving DecidableEq, Repr

/-- Inside `if (pendant_pressed == 1)`: the access that comes next. -/
inductive KeyPc where
  | clearPressed
  | segsKeys
  | buttonKeys
  | buttonStore (keys : BitVec 8)
  | buttonTest
  -- `button = button - 8`
  | lowerLoad
  | lowerStore (button : BitVec 8)
  -- `temp_but = ~(1<<button)`
  | maskLoad (half : Half)
  | maskStore (half : Half) (button : BitVec 8)
  -- `image = (image & temp_but) | ((pendant_keys&1) << button)`
  | imageLoad (half : Half)
  | tempButLoad (half : Half) (image : BitVec 8)
  | bitKeys (half : Half) (image tempBut : BitVec 8)
  | shiftLoad (half : Half) (image tempBut keys : BitVec 8)
  | imageStore (half : Half) (image tempBut keys button : BitVec 8)
deriving DecidableEq, Repr

/-- The access of the loop body that comes next. -/
inductive Pc where
  | pressedTest
  | key (k : KeyPc)
  -- `if ((count % 1000) == 0)`
  | countTest
  | segsTxt
  | segsOut
  -- `if (RXT[49] != old_pendant_leds)`
  | ledsRxt
  | ledsOld (rxt49 : BitVec 8)
  | oldRxt
  | oldStore (rxt49 : BitVec 8)
  | sendRxt
  | send (rxt49 : BitVec 8)
  -- `count += 1`
  | countLoad
  | countStore (count : BitVec 32)
deriving DecidableEq, Repr

/-- The loop, its variables, and what it has put out: the display and the bytes
written to the UART, latest first. -/
structure Main where
  pc : Pc
  g : Globals
  pendantPressed : BitVec 8
  pendantKeys : BitVec 8
  button : BitVec 8
  tempBut : BitVec 8
  oldPendantLeds : BitVec 8
  count : BitVec 32
  count2 : BitVec 8
  seg7Display : BitVec 32
  uartTx : List (BitVec 8)

/-- The image a half stands for. -/
def Globals.igpio (g : Globals) : Half → BitVec 8
  | .low => g.igpio2316
  | .high => g.igpio3124

def Globals.setIgpio (g : Globals) (half : Half) (v : BitVec 8) : Globals :=
  match half with
  | .low => { g with igpio2316 := v }
  | .high => { g with igpio3124 := v }

/-! ## §2  The loop body -/

/-- `~(1<<button)`, as an `unsigned char`. -/
def buttonMask (button : BitVec 8) : BitVec 8 := (~~~((1 : BitVec 32) <<< button.toNat)).setWidth 8

/-- `(image & temp_but) | ((pendant_keys&1) << button)`, as an
`unsigned char`. -/
def newImage (image tempBut keys button : BitVec 8) : BitVec 8 :=
  ((image.setWidth 32 &&& tempBut.setWidth 32) |||
    ((keys &&& 1).setWidth 32 <<< button.toNat)).setWidth 8

/-- One access inside the key branch. -/
def keyStep (k : KeyPc) (m : Main) : Main :=
  match k with
  | .clearPressed => { m with pendantPressed := 0, pc := .key .segsKeys }
  | .segsKeys =>
      { m with
        g := { m.g with
          sevenSegs := (m.g.sevenSegs &&& 0xFF00FFFF) |||
            ((m.pendantKeys.setWidth 32 <<< 16) &&& 0x00FF0000) }
        pc := .key .buttonKeys }
  | .buttonKeys => { m with pc := .key (.buttonStore m.pendantKeys) }
  | .buttonStore keys => { m with button := (keys >>> 4) &&& 0x0F, pc := .key .buttonTest }
  | .buttonTest =>
      if m.button ≤ 7 then { m with pc := .key (.maskLoad .low) }
      else { m with pc := .key .lowerLoad }
  | .lowerLoad => { m with pc := .key (.lowerStore m.button) }
  | .lowerStore button => { m with button := button - 8, pc := .key (.maskLoad .high) }
  | .maskLoad half => { m with pc := .key (.maskStore half m.button) }
  | .maskStore half button => { m with tempBut := buttonMask button, pc := .key (.imageLoad half) }
  | .imageLoad half => { m with pc := .key (.tempButLoad half (m.g.igpio half)) }
  | .tempButLoad half image => { m with pc := .key (.bitKeys half image m.tempBut) }
  | .bitKeys half image tempBut =>
      { m with pc := .key (.shiftLoad half image tempBut m.pendantKeys) }
  | .shiftLoad half image tempBut keys =>
      { m with pc := .key (.imageStore half image tempBut keys m.button) }
  | .imageStore half image tempBut keys button =>
      { m with
        g := m.g.setIgpio half (newImage image tempBut keys button)
        pc := .countTest }

/-- One access of the loop. -/
def mainStep (m : Main) : Main :=
  match m.pc with
  | .pressedTest =>
      if m.pendantPressed = 1 then { m with pc := .key .clearPressed } else { m with pc := .countTest }
  | .key k => keyStep k m
  | .countTest =>
      if m.count % 1000 = 0 then { m with count2 := m.count2 + 1, pc := .segsTxt }
      else { m with pc := .ledsRxt }
  | .segsTxt =>
      let sevenSegs := (m.g.sevenSegs &&& 0x00FFFFFF) ||| ((m.g.txt.byte 38).setWidth 32 <<< 24)
      let sevenSegs := (sevenSegs &&& 0xFFFF00FF) ||| ((m.count2.setWidth 32 <<< 8) &&& 0x0000FF00)
      { m with g := { m.g with sevenSegs := sevenSegs }, pc := .segsOut }
  | .segsOut => { m with seg7Display := m.g.sevenSegs, pc := .ledsRxt }
  | .ledsRxt => { m with pc := .ledsOld (m.g.rxt.byte 49) }
  | .ledsOld rxt49 =>
      if rxt49 ≠ m.oldPendantLeds then { m with pc := .oldRxt } else { m with pc := .countLoad }
  | .oldRxt => { m with pc := .oldStore (m.g.rxt.byte 49) }
  | .oldStore rxt49 => { m with oldPendantLeds := rxt49, pc := .sendRxt }
  | .sendRxt => { m with pc := .send (m.g.rxt.byte 49) }
  | .send rxt49 => { m with uartTx := rxt49 :: m.uartTx, pc := .countLoad }
  | .countLoad => { m with pc := .countStore m.count }
  | .countStore count => { m with count := count + 1, pc := .pressedTest }

/-- The loop writes neither packet buffer. -/
theorem buffers_mainStep (m : Main) :
    (mainStep m).g.txt = m.g.txt ∧ (mainStep m).g.rxt = m.g.rxt := by
  obtain ⟨pc, g, pressed, keys, button, tempBut, oldLeds, count, count2, seg7, tx⟩ := m
  cases pc with
  | key k =>
      cases k with
      | buttonTest =>
          unfold mainStep keyStep
          dsimp only
          split_ifs <;> exact ⟨rfl, rfl⟩
      | imageStore half => cases half <;> exact ⟨rfl, rfl⟩
      | _ => exact ⟨rfl, rfl⟩
  | pressedTest | countTest | ledsOld =>
      unfold mainStep
      dsimp only
      split_ifs <;> exact ⟨rfl, rfl⟩
  | _ => exact ⟨rfl, rfl⟩

/-! ## §3  Interrupts and runs -/

/-- `status & ALTERA_AVALON_UART_STATUS_RRDY_MSK`, of the `alt_u8`. -/
def receiveReady (status : BitVec 32) : Bool := status.setWidth 8 &&& 0x80#8 != 0

/-- The UART handler, with what the status and data registers read as. -/
def receiverInterupts (status rxdata : BitVec 32) (m : Main) : Main :=
  if receiveReady status then
    { m with pendantKeys := rxdata.setWidth 8, pendantPressed := 1 }
  else m

/-- What can happen next: an access of the loop, or a run of a handler. -/
inductive Event where
  | main
  | uart (status rxdata : BitVec 32)
  | ethernet (tr : List BusAccess)
deriving DecidableEq, Repr

/-- The loop, and interrupts between any two of its accesses. -/
inductive Step : Main → Event → Main → Prop where
  | main (m : Main) : Step m .main (mainStep m)
  | uart (m : Main) (status rxdata : BitVec 32) :
      Step m (.uart status rxdata) (receiverInterupts status rxdata m)
  | ethernet {m : Main} {tr : List BusAccess} {g' : Globals} :
      Completes (ethernetInterrupts m.g) tr g' → Step m (.ethernet tr) { m with g := g' }

/-- The key byte an event receives. -/
def Event.key : Event → Option (BitVec 8)
  | .uart status rxdata => if receiveReady status then some (rxdata.setWidth 8) else none
  | _ => none

/-- The key bytes received, latest first. -/
def receivedKeys (es : List Event) : List (BitVec 8) := es.filterMap Event.key

end FpgaCnc.HelloLed
