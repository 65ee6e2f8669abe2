import FpgaCnc.Firmware.Nic

/-!
# From reset to the first interrupt

The start of `main` in `software/cnc/hello_led.c` and the `DM9000_init` it
calls twice: all step generators off, then the network chip reset and set up,
the last register written being the one that turns the receiver on. Delays and
the texts on the LCD make no access of either chip and are left out.

§1 the programs · §2 their accesses.
-/

namespace FpgaCnc

open IoProg

/-! ## §1  The programs -/

namespace Dm9000a

def PHY_reset : BitVec 32 := 0x8000
def PHY_txab : BitVec 32 := 0x05e1

def etherAddr : List (BitVec 8) := [0x01, 0x60, 0x6E, 0x11, 0x02, 0x0F]

def phyWrite (reg value : BitVec 32) : Fw Unit := do
  iow 0x0C (reg ||| 0x40)
  iow 0x0E ((value >>> 8) &&& 0xFF)
  iow 0x0D (value &&& 0xFF)
  iow 0x0B 0x8
  -- the index port is still at 0x0B
  iowr .dm9000a IO_data 0x0A
  iowr .dm9000a IO_data 0x08

/-- The rounds of the MAC address loop from index `i` on. -/
def storeMac : ℕ → ℕ → Fw Unit
  | 0, _ => pure ()
  | n + 1, i => do
      iow (16 + BitVec.ofNat 32 i) ((etherAddr.getD i 0).setWidth 32)
      storeMac n (i + 1)

def dm9000Init : Fw (BitVec 32) := do
  iow 0x1E 0x01
  iow 0x1F 0x00
  -- software reset, twice
  iow NCR 0x03
  iow NCR 0x00
  iow NCR 0x03
  iow NCR 0x00
  iow 0x1F 0x01
  iow 0x1F 0x00
  phyWrite 0 PHY_reset
  phyWrite 16 0x404
  phyWrite 4 PHY_txab
  phyWrite 0 0x1200
  storeMac 6 0
  iow ISR 0x3F
  iow NSR 0x2C
  iow NCR NCR_set
  iow 0x08 BPTR_set
  iow 0x09 FCTR_set
  iow 0x0A RTFCR_set
  iow 0x0F 0x00
  iow 0x2D 0x80
  iow ETXCSR ETXCSR_set
  iow IMR INTR_set
  iow RCR (RCR_set ||| RX_ENABLE ||| PASS_MULTICAST)
  let led ← ior 0x2D
  return if led = 0x80 then DMFE_SUCCESS else DMFE_FAIL

end Dm9000a

namespace HelloLed

open Dm9000a

/-- `main`, up to the registration of the interrupt handlers. -/
def boot : Fw Unit := do
  iowr .cncModule0 5 0
  let _ ← dm9000Init
  let _ ← dm9000Init
  return ()

end HelloLed

/-! ## §2  Their accesses -/

namespace Dm9000a

/-- The writes of `phy_write`. -/
def phyWrites (reg value : BitVec 32) : List (Addr × BitVec 32) :=
  iowWrites [(0x0C, reg ||| 0x40), (0x0E, (value >>> 8) &&& 0xFF), (0x0D, value &&& 0xFF),
    (0x0B, 0x8)] ++ [(⟨.dm9000a, IO_data⟩, 0x0A), (⟨.dm9000a, IO_data⟩, 0x08)]

/-- The writes of `DM9000_init` after the first one that resets the chip, up to
those that let it receive. -/
def setupWrites : List (Addr × BitVec 32) :=
  iowWrites [(NCR, 0x00), (NCR, 0x03), (NCR, 0x00), (0x1F, 0x01), (0x1F, 0x00)] ++
    (phyWrites 0 PHY_reset ++ (phyWrites 16 0x404 ++ (phyWrites 4 PHY_txab ++
      (phyWrites 0 0x1200 ++
        iowWrites [(16, 0x01), (17, 0x60), (18, 0x6E), (19, 0x11), (20, 0x02), (21, 0x0F),
          (ISR, 0x3F), (NSR, 0x2C), (NCR, NCR_set), (0x08, BPTR_set), (0x09, FCTR_set),
          (0x0A, RTFCR_set), (0x0F, 0x00), (0x2D, 0x80), (ETXCSR, ETXCSR_set)]))))

/-- The writes that turn interrupts and receiver on. -/
def goWrites : List (Addr × BitVec 32) :=
  iowWrites [(IMR, INTR_set), (RCR, RCR_set ||| RX_ENABLE ||| PASS_MULTICAST)]

/-- The accesses of one `DM9000_init`, with the value it reads back. -/
def initTrace (led : BitVec 32) : List BusAccess :=
  writeTrace (iowWrites [(0x1E, 0x01), (0x1F, 0x00), (NCR, 0x03)]) ++
    (writeTrace setupWrites ++ (writeTrace goWrites ++ [wrIdx 0x2D, rdDat led]))

theorem completes_dm9000Init {tr : List BusAccess} {y : BitVec 32} :
    Completes dm9000Init tr y ↔
      ∃ led, tr = initTrace led ∧ y = if led = 0x80 then DMFE_SUCCESS else DMFE_FAIL := by
  have hscript : dm9000Init =
      (script (iowWrites [(0x1E, 0x01), (0x1F, 0x00), (NCR, 0x03)] ++
        (setupWrites ++ goWrites))).bind fun _ =>
        (ior 0x2D).bind fun led => .ret (if led = 0x80 then DMFE_SUCCESS else DMFE_FAIL) := rfl
  have htrace : ∀ led, initTrace led =
      writeTrace (iowWrites [(0x1E, 0x01), (0x1F, 0x00), (NCR, 0x03)] ++
        (setupWrites ++ goWrites)) ++ [wrIdx 0x2D, rdDat led] := by
    intro led
    unfold initTrace writeTrace
    rw [List.map_append, List.map_append, List.append_assoc, List.append_assoc]
  rw [hscript]
  constructor
  · intro h
    obtain ⟨_, t₁, t₂, rfl, hwrites, hrest⟩ := completes_bind.mp h
    obtain ⟨led, t₃, t₄, rfl, hread, hret⟩ := completes_bind.mp hrest
    obtain rfl := completes_script.mp hwrites
    obtain rfl := completes_ior.mp hread
    obtain ⟨rfl, rfl⟩ := completes_ret.mp hret
    exact ⟨led, by rw [htrace, List.append_nil]; rfl, rfl⟩
  · rintro ⟨led, rfl, rfl⟩
    rw [htrace]
    exact completes_bind.mpr ⟨(), _, _, rfl, completes_script.mpr rfl,
      completes_bind.mpr ⟨led, _, [], (List.append_nil _).symm, completes_ior.mpr rfl,
        completes_ret.mpr ⟨rfl, rfl⟩⟩⟩

end Dm9000a

namespace HelloLed

open Dm9000a

/-- **The accesses before the first interrupt.** -/
theorem completes_boot {tr : List BusAccess} {y : Unit} :
    Completes boot tr y ↔
      ∃ led led', tr = .wr ⟨.cncModule0, 5⟩ 0 :: (initTrace led ++ initTrace led') := by
  unfold boot
  simp only [bind_eq, iowr, completes_put_bind]
  constructor
  · rintro ⟨tr', rfl, h⟩
    obtain ⟨_, t₁, t₂, rfl, h₁, h₂⟩ := completes_bind.mp h
    obtain ⟨_, t₃, t₄, rfl, h₃, h₄⟩ := completes_bind.mp h₂
    obtain ⟨led, rfl, -⟩ := completes_dm9000Init.mp h₁
    obtain ⟨led', rfl, -⟩ := completes_dm9000Init.mp h₃
    obtain ⟨rfl, -⟩ := completes_ret.mp h₄
    exact ⟨led, led', by rw [List.append_nil]⟩
  · rintro ⟨led, led', rfl⟩
    exact ⟨_, rfl, completes_bind.mpr ⟨_, _, _, rfl, completes_dm9000Init.mpr ⟨led, rfl, rfl⟩,
      completes_bind.mpr ⟨_, _, [], (List.append_nil _).symm,
        completes_dm9000Init.mpr ⟨led', rfl, rfl⟩, completes_ret.mpr ⟨rfl, rfl⟩⟩⟩⟩

end HelloLed

end FpgaCnc
