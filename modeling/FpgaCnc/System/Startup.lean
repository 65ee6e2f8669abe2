import FpgaCnc.Lib.IoSim
import FpgaCnc.Firmware.Boot
import FpgaCnc.Hdl.StepTiming
import FpgaCnc.System.ExactlyOnce

/-!
# From the first instruction of `main`

The board before it serves frames: the Nios starts, with the network chip and
`cnc_module` in whatever state they are in, and sets the chip up; then the
interrupt handlers are registered, and `packet_num` is set to zero while they
are running already. What follows is the board of `Delivery`: nothing that was
left in the chip and nothing that arrived before its last reset gets through.

§1 the receiver · §2 the chip while it is set up · §3 the machine ·
§4 `packet_num` · §5 the handler does not reset the chip · §6 the machine is the
board · §7 standing still.
-/

namespace FpgaCnc.Startup

open IoProg Dm9000a HelloLed Clocked
open Delivery (Chip)

/-! ## §1  The receiver -/

/-- The chip, whether its receiver is on, and the frames that had arrived when
the chip was last reset. -/
structure Gated where
  chip : Chip
  rxen : Bool
  lost : List RxRecord

/-- The access is a software reset. -/
def resets (n : Nic) : BusAccess → Bool
  | .wr ⟨.dm9000a, _ + 1⟩ w => n.index == NCR && w.getLsbD 0
  | _ => false

/-- `RXEN` after an access: bit 0 of `RCR`, off after a reset. -/
def rxenAfter (n : Nic) (rxen : Bool) : BusAccess → Bool
  | .wr ⟨.dm9000a, _ + 1⟩ w =>
      if n.index = RCR then w.getLsbD 0
      else if n.index = NCR ∧ w.getLsbD 0 = true then false
      else rxen
  | _ => rxen

/-- Frames arrive only while the receiver is on. -/
def gated : Device Addr (BitVec 32) Gated where
  access s x s' := Delivery.device.access s.chip x s'.chip ∧
    s'.rxen = rxenAfter s.chip.nic s.rxen x ∧
    s'.lost = if resets s.chip.nic x then s.chip.arrived else s.lost
  env s s' := s.rxen = true ∧ ∃ r, r.FitsRxt ∧ s' = { s with chip := s.chip.arrive r }

/-- Leaving `RXEN` out, it is the chip of `Delivery`. -/
theorem trace_chip {s s' : Gated} {tr : List BusAccess} (h : Trace gated s tr s') :
    Trace Delivery.device s.chip tr s'.chip := by
  induction h with
  | nil s => exact .nil _
  | env hmove _ ih =>
      obtain ⟨-, r, hr, rfl⟩ := hmove
      exact .env ⟨r, hr, rfl⟩ ih
  | access hacc _ ih => exact .access hacc.1 ih

/-! ## §2  The chip while it is set up -/

/-- Reset, with nothing to come in, and the index port elsewhere than at
`RCR`. -/
structure Cleared (s : Gated) : Prop where
  off : s.rxen = false
  lost : s.lost = s.chip.arrived
  prs : s.chip.nic.prs = false
  rxFifo : s.chip.nic.rxFifo = []
  index : s.chip.nic.index ≠ RCR

/-- A write that does not select `RCR`. -/
def setsUp : BusAccess → Bool
  | .wr ⟨.dm9000a, 0⟩ w => w != RCR
  | .wr _ _ => true
  | .rd _ _ => false

/-- Nothing arrives while the receiver is off. -/
theorem stable_of_off {P : Gated → Prop} (h : ∀ s, P s → s.rxen = false) : Stable gated P := by
  rintro s s' hs ⟨hon, -⟩
  exact absurd ((h s hs).symm.trans hon) (by decide)

theorem index_write (n : Nic) (w : BitVec 32) : (n.write w).index = n.index := by
  show (n.write w).tx.index = _
  rw [Nic.tx_write, Tx.index_write]
  rfl

theorem Cleared.access {s s' : Gated} {x : BusAccess} (h : Cleared s) (hx : setsUp x = true)
    (hacc : gated.access s x s') : Cleared s' := by
  obtain ⟨hoff, hlost, hprs, hfifo, hindex⟩ := h
  obtain ⟨⟨hnic, harrived⟩, hrxen, hlost'⟩ := hacc
  rw [hlost, ite_self] at hlost'
  replace hlost' := hlost'.trans harrived.symm
  have hoff' : s'.rxen = false := by
    rw [hrxen, hoff]
    unfold rxenAfter
    split
    · rw [if_neg hindex, ite_self]
    · rfl
  match x with
  | .wr ⟨.dm9000a, 0⟩ w =>
      have hn := (Option.some.inj hnic).symm
      exact ⟨hoff', hlost', by rw [hn]; exact hprs, by rw [hn]; exact hfifo,
        by rw [hn]; exact bne_iff_ne.mp hx⟩
  | .wr ⟨.dm9000a, k + 1⟩ w =>
      have hn : s'.chip.nic = s.chip.nic.write w := (Option.some.inj hnic).symm
      refine ⟨hoff', hlost', ?_, ?_, ?_⟩
      · rw [hn, Nic.write]
        split_ifs <;> simp [hprs]
      · rw [hn, Nic.write]
        split_ifs <;> first | exact hfifo | rfl
      · rw [hn, index_write]
        exact hindex
  | .wr ⟨.cncModule0, _⟩ _ | .wr ⟨.ledGreen, _⟩ _ =>
      have hn := (Option.some.inj hnic).symm
      exact ⟨hoff', hlost', by rw [hn]; exact hprs, by rw [hn]; exact hfifo,
        by rw [hn]; exact hindex⟩

/-- All set up: the interrupt mask is written, and `RCR` comes next. -/
structure Armed (s : Gated) : Prop where
  off : s.rxen = false
  lost : s.lost = s.chip.arrived
  prs : s.chip.nic.prs = false
  rxFifo : s.chip.nic.rxFifo = []
  imr : s.chip.nic.imr = INTR_set
  index : s.chip.nic.index = RCR

/-- The receiver is on; the frames that have arrived since the reset wait in the
FIFO, the interrupt is on its way if there are any. -/
structure Waiting (s : Gated) : Prop where
  on : s.rxen = true
  imr : s.chip.nic.imr = INTR_set
  rx : ∃ rest, s.chip.arrived = s.lost ++ rest ∧ (∀ r ∈ rest, r.FitsRxt) ∧
    s.chip.nic.rxFifo = rest.flatMap RxRecord.words ∧ s.chip.nic.prs = !rest.isEmpty

theorem stable_waiting (k : BitVec 32) :
    Stable gated fun s => Waiting s ∧ s.chip.nic.index = k := by
  rintro s s' ⟨⟨hon, himr, rest, harrived, hfits, hfifo, -⟩, hindex⟩ ⟨-, r, hr, rfl⟩
  refine ⟨⟨hon, himr, rest ++ [r], ?_, ?_, ?_, ?_⟩, hindex⟩
  · show s.chip.arrived ++ [r] = _
    rw [harrived, List.append_assoc]
  · rw [List.forall_mem_append]
    exact ⟨hfits, List.forall_mem_singleton.mpr hr⟩
  · show s.chip.nic.rxFifo ++ r.words = _
    rw [hfifo, List.flatMap_append, List.flatMap_singleton]
  · show true = _
    simp

/-- **The reset** of the chip. -/
theorem trace_reset {s s' : Gated} {tr : List BusAccess}
    (h : Trace gated s (wrIdx NCR :: wrDat 0x03 :: tr) s') :
    ∃ d, Cleared d ∧ Trace gated d tr s' := by
  obtain ⟨d, hd, h₁⟩ := h.step (P := fun _ => True) (Q := fun d => d.chip.nic.index = NCR)
    (fun _ _ _ _ => trivial) trivial (by
      rintro d d' - ⟨⟨hnic, -⟩, -⟩
      rw [(Option.some.inj hnic).symm]
      rfl)
  refine h₁.step (P := fun d => d.chip.nic.index = NCR) ?_ hd ?_
  · rintro d _ hd ⟨-, r, -, rfl⟩
    exact hd
  · rintro d d' hd ⟨⟨hnic, harrived⟩, hrxen, hlost⟩
    have hn : d'.chip.nic = d.chip.nic.write 0x03 := (Option.some.inj hnic).symm
    have hreset : d.chip.nic.write 0x03 =
        { d.chip.nic with
          tx := d.chip.nic.tx.write 0x03, prs := false, imr := 0, rxFifo := [] } := by
      rw [Nic.write, if_neg (hd ▸ by decide), if_neg (hd ▸ by decide), if_pos ⟨hd, by decide⟩]
    refine ⟨?_, ?_, by rw [hn, hreset], by rw [hn, hreset], ?_⟩
    · rw [hrxen]
      show (if d.chip.nic.index = RCR then _ else _) = false
      rw [if_neg (hd ▸ by decide), if_pos ⟨hd, by decide⟩]
    · have hresets : resets d.chip.nic (wrDat 0x03) = true := by
        show (d.chip.nic.index == NCR && _) = true
        rw [hd]
        decide
      rw [hlost, if_pos hresets]
      exact harrived.symm
    · rw [hn, index_write, hd]
      decide

/-- **The last two registers**: the mask, and then the receiver. -/
theorem trace_go {s s' : Gated} {tr : List BusAccess}
    (h : Trace gated s (writeTrace goWrites ++ tr) s') (hs : Cleared s) :
    ∃ d, Waiting d ∧ Trace gated d tr s' := by
  obtain ⟨d₁, hd₁, h₁⟩ := h.step (Q := fun d => Cleared d ∧ d.chip.nic.index = IMR)
    (stable_of_off fun _ hd => hd.off) hs (by
      rintro d d' hd hacc
      refine ⟨hd.access rfl hacc, ?_⟩
      rw [(Option.some.inj hacc.1.1).symm]
      rfl)
  obtain ⟨d₂, hd₂, h₂⟩ := h₁.step (P := fun d => Cleared d ∧ d.chip.nic.index = IMR)
    (Q := fun d => Cleared d ∧ d.chip.nic.imr = INTR_set)
    (stable_of_off fun _ hd => hd.1.off) hd₁ (by
      rintro d d' ⟨hd, hindex⟩ hacc
      refine ⟨hd.access rfl hacc, ?_⟩
      have hn : d'.chip.nic = d.chip.nic.write INTR_set := (Option.some.inj hacc.1.1).symm
      rw [hn, Nic.write, if_neg (hindex ▸ by decide), if_pos hindex])
  obtain ⟨d₃, hd₃, h₃⟩ := h₂.step (P := fun d => Cleared d ∧ d.chip.nic.imr = INTR_set)
    (Q := Armed) (stable_of_off fun _ hd => hd.1.off) hd₂ (by
      rintro d d' ⟨⟨hoff, hlost, hprs, hfifo, -⟩, himr⟩ ⟨⟨hnic, harrived⟩, hrxen, hlost'⟩
      have hn := (Option.some.inj hnic).symm
      exact ⟨hrxen.trans hoff, (hlost'.trans hlost).trans harrived.symm, by rw [hn]; exact hprs,
        by rw [hn]; exact hfifo, by rw [hn]; exact himr, by rw [hn]; rfl⟩)
  obtain ⟨d₄, hd₄, h₄⟩ := h₃.step (Q := Waiting)
    (stable_of_off fun _ hd => Armed.off hd) hd₃ (by
      rintro d d' ⟨-, hlost, hprs, hfifo, himr, hindex⟩ ⟨⟨hnic, harrived⟩, hrxen, hlost'⟩
      have hn : d'.chip.nic = d.chip.nic.write _ := (Option.some.inj hnic).symm
      obtain ⟨hprs', hfifo', -⟩ := Nic.write_rx (n := d.chip.nic) (hindex ▸ by decide)
        (hindex ▸ by decide) (RCR_set ||| RX_ENABLE ||| PASS_MULTICAST)
      rw [hlost, ite_self] at hlost'
      have hnone : d'.chip.arrived = d'.lost ++ [] := by
        rw [hlost', List.append_nil, Chip.arrived, harrived]
      refine ⟨?_, ?_, [], hnone, List.forall_mem_nil _, ?_, ?_⟩
      · rw [hrxen]
        exact (if_pos hindex).trans (by decide)
      · rw [hn, Nic.write, if_neg (hindex ▸ by decide), if_neg (hindex ▸ by decide),
          if_neg (fun h => absurd (hindex.symm.trans h.1) (by decide))]
        exact himr
      · rw [hn, hfifo', hfifo]
        rfl
      · rw [hn, hprs', hprs]
        rfl)
  exact ⟨d₄, hd₄, h₄⟩

/-- Reading a register back. -/
theorem trace_led {s s' : Gated} {led : BitVec 32}
    (h : Trace gated s [wrIdx 0x2D, rdDat led] s') (hs : Waiting s) : Waiting s' := by
  obtain ⟨d₁, hd₁, h₁⟩ := h.step (Q := fun d => Waiting d ∧ d.chip.nic.index = 0x2D)
    (P := Waiting) (fun d d' hd hmove => (stable_waiting _ d d' ⟨hd, rfl⟩ hmove).1) hs (by
      rintro d d' ⟨hon, himr, hrx⟩ ⟨⟨hnic, harrived⟩, hrxen, hlost⟩
      have hn := (Option.some.inj hnic).symm
      refine ⟨⟨?_, ?_, ?_⟩, ?_⟩
      · rw [hrxen]
        exact hon
      · rw [hn]
        exact himr
      · rw [Chip.arrived, harrived, hlost, hn]
        exact hrx
      · rw [hn]
        rfl)
  obtain ⟨d₂, hd₂, h₂⟩ := h₁.step (Q := fun d => Waiting d ∧ d.chip.nic.index = 0x2D)
    (stable_waiting 0x2D) hd₁ (by
      rintro d d' ⟨⟨hon, himr, hrx⟩, hindex⟩ ⟨⟨hnic, harrived⟩, hrxen, hlost⟩
      have hn : some d.chip.nic = some d'.chip.nic := by
        rw [← hnic, Nic.access_rdDat, Nic.read, if_neg (hindex ▸ by decide),
          if_neg (hindex ▸ by decide), if_neg (hindex ▸ by decide)]
      rw [← Option.some.inj hn]
      refine ⟨⟨hrxen.trans hon, ?_, ?_⟩, hindex⟩
      · rw [← Option.some.inj hn]
        exact himr
      · rw [Chip.arrived, harrived, hlost, ← Option.some.inj hn]
        exact hrx)
  exact (h₂.keeps (stable_waiting 0x2D) hd₂ (by simp)).1

/-- **The chip when `main` has set it up**: fresh, but for the frames that have
arrived since its last reset. -/
theorem waiting_of_boot {s s' : Gated} {tr : List BusAccess} (hrun : Completes boot tr ())
    (h : Trace gated s tr s') :
    s'.chip.nic.tx.data = [] ∧ s'.chip.nic.tx.sent = s.chip.nic.tx.sent ∧ Waiting s' := by
  obtain ⟨led, led', rfl⟩ := completes_boot.mp hrun
  rw [RxSide.trace_tx (trace_chip h)]
  refine ⟨rfl, rfl, ?_⟩
  have hparts : Access.wr ⟨.cncModule0, 5⟩ 0 :: (initTrace led ++ initTrace led') =
      (Access.wr ⟨.cncModule0, 5⟩ 0 :: (initTrace led ++
        writeTrace (iowWrites [(0x1E, 0x01), (0x1F, 0x00)]))) ++ (wrIdx NCR :: wrDat 0x03 ::
          (writeTrace setupWrites ++ (writeTrace goWrites ++ [wrIdx 0x2D, rdDat led']))) := by
    simp [initTrace, writeTrace, iowWrites]
  rw [hparts] at h
  obtain ⟨_, -, h₁⟩ := h.split
  obtain ⟨d₁, hd₁, h₂⟩ := trace_reset h₁
  obtain ⟨d₂, hsetup, h₃⟩ := h₂.split
  have hd₂ : Cleared d₂ := hsetup.keeps (stable_of_off fun _ hd => hd.off) hd₁ (by
    intro x hx d d' hd hacc
    have hall : (writeTrace setupWrites).all setsUp = true := by decide
    exact hd.access (List.all_eq_true.mp hall x hx) hacc)
  obtain ⟨d₃, hd₃, h₄⟩ := trace_go h₃ hd₂
  exact trace_led h₄ hd₃

/-- What waits then is what the board of `Delivery` finds at the start. -/
theorem reachable_of_waiting {rest : List RxRecord} (hfits : ∀ r ∈ rest, r.FitsRxt) {n : Nic}
    {m : Main} (hm : m.g = .init) (hdata : n.tx.data = []) (hsent : n.tx.sent = [])
    (hfifo : n.rxFifo = rest.flatMap RxRecord.words) (hprs : n.prs = !rest.isEmpty) :
    Delivery.Reachable ⟨⟨n, rest⟩, m, none, []⟩ := by
  induction rest using List.reverseRecOn generalizing n with
  | nil => exact .boot n m ⟨hprs, hfifo, hdata, hsent⟩ hm
  | append_singleton rest r ih =>
      have hbefore := ih (fun q hq => hfits q (List.mem_append_left _ hq)) (n := { n with
        rxFifo := rest.flatMap RxRecord.words, prs := !rest.isEmpty }) hdata hsent rfl rfl
      have harrive : Chip.arrive ⟨{ n with
          rxFifo := rest.flatMap RxRecord.words, prs := !rest.isEmpty }, rest⟩ r =
            ⟨n, rest ++ [r]⟩ := by
        have hlast : n.rxFifo = rest.flatMap RxRecord.words ++ r.words := by
          rw [hfifo, List.flatMap_append, List.flatMap_singleton]
        have hset : n.prs = true := by
          rw [hprs]
          simp
        rw [Chip.arrive, RxSide.Noted.arrive, Nic.arrive]
        dsimp only
        rw [← hlast, ← hset]
        rfl
      exact harrive ▸ hbefore.step (.arrive r (hfits r (by simp)))

/-! ## §3  The machine -/

/-- Where `main` is: before the handlers are registered, with what is left of
that; registered, with `packet_num = 0` to come; in the loop. -/
inductive Phase where
  | booting (p : Fw Unit)
  | registered
  | looping

/-- The handlers are registered. -/
def Phase.listens : Phase → Bool
  | .booting _ => false
  | .registered | .looping => true

end FpgaCnc.Startup

namespace FpgaCnc.HelloLed

def Globals.setPacketNum (g : Globals) (n : BitVec 32) : Globals := { g with packetNum := n }

def Main.setPacketNum (m : Main) (n : BitVec 32) : Main := { m with g := m.g.setPacketNum n }

end FpgaCnc.HelloLed

namespace FpgaCnc.Startup

open IoProg Dm9000a HelloLed Clocked
open Delivery (Chip)

/-- Chip, main loop, what is left of the handler while it runs, and all accesses
since the start. -/
structure Machine where
  chip : Gated
  phase : Phase
  loop : Main
  handler : Option (Fw Globals)
  log : List BusAccess

inductive Step : Machine → Machine → Prop where
  | arrive {s : Machine} (r : RxRecord) : s.chip.rxen = true → r.FitsRxt →
      Step s { s with chip := { s.chip with chip := s.chip.chip.arrive r } }
  | boot {s : Machine} {p p' : Fw Unit} {x : BusAccess} {c : Gated} : s.phase = .booting p →
      step p x = some p' → gated.access s.chip x c →
      Step s { s with chip := c, phase := .booting p', log := s.log ++ [x] }
  | register {s : Machine} : s.phase = .booting (ret ()) → Step s { s with phase := .registered }
  -- `packet_num = 0`, with the handlers registered
  | clear {s : Machine} : s.phase = .registered → s.handler = none →
      Step s { s with loop := s.loop.setPacketNum 0, phase := .looping }
  | main {s : Machine} : s.phase = .looping → s.handler = none →
      Step s { s with loop := mainStep s.loop }
  | uart {s : Machine} (status rxdata : BitVec 32) : s.phase.listens = true → s.handler = none →
      Step s { s with loop := receiverInterupts status rxdata s.loop }
  | irq {s : Machine} : s.phase.listens = true → s.handler = none → s.chip.chip.nic.irq = true →
      Step s { s with handler := some (ethernetInterrupts s.loop.g) }
  | access {s : Machine} {p p' : Fw Globals} {x : BusAccess} {c : Gated} :
      s.handler = some p → step p x = some p' → gated.access s.chip x c →
      Step s { s with chip := c, handler := some p', log := s.log ++ [x] }
  | done {s : Machine} {g : Globals} : s.handler = some (ret g) →
      Step s { s with loop := { s.loop with g := g }, handler := none }

/-- From the first instruction of `main`, with the chip in any state. -/
inductive Reachable : Machine → Prop where
  | start (n : Nic) (rxen : Bool) (m : Main) : n.tx.sent = [] → m.g = .init →
      Reachable ⟨⟨⟨n, []⟩, rxen, []⟩, .booting boot, m, none, []⟩
  | step {s s' : Machine} : Reachable s → Step s s' → Reachable s'

/-! ## §4  `packet_num` -/

/-- The green LED, which shows `packet_num`. -/
def isLed (a : Addr) : Prop := a.base = .ledGreen

/-- Up to `packet_num`. -/
def SameGlobals (g g' : Globals) : Prop := ∃ n, g' = g.setPacketNum n

theorem SameGlobals.refl (g : Globals) : SameGlobals g g := ⟨g.packetNum, rfl⟩

theorem inStep_readInputs {g g' : Globals} (h : SameGlobals g g') :
    InStep isLed SameGlobals (readInputs g) (readInputs g') := by
  obtain ⟨n, rfl⟩ := h
  exact .read fun _ => .read fun _ => .read fun _ => .read fun _ => .read fun _ => .read fun _ =>
    .read fun _ => .read fun _ => .ret ⟨n, rfl⟩

theorem inStep_afterReceive {g g' : Globals} (h : SameGlobals g g') :
    InStep isLed SameGlobals (afterReceive g) (afterReceive g') := by
  have hrxt : g'.rxt = g.rxt := by
    obtain ⟨n, rfl⟩ := h
    rfl
  unfold afterReceive
  rw [hrxt]
  split_ifs
  · refine (inStep_readInputs h).bind ?_
    rintro f _ ⟨n, rfl⟩
    refine InStep.bind_same (transmitPacket f.txt 46) fun _ => ?_
    show InStep isLed SameGlobals (if isCommand f.rxt then _ else _)
      (if isCommand f.rxt then _ else _)
    split_ifs
    · exact InStep.bind_same (writeRegs f.rxt) fun _ => .write (.wr _ _ rfl) (.ret ⟨_, rfl⟩)
    · exact .ret ⟨n, rfl⟩
  · obtain ⟨n, rfl⟩ := h
    exact InStep.bind_same (transmitPacket (g.txt.store 13 0xaa) 14) fun _ => .ret ⟨n, rfl⟩

/-- **The handler does not look at `packet_num`**: it only counts it up and
shows it. -/
theorem inStep_ethernetInterrupts {g g' : Globals} (h : SameGlobals g g') :
    InStep isLed SameGlobals (ethernetInterrupts g) (ethernetInterrupts g') := by
  obtain ⟨n, rfl⟩ := h
  refine InStep.bind_same (ior ISR) fun inter => InStep.bind_same (iow ISR inter) fun _ => ?_
  show InStep isLed SameGlobals (if inter &&& 1 = 1 then _ else _)
    (if inter &&& 1 = 1 then _ else _)
  split_ifs
  · exact InStep.bind_same (receivePacket g.rxt) fun r => inStep_afterReceive ⟨n, rfl⟩
  · exact .ret ⟨n, rfl⟩

theorem mainStep_setPacketNum (m : Main) (n : BitVec 32) :
    mainStep (m.setPacketNum n) = (mainStep m).setPacketNum n := by
  obtain ⟨pc, g, pressed, keys, button, tempBut, oldLeds, count, count2, seg7, tx⟩ := m
  cases pc with
  | key k =>
      cases k with
      | buttonTest =>
          unfold mainStep keyStep Main.setPacketNum
          dsimp only
          split_ifs <;> rfl
      | imageLoad half => cases half <;> rfl
      | imageStore half => cases half <;> rfl
      | _ => rfl
  | pressedTest | countTest | ledsOld =>
      unfold mainStep Main.setPacketNum
      dsimp only
      split_ifs <;> rfl
  | _ => rfl

theorem receiverInterupts_setPacketNum (status rxdata n : BitVec 32) (m : Main) :
    receiverInterupts status rxdata (m.setPacketNum n) =
      (receiverInterupts status rxdata m).setPacketNum n := by
  unfold receiverInterupts
  split_ifs <;> rfl

end FpgaCnc.Startup

/-! ## §5  The handler does not reset the chip -/

namespace FpgaCnc.Delivery

open IoProg Dm9000a HelloLed RxSide

theorem rxQuiet_afterReceive {g g' : Globals} {t : List BusAccess}
    (h : Completes (afterReceive g) t g') : ∀ x ∈ t, rxQuiet x = true := by
  unfold afterReceive at h
  split_ifs at h with hcmd
  · obtain ⟨v, vs, u, -, -, rfl, rfl⟩ := (completes_answerCommand hcmd).mp h
    intro x hx
    rcases List.mem_append.mp hx with hread | hrest
    · obtain ⟨k, -, rfl⟩ := List.mem_map.mp hread
      rfl
    rcases List.mem_append.mp hrest with hsend | hwrite
    · exact rxQuiet_txTrace _ _ _ x hsend
    rcases List.mem_append.mp hwrite with hreg | hled
    · obtain ⟨y, -, rfl⟩ := List.mem_map.mp hreg
      rfl
    · rw [List.mem_singleton.mp hled]
      rfl
  · obtain ⟨vs, u, -, -, rfl, rfl⟩ := completes_rejectFrame.mp h
    exact rxQuiet_txTrace _ _ _

/-- The access does not select `NCR`. -/
def notNcr : BusAccess → Bool
  | .wr ⟨.dm9000a, 0⟩ w => w != NCR
  | _ => true

theorem notNcr_of_quiet {x : BusAccess} (h : rxQuiet x = true) : notNcr x = true := by
  match x with
  | .wr ⟨.dm9000a, 0⟩ w => exact (Bool.and_eq_true_iff.mp (Bool.and_eq_true_iff.mp h).1).2
  | .wr ⟨.dm9000a, _ + 1⟩ _ | .wr ⟨.cncModule0, _⟩ _ | .wr ⟨.ledGreen, _⟩ _ | .rd _ _ => rfl

/-- The accesses of a reception that finds a packet do not select `NCR`. -/
theorem notNcr_of_ready {inter : BitVec 32} {a : RxResponse} (ha : a.packetReady) :
    ∀ x ∈ isrTrace inter ++ a.trace, notNcr x = true := by
  rw [RxResponse.trace_of_ready ha]
  intro x hx
  simp only [isrTrace, List.mem_append, List.mem_cons, List.not_mem_nil, or_false,
    List.mem_map] at hx
  rcases hx with (rfl | rfl | rfl | rfl) | (rfl | rfl | rfl | rfl | rfl | rfl | rfl | rfl) |
    ⟨w, -, rfl⟩ <;> rfl

theorem notNcr_of_peek (inter dummy ready : BitVec 32) :
    ∀ x ∈ isrTrace inter ++ peekTrace dummy ready, notNcr x = true := by
  intro x hx
  simp only [isrTrace, peekTrace, List.mem_append, List.mem_cons, List.not_mem_nil, or_false] at hx
  rcases hx with (rfl | rfl | rfl | rfl) | (rfl | rfl | rfl | rfl | rfl) <;> rfl

/-- **The handler does not select `NCR`**, as long as it is called for a frame:
the ready byte it reads is that of a record. -/
theorem notNcr_under_way {g : Globals} {tr : List BusAccess} {q : Fw Globals}
    (h : exec (ethernetInterrupts g) tr = some q) {c c' : Chip} (htrace : Trace device c tr c')
    {taken : List RxRecord} (hc : On (signalled (holds taken)) c) : ∀ x ∈ tr, notNcr x = true := by
  have hready : ∀ (inter : BitVec 32) (a : RxResponse) (t : List BusAccess),
      tr = isrTrace inter ++ (peekTrace a.dummy a.ready ++ t) → a.packetReady := by
    rintro inter a t rfl
    obtain ⟨-, r, d, hd, h₁⟩ := trace_ack (kept_holds taken) (takes_holds taken) htrace hc
    obtain ⟨hword, -⟩ := trace_peek (kept_holds (taken ++ [r])) h₁ hd
    rw [RxResponse.packetReady, hword]
    exact r.ready_statusWord
  have hpeek : ∀ a : RxResponse, ∃ u, a.trace = peekTrace a.dummy a.ready ++ u := fun a => ⟨_, rfl⟩
  rcases exec_ethernetInterrupts_cases h with
    ⟨inter, a, tr', -, htr⟩ | ⟨inter, a, t, t', g', -, rfl, hrest⟩
  · by_cases ha : a.packetReady
    · intro x hx
      exact notNcr_of_ready ha x (htr ▸ List.mem_append_left _ hx)
    · -- the ready byte has not been read yet
      obtain ⟨u, hu⟩ := hpeek a
      rw [hu, ← List.append_assoc] at htr
      rcases List.append_eq_append_iff.mp htr with ⟨more, hmore, -⟩ | ⟨more, hmore, -⟩
      · intro x hx
        exact notNcr_of_peek inter a.dummy a.ready x (hmore ▸ List.mem_append_left _ hx)
      · exact absurd (hready inter a more (hmore.trans (List.append_assoc _ _ _))) ha
  · obtain ⟨u, hu⟩ := hpeek a
    have ha : a.packetReady := hready inter a (u ++ t) (by rw [hu, List.append_assoc])
    intro x hx
    rw [← List.append_assoc] at hx
    rcases List.mem_append.mp hx with hfirst | hlast
    · exact notNcr_of_ready ha x hfirst
    · exact notNcr_of_quiet (rxQuiet_afterReceive hrest x (List.mem_append_left _ hlast))

/-- As long as `NCR` is not selected, the index port is elsewhere. -/
theorem index_run {t : Tx} {tr : List BusAccess} (htr : ∀ x ∈ tr, notNcr x = true)
    (ht : t.index ≠ NCR) : (t.run tr).index ≠ NCR := by
  induction tr generalizing t with
  | nil => exact ht
  | cons x tr ih =>
      refine ih (fun y hy => htr y (List.mem_cons_of_mem x hy)) ?_
      match x with
      | .wr ⟨.dm9000a, 0⟩ w => exact bne_iff_ne.mp (htr _ List.mem_cons_self)
      | .wr ⟨.dm9000a, k + 1⟩ w =>
          show (t.write w).index ≠ NCR
          rw [Tx.index_write]
          exact ht
      | .rd _ _ | .wr ⟨.cncModule0, _⟩ _ | .wr ⟨.ledGreen, _⟩ _ => exact ht

/-- The first access of the handler selects `ISR`. -/
theorem exec_ethernetInterrupts_cons {g : Globals} {x : BusAccess} {tr : List BusAccess}
    {q : Fw Globals} (h : exec (ethernetInterrupts g) (x :: tr) = some q) : x = wrIdx ISR := by
  obtain ⟨p', hs, -⟩ := Option.bind_eq_some_iff.mp h
  exact (step_write.mp hs).1

end FpgaCnc.Delivery

namespace FpgaCnc.Startup

open IoProg Dm9000a HelloLed Clocked
open Delivery (Chip)

/-- **The handler does not reset the chip.** -/
theorem not_resets {b : Delivery.Board} (h : Delivery.Reachable b) {p p' : Fw Globals}
    {x : BusAccess} {c : Chip} (hp : b.handler = some p) (hs : step p x = some p')
    (hacc : Delivery.device.access b.chip x c) : resets b.chip.nic x = false := by
  cases Delivery.inv_of_reachable h with
  | idle _ _ _ hidle => exact absurd (hidle.symm.trans hp) (by simp)
  | @serving s c₀ log tr q _ _ hmatch hprs hq hexec htrace _ =>
      obtain rfl : q = p := Option.some.inj (hq.symm.trans hp)
      have hall := Delivery.notNcr_under_way (exec_snoc hexec hs) (htrace.snoc hacc)
        ⟨hprs, hmatch.rx⟩
      cases tr with
      | nil =>
          obtain rfl := Delivery.exec_ethernetInterrupts_cons (exec_snoc hexec hs)
          rfl
      | cons y tr =>
          obtain rfl := Delivery.exec_ethernetInterrupts_cons hexec
          have hindex : b.chip.nic.index ≠ NCR := by
            show b.chip.nic.tx.index ≠ NCR
            rw [RxSide.trace_tx htrace]
            refine Delivery.index_run (t := c₀.nic.tx.access (wrIdx ISR)) (fun z hz => ?_)
              (show ISR ≠ NCR by decide)
            exact hall z (List.mem_append_left _ (List.mem_cons_of_mem _ hz))
          match x with
          | .wr ⟨.dm9000a, k + 1⟩ w =>
              show (b.chip.nic.index == NCR && _) = false
              rw [beq_false_of_ne hindex, Bool.false_and]
          | .wr ⟨.dm9000a, 0⟩ _ | .rd _ _ | .wr ⟨.cncModule0, _⟩ _ | .wr ⟨.ledGreen, _⟩ _ => rfl

/-! ## §6  The machine is the board -/

/-- Handlers that do the same, or neither. -/
inductive SameHandler : Option (Fw Globals) → Option (Fw Globals) → Prop where
  | none : SameHandler none none
  | some {p q : Fw Globals} : InStep isLed SameGlobals p q → SameHandler (some p) (some q)

/-- The machine is where the board is, up to `packet_num` and the LED that shows
it. What has arrived at the board is what has arrived since the chip was last
reset. -/
structure Matches (s : Machine) (b : Delivery.Board) : Prop where
  nic : b.chip.nic = s.chip.chip.nic
  arrived : s.chip.chip.arrived = s.chip.lost ++ b.chip.arrived
  loop : ∃ n, b.loop = s.loop.setPacketNum n
  handler : SameHandler s.handler b.handler
  log : ∃ before after, s.log = before ++ after ∧ cncWrites before = [(5, 0)] ∧
    List.Forall₂ (Alike isLed) after b.log

/-- The registers written are the same. -/
theorem cncWrites_alike {tr tr' : List BusAccess} (h : List.Forall₂ (Alike isLed) tr tr') :
    cncWrites tr = cncWrites tr' := by
  induction h with
  | nil => rfl
  | @cons x y tr tr' hxy _ ih =>
      by_cases hx : isLed x.addr
      · have hother : ∀ z : BusAccess, isLed z.addr → z.addr.base ≠ .cncModule0 := by
          rintro z hz
          rw [show z.addr.base = _ from hz]
          decide
        have hy : isLed y.addr := by
          cases hxy with
          | same x => exact hx
          | wr w w' ha => exact ha
        rw [Drives.cncWrites_cons_of_other (hother x hx),
          Drives.cncWrites_cons_of_other (hother y hy), ih]
      · obtain rfl := hxy.of_not hx
        show cncWrites ([x] ++ tr) = cncWrites ([x] ++ tr')
        rw [cncWrites_append, cncWrites_append, ih]

theorem Matches.regs {s : Machine} {b : Delivery.Board} (h : Matches s b) :
    cncWrites s.log = (5, 0) :: cncWrites b.log := by
  obtain ⟨before, after, hlog, hbefore, hafter⟩ := h.log
  rw [hlog, cncWrites_append, hbefore, cncWrites_alike hafter]
  rfl

/-- Until the handlers are registered, `main` sets up the chip; from then on the
machine is a board. -/
inductive Inv : Machine → Prop where
  | booting {s : Machine} {c : Gated} {p : Fw Unit} : s.phase = .booting p →
      exec boot s.log = some p → Trace gated c s.log s.chip → c.chip.nic.tx.sent = [] →
      s.loop.g = .init → s.handler = none → Inv s
  | serving {s : Machine} {b : Delivery.Board} : s.phase.listens = true →
      Delivery.Reachable b → Matches s b → Inv s

theorem blind_isLed : Blind Delivery.device isLed := by
  rintro ⟨base, off⟩ w w' c c' rfl ⟨hnic, harrived⟩
  exact ⟨hnic, harrived⟩

section

variable {s : Machine} {b : Delivery.Board}

theorem Matches.handler_none (h : Matches s b) (hidle : s.handler = none) :
    b.handler = none := by
  have hhandler := h.handler
  rw [hidle] at hhandler
  generalize hb : b.handler = p at hhandler
  cases hhandler
  rfl

theorem Matches.handler_some (h : Matches s b) {p : Fw Globals} (hp : s.handler = some p) :
    ∃ q, b.handler = some q ∧ InStep isLed SameGlobals p q := by
  have hhandler := h.handler
  rw [hp] at hhandler
  generalize hb : b.handler = q at hhandler
  cases hhandler with
  | some hpq => exact ⟨_, rfl, hpq⟩

/-- **An access of the handler** is one of the board. -/
theorem Matches.access (h : Matches s b) (hb : Delivery.Reachable b) {p p' : Fw Globals}
    {x : BusAccess} {c : Gated} (hp : s.handler = some p) (hs : step p x = some p')
    (hacc : gated.access s.chip x c) :
    ∃ b', Delivery.Reachable b' ∧
      Matches { s with chip := c, handler := some p', log := s.log ++ [x] } b' := by
  obtain ⟨q, hq, hpq⟩ := h.handler_some hp
  obtain ⟨hnic, harrived, hloop, -, before, after, hlog, hbefore, hafter⟩ := h
  obtain ⟨y, q', hxy, hsq, hpq'⟩ := hpq.step hs
  obtain ⟨hacc', -, hlost⟩ := hacc
  obtain ⟨haccess, harrived'⟩ := blind_isLed.access hxy hacc'
  rw [← hnic] at haccess
  have hresets : resets s.chip.chip.nic x = false := by
    have hboard := not_resets hb hq hsq (c := ⟨c.chip.nic, b.chip.arrived⟩) ⟨haccess, rfl⟩
    rw [← hnic]
    cases hxy with
    | same x => exact hboard
    | @wr a w w' ha =>
        obtain ⟨base, off⟩ := a
        obtain rfl : base = .ledGreen := ha
        rfl
  rw [if_neg (by rw [hresets]; exact Bool.false_ne_true)] at hlost
  refine ⟨_, hb.step (.access (c := ⟨c.chip.nic, b.chip.arrived⟩) hq hsq ⟨haccess, rfl⟩), rfl, ?_,
    hloop, .some hpq', before, after ++ [x], ?_, hbefore, ?_⟩
  · show c.chip.arrived = c.lost ++ b.chip.arrived
    rw [hlost]
    exact harrived'.trans harrived
  · show s.log ++ [x] = _
    rw [hlog, List.append_assoc]
  · exact List.rel_append hafter (.cons hxy .nil)

end

theorem inv_boot {s s' : Machine} {c : Gated} {p : Fw Unit} (hphase : s.phase = .booting p)
    (hexec : exec boot s.log = some p) (htrace : Trace gated c s.log s.chip)
    (hsent : c.chip.nic.tx.sent = []) (hg : s.loop.g = .init) (hidle : s.handler = none)
    (hs : Step s s') : Inv s' := by
  cases hs with
  | arrive r hon hr => exact .booting hphase hexec (htrace.moved ⟨hon, r, hr, rfl⟩) hsent hg hidle
  | @boot q q' x d hq hstep hacc =>
      obtain rfl : p = q := Phase.booting.inj (hphase.symm.trans hq)
      exact .booting rfl (exec_snoc hexec hstep) (htrace.snoc hacc) hsent hg hidle
  | register hret =>
      obtain rfl : p = ret () := Phase.booting.inj (hphase.symm.trans hret)
      obtain ⟨hdata, hsent', -, -, rest, harrived, hfits, hfifo, hprs⟩ :=
        waiting_of_boot hexec htrace
      obtain ⟨led, led', hlog⟩ := completes_boot.mp hexec
      refine @Inv.serving _ _ rfl
        (reachable_of_waiting hfits hg hdata (hsent'.trans hsent) hfifo hprs)
        ⟨rfl, harrived, ⟨s.loop.g.packetNum, rfl⟩, ?_, s.log, [],
          (List.append_nil _).symm, ?_, .nil⟩
      · show SameHandler s.handler none
        rw [hidle]
        exact .none
      · rw [hlog]
        rfl
  | clear hp _ | main hp _ => exact absurd (hphase.symm.trans hp) (by simp)
  | uart _ _ hl _ | irq hl _ _ =>
      rw [hphase] at hl
      exact absurd hl Bool.false_ne_true
  | access hp _ _ | done hp => exact absurd (hidle.symm.trans hp) (by simp)

theorem inv_serve {s s' : Machine} {b : Delivery.Board}
    (hlistens : s.phase.listens = true) (hb : Delivery.Reachable b) (hmatch : Matches s b)
    (hs : Step s s') : Inv s' := by
  obtain ⟨hnic, harrived, ⟨n, hloop⟩, hhandler, hlog⟩ := id hmatch
  cases hs with
  | arrive r hon hr =>
      refine @Inv.serving _ _ hlistens (hb.step (.arrive r hr))
        ⟨?_, ?_, ⟨n, hloop⟩, hhandler, hlog⟩
      · show b.chip.nic.arrive r = s.chip.chip.nic.arrive r
        rw [hnic]
      · show s.chip.chip.arrived ++ [r] = s.chip.lost ++ (b.chip.arrived ++ [r])
        rw [harrived, List.append_assoc]
  | boot hq _ _ | register hq =>
      rw [hq] at hlistens
      exact absurd hlistens Bool.false_ne_true
  | clear hp hidle => exact .serving rfl hb ⟨hnic, harrived, ⟨n, hloop⟩, hhandler, hlog⟩
  | main hp hidle =>
      refine .serving hlistens (hb.step (.main (hmatch.handler_none hidle)))
        ⟨hnic, harrived, ⟨n, ?_⟩, hhandler, hlog⟩
      rw [← mainStep_setPacketNum, ← hloop]
  | uart status rxdata hl hidle =>
      refine .serving hlistens (hb.step (.uart status rxdata (hmatch.handler_none hidle)))
        ⟨hnic, harrived, ⟨n, ?_⟩, hhandler, hlog⟩
      rw [← receiverInterupts_setPacketNum, ← hloop]
  | irq hl hidle hirq =>
      rw [← hnic] at hirq
      refine .serving hlistens (hb.step (.irq (hmatch.handler_none hidle) hirq))
        ⟨hnic, harrived, ⟨n, hloop⟩, .some (inStep_ethernetInterrupts ⟨n, ?_⟩), hlog⟩
      rw [hloop]
      rfl
  | access hp hstep hacc =>
      obtain ⟨b', hb', hmatch'⟩ := hmatch.access hb hp hstep hacc
      exact .serving hlistens hb' hmatch'
  | done hp =>
      obtain ⟨q, hq, hpq⟩ := hmatch.handler_some hp
      obtain ⟨g', rfl, k, rfl⟩ := hpq.of_ret
      refine .serving hlistens (hb.step (.done hq)) ⟨hnic, harrived, ⟨k, ?_⟩, .none, hlog⟩
      rw [hloop]
      rfl

theorem inv_of_reachable {s : Machine} (h : Reachable s) : Inv s := by
  induction h with
  | start n rxen m hsent hm => exact .booting rfl rfl (.nil _) hsent hm rfl
  | step _ hs ih =>
      cases ih with
      | booting hphase hexec htrace hsent hg hidle =>
          exact inv_boot hphase hexec htrace hsent hg hidle hs
      | serving hlistens hb hmatch => exact inv_serve hlistens hb hmatch hs

theorem canReturn_boot : CanReturn boot := by
  have hinit : CanReturn dm9000Init :=
    (Delivery.canReturn_script (iowWrites [(0x1E, 0x01), (0x1F, 0x00), (NCR, 0x03)] ++
      (setupWrites ++ goWrites))).bind fun _ => (Delivery.canReturn_ior 0x2D).bind fun _ => .ret _
  exact CanReturn.put.bind fun _ => hinit.bind fun _ => hinit.bind fun _ => .ret ()

/-- While `main` sets up the chip it sends nothing, and it writes one register
of `cnc_module`. -/
theorem booting_under_way {s s' : Gated} {tr : List BusAccess} {p : Fw Unit}
    (hexec : exec boot tr = some p) (htrace : Trace gated s tr s') :
    s'.chip.nic.tx.sent = s.chip.nic.tx.sent ∧ cncWrites tr <+: [(5, 0)] := by
  obtain ⟨tr', _, hrun⟩ := canReturn_boot.extend hexec
  obtain ⟨led, led', hwhole⟩ := completes_boot.mp hrun
  rw [RxSide.trace_tx (trace_chip htrace)]
  constructor
  · have hsent : (s.chip.nic.tx.run (tr ++ tr')).sent = s.chip.nic.tx.sent ++ [] := by
      rw [hwhole, List.append_nil]
      rfl
    obtain ⟨first, hfirst, heq⟩ := Delivery.sent_of_part hsent
    rw [heq, List.prefix_nil.mp hfirst, List.append_nil]
  · have hwrites : cncWrites tr ++ cncWrites tr' = [(5, 0)] := by
      rw [← cncWrites_append, hwhole]
      rfl
    exact ⟨_, hwrites⟩

/-- `main` can go along a run that the chip can answer. -/
theorem reachable_of_exec {s : Machine} (h : Reachable s) {p q : Fw Unit}
    (hp : s.phase = .booting p) {tr : List BusAccess} (hexec : exec p tr = some q) {n : Nic}
    (hrun : s.chip.chip.nic.run tr = some n) :
    ∃ rxen lost, Reachable { s with
      chip := ⟨⟨n, s.chip.chip.arrived⟩, rxen, lost⟩
      phase := .booting q
      log := s.log ++ tr } := by
  obtain ⟨⟨⟨m, arrived⟩, rxen, lost⟩, phase, loop, handler, log⟩ := s
  cases hp
  refine Nic.along (R := fun p n log => ∃ rxen lost,
    Reachable ⟨⟨⟨n, arrived⟩, rxen, lost⟩, .booting p, loop, handler, log⟩) ?_ ⟨rxen, lost, h⟩
    hexec hrun
  rintro p p' x n n' log ⟨rxen, lost, hreach⟩ hs hacc
  exact ⟨_, _, hreach.step (.boot rfl hs ⟨⟨hacc, rfl⟩, rfl, rfl⟩)⟩

/-- A chip in the middle of something, its FIFO out of step. -/
def leftOver : Nic where
  tx := ⟨TCR, [0x4242], 0, 0, []⟩
  prs := true
  imr := INTR_set
  rxFifo := [0x4001, 0x1234, 0x0000]
  primed := true

def bootTrace : List BusAccess := .wr ⟨.cncModule0, 5⟩ 0 :: (initTrace 0x80 ++ initTrace 0x80)

/-- The loop variables at start-up. -/
def startLoop : Main := ⟨.pressedTest, .init, 0, 0, 0, 0, 0, 0, 0, 0, []⟩

/-- `main` gets through, whatever the chip was doing. -/
theorem exists_booted {s : Machine} (h : Reachable s) (hphase : s.phase = .booting boot)
    (hlog : s.log = []) {n : Nic} (hrun : s.chip.chip.nic.run bootTrace = some n) :
    ∃ s', Reachable s' ∧ s'.phase = .booting (ret ()) ∧ s'.log = bootTrace ∧
      s'.chip.chip = ⟨n, s.chip.chip.arrived⟩ := by
  obtain ⟨rxen, lost, hreach⟩ := reachable_of_exec h hphase
    (completes_boot.mpr ⟨0x80, 0x80, rfl⟩) hrun
  refine ⟨_, hreach, rfl, ?_, rfl⟩
  show s.log ++ _ = _
  rw [hlog]
  rfl

theorem reachable_leftOver :
    Reachable ⟨⟨⟨leftOver, []⟩, true, []⟩, .booting boot, startLoop, none, []⟩ :=
  .start leftOver true startLoop rfl rfl

end FpgaCnc.Startup

/-! ## §7  Standing still -/

namespace FpgaCnc.Delivery

open IoProg Dm9000a HelloLed

/-- What a frame leaves of `RXT`: a good one its own bytes, by whole words. -/
theorem byte_taking (g : Globals) (r : RxRecord) (j : ℕ) :
    (taking g r).rxt.byte j =
      if r.toFifo.Good ∧ j < 2 * ((r.bytes.length + 1) / 2) then r.bytes.getD j 0
      else g.rxt.byte j := by
  show ((r.answers 0).result g.rxt).dataPtr.byte j = _
  rw [RxResponse.result_byte (r.complete_answers 0), r.toNat_len_answers]
  by_cases h : r.toFifo.Good ∧ j < 2 * ((r.bytes.length + 1) / 2)
  · rw [if_pos h, if_pos ⟨r.ready_statusWord, (r.good_answers 0).mpr h.1, h.2⟩]
    exact (r.toFifo.wordByte_answersOf 0 j).trans (r.byte_toFifo (by omega))
  · rw [if_neg h, if_neg fun hall => h ⟨(r.good_answers 0).mp hall.2.1, hall.2.2⟩]

/-- **Both bytes of the type come from one frame**: the last good one that is
long enough. -/
theorem isCommand_taking (g : Globals) (r : RxRecord) :
    isCommand (taking g r).rxt =
      if r.toFifo.Good ∧ 12 < r.bytes.length then hasCommandType r else isCommand g.rxt := by
  unfold isCommand
  rw [byte_taking, byte_taking]
  by_cases h : r.toFifo.Good ∧ 12 < r.bytes.length
  · rw [if_pos h, if_pos ⟨h.1, by omega⟩, if_pos ⟨h.1, by omega⟩]
    rfl
  · rw [if_neg h, if_neg fun hall => h ⟨hall.1, by omega⟩,
      if_neg fun hall => h ⟨hall.1, by omega⟩]

/-- A server that is given no command writes nothing. -/
theorem Server.Reachable.regs_of_none {s : Server} (h : s.Reachable)
    (hnone : ∀ r ∈ s.served, hasCommandType r = false) :
    isCommand s.loop.g.rxt = false ∧ s.regs = [] := by
  have hkind : ∀ (g : Globals) (r : RxRecord), isCommand g.rxt = false →
      hasCommandType r = false → isCommand (taking g r).rxt = false := by
    intro g r hg hr
    rw [isCommand_taking]
    split_ifs
    · exact hr
    · exact hg
  induction h with
  | boot m hm =>
      refine ⟨?_, rfl⟩
      rw [hm]
      rfl
  | @step s s' hs hstep ih =>
      cases hstep with
      | main =>
          obtain ⟨hcmd, hregs⟩ := ih hnone
          refine ⟨?_, hregs⟩
          show isCommand (mainStep s.loop).g.rxt = false
          rw [(buffers_mainStep s.loop).2]
          exact hcmd
      | uart status rxdata =>
          obtain ⟨hcmd, hregs⟩ := ih hnone
          refine ⟨?_, hregs⟩
          show isCommand (receiverInterupts status rxdata s.loop).g.rxt = false
          unfold receiverInterupts
          split_ifs <;> exact hcmd
      | command r v hcmd =>
          obtain ⟨hbefore, -⟩ := ih fun q hq => hnone q (List.mem_append_left _ hq)
          rw [hkind _ r hbefore (hnone r (by simp))] at hcmd
          exact absurd hcmd (by decide)
      | reject r hreject =>
          exact ⟨hreject, (ih fun q hq => hnone q (List.mem_append_left _ hq)).2⟩

/-- Nor does a board, at any moment. -/
theorem cncWrites_of_none {b : Board} (h : Reachable b)
    (hnone : ∀ r ∈ b.chip.arrived, hasCommandType r = false) : cncWrites b.log = [] := by
  obtain ⟨s, hs, hserved, ⟨-, hwrites⟩ | ⟨r, g', f, ws, houtcome, htaken, -, ws', hws, hwrites⟩⟩ :=
    board_at_any_moment h
  · rw [hwrites, (hs.regs_of_none fun r hr => hnone r (hserved.subset hr)).2]
  · obtain ⟨hcmd, hregs⟩ := hs.regs_of_none fun r hr => hnone r (hserved.subset hr)
    rw [hwrites, hregs]
    cases houtcome with
    | command v hcommand =>
        rw [isCommand_taking, hcmd, hnone r (htaken.subset (by simp)), ite_self] at hcommand
        exact absurd hcommand (by decide)
    | reject _ => exact List.prefix_nil.mp hws

end FpgaCnc.Delivery

namespace FpgaCnc.CncModule

open Clocked

/-- A module whose axes are off gives no pulses and counts none, from the second
clock on: a pulse just begun is counted at the first. -/
theorem still_of_disabled {s : CncModule} {bs : List CncIn} (hoff : ∀ i, s.ctl.sgEn i = false)
    (hnone : writesOf bs = []) (hne : bs ≠ []) (i : Fin 5) :
    (run posedge s bs).osteps i = false ∧
      ((run posedge s bs).sg i).location = ((s.sg i).posedge (s.sgIn i)).location := by
  induction bs using List.reverseRecOn with
  | nil => exact absurd rfl hne
  | append_singleton bs b ih =>
      rw [writesOf_append] at hnone
      obtain ⟨hbs, -⟩ := List.append_eq_nil_iff.mp hnone
      have hen : ((run posedge s bs).sgIn i).en = false := by
        show (run posedge s bs).ctl.sgEn i = false
        rw [ctl_run, hbs]
        exact hoff i
      rw [run_append, run_cons, run_nil]
      refine ⟨?_, ?_⟩
      · rw [osteps, sg_posedge]
        exact (StepGen.posedge_of_disabled hen).2
      · rw [sg_posedge]
        rcases List.eq_nil_or_concat bs with rfl | ⟨front, c, rfl⟩
        · rfl
        · obtain ⟨hlow, hlocation⟩ := ih hbs (by simp)
          have hpulse : ¬ (((run posedge s (front.concat c)).sg i).stepOut = true ∧
              ((run posedge s (front.concat c)).sg i).lastStepOut = false) :=
            fun hp => Bool.false_ne_true (hlow.symm.trans hp.1)
          rw [StepGen.posedge, if_neg hpulse]
          exact hlocation

end FpgaCnc.CncModule

namespace FpgaCnc.Startup

open IoProg Dm9000a HelloLed Clocked
open Delivery (hasCommandType)

/-- The first access is made before anything else can be. -/
theorem cncWrites_of_none {s : Machine} (h : Reachable s) (hstarted : s.log ≠ [])
    (hnone : ∀ r ∈ s.chip.chip.arrived, hasCommandType r = false) :
    cncWrites s.log = [(5, 0)] := by
  cases inv_of_reachable h with
  | booting _ hexec htrace _ _ _ =>
      obtain ⟨-, hwrites⟩ := booting_under_way hexec htrace
      generalize hlog : s.log = tr at hstarted hexec hwrites
      cases tr with
      | nil => exact absurd rfl hstarted
      | cons x tr =>
          obtain ⟨p', hs, -⟩ := Option.bind_eq_some_iff.mp hexec
          obtain ⟨rfl, -⟩ := step_write.mp hs
          obtain ⟨rest, hrest⟩ := hwrites
          have htail : cncWrites tr ++ rest = [] := (List.cons.inj hrest).2
          show (5, 0) :: cncWrites tr = _
          rw [(List.append_eq_nil_iff.mp htail).1]
  | serving _ hb hmatch =>
      rw [hmatch.regs, Delivery.cncWrites_of_none hb]
      intro r hr
      exact hnone r (hmatch.arrived ▸ List.mem_append_right _ hr)

/-- **Nothing moves before a command.** From the first instruction of `main`,
with `cnc_module` in any state, its axes running or not: after the first write
the registers are those it had with the axes off, at every clock, as long as no
command arrives; and from the clock after it on no axis gives a pulse and every
location keeps one value, which still counts a pulse begun at the write. -/
theorem still_until_commanded {s : Machine} (h : Reachable s) (hstarted : s.log ≠ [])
    (hnone : ∀ r ∈ s.chip.chip.arrived, hasCommandType r = false) {m : CncModule} {bs : List CncIn}
    (hbus : Drives m s.log bs) :
    ∃ before b after, bs = before ++ b :: after ∧ CncModule.writesOf before = [] ∧
      ∃ location : Fin 5 → BitVec 32, ∀ mid, mid <+: after →
        (run CncModule.posedge m (before ++ b :: mid)).ctl = m.ctl.write 5 0 ∧
        (mid ≠ [] → ∀ i, (run CncModule.posedge m (before ++ b :: mid)).osteps i = false ∧
          ((run CncModule.posedge m (before ++ b :: mid)).sg i).location = location i) := by
  have hwrites : CncModule.writesOf bs = [(5, 0)] := by
    rw [hbus.writes, cncWrites_of_none h hstarted hnone]
    rfl
  obtain ⟨before, b, after, rfl, hbefore, hb, hafter⟩ := List.filterMap_eq_cons_iff.mp hwrites
  have hquiet : CncModule.writesOf before = [] := List.filterMap_eq_nil_iff.mpr hbefore
  refine ⟨before, b, after, rfl, hquiet, fun i =>
    (((run CncModule.posedge m (before ++ [b])).sg i).posedge
      ((run CncModule.posedge m (before ++ [b])).sgIn i)).location, ?_⟩
  rintro mid ⟨rest, rfl⟩
  have hmid : CncModule.writesOf mid = [] := by
    have hboth : CncModule.writesOf (mid ++ rest) = [] := hafter
    rw [CncModule.writesOf_append] at hboth
    exact (List.append_eq_nil_iff.mp hboth).1
  have hctl : ∀ bs, CncModule.writesOf bs = [] →
      (run CncModule.posedge m (before ++ b :: bs)).ctl = m.ctl.write 5 0 := by
    intro bs hbs
    rw [CncModule.ctl_run, CncModule.writesOf_append, CncModule.writesOf_cons, hquiet, hb, hbs]
    rfl
  refine ⟨hctl mid hmid, fun hne i => ?_⟩
  have hsplit : before ++ b :: mid = (before ++ [b]) ++ mid := by simp
  rw [hsplit, run_append]
  refine CncModule.still_of_disabled (fun j => ?_) hmid hne i
  rw [hctl [] rfl, CtlRegs.sgEn_write, if_pos (by decide)]
  simp

/-- Axis 0 at full speed. -/
def running : CncModule :=
  { CncModule.powerUp with
    ctl := { CncModule.powerUp.ctl with sgEns := 1 }
    sg0 := ⟨1, true, false, 0x80000007⟩ }

theorem still_until_commanded_running :
    running.osteps 0 = true ∧ ∃ s bs, Reachable s ∧ Drives running s.log bs ∧
      ∃ before b after, bs = before ++ b :: after ∧ CncModule.writesOf before = [] ∧
        ∃ location : Fin 5 → BitVec 32, ∀ mid, mid <+: after →
          (run CncModule.posedge running (before ++ b :: mid)).ctl = running.ctl.write 5 0 ∧
          (mid ≠ [] → ∀ i,
            (run CncModule.posedge running (before ++ b :: mid)).osteps i = false ∧
            ((run CncModule.posedge running (before ++ b :: mid)).sg i).location = location i) := by
  refine ⟨rfl, ?_⟩
  have hruns : (leftOver.run bootTrace).isSome = true := by decide +kernel
  obtain ⟨n, hn⟩ := Option.isSome_iff_exists.mp hruns
  obtain ⟨s, hs, -, hlog, hchip⟩ := exists_booted reachable_leftOver rfl rfl hn
  have hbus : Drives running s.log (s.log.filterMap (Drives.clockOf 0)) := by
    apply Drives.of_answers
    rw [hlog]
    decide +kernel
  refine ⟨s, _, hs, hbus, still_until_commanded hs ?_ ?_ hbus⟩
  · rw [hlog]
    exact List.cons_ne_nil _ _
  · rw [hchip]
    exact List.forall_mem_nil _

end FpgaCnc.Startup
