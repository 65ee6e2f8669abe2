import FpgaCnc.Firmware.Pendant
import FpgaCnc.Firmware.RxBuffer
import FpgaCnc.Firmware.RxFifo
import FpgaCnc.System.FeedbackPath
import FpgaCnc.System.RxSide

/-!
# The board serves frame after frame

Chip, handler and main loop, one register access or one statement at a time,
with frames arriving whenever they like. Seen from outside this is a server
that takes the frames in the order of their arrival, one at a time, and
answers each with one frame.

A good frame of more than 512 bytes would be stored over what follows `RXT` in
memory; it is kept out here, and no store leaves `RXT`.

§1 the board · §2 the server · §3 the frames that wait · §4 one run of the
handler · §5 the board refines the server · §6 two commands.
-/

namespace FpgaCnc.RxRecord

open Dm9000a HelloLed

instance (r : FifoRecord) : Decidable r.Good := inferInstanceAs (Decidable (_ ∧ _))

/-- `RXT` has room for the frame; one with errors is not stored. -/
def FitsRxt (r : RxRecord) : Prop := r.toFifo.Good → r.bytes.length ≤ rxtSize

instance (r : RxRecord) : Decidable r.FitsRxt := inferInstanceAs (Decidable (_ → _))

theorem toNat_len_answers (r : RxRecord) (dummy : BitVec 32) :
    (r.answers dummy).len.toNat = r.bytes.length := by
  have hword : (r.answers dummy).len.toNat = r.lenWord.toNat := Nic.len_answersOf r.toFifo dummy
  rw [hword, r.toNat_lenWord]

theorem good_answers (r : RxRecord) (dummy : BitVec 32) :
    (r.answers dummy).good ↔ r.toFifo.Good := r.toFifo.good_answersOf dummy

end FpgaCnc.RxRecord

namespace FpgaCnc.Delivery

open IoProg Dm9000a HelloLed RxSide

/-! ## §1  The board -/

/-- The chip, and the frames that have arrived. -/
abbrev Chip := Noted (List RxRecord)

abbrev Chip.arrived (c : Chip) : List RxRecord := c.note

/-- Frames that `RXT` has room for, in order. -/
def arrivals : Arrivals (List RxRecord) where
  admits r := r.FitsRxt
  note arrived _ r := arrived ++ [r]

abbrev Chip.arrive (c : Chip) (r : RxRecord) : Chip := Noted.arrive arrivals c r

/-- The chip as a device: accesses, and arrivals at any time. -/
abbrev device : Device Addr (BitVec 32) Chip := RxSide.device arrivals

/-- The chip, the main loop, what is left of the handler while it runs, and the
accesses the handler has made. -/
structure Board where
  chip : Chip
  loop : Main
  handler : Option (Fw Globals)
  log : List BusAccess

inductive Step : Board → Board → Prop where
  | arrive {b : Board} (r : RxRecord) : r.FitsRxt → Step b { b with chip := b.chip.arrive r }
  | main {b : Board} : b.handler = none → Step b { b with loop := mainStep b.loop }
  | uart {b : Board} (status rxdata : BitVec 32) : b.handler = none →
      Step b { b with loop := receiverInterupts status rxdata b.loop }
  | irq {b : Board} : b.handler = none → b.chip.nic.irq = true →
      Step b { b with handler := some (ethernetInterrupts b.loop.g) }
  | access {b : Board} {p p' : Fw Globals} {x : BusAccess} {c : Chip} :
      b.handler = some p → step p x = some p' → device.access b.chip x c →
      Step b { b with chip := c, handler := some p', log := b.log ++ [x] }
  | done {b : Board} {g : Globals} : b.handler = some (ret g) →
      Step b { b with loop := { b.loop with g := g }, handler := none }

/-- Nothing received, nothing sent. -/
structure Fresh (n : Nic) : Prop where
  prs : n.prs = false
  rxFifo : n.rxFifo = []
  data : n.tx.data = []
  sent : n.tx.sent = []

inductive Reachable : Board → Prop where
  | boot (n : Nic) (m : Main) : Fresh n → m.g = .init → Reachable ⟨⟨n, []⟩, m, none, []⟩
  | step {b b' : Board} : Reachable b → Step b b' → Reachable b'

/-! ## §2  The server -/

/-- The globals once `ReceivePacket` has taken a frame out. -/
def taking (g : Globals) (r : RxRecord) : Globals := g.received ((r.answers 0).result g.rxt)

/-- The frame is stored inside `RXT`. -/
theorem stores_taking {g : Globals} {r : RxRecord} (hr : r.FitsRxt)
    (hg : ∀ j ∈ g.rxt.stores, j < rxtSize) : ∀ j ∈ (taking g r).rxt.stores, j < rxtSize := by
  obtain ⟨idx, hstores, hmem⟩ := result_stores (r.complete_answers 0) g.rxt
  intro j hj
  have hsplit : j ∈ idx ++ g.rxt.stores := hstores ▸ hj
  rcases List.mem_append.mp hsplit with hnew | hold
  · obtain ⟨-, hgood, hlt⟩ := (hmem j).mp hnew
    have hlen := hr ((r.good_answers 0).mp hgood)
    rw [r.toNat_len_answers] at hlt
    rw [rxtSize] at hlen ⊢
    omega
  · exact hg j hold

/-- The globals after an accepted command. -/
def answered (g : Globals) (v : ℕ → BitVec 32) : Globals :=
  { g with temp := v 16, txt := replyTxt g v, packetNum := g.packetNum + 1 }

/-- The globals after any other frame. -/
def rejected (g : Globals) : Globals :=
  { g with
    i := g.i + 1
    sevenSegs := (g.sevenSegs &&& 0xFFFFFF00) ||| ((g.i + 1) &&& 0xFF)
    txt := (g.txt.store 13 0xaa).store 13 0xab }

/-- The answer to a frame that is no command. -/
def shortReply (g : Globals) : List (BitVec 8) := (List.range 14).map (g.txt.store 13 0xaa).byte

/-- The main loop, the frames served, the frames sent and the registers
written. -/
structure Server where
  loop : Main
  served : List RxRecord
  sent : List (List (BitVec 8))
  regs : List (ℕ × BitVec 32)

namespace Server

/-- One frame at a time; nothing else happens meanwhile. -/
inductive Step : Server → Server → Prop where
  | main {s : Server} : Step s { s with loop := mainStep s.loop }
  | uart {s : Server} (status rxdata : BitVec 32) :
      Step s { s with loop := receiverInterupts status rxdata s.loop }
  | command {s : Server} (r : RxRecord) (v : ℕ → BitVec 32) :
      isCommand (taking s.loop.g r).rxt = true → Step s
      { loop := { s.loop with g := answered (taking s.loop.g r) v }
        served := s.served ++ [r]
        sent := s.sent ++ [replyFrame (taking s.loop.g r) v]
        regs := s.regs ++ regWrites (taking s.loop.g r).rxt }
  | reject {s : Server} (r : RxRecord) : isCommand (taking s.loop.g r).rxt = false → Step s
      { loop := { s.loop with g := rejected (taking s.loop.g r) }
        served := s.served ++ [r]
        sent := s.sent ++ [shortReply (taking s.loop.g r)]
        regs := s.regs }

inductive Reachable : Server → Prop where
  | boot (m : Main) : m.g = .init → Reachable ⟨m, [], [], []⟩
  | step {s s' : Server} : Reachable s → Step s s' → Reachable s'

variable {s s' : Server}

/-- The reply type stands in `TXT`. -/
theorem hasHeader_step (h : HasHeader s.loop.g.txt) (hs : Step s s') :
    HasHeader s'.loop.g.txt := by
  cases hs with
  | main =>
      show HasHeader (mainStep s.loop).g.txt
      rw [(buffers_mainStep s.loop).1]
      exact h
  | uart status rxdata =>
      show HasHeader (receiverInterupts status rxdata s.loop).g.txt
      unfold receiverInterupts
      split_ifs <;> exact h
  | command r v _ =>
      exact ⟨(replyTxt_header _ v (by decide)).trans h.1,
        (replyTxt_header _ v (by decide)).trans h.2⟩
  | reject r _ => exact ⟨(store_aa_store_ab h.2 12).trans h.1, (store_aa_store_ab h.2 13).trans h.2⟩

theorem Reachable.hasHeader (h : Reachable s) : HasHeader s.loop.g.txt := by
  induction h with
  | boot m hm =>
      show HasHeader m.g.txt
      rw [hm]
      exact ⟨rfl, rfl⟩
  | step _ hs ih => exact hasHeader_step ih hs

/-- **No store leaves `RXT`**, as long as it has room for each frame. -/
theorem Reachable.stores (h : s.Reachable) (hfits : ∀ r ∈ s.served, r.FitsRxt) :
    ∀ j ∈ s.loop.g.rxt.stores, j < rxtSize := by
  induction h with
  | boot m hm =>
      show ∀ j ∈ m.g.rxt.stores, _
      rw [hm]
      exact List.forall_mem_nil _
  | @step s s' _ hs ih =>
      cases hs with
      | main =>
          show ∀ j ∈ (mainStep s.loop).g.rxt.stores, _
          rw [(buffers_mainStep s.loop).2]
          exact ih hfits
      | uart status rxdata =>
          show ∀ j ∈ (receiverInterupts status rxdata s.loop).g.rxt.stores, _
          unfold receiverInterupts
          split_ifs <;> exact ih hfits
      | command r _ _ | reject r _ =>
          refine stores_taking (hfits r (by simp)) (ih fun q hq => ?_)
          exact hfits q (List.mem_append_left _ hq)

/-- One answer a frame. -/
theorem Reachable.length_sent (h : Reachable s) : s.sent.length = s.served.length := by
  induction h with
  | boot m _ => rfl
  | step _ hs ih => cases hs <;> simp [ih]

end Server

/-! ## §3  The frames that wait -/

/-- These frames have been taken out, the others stand in the FIFO. `PRS` is set
only if there are others. -/
def holds (taken : List RxRecord) : Tally (List RxRecord) := fun arrived prs rest =>
  arrived = taken ++ rest ∧ (prs = true → rest ≠ [])

theorem kept_holds (taken : List RxRecord) : Kept arrivals (holds taken) := by
  rintro arrived prs rest ⟨rfl, -⟩ r _
  exact ⟨List.append_assoc _ _ _, fun _ => by simp⟩

theorem takes_holds (taken : List RxRecord) :
    Takes (holds taken) fun r => holds (taken ++ [r]) where
  some _ h := h.2 rfl rfl
  first arrived r rest h := ⟨by rw [h.1, List.append_assoc]; rfl, nofun⟩

/-! ## §4  One run of the handler -/

/-- What one run of the handler has done, from the globals `g`. -/
inductive Outcome (g : Globals) (r : RxRecord) :
    Globals → List (BitVec 8) → List (ℕ × BitVec 32) → Prop where
  | command (v : ℕ → BitVec 32) : isCommand (taking g r).rxt = true →
      Outcome g r (answered (taking g r) v) (replyFrame (taking g r) v)
        (regWrites (taking g r).rxt)
  | reject : isCommand (taking g r).rxt = false →
      Outcome g r (rejected (taking g r)) (shortReply (taking g r)) []

/-- **The part after the reception** sends one frame, and writes the registers
if it was a command. -/
theorem outcome_of_afterReceive {g g' : Globals} {r : RxRecord} {t : List BusAccess}
    (h : Completes (afterReceive (taking g r)) t g') :
    ∃ f ws, Outcome g r g' f ws ∧ Tx.Sends t [f] ∧ cncWrites t = ws := by
  unfold afterReceive at h
  split_ifs at h with hcmd
  · have hwrites := cncWrites_of_answerCommand hcmd h
    obtain ⟨v, vs, u, -, -, rfl, rfl⟩ := (completes_answerCommand hcmd).mp h
    exact ⟨_, _, .command v hcmd, fun t ht => Tx.run_commandTrace ht _ v vs u, hwrites⟩
  · have hwrites := cncWrites_of_nic ((only_rejectFrame (taking g r)).exec h)
    obtain ⟨vs, u, -, -, rfl, rfl⟩ := completes_rejectFrame.mp h
    exact ⟨_, _, .reject (Bool.eq_false_iff.mpr hcmd),
      fun t ht => Tx.run_txTrace ht _ (show (14#32).toNat < 2 ^ 16 by decide) vs u, hwrites⟩

/-- **One run of the handler serves the first frame that is waiting**, whatever
arrives meanwhile. -/
theorem handler_serves {g g' : Globals} {tr : List BusAccess}
    (h : Completes (ethernetInterrupts g) tr g') {c c' : Chip} (htrace : Trace device c tr c')
    {taken : List RxRecord} (hc : On (signalled (holds taken)) c) (hdata : c.nic.tx.data = []) :
    ∃ r f ws, Outcome g r g' f ws ∧ On (records (holds (taken ++ [r])) []) c' ∧
      c'.nic.tx.data = [] ∧ c'.nic.tx.sent = c.nic.tx.sent ++ [f] ∧ cncWrites tr = ws := by
  obtain ⟨r, inter, a, t, ha, rfl, hrest, hend⟩ := handler_takes (kept_holds taken)
    (takes_holds taken) (fun r => kept_holds (taken ++ [r])) h htrace hc
  obtain ⟨f, ws, houtcome, hsends, hwrites⟩ := outcome_of_afterReceive hrest
  obtain ⟨hdata', hsent⟩ := ((Tx.sends_reception inter a).append hsends) c.nic.tx hdata
  rw [List.append_assoc, ← trace_tx htrace] at hdata' hsent
  refine ⟨r, f, ws, houtcome, hend, hdata', hsent, ?_⟩
  rw [cncWrites_append, cncWrites_append, cncWrites_of_nic (nic_isrTrace inter),
    cncWrites_of_nic (nic_trace g.rxt ha), hwrites]
  rfl

/-! ## §5  The board refines the server -/

/-- Board and server between two runs of the handler. -/
structure Matches (s : Server) (c : Chip) (log : List BusAccess) : Prop where
  rx : On (records (holds s.served) []) c
  data : c.nic.tx.data = []
  sent : c.nic.tx.sent = s.sent
  regs : cncWrites log = s.regs

/-- While the handler runs, the server is where the board was when it
started. -/
inductive Inv : Board → Prop where
  | idle {b : Board} {s : Server} : s.Reachable → s.loop = b.loop → Matches s b.chip b.log →
      b.handler = none → Inv b
  | serving {b : Board} {s : Server} {c : Chip} {log tr : List BusAccess} {p : Fw Globals} :
      s.Reachable → s.loop = b.loop → Matches s c log → c.nic.prs = true → b.handler = some p →
      exec (ethernetInterrupts b.loop.g) tr = some p → Trace device c tr b.chip →
      b.log = log ++ tr → Inv b

/-- A served frame is a step of the server. -/
theorem Outcome.step {s : Server} {r : RxRecord} {g' : Globals} {f : List (BitVec 8)}
    {ws : List (ℕ × BitVec 32)} (h : Outcome s.loop.g r g' f ws) :
    Server.Step s ⟨{ s.loop with g := g' }, s.served ++ [r], s.sent ++ [f], s.regs ++ ws⟩ := by
  cases h with
  | command v hcmd => exact .command r v hcmd
  | reject hcmd =>
      rw [List.append_nil]
      exact .reject r hcmd

theorem inv_step {b b' : Board} (h : Inv b) (hs : Step b b') : Inv b' := by
  cases h with
  | @idle s hserver hloop hmatch hidle =>
      obtain ⟨hrx, hdata, hsent, hregs⟩ := hmatch
      cases hs with
      | arrive r hr =>
          have hrx' := stable_on ((kept_holds _).records []) b.chip _ hrx ⟨r, hr, rfl⟩
          exact .idle hserver hloop ⟨hrx', hdata, hsent, hregs⟩ hidle
      | main _ =>
          refine .idle (s := { s with loop := mainStep b.loop }) ?_ rfl
            ⟨hrx, hdata, hsent, hregs⟩ hidle
          exact hloop ▸ hserver.step .main
      | uart status rxdata _ =>
          refine .idle (s := { s with loop := receiverInterupts status rxdata b.loop }) ?_ rfl
            ⟨hrx, hdata, hsent, hregs⟩ hidle
          exact hloop ▸ hserver.step (.uart status rxdata)
      | irq _ hirq =>
          exact .serving hserver hloop ⟨hrx, hdata, hsent, hregs⟩ (Bool.and_eq_true_iff.mp hirq).1
            rfl (exec_nil _) (.nil _) (List.append_nil _).symm
      | access hp _ _ => exact absurd (hidle.symm.trans hp) (by simp)
      | done hp => exact absurd (hidle.symm.trans hp) (by simp)
  | @serving s c log tr p hserver hloop hmatch hprs hp hexec htrace hlog =>
      cases hs with
      | arrive r hr =>
          exact .serving hserver hloop hmatch hprs hp hexec (htrace.moved ⟨r, hr, rfl⟩) hlog
      | main hidle => exact absurd (hidle.symm.trans hp) (by simp)
      | uart _ _ hidle => exact absurd (hidle.symm.trans hp) (by simp)
      | irq hidle _ => exact absurd (hidle.symm.trans hp) (by simp)
      | @access q q' x c' hq hstep hacc =>
          obtain rfl : p = q := Option.some.inj (hp.symm.trans hq)
          refine .serving hserver hloop hmatch hprs rfl (exec_snoc hexec hstep)
            (htrace.snoc hacc) ?_
          show b.log ++ [x] = _
          rw [hlog, List.append_assoc]
      | @done g hq =>
          obtain rfl : p = ret g := Option.some.inj (hp.symm.trans hq)
          obtain ⟨hrx, hdata, hsent, hregs⟩ := hmatch
          obtain ⟨r, f, ws, houtcome, hrx', hdata', hsent', hwrites⟩ :=
            handler_serves hexec htrace ⟨hprs, hrx⟩ hdata
          rw [← hloop] at houtcome
          refine .idle (hserver.step houtcome.step) (by rw [hloop]) ⟨hrx', hdata', ?_, ?_⟩ rfl
          · rw [hsent', hsent]
          · show cncWrites b.log = _
            rw [hlog, cncWrites_append, hregs, hwrites]

theorem inv_of_reachable {b : Board} (h : Reachable b) : Inv b := by
  induction h with
  | boot n m hfresh hg =>
      refine .idle (.boot m hg) rfl ⟨⟨[], hfresh.rxFifo, rfl, fun hprs => ?_⟩, hfresh.data,
        hfresh.sent, rfl⟩ rfl
      rw [hfresh.prs] at hprs
      exact absurd hprs (by decide)
  | step _ hs ih => exact inv_step ih hs

theorem fitsRxt_of_reachable {b : Board} (h : Reachable b) : ∀ r ∈ b.chip.arrived, r.FitsRxt := by
  induction h with
  | boot n m _ _ => exact List.forall_mem_nil _
  | @step b b' _ hs ih =>
      cases hs with
      | arrive r hr =>
          intro q hq
          rcases List.mem_append.mp hq with hold | hnew
          · exact ih q hold
          · rw [List.mem_singleton.mp hnew]
            exact hr
      | main _ | uart _ _ _ | irq _ _ | done _ => exact ih
      | access _ _ hacc => rwa [Chip.arrived, hacc.2]

/-- **The board refines the server.** Whenever the handler is not running, the
board is where a server is that has taken some frames one at a time, in the
order of their arrival; the others wait in the FIFO, whole; what has been sent
and written is what the server has sent and written; and no store has left
`RXT`. -/
theorem board_serves {b : Board} (h : Reachable b) (hidle : b.handler = none) :
    ∃ s : Server, s.Reachable ∧ s.loop = b.loop ∧ s.sent = b.chip.nic.tx.sent ∧
      s.regs = cncWrites b.log ∧ s.sent.length = s.served.length ∧
      (∀ j ∈ b.loop.g.rxt.stores, j < rxtSize) ∧
      ∃ waiting, b.chip.arrived = s.served ++ waiting ∧
        b.chip.nic.rxFifo = waiting.flatMap RxRecord.words := by
  cases inv_of_reachable h with
  | @idle s hserver hloop hmatch _ =>
      obtain ⟨waiting, hfifo, harrived, -⟩ := hmatch.rx
      refine ⟨s, hserver, hloop, hmatch.sent.symm, hmatch.regs.symm, hserver.length_sent, ?_,
        waiting, harrived, hfifo⟩
      rw [← hloop]
      refine hserver.stores fun r hr => fitsRxt_of_reachable h r ?_
      rw [Chip.arrived, harrived]
      exact List.mem_append_left waiting hr
  | serving _ _ _ _ hp _ _ _ => exact absurd (hidle.symm.trans hp) (by simp)

/-! ## §6  Two commands -/

/-- The handler can go along a run that the chip can answer. -/
theorem reachable_of_exec {b : Board} (h : Reachable b) {p q : Fw Globals}
    (hp : b.handler = some p) {tr : List BusAccess} (hexec : exec p tr = some q) {n : Nic}
    (hrun : b.chip.nic.run tr = some n) :
    Reachable { b with
      chip := ⟨n, b.chip.arrived⟩, handler := some q, log := b.log ++ tr } := by
  obtain ⟨⟨m, arrived⟩, loop, handler, log⟩ := b
  cases hp
  refine Nic.along (R := fun p n log => Reachable ⟨⟨n, arrived⟩, loop, some p, log⟩) ?_ h
    hexec hrun
  intro p p' x n n' log hreach hstep hacc
  exact hreach.step (.access rfl hstep ⟨hacc, rfl⟩)

/-- The accesses of the handler for a command, if the NIC is done at once. -/
def serveTrace (g : Globals) (r : RxRecord) (v : ℕ → BitVec 32) : List BusAccess :=
  isrTrace 1 ++ ((r.answers 0).trace ++ commandTrace (taking g r) v [0x0C])

theorem completes_serveTrace {g : Globals} {r : RxRecord}
    (hcmd : isCommand (taking g r).rxt = true) (v : ℕ → BitVec 32) :
    Completes (ethernetInterrupts g) (serveTrace g r v) (answered (taking g r) v) := by
  have hprs : (1 : BitVec 32) &&& 1 = 1 := by decide
  rw [serveTrace, Completes, exec_ethernetInterrupts_received g hprs (r.complete_answers 0)]
  show exec (afterReceive (taking g r)) _ = _
  rw [afterReceive, if_pos hcmd]
  exact (completes_answerCommand hcmd).mpr
    ⟨v, [], 0x0C, List.forall_mem_nil _, txDone_both, rfl, rfl⟩

/-- A command arrives and is served. -/
theorem reachable_served {b : Board} (h : Reachable b) (hidle : b.handler = none) {r : RxRecord}
    (hr : r.FitsRxt) (hirq : (b.chip.nic.arrive r).irq = true)
    (hcmd : isCommand (taking b.loop.g r).rxt = true) {v : ℕ → BitVec 32} {n : Nic}
    (hrun : (b.chip.nic.arrive r).run (serveTrace b.loop.g r v) = some n) :
    Reachable ⟨⟨n, b.chip.arrived ++ [r]⟩, { b.loop with g := answered (taking b.loop.g r) v },
      none, b.log ++ serveTrace b.loop.g r v⟩ := by
  have hcalled := (h.step (.arrive r hr)).step (.irq hidle hirq)
  exact (reachable_of_exec hcalled rfl (completes_serveTrace hcmd v) hrun).step (.done rfl)

/-- A command whose words are all zero. -/
def zeroRecord : RxRecord where
  status := 0
  bytes := List.replicate 12 0 ++ ([0x80, 0xab] ++ List.replicate 54 0)
  fits := by decide

/-- The globals when the sample command has been served. -/
def afterSample : Globals := answered (taking .init sampleRecord) sampleReads

/-- The chip then. -/
def sampleServed : Nic where
  tx := ⟨IMR, [], 46, 0, [replyFrame (taking .init sampleRecord) sampleReads]⟩
  prs := false
  imr := INTR_set
  rxFifo := []
  primed := false

/-- What the module reads after the sample command: axis 1 has made a step. -/
def secondReads (k : ℕ) : BitVec 32 := if k = 11 then 0x7FFFFFFF else sampleReads k

def twoTrace : List BusAccess :=
  serveTrace .init sampleRecord sampleReads ++ serveTrace afterSample zeroRecord secondReads

/-- The sample command and then the zeros, served. -/
theorem exists_served :
    ∃ b, Reachable b ∧ b.handler = none ∧ b.chip.arrived = [sampleRecord, zeroRecord] ∧
      b.chip.nic.rxFifo = [] ∧ b.chip.nic.tx.sent.length = 2 ∧ b.log = twoTrace := by
  have hfits : sampleRecord.FitsRxt ∧ zeroRecord.FitsRxt := by decide +kernel
  have hcmd : isCommand (taking Globals.init sampleRecord).rxt = true ∧
      isCommand (taking afterSample zeroRecord).rxt = true := by
    decide +kernel
  have hirq : (Nic.idle.arrive sampleRecord).irq = true ∧
      (sampleServed.arrive zeroRecord).irq = true := by
    decide +kernel
  have hfirst : (Nic.idle.arrive sampleRecord).run (serveTrace .init sampleRecord sampleReads) =
      some sampleServed := by
    decide +kernel
  have hsecond : ((sampleServed.arrive zeroRecord).run
      (serveTrace afterSample zeroRecord secondReads)).map (fun n => (n.rxFifo, n.tx.sent.length)) =
        some ([], 2) := by
    decide +kernel
  obtain ⟨n, hn, hend⟩ := Option.map_eq_some_iff.mp hsecond
  obtain ⟨hfifo, hlength⟩ := Prod.mk.inj hend
  have hboot : Reachable ⟨⟨Nic.idle, []⟩, .start, none, []⟩ := .boot _ _ ⟨rfl, rfl, rfl, rfl⟩ rfl
  have hone := reachable_served hboot rfl hfits.1 hirq.1 hcmd.1 hfirst
  rw [List.nil_append] at hone
  exact ⟨_, reachable_served hone rfl hfits.2 hirq.2 hcmd.2 hn, rfl, rfl, hfifo, hlength, rfl⟩

theorem board_serves_sample :
    ∃ (b : Board) (s : Server), Reachable b ∧ s.Reachable ∧ s.loop = b.loop ∧
      s.sent = b.chip.nic.tx.sent ∧ s.regs = cncWrites twoTrace ∧
      s.served = [sampleRecord, zeroRecord] ∧ b.chip.nic.rxFifo = [] := by
  obtain ⟨b, hb, hidle, harrived, hfifo, hlength, hlog⟩ := exists_served
  obtain ⟨s, hs, hloop, hsent, hregs, hcount, -, waiting, hsplit, -⟩ := board_serves hb hidle
  rw [hsent, hlength] at hcount
  rw [harrived] at hsplit
  -- two frames have been answered, and two have arrived
  have hwaiting : waiting = [] := by
    have hsum := congrArg List.length hsplit
    rw [List.length_append, ← hcount] at hsum
    exact List.eq_nil_of_length_eq_zero (Nat.add_left_cancel hsum).symm
  rw [hwaiting, List.append_nil] at hsplit
  exact ⟨b, s, hb, hs, hloop, hsent, hregs.trans (by rw [hlog]), hsplit.symm, hfifo⟩

end FpgaCnc.Delivery
