import FpgaCnc.System.Delivery
import FpgaCnc.System.Bus

/-!
# Every command once, in order

What holds of the board at any moment, the handler under way or not. The
handler can be stopped at any access and still be completed, so what it has
sent and written up to there is the beginning of what a whole run sends and
writes. From this: the register writes of `cnc_module` are those of the command
frames in the order of their arrival, none left out, none repeated, none mixed
with those of another frame.

§1 the handler can return · §2 the handler under way · §3 the board at any
moment · §4 frames without errors · §5 answers · §6 commands and writes · §7 the
registers of the module.
-/

namespace FpgaCnc.Delivery

open IoProg Dm9000a HelloLed Clocked RxSide

/-! ## §1  The handler can return -/

section CanReturn

variable {α : Type}

theorem canReturn_iow (reg data : BitVec 32) : CanReturn (iow reg data) :=
  CanReturn.put.bind fun _ => .put

theorem canReturn_ior (reg : BitVec 32) : CanReturn (ior reg) :=
  CanReturn.put.bind fun _ => .get

theorem canReturn_copyWords (n i : ℕ) (b : Buffer) : CanReturn (copyWords n i b) := by
  induction n generalizing i b with
  | zero => exact .ret b
  | succ n ih => exact CanReturn.get.bind fun _ => ih _ _

theorem canReturn_discardWords (n : ℕ) : CanReturn (discardWords n) := by
  induction n with
  | zero => exact .ret ()
  | succ n ih => exact CanReturn.get.bind fun _ => ih

theorem canReturn_script (xs : List (Addr × BitVec 32)) : CanReturn (script xs) := by
  induction xs with
  | nil => exact .ret ()
  | cons x xs ih => exact .write ih

theorem canReturn_receivePacket (b : Buffer) : CanReturn (receivePacket b) := by
  refine (canReturn_iow _ _).bind fun _ => (canReturn_ior _).bind fun _ =>
    CanReturn.get.bind fun mrcmdx => ?_
  show CanReturn (if _ then _ else _)
  split_ifs
  · refine CanReturn.put.bind fun _ => CanReturn.get.bind fun _ => CanReturn.get.bind fun _ => ?_
    show CanReturn (if _ then _ else _)
    split_ifs
    · exact (canReturn_copyWords _ _ _).bind fun _ => .ret _
    · exact (canReturn_discardWords _).bind fun _ => .ret _
  · exact (canReturn_script resetWrites).bind fun _ => .ret _
  · exact .ret _

theorem canReturn_sendWords (b : Buffer) (n i : ℕ) : CanReturn (sendWords b n i) := by
  induction n generalizing i with
  | zero => exact .ret ()
  | succ n ih => exact CanReturn.put.bind fun _ => ih _

theorem canReturn_transmitPacket (b : Buffer) (len : BitVec 32) :
    CanReturn (transmitPacket b len) := by
  refine (canReturn_iow _ _).bind fun _ => (canReturn_iow _ _).bind fun _ =>
    (canReturn_iow _ _).bind fun _ => CanReturn.put.bind fun _ =>
    (canReturn_sendWords _ _ _).bind fun _ => (canReturn_iow _ _).bind fun _ => ?_
  refine (CanReturn.poll ⟨0x0C, txDone_both⟩ (.ret ())).bind fun _ => ?_
  exact (canReturn_iow _ _).bind fun _ => (canReturn_iow _ _).bind fun _ => .ret _

theorem canReturn_readInputs (g : Globals) : CanReturn (readInputs g) :=
  .read fun _ => .read fun _ => .read fun _ => .read fun _ => .read fun _ => .read fun _ =>
    .read fun _ => .read fun _ => .ret _

theorem canReturn_afterReceive (g : Globals) : CanReturn (afterReceive g) := by
  unfold afterReceive
  split_ifs
  · refine (canReturn_readInputs g).bind fun g' =>
      (canReturn_transmitPacket _ _).bind fun _ => ?_
    show CanReturn (if isCommand g'.rxt then _ else _)
    split_ifs
    · rw [writeRegs_eq_script]
      exact (canReturn_script _).bind fun _ => CanReturn.put.bind fun _ => .ret _
    · exact .ret _
  · exact (canReturn_transmitPacket _ _).bind fun _ => .ret _

/-- **The handler can return** from wherever it is, as soon as the NIC reports
the end of the transmission. -/
theorem canReturn_ethernetInterrupts (g : Globals) : CanReturn (ethernetInterrupts g) := by
  refine (canReturn_ior _).bind fun inter => (canReturn_iow _ _).bind fun _ => ?_
  show CanReturn (if inter &&& 1 = 1 then _ else _)
  split_ifs
  · exact (canReturn_receivePacket _).bind fun _ => canReturn_afterReceive _
  · exact .ret _

end CanReturn

/-! ## §2  The handler under way -/

/-- A run under way is still receiving, or has received and goes on from
there. -/
theorem exec_ethernetInterrupts_cases {g : Globals} {tr : List BusAccess} {q : Fw Globals}
    (h : exec (ethernetInterrupts g) tr = some q) :
    (∃ inter a tr', a.Complete ∧ tr ++ tr' = isrTrace inter ++ RxResponse.trace a) ∨
      ∃ inter a t t' g', RxResponse.Complete a ∧ tr = isrTrace inter ++ (a.trace ++ t) ∧
        Completes (afterReceive (g.received (a.result g.rxt))) (t ++ t') g' := by
  obtain ⟨tr', g', hrun⟩ := (canReturn_ethernetInterrupts g).extend h
  obtain ⟨inter, ⟨-, htr, -⟩ | ⟨hprs, a, ha, t, htr, hrest⟩⟩ :=
    completes_ethernetInterrupts.mp hrun
  · refine .inl ⟨inter, ⟨0, 0, 0, 0, []⟩, tr' ++ RxResponse.trace ⟨0, 0, 0, 0, []⟩, rfl, ?_⟩
    rw [← List.append_assoc, htr]
  · rw [← List.append_assoc] at htr
    rcases List.append_eq_append_iff.mp htr with ⟨u, hu, -⟩ | ⟨t₁, rfl, rfl⟩
    · exact .inl ⟨inter, a, u, ha, hu.symm⟩
    · exact .inr ⟨inter, a, t₁, tr', g', ha, List.append_assoc _ _ _, hrest⟩

/-- What has been sent stays sent. -/
theorem sent_access (t : Tx) (x : BusAccess) : t.sent <+: (t.access x).sent := by
  match x with
  | .wr ⟨.dm9000a, 0⟩ w => exact List.prefix_rfl
  | .wr ⟨.dm9000a, k + 1⟩ w =>
      show t.sent <+: (t.write w).sent
      unfold Tx.write
      split_ifs <;> first | exact List.prefix_rfl | exact List.prefix_append _ _
  | .rd _ _ | .wr ⟨.cncModule0, _⟩ _ | .wr ⟨.ledGreen, _⟩ _ => exact List.prefix_rfl

theorem sent_run (t : Tx) (tr : List BusAccess) : t.sent <+: (t.run tr).sent := by
  induction tr generalizing t with
  | nil => exact List.prefix_rfl
  | cons x tr ih => exact (sent_access t x).trans (ih (t.access x))

/-- A part of a run has sent the first frames of the run. -/
theorem sent_of_part {t : Tx} {tr tr' : List BusAccess} {frames : List (List (BitVec 8))}
    (h : (t.run (tr ++ tr')).sent = t.sent ++ frames) :
    ∃ first, first <+: frames ∧ (t.run tr).sent = t.sent ++ first := by
  have hpart := sent_run (t.run tr) tr'
  rw [← Tx.run_append, h] at hpart
  obtain ⟨first, hfirst⟩ := sent_run t tr
  refine ⟨first, ?_, hfirst.symm⟩
  rw [← hfirst] at hpart
  exact (List.prefix_append_right_inj _).mp hpart

theorem arrived_of_trace {c c' : Chip} {tr : List BusAccess} (h : Trace device c tr c') :
    c.arrived <+: c'.arrived := by
  induction h with
  | nil c => exact List.prefix_rfl
  | env hmove _ ih =>
      obtain ⟨r, -, rfl⟩ := hmove
      exact (List.prefix_append _ _).trans ih
  | access hx _ ih => rwa [Chip.arrived, hx.2] at ih

/-- **What a run under way has done**: nothing yet that could be seen from
outside, or the beginning of what it does for the first frame waiting. -/
theorem handler_under_way {g : Globals} {tr : List BusAccess} {q : Fw Globals}
    (h : exec (ethernetInterrupts g) tr = some q) {c c' : Chip} (htrace : Trace device c tr c')
    {taken : List RxRecord} (hc : On (signalled (holds taken)) c) (hdata : c.nic.tx.data = []) :
    (c'.nic.tx.sent = c.nic.tx.sent ∧ cncWrites tr = []) ∨
      ∃ r g' f ws, Outcome g r g' f ws ∧ taken ++ [r] <+: c'.arrived ∧
        (∃ first, first <+: [f] ∧ c'.nic.tx.sent = c.nic.tx.sent ++ first) ∧
        cncWrites tr <+: ws := by
  rw [trace_tx htrace]
  rcases exec_ethernetInterrupts_cases h with
    ⟨inter, a, tr', ha, htr⟩ | ⟨inter, a, t, t', g', ha, rfl, hrest⟩
  · left
    have hwhole := (Tx.sends_reception inter a c.nic.tx hdata).2
    rw [← htr] at hwhole
    obtain ⟨first, hfirst, hsent⟩ := sent_of_part hwhole
    rw [List.prefix_nil.mp hfirst, List.append_nil] at hsent
    refine ⟨hsent, cncWrites_of_nic fun x hx => ?_⟩
    have hmem : x ∈ isrTrace inter ++ a.trace := htr ▸ List.mem_append_left _ hx
    rcases List.mem_append.mp hmem with hx' | hx'
    · exact nic_isrTrace inter x hx'
    · exact nic_trace g.rxt ha x hx'
  · right
    obtain ⟨-, r, d, hd, h₁⟩ := trace_ack (kept_holds taken) (takes_holds taken) htrace hc
    obtain ⟨hanswers, d', ⟨rest, -, harrived, -⟩, h₂⟩ :=
      trace_reception (kept_holds (taken ++ [r])) ha h₁ hd
    have hresult : a.result g.rxt = (r.answers 0).result g.rxt := by
      rw [hanswers]
      rfl
    rw [hresult] at hrest
    obtain ⟨f, ws, houtcome, hsends, hwrites⟩ := outcome_of_afterReceive hrest
    refine ⟨r, g', f, ws, houtcome, ?_, ?_, ?_⟩
    · have hfirst := arrived_of_trace h₂
      rw [Chip.arrived, harrived] at hfirst
      exact (List.prefix_append _ rest).trans hfirst
    · have hwhole := (((Tx.sends_reception inter a).append hsends) c.nic.tx hdata).2
      rw [← List.append_assoc, List.nil_append] at hwhole
      rw [← List.append_assoc]
      exact sent_of_part hwhole
    · rw [cncWrites_append, cncWrites_append, cncWrites_of_nic (nic_isrTrace inter),
        cncWrites_of_nic (nic_trace g.rxt ha), ← hwrites, cncWrites_append]
      exact List.prefix_append _ _

/-! ## §3  The board at any moment -/

/-- **At any moment** the board is at most one frame beyond the server: what it
has sent and written is what the server has, and the beginning of what the next
frame brings. -/
theorem board_at_any_moment {b : Board} (h : Reachable b) :
    ∃ s : Server, s.Reachable ∧ s.served <+: b.chip.arrived ∧
      ((b.chip.nic.tx.sent = s.sent ∧ cncWrites b.log = s.regs) ∨
        ∃ r g' f ws, Outcome s.loop.g r g' f ws ∧ s.served ++ [r] <+: b.chip.arrived ∧
          (∃ first, first <+: [f] ∧ b.chip.nic.tx.sent = s.sent ++ first) ∧
          ∃ ws', ws' <+: ws ∧ cncWrites b.log = s.regs ++ ws') := by
  cases inv_of_reachable h with
  | @idle s hserver _ hmatch _ =>
      obtain ⟨waiting, -, harrived, -⟩ := hmatch.rx
      exact ⟨s, hserver, ⟨waiting, harrived.symm⟩, .inl ⟨hmatch.sent, hmatch.regs⟩⟩
  | @serving s c log tr p hserver hloop hmatch hprs _ hexec htrace hlog =>
      obtain ⟨hrx, hdata, hsent, hregs⟩ := hmatch
      obtain ⟨waiting, -, harrived, -⟩ := id hrx
      refine ⟨s, hserver, ?_, ?_⟩
      · have hfirst := arrived_of_trace htrace
        rw [Chip.arrived, harrived] at hfirst
        exact (List.prefix_append _ waiting).trans hfirst
      · rw [hlog, cncWrites_append, hregs, ← hsent]
        rcases handler_under_way hexec htrace ⟨hprs, hrx⟩ hdata with
          ⟨hsame, hnone⟩ | ⟨r, g', f, ws, houtcome, htaken, hframe, hwrites⟩
        · exact .inl ⟨hsame, by rw [hnone, List.append_nil]⟩
        · exact .inr ⟨r, g', f, ws, hloop ▸ houtcome, htaken, hframe, _, hwrites, rfl⟩

/-! ## §4  Frames without errors -/

end FpgaCnc.Delivery

namespace FpgaCnc.RxRecord

open Dm9000a

/-- The bytes of a frame, from the start of a buffer. -/
def buffer (r : RxRecord) : Buffer := ⟨fun j => r.bytes.getD j 0, []⟩

/-- The bytes of the data words; behind an odd number of them a zero. -/
theorem byte_toFifo (r : RxRecord) {j : ℕ} (hj : j / 2 < (r.bytes.length + 1) / 2) :
    r.toFifo.byte j = r.bytes.getD j 0 := by
  have hword : r.dataWords.getD (j / 2) 0 =
      (r.bytes.getD (2 * (j / 2) + 1) 0).setWidth 16 <<< 8 |||
        (r.bytes.getD (2 * (j / 2)) 0).setWidth 16 := by
    rw [dataWords, List.getD_eq_getElem _ _ (by simpa using hj)]
    simp
  show (r.dataWords.getD (j / 2) 0 >>> (8 * (j % 2))).setWidth 8 = _
  rw [hword]
  rcases Nat.mod_two_eq_zero_or_one j with heven | hodd
  · rw [heven, show 2 * (j / 2) = j by omega]
    ext i hi
    interval_cases i <;> simp
  · rw [hodd, show 2 * (j / 2) + 1 = j by omega]
    ext i hi
    interval_cases i <;> simp

/-- A record without errors brings its frame to the buffer. -/
theorem carries_answers {r : RxRecord} (h : r.toFifo.Good) (dummy : BitVec 32) :
    (r.answers dummy).Carries r.bytes where
  complete := r.complete_answers dummy
  ready := r.ready_statusWord
  good := (r.good_answers dummy).mpr h
  length := (r.toNat_len_answers dummy).ge
  bytes j hj := (r.toFifo.wordByte_answersOf dummy j).trans (r.byte_toFifo (by omega))

end FpgaCnc.RxRecord

namespace FpgaCnc.Delivery

open IoProg Dm9000a HelloLed Clocked RxSide

/-- The type of the frame is that of a command. -/
def hasCommandType (r : RxRecord) : Bool :=
  r.bytes.getD 12 0 == 0x80#8 && r.bytes.getD 13 0 == 0xab#8

/-- A frame without errors: a command that covers the words the handler reads,
or a frame of another type. -/
structure Plain (r : RxRecord) : Prop where
  good : r.toFifo.Good
  covers : (if hasCommandType r then 50 else 14) ≤ r.bytes.length

namespace Plain

variable {r : RxRecord}

theorem byte_rxt (h : Plain r) (g : Globals) {j : ℕ}
    (hj : j < if hasCommandType r then 50 else 14) :
    (taking g r).rxt.byte j = r.buffer.byte j :=
  (RxRecord.carries_answers h.good 0).byte g.rxt (hj.trans_le h.covers)

/-- The header test finds the type of the frame, whatever `RXT` held. -/
theorem isCommand (h : Plain r) (g : Globals) :
    isCommand (taking g r).rxt = hasCommandType r := by
  have hlow : ∀ j < 14, (taking g r).rxt.byte j = r.buffer.byte j := by
    intro j hj
    apply h.byte_rxt g
    split_ifs <;> omega
  rw [HelloLed.isCommand, hlow 12 (by decide), hlow 13 (by decide)]
  rfl

/-- Of a command, the handler writes the words. -/
theorem regWrites (h : Plain r) (hr : hasCommandType r = true) (g : Globals) :
    regWrites (taking g r).rxt = regWrites r.buffer :=
  regWrites_congr fun _ _ hj => h.byte_rxt g (by rwa [if_pos hr])

end Plain

/-- The host takes it for a reply. -/
def isReplyFrame (f : List (BitVec 8)) : Bool := De2.isReply (De2.rxBuf f)

/-- The register writes that a list of frames stands for. -/
def payload (rs : List RxRecord) : List (ℕ × BitVec 32) :=
  (rs.filter hasCommandType).flatMap fun r => regWrites r.buffer

theorem payload_append (rs rs' : List RxRecord) :
    payload (rs ++ rs') = payload rs ++ payload rs' := by
  unfold payload
  rw [List.filter_append, List.flatMap_append]

theorem payload_mono {rs rs' : List RxRecord} (h : rs <+: rs') : payload rs <+: payload rs' := by
  obtain ⟨rest, rfl⟩ := h
  rw [payload_append]
  exact List.prefix_append _ _

/-- **A frame without errors** is answered with a frame of its kind, and if it
is a command, its words are written. -/
theorem Outcome.of_plain {g g' : Globals} {r : RxRecord} {f : List (BitVec 8)}
    {ws : List (ℕ × BitVec 32)} (h : Outcome g r g' f ws) (hr : Plain r) (htxt : HasHeader g.txt) :
    (∀ pad, isReplyFrame (f ++ pad) = hasCommandType r) ∧ ws = payload [r] := by
  have hkind := hr.isCommand g
  cases h with
  | command v hcmd =>
      have htype : hasCommandType r = true := hkind.symm.trans hcmd
      refine ⟨fun pad => ?_, ?_⟩
      · rw [htype]
        exact De2.isReply_replyFrame htxt v pad
      · rw [payload, List.filter_cons_of_pos htype, hr.regWrites htype]
        exact (List.append_nil _).symm
  | reject hreject =>
      have htype : hasCommandType r = false := hkind.symm.trans hreject
      refine ⟨fun pad => ?_, ?_⟩
      · -- while the answer is sent, its type is another one
        have htype' : (De2.rxBuf (shortReply (taking g r) ++ pad)).byte 13 = 0xaa#8 := rfl
        rw [htype, isReplyFrame, De2.isReply, htype']
        exact Bool.and_false _
      · rw [payload, List.filter_cons_of_neg (by simp [htype])]
        rfl

/-! ## §5  Answers -/

/-- `f` is what the handler sends for `r`. -/
def Answer (r : RxRecord) (f : List (BitVec 8)) : Prop :=
  ∃ g g' ws, HasHeader g.txt ∧ Outcome g r g' f ws

/-- The host takes the answers to commands for replies, and no others. -/
theorem Answer.isReplyFrame_eq {r : RxRecord} {f : List (BitVec 8)} (h : Answer r f) (hr : Plain r)
    (pad : List (BitVec 8)) : isReplyFrame (f ++ pad) = hasCommandType r := by
  obtain ⟨g, g', ws, hheader, houtcome⟩ := h
  exact (houtcome.of_plain hr hheader).1 pad

/-- A step of the server leaves alone what it has served, or serves one frame
more. -/
theorem Server.Step.served_cases {s s' : Server} (h : Server.Step s s') :
    (s'.served = s.served ∧ s'.sent = s.sent ∧ s'.regs = s.regs) ∨
      ∃ r g' f ws, Outcome s.loop.g r g' f ws ∧ s'.served = s.served ++ [r] ∧
        s'.sent = s.sent ++ [f] ∧ s'.regs = s.regs ++ ws := by
  cases h with
  | main | uart => exact .inl ⟨rfl, rfl, rfl⟩
  | command r v hcmd => exact .inr ⟨r, _, _, _, .command v hcmd, rfl, rfl, rfl⟩
  | reject r hcmd => exact .inr ⟨r, _, _, _, .reject hcmd, rfl, rfl, (List.append_nil _).symm⟩

theorem answers_of_server {s : Server} (h : s.Reachable) : List.Forall₂ Answer s.served s.sent := by
  induction h with
  | boot m _ => exact .nil
  | step hs hstep ih =>
      rcases hstep.served_cases with
        ⟨hserved, hsent, -⟩ | ⟨r, g', f, ws, houtcome, hserved, hsent, -⟩
      · rwa [hserved, hsent]
      · rw [hserved, hsent]
        exact List.rel_append ih (.cons ⟨_, g', ws, hs.hasHeader, houtcome⟩ .nil)

/-- **The frames sent are the answers to the first frames that arrived.** -/
theorem answers_of_board {b : Board} (h : Reachable b) :
    ∃ done waiting, b.chip.arrived = done ++ waiting ∧
      List.Forall₂ Answer done b.chip.nic.tx.sent := by
  obtain ⟨s, hs, ⟨waiting, hserved⟩,
    ⟨hsent, -⟩ | ⟨r, g', f, ws, houtcome, ⟨rest, htaken⟩, ⟨first, hfirst, hsent⟩, -⟩⟩ :=
    board_at_any_moment h
  · exact ⟨s.served, waiting, hserved.symm, hsent ▸ answers_of_server hs⟩
  · rw [hsent]
    rcases List.prefix_cons_iff.mp hfirst with rfl | ⟨more, rfl, hmore⟩
    · rw [List.append_nil]
      exact ⟨s.served, waiting, hserved.symm, answers_of_server hs⟩
    · rw [List.prefix_nil.mp hmore]
      exact ⟨s.served ++ [r], rest, htaken.symm,
        List.rel_append (answers_of_server hs) (.cons ⟨_, g', ws, hs.hasHeader, houtcome⟩ .nil)⟩

/-! ## §6  Commands and writes -/

/-- A server that is given frames without errors writes the words of the
commands among them. -/
theorem Server.Reachable.regs_of_plain {s : Server} (h : s.Reachable)
    (hplain : ∀ r ∈ s.served, Plain r) : s.regs = payload s.served := by
  induction h with
  | boot m _ => rfl
  | step hs hstep ih =>
      rcases hstep.served_cases with
        ⟨hserved, -, hregs⟩ | ⟨r, g', f, ws, houtcome, hserved, -, hregs⟩
      · rw [hserved, hregs]
        exact ih (hserved ▸ hplain)
      · rw [hserved] at hplain
        obtain ⟨-, hwrites⟩ := houtcome.of_plain (hplain r (by simp)) hs.hasHeader
        rw [hregs, hserved, payload_append, hwrites,
          ih fun q hq => hplain q (List.mem_append_left _ hq)]

/-- The partner of an element of the second list. -/
theorem exists_of_forall₂ {α β : Type} {R : α → β → Prop} {xs : List α} {ys : List β}
    (h : List.Forall₂ R xs ys) {n : ℕ} {y : β} (hy : ys[n]? = some y) :
    ∃ x, xs[n]? = some x ∧ R x y := by
  induction h generalizing n with
  | nil => exact absurd hy (by simp)
  | @cons a b _ _ hab _ ih =>
      cases n with
      | zero => exact ⟨a, rfl, Option.some.inj hy ▸ hab⟩
      | succ n => exact ih hy

section Board

variable {b : Board}

/-- The writes made so far are the first of those the frames stand for. -/
theorem cncWrites_first (h : Reachable b) (hplain : ∀ r ∈ b.chip.arrived, Plain r) :
    cncWrites b.log <+: payload b.chip.arrived := by
  obtain ⟨s, hs, hserved, ⟨-, hwrites⟩ | ⟨r, g', f, ws, houtcome, htaken, -, ws', hws, hwrites⟩⟩ :=
    board_at_any_moment h
  · rw [hwrites, hs.regs_of_plain fun r hr => hplain r (hserved.subset hr)]
    exact payload_mono hserved
  · obtain ⟨-, rfl⟩ := houtcome.of_plain (hplain r (htaken.subset (by simp))) hs.hasHeader
    rw [hwrites, hs.regs_of_plain fun r hr => hplain r (hserved.subset hr)]
    refine List.IsPrefix.trans ?_ (payload_mono htaken)
    rw [payload_append]
    exact (List.prefix_append_right_inj _).mpr hws

/-- The frame sent at a place answers the frame that arrived at that place. -/
theorem answer_at (h : Reachable b) {j : ℕ} {f : List (BitVec 8)}
    (hf : b.chip.nic.tx.sent[j]? = some f) :
    ∃ r, b.chip.arrived[j]? = some r ∧ Answer r f := by
  obtain ⟨done, waiting, harrived, hanswers⟩ := answers_of_board h
  obtain ⟨r, hr, hanswer⟩ := exists_of_forall₂ hanswers hf
  refine ⟨r, ?_, hanswer⟩
  rw [harrived]
  exact (List.getElem?_append_left (List.getElem?_eq_some_iff.mp hr).1).trans hr

end Board

theorem plain_sample : Plain sampleRecord :=
  ⟨⟨by decide +kernel, by decide +kernel⟩, by decide +kernel⟩

/-- The register file once the commands of a list have been carried out: the
last one counts. -/
def commanded (ctl : CtlRegs) (rs : List RxRecord) : CtlRegs :=
  match (rs.filter hasCommandType).getLast? with
  | none => ctl
  | some r => CtlRegs.ofFrame r.buffer

theorem busWrites_payload (rs : List RxRecord) :
    busWrites (payload rs) = (rs.filter hasCommandType).flatMap fun r => frameWrites r.buffer := by
  unfold payload
  induction rs.filter hasCommandType with
  | nil => rfl
  | cons r rs ih =>
      rw [List.flatMap_cons, List.flatMap_cons, ← ih, busWrites, List.map_append]
      rfl

theorem writes_payload (ctl : CtlRegs) (rs : List RxRecord) :
    ctl.writes (busWrites (payload rs)) = commanded ctl rs := by
  rw [busWrites_payload]
  unfold commanded
  rcases (rs.filter hasCommandType).eq_nil_or_concat with hnil | ⟨qs, q, hqs⟩
  · rw [hnil]
    rfl
  · rw [hqs, List.concat_eq_append, List.flatMap_append, List.flatMap_singleton,
      CtlRegs.writes_append, CtlRegs.writes_frameWrites, List.getLast?_concat]

end FpgaCnc.Delivery
