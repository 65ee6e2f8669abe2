import FpgaCnc.System.Bus
import FpgaCnc.Firmware.StandingState

/-!
# The feedback path

One reply, from the registers of `cnc_module` to the pins of the HAL component:
`ethernet_interrupts` reads eight registers into `TXT`, `TransmitPacket` puts 46
bytes of it on the wire, and `do_work` takes the pins out of `rx_buf`. The
reads come before the writes of the command that is answered.

§1 the board between commands · §2 the reply frame · §3 the host on a reply ·
§4 what the module held · §5 the round trip.
-/

namespace FpgaCnc

open Clocked IoProg Dm9000a HelloLed

/-! ## §1  The board between commands -/

/-- The globals and the chip whenever the handler is not running. -/
inductive Serves : Globals → Nic → Prop where
  | boot (n : Nic) : n.tx.data = [] → Serves .init n
  | arrive {g : Globals} {n : Nic} (r : RxRecord) : Serves g n → Serves g (n.arrive r)
  /-- The main loop sets the pendant images. -/
  | main {g : Globals} {n : Nic} (a b : BitVec 8) : Serves g n →
      Serves { g with igpio2316 := a, igpio3124 := b } n
  | handler {g g' : Globals} {n n' : Nic} {tr : List BusAccess} : Serves g n →
      Completes (ethernetInterrupts g) tr g' → n.Takes tr n' → Serves g' n'

/-- The reply type stands in `TXT`. -/
def HasHeader (txt : Buffer) : Prop := txt.byte 12 = 0x08#8 ∧ txt.byte 13 = 0xab#8

/-- **A run of the handler leaves the reply type and an empty transmit
memory.** -/
theorem handler_keeps {g g' : Globals} {t : Tx} {tr : List BusAccess}
    (h : Completes (ethernetInterrupts g) tr g') (hdata : t.data = []) (htxt : HasHeader g.txt) :
    (t.run tr).data = [] ∧ HasHeader g'.txt := by
  obtain ⟨inter, ⟨hprs, rfl, rfl⟩ | ⟨hprs, r, hr, t', rfl, hrest⟩⟩ :=
    completes_ethernetInterrupts.mp h
  · exact ⟨(Tx.sends_isrTrace inter t hdata).1, htxt⟩
  · obtain ⟨-, hheader, f, hsends, -⟩ :=
      afterReceive_restores (g := g.received (r.result g.rxt)) htxt.1 htxt.2 hrest
    rw [← List.append_assoc]
    exact ⟨((Tx.sends_reception inter r).append hsends t hdata).1,
      (hheader 12 (by decide)).trans htxt.1, (hheader 13 (by decide)).trans htxt.2⟩

theorem Serves.inv {g : Globals} {n : Nic} (h : Serves g n) :
    n.tx.data = [] ∧ HasHeader g.txt := by
  induction h with
  | boot n hdata => exact ⟨hdata, rfl, rfl⟩
  | arrive r _ ih => exact ih
  | main a b _ ih => exact ih
  | handler _ hrun htakes ih =>
      rw [htakes.tx]
      exact handler_keeps hrun ih.1 ih.2

/-! ## §2  The reply frame -/

/-- The frame that answers a command, for what the registers read. -/
def replyFrame (g : Globals) (v : ℕ → BitVec 32) : List (BitVec 8) :=
  (List.range 46).map (replyTxt g v).byte

@[simp] theorem length_replyFrame (g : Globals) (v : ℕ → BitVec 32) :
    (replyFrame g v).length = 46 := by simp [replyFrame]

theorem replyFrame_getD (g : Globals) (v : ℕ → BitVec 32) {j : ℕ} (hj : j < 46) :
    (replyFrame g v).getD j 0 = (replyTxt g v).byte j := by
  rw [List.getD_eq_getElem _ _ (by rw [length_replyFrame]; exact hj)]
  simp [replyFrame]

/-- Register `10 + i` is at offset `18 + 4 * i`. -/
theorem loadLe32_replyTxt (g : Globals) (v : ℕ → BitVec 32) {i : ℕ} (hi : i < 7) :
    (replyTxt g v).loadLe32 (18 + 4 * i) = v (10 + i) := by
  interval_cases i <;> simp [replyTxt, Buffer.loadLe32_storeLe32_of_disjoint]

/-- The bits of a byte of the reply's first word. -/
theorem getLsbD_lowBytes (w : BitVec 32) {j : ℕ} (hj : j < 8) :
    ((w &&& 0xFF#32).setWidth 8).getLsbD j = w.getLsbD j ∧
      (((w &&& 0xFF00#32) >>> 8).setWidth 8).getLsbD j = w.getLsbD (8 + j) := by
  interval_cases j <;> simp

/-- The input bits, from the register and the pendant images. -/
theorem loadLe32_replyTxt_gpio (g : Globals) (v : ℕ → BitVec 32) :
    (replyTxt g v).loadLe32 14 = Buffer.joinLe32 g.igpio3124 g.igpio2316
      (((v 9 &&& 0xFF00#32) >>> 8).setWidth 8) ((v 9 &&& 0xFF#32).setWidth 8) := by
  unfold replyTxt
  iterate 7 rw [Buffer.loadLe32_storeLe32_of_disjoint _ _ (by omega)]
  rfl

/-! ## §3  The host on a reply -/

namespace De2

/-- `rx_buf` on a frame, perhaps with padding. -/
theorem rxBuf_replyFrame (g : Globals) (v : ℕ → BitVec 32) (pad : List (BitVec 8)) {j : ℕ}
    (hj : j < 46) : (rxBuf (replyFrame g v ++ pad)).byte j = (replyTxt g v).byte j := by
  show ((replyFrame g v ++ pad).take 512).getD j 0 = _
  rw [List.take_append, List.take_of_length_le (by simp), List.getD_append _ _ _ _ (by simpa using hj),
    replyFrame_getD g v hj]

theorem loadLe32_rxBuf (g : Globals) (v : ℕ → BitVec 32) (pad : List (BitVec 8)) {off : ℕ}
    (hoff : off + 4 ≤ 46) :
    (rxBuf (replyFrame g v ++ pad)).loadLe32 off = (replyTxt g v).loadLe32 off :=
  Buffer.loadLe32_congr fun _ _ hj => rxBuf_replyFrame g v pad (by omega)

theorem isReply_replyFrame {g : Globals} (h : HasHeader g.txt) (v : ℕ → BitVec 32)
    (pad : List (BitVec 8)) : isReply (rxBuf (replyFrame g v ++ pad)) = true := by
  rw [isReply, rxBuf_replyFrame g v pad (by decide), rxBuf_replyFrame g v pad (by decide),
    replyTxt_header g v (by decide), replyTxt_header g v (by decide), h.1, h.2]
  rfl

end De2

/-! ## §4  What the module held -/

/-- The inputs and counters a reply reports. -/
structure Inputs where
  igpio : BitVec 32
  location : Fin 5 → BitVec 32
  enc0 : BitVec 32
  enc1 : BitVec 32

/-- The module had these values at clocks of the run before its first write. -/
structure HeldBefore (s : CncModule) (bs : List CncIn) (x : Inputs) : Prop where
  igpio : ∃ pre b post, bs = pre ++ b :: post ∧ CncModule.writesOf pre = [] ∧ x.igpio = b.igpio
  location : ∀ i, ∃ pre post, bs = pre ++ post ∧ CncModule.writesOf pre = [] ∧
    x.location i = ((run CncModule.posedge s pre).sg i).location
  enc0 : ∃ pre post, bs = pre ++ post ∧ CncModule.writesOf pre = [] ∧
    x.enc0 = (run CncModule.posedge s pre).enc0.count
  enc1 : ∃ pre post, bs = pre ++ post ∧ CncModule.writesOf pre = [] ∧
    x.enc1 = (run CncModule.posedge s pre).enc1.count

namespace CncModule

theorem readCase_igpio (s : CncModule) {b : CncIn} (h : b.address.toNat = 9) :
    s.readCase b = b.igpio := by
  unfold readCase
  rw [h]
  rfl

theorem readCase_location (s : CncModule) {b : CncIn} {i : Fin 5}
    (h : b.address.toNat = 10 + i.val) : s.readCase b = (s.sg i).location := by
  unfold readCase
  rw [h]
  match i with
  | 0 | 1 | 2 | 3 | 4 => rfl

theorem readCase_enc0 (s : CncModule) {b : CncIn} (h : b.address.toNat = 15) :
    s.readCase b = s.enc0.count := by
  unfold readCase
  rw [h]
  rfl

theorem readCase_enc1 (s : CncModule) {b : CncIn} (h : b.address.toNat = 16) :
    s.readCase b = s.enc1.count := by
  unfold readCase
  rw [h]
  rfl

end CncModule

/-- **The registers are read before any is written.** -/
theorem heldBefore_of_drives {s : CncModule} {v : ℕ → BitVec 32}
    {tr₀ tr₁ : List BusAccess} (hnic : ∀ x ∈ tr₀, nicAccess x) {bs : List CncIn}
    (h : Drives s (tr₀ ++ (readsTrace v ++ tr₁)) bs) :
    HeldBefore s bs ⟨v 9, fun i => v (10 + i.val), v 15, v 16⟩ := by
  rw [← List.append_assoc] at h
  obtain ⟨bs₁, bs₂, rfl, h₁, -⟩ := h.split
  have hnone : CncModule.writesOf bs₁ = [] := by
    rw [h₁.writes, cncWrites_append, cncWrites_of_nic hnic, cncWrites_readsTrace]
    rfl
  -- each register read, at its clock
  have hread : ∀ k < 8, ∃ pre b post, bs₁ ++ bs₂ = pre ++ b :: post ∧
      CncModule.writesOf pre = [] ∧ b.address.toNat = 9 + k ∧
      v (9 + k) = (run CncModule.posedge s pre).readCase b := by
    intro k hk
    have hmem : .rd ⟨.cncModule0, 9 + k⟩ (v (9 + k)) ∈ tr₀ ++ readsTrace v :=
      List.mem_append_right _ (List.mem_map.mpr ⟨k, List.mem_range.mpr hk, rfl⟩)
    obtain ⟨pre, b, post, rfl, -, haddr, hv⟩ := h₁.of_mem_read hmem
    refine ⟨pre, b, post ++ bs₂, by simp, ?_, haddr, hv⟩
    rw [CncModule.writesOf_append] at hnone
    exact (List.append_eq_nil_iff.mp hnone).1
  constructor
  · obtain ⟨pre, b, post, hbs, hpre, haddr, hv⟩ := hread 0 (by decide)
    exact ⟨pre, b, post, hbs, hpre, hv.trans (CncModule.readCase_igpio _ haddr)⟩
  · intro i
    obtain ⟨pre, b, post, hbs, hpre, haddr, hv⟩ := hread (1 + i.val) (by omega)
    rw [← Nat.add_assoc] at haddr hv
    exact ⟨pre, b :: post, hbs, hpre, hv.trans (CncModule.readCase_location _ haddr)⟩
  · obtain ⟨pre, b, post, hbs, hpre, haddr, hv⟩ := hread 6 (by decide)
    exact ⟨pre, b :: post, hbs, hpre, hv.trans (CncModule.readCase_enc0 _ haddr)⟩
  · obtain ⟨pre, b, post, hbs, hpre, haddr, hv⟩ := hread 7 (by decide)
    exact ⟨pre, b :: post, hbs, hpre, hv.trans (CncModule.readCase_enc1 _ haddr)⟩

/-! ## §5  The round trip -/

/-- What a reply frame says of the inputs and of the pendant images, and what
`do_work` makes of it, with any padding behind it. -/
structure Feedback (igpio2316 igpio3124 : BitVec 8) (x : Inputs) (frame : List (BitVec 8)) :
    Prop where
  length : frame.length = 46
  isReply : ∀ pad, De2.isReply (De2.rxBuf (frame ++ pad)) = true
  gpioIn : ∀ pad host (k : Fin 32),
    (De2.doWorkRecv (.frame (frame ++ pad)) host).inst.gpioIn k =
      if k.val < 16 then x.igpio.getLsbD k
      else if k.val < 24 then igpio2316.getLsbD (k - 16)
      else igpio3124.getLsbD (k - 24)
  positionFb : ∀ pad host (i : Fin 5), (host.inst.sg i).scale ≠ 0 →
    ((De2.doWorkRecv (.frame (frame ++ pad)) host).inst.sg i).positionFb =
      .fin (((x.location i - 0x80000000#32).toInt : ℚ) / (host.inst.sg i).scale)
  enc0 : ∀ k < 4, frame.getD (38 + k) 0 = (x.enc0 >>> (8 * k)).setWidth 8
  enc1 : ∀ k < 4, frame.getD (42 + k) 0 = (x.enc1 >>> (8 * k)).setWidth 8

theorem feedback_replyFrame {g : Globals} (h : HasHeader g.txt) (v : ℕ → BitVec 32) :
    Feedback g.igpio2316 g.igpio3124 ⟨v 9, fun i => v (10 + i.val), v 15, v 16⟩
      (replyFrame g v) where
  length := length_replyFrame g v
  isReply pad := De2.isReply_replyFrame h v pad
  gpioIn pad host k := by
    rw [De2.doWorkRecv_of_isReply (De2.isReply_replyFrame h v pad)]
    show ((De2.rxBuf (replyFrame g v ++ pad)).loadLe32 14).getLsbD k = _
    rw [De2.loadLe32_rxBuf g v pad (by decide), loadLe32_replyTxt_gpio,
      Buffer.getLsbD_joinLe32 _ _ _ _ k.isLt]
    -- two bytes of the register, then the two images
    by_cases h8 : k.val < 8
    · rw [if_pos h8, if_pos (by omega), (getLsbD_lowBytes (v 9) h8).1]
    · rw [if_neg h8]
      by_cases h16 : k.val < 16
      · rw [if_pos h16, if_pos h16, (getLsbD_lowBytes (v 9) (show k.val - 8 < 8 by omega)).2,
          show 8 + (k.val - 8) = k.val by omega]
      · rw [if_neg h16, if_neg h16]
  positionFb pad host i hscale := by
    have hi := i.isLt
    rw [De2.doWorkRecv_of_isReply (De2.isReply_replyFrame h v pad)]
    show ((De2.decode _ host.inst).sg i).positionFb = _
    rw [De2.decode_positionFb, De2.positionFb, De2.loadLe32_rxBuf g v pad (by omega),
      loadLe32_replyTxt g v (by omega), FVal.div_of_ne hscale]
  enc0 k hk := by
    rw [replyFrame_getD g v (by omega)]
    unfold replyTxt
    rw [Buffer.storeLe32_byte_of_disjoint _ _ (by omega), Buffer.storeLe32_byte _ _ _ hk]
  enc1 k hk := by
    rw [replyFrame_getD g v (by omega)]
    unfold replyTxt
    rw [Buffer.storeLe32_byte _ _ _ hk]

/-- The frame an accepted command makes the chip send. -/
theorem sent_of_command {g : Globals} {n n' : Nic} (hdata : n.tx.data = []) {inter : BitVec 32}
    {r : RxResponse} {v : ℕ → BitVec 32} {vs : List (BitVec 32)} {u : BitVec 32}
    (hnic : n.Takes (isrTrace inter ++ (r.trace ++ commandTrace g v (vs ++ [u]))) n') :
    n'.tx.sent = n.tx.sent ++ [replyFrame g v] := by
  obtain ⟨hdata', hsent⟩ := Tx.run_reception hdata inter r
  rw [hnic.tx, ← List.append_assoc, Tx.run_append,
    (Tx.run_commandTrace hdata' g v vs u).2, hsent]
  rfl

/-- **The feedback path.** From any state of the board, an accepted command is
carried out as soon as the NIC reports the transmission, whatever the registers
read; and every such run sends one frame, which brings to the pins what the
module held before the command was written to it. -/
theorem feedback_round_trip {g : Globals} {n : Nic} (hserves : Serves g n) {inter : BitVec 32}
    (hprs : inter &&& 1 = 1) {r : RxResponse} (hr : r.Complete)
    (hcmd : isCommand (r.result g.rxt).dataPtr = true) :
    (∀ (v : ℕ → BitVec 32) (vs : List (BitVec 32)) (u : BitVec 32),
      (∀ z ∈ vs, txDone z = false) → txDone u = true →
        ∃ g', Completes (ethernetInterrupts g) (isrTrace inter ++ (r.trace ++
          commandTrace (g.received (r.result g.rxt)) v (vs ++ [u]))) g') ∧
    ∀ (g' : Globals) (n' : Nic) (t : List BusAccess) (s : CncModule) (bs : List CncIn),
      Completes (ethernetInterrupts g) (isrTrace inter ++ (r.trace ++ t)) g' →
      n.Takes (isrTrace inter ++ (r.trace ++ t)) n' →
      Drives s (isrTrace inter ++ (r.trace ++ t)) bs →
        ∃ x frame, HeldBefore s bs x ∧ n'.tx.sent = n.tx.sent ++ [frame] ∧
          Feedback g.igpio2316 g.igpio3124 x frame := by
  obtain ⟨hdata, htxt⟩ := hserves.inv
  constructor
  · -- however long the NIC is polled, the program goes on after it
    intro v vs u hvs hu
    obtain ⟨g', hrun, -⟩ := exists_command_run g hprs hr hcmd v hvs hu
    exact ⟨g', hrun⟩
  · intro g' n' t s bs hrun hnic hbus
    have hcmd' : isCommand (g.received (r.result g.rxt)).rxt = true := hcmd
    rw [Completes, exec_ethernetInterrupts_received g hprs hr, afterReceive, if_pos hcmd'] at hrun
    obtain ⟨v, vs, u, -, -, rfl, -⟩ := (completes_answerCommand hcmd').mp hrun
    refine ⟨_, _, ?_, sent_of_command hdata hnic,
      feedback_replyFrame (g := g.received (r.result g.rxt)) htxt v⟩
    rw [commandTrace, ← List.append_assoc] at hbus
    refine heldBefore_of_drives (fun x hx => ?_) hbus
    rcases List.mem_append.mp hx with hx' | hx'
    · exact nic_isrTrace inter x hx'
    · exact nic_trace g.rxt hr x hx'

/-- The sample command, with the checksum behind it. -/
def sampleRecord : RxRecord :=
  ⟨0, De2.sentFrame sampleFrame ++ [0, 0, 0, 0], by decide⟩

/-- What the module reads after reset, with input 5 up: encoder 0 counts once. -/
def sampleReads (k : ℕ) : BitVec 32 :=
  if k = 9 then 0x20 else if k < 16 then 0x80000000 else 0x7FFFFFFF

/-- The accesses of the handler for it. -/
def sampleTrace : List BusAccess :=
  isrTrace 1 ++ ((sampleRecord.answers 0).trace ++
    commandTrace (Globals.init.received ((sampleRecord.answers 0).result .zero)) sampleReads [0x0C])

theorem feedback_round_trip_sample :
    ∃ x frame, Feedback 0 0 x frame ∧
      HeldBefore CncModule.powerUp.reset (sampleTrace.filterMap (Drives.clockOf 0x20)) x := by
  have hserves : Serves .init (Nic.idle.arrive sampleRecord) := .arrive _ (.boot _ rfl)
  have hcmd : isCommand ((sampleRecord.answers 0).result Globals.init.rxt).dataPtr = true := by
    decide +kernel
  obtain ⟨hruns, hall⟩ := feedback_round_trip hserves (show (1#32) &&& 1 = 1 by decide)
    (sampleRecord.complete_answers 0) hcmd
  obtain ⟨g', hrun⟩ := hruns sampleReads [] 0x0C (List.forall_mem_nil _) txDone_both
  have hchip : ((Nic.idle.arrive sampleRecord).run sampleTrace).isSome = true := by
    decide +kernel
  obtain ⟨n', hn⟩ := Option.isSome_iff_exists.mp hchip
  have hmodule : Drives.answers 0x20 CncModule.powerUp.reset sampleTrace = true := by
    decide +kernel
  obtain ⟨x, frame, hheld, -, hfeedback⟩ :=
    hall g' n' _ _ _ hrun (.of_run hn) (Drives.of_answers hmodule)
  exact ⟨x, frame, hfeedback, hheld⟩

end FpgaCnc
