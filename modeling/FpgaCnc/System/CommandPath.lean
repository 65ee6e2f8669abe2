import FpgaCnc.Host.Conversions
import FpgaCnc.Firmware.HelloLed
import FpgaCnc.Hdl.Watchdog
import Mathlib.Data.List.GetD

/-!
# The command path

One command, from the pins of the HAL component to the registers of
`cnc_module`: `do_work` lays it out in `buf`, `ethernet_interrupts` takes it
out of `RXT` in nine words, and the write branch of the register process takes
the words apart. The three layouts are hand-written in three places; composed,
they are the identity on every field.

§1 the command frame · §2 the handler on a received frame · §3 the registers ·
§4 the round trip.
-/

namespace FpgaCnc

open Clocked

/-! ## §1  The command frame -/

namespace De2

/-- `buf` after any number of calls. -/
inductive CmdBuf : Buffer → Prop where
  | init (ifAddr : Fin 6 → BitVec 8) : CmdBuf (initBuf ifAddr)
  | encode (w : Words) (c : CompState) {buf : Buffer} : CmdBuf buf → CmdBuf (encode w c buf)

/-- The bytes the encoder leaves alone. -/
theorem encode_byte_of_unused (w : Words) (c : CompState) (buf : Buffer) {j : ℕ}
    (h : j < 14 ∨ j = 36 ∨ j = 37 ∨ 50 ≤ j) : (encode w c buf).byte j = buf.byte j := by
  unfold encode
  rw [Buffer.storeLe32_byte_of_disjoint _ _ (by omega),
    Buffer.storeLe32_byte_of_disjoint _ _ (by omega),
    Buffer.storeLe32_byte_of_disjoint _ _ (by omega),
    Buffer.store_byte_of_ne _ _ (by omega), Buffer.store_byte_of_ne _ _ (by omega),
    Buffer.storeLe32_byte_of_disjoint _ _ (by omega),
    Buffer.storeLe32_byte_of_disjoint _ _ (by omega),
    Buffer.storeLe32_byte_of_disjoint _ _ (by omega),
    Buffer.storeLe32_byte_of_disjoint _ _ (by omega),
    Buffer.storeLe32_byte_of_disjoint _ _ (by omega)]

/-- The header and the spare bytes keep the values of `rtapi_app_main`. -/
theorem CmdBuf.fixed {buf : Buffer} (h : CmdBuf buf) :
    buf.byte 12 = 0x80#8 ∧ buf.byte 13 = 0xab#8 ∧ buf.byte 36 = 0 ∧ buf.byte 37 = 0 := by
  induction h with
  | init ifAddr => exact ⟨rfl, rfl, rfl, rfl⟩
  | encode w c _ ih =>
      rw [encode_byte_of_unused w c _ (by omega), encode_byte_of_unused w c _ (by omega),
        encode_byte_of_unused w c _ (by omega), encode_byte_of_unused w c _ (by omega)]
      exact ih

/-- The period word of axis `i` in the frame. -/
theorem encode_per (w : Words) (c : CompState) (buf : Buffer) (i : Fin 5) :
    (encode w c buf).loadLe32 (14 + 4 * i.val) = w.per i := by
  match i with
  | 0 | 1 | 2 | 3 | 4 =>
      simp [encode, Buffer.loadLe32_storeLe32_of_disjoint, Buffer.loadLe32_store_of_disjoint,
        Words.per]

theorem encode_pwm (w : Words) (c : CompState) (buf : Buffer) :
    (encode w c buf).loadLe32 38 = w.pwmCounter ∧
      (encode w c buf).loadLe32 42 = w.pwmCapture ∧
      (encode w c buf).loadLe32 46 = opins c := by
  refine ⟨?_, ?_, ?_⟩ <;> simp [encode, Buffer.loadLe32_storeLe32_of_disjoint]

theorem encode_dirsEns (w : Words) (c : CompState) (buf : Buffer) :
    (encode w c buf).loadLe32 34 =
      Buffer.joinLe32 (buf.byte 37) (buf.byte 36) (ensByte c) (dirsEnsByte c) := by
  have h37 := encode_byte_of_unused w c buf (show _ ∨ _ ∨ 37 = 37 ∨ _ by omega)
  have h36 := encode_byte_of_unused w c buf (show _ ∨ 36 = 36 ∨ _ ∨ _ by omega)
  have h35 : (encode w c buf).byte 35 = ensByte c := by
    simp [encode, Buffer.storeLe32_byte_of_disjoint]
  have h34 : (encode w c buf).byte 34 = dirsEnsByte c := by
    simp [encode, Buffer.storeLe32_byte_of_disjoint, Buffer.store_byte]
  rw [Buffer.loadLe32, h37, h36, h35, h34]

theorem getLsbD_bit_shiftLeft (b : Bool) (k j : ℕ) (hj : j < 32) :
    (bit b <<< k).getLsbD j = (b && decide (j = k)) := by
  rw [BitVec.getLsbD_shiftLeft, decide_eq_true hj, Bool.true_and]
  cases b with
  | false => simp [bit]
  | true =>
      simp only [bit, if_true, Bool.true_and]
      rw [BitVec.ofNat_eq_ofNat, BitVec.getLsbD_one]
      apply Bool.eq_iff_iff.mpr
      simp
      omega

theorem getLsbD_bit (b : Bool) (j : ℕ) (hj : j < 32) :
    (bit b).getLsbD j = (b && decide (j = 0)) := by
  have h := getLsbD_bit_shiftLeft b 0 j hj
  rwa [BitVec.shiftLeft_zero] at h

/-- The output bits the collecting loop has set after the pins of a list. -/
theorem getLsbD_opins_fold (f : Fin 32 → Bool) (k : Fin 32) (l : List (Fin 32))
    (o : BitVec 32) :
    (l.foldl (fun o i => o ||| bit (f i) <<< i.val) o).getLsbD k =
      (o.getLsbD k || l.any fun i => f i && decide (k = i)) := by
  induction l generalizing o with
  | nil => simp
  | cons i l ih =>
      rw [List.foldl_cons, ih, BitVec.getLsbD_or, getLsbD_bit_shiftLeft _ _ _ k.isLt,
        List.any_cons, Bool.or_assoc]
      simp only [Fin.ext_iff]

theorem getLsbD_opins (c : CompState) (k : Fin 32) :
    (opins c).getLsbD k = c.gpioOut k := by
  rw [opins, getLsbD_opins_fold]
  apply Bool.eq_iff_iff.mpr
  simp

/-- The bytes `send` puts on the wire. -/
def sentFrame (buf : Buffer) : List (BitVec 8) := (List.range sendLen).map buf.byte

@[simp] theorem length_sentFrame (buf : Buffer) : (sentFrame buf).length = 64 := by
  simp [sentFrame, sendLen]

theorem sentFrame_getD (buf : Buffer) {j : ℕ} (hj : j < 64) :
    (sentFrame buf).getD j 0 = buf.byte j := by
  rw [List.getD_eq_getElem _ _ (by rw [length_sentFrame]; exact hj)]
  simp [sentFrame]

end De2

/-! ## §2  The handler on a received frame -/

namespace HelloLed

open IoProg Dm9000a

/-- The writes to `cnc_module` among the accesses of a run. -/
def cncWrites (tr : List BusAccess) : List (ℕ × BitVec 32) :=
  tr.filterMap fun x =>
    match x with
    | .wr ⟨.cncModule0, k⟩ w => some (k, w)
    | _ => none

theorem cncWrites_append (t₁ t₂ : List BusAccess) :
    cncWrites (t₁ ++ t₂) = cncWrites t₁ ++ cncWrites t₂ :=
  List.filterMap_append

theorem cncWrites_of_nic {tr : List BusAccess} (h : ∀ x ∈ tr, nicAccess x) :
    cncWrites tr = [] := by
  rw [cncWrites, List.filterMap_eq_nil_iff]
  intro x hx
  have hbase := h x hx
  match x with
  | .rd _ _ => rfl
  | .wr ⟨.dm9000a, _⟩ _ => rfl
  | .wr ⟨.ledGreen, _⟩ _ => rfl
  | .wr ⟨.cncModule0, _⟩ _ => exact absurd hbase (by simp [nicAccess, Access.addr])

theorem cncWrites_readsTrace (v : ℕ → BitVec 32) : cncWrites (readsTrace v) = [] := rfl

theorem cncWrites_regTrace (rxt : Buffer) : cncWrites (regTrace rxt) = regWrites rxt := rfl

theorem cncWrites_txTrace (b : Buffer) (n : BitVec 32) {vs : List (BitVec 32)}
    {u : BitVec 32} (hvs : ∀ z ∈ vs, txDone z = false) (hu : txDone u = true) :
    cncWrites (txTrace b n (vs ++ [u])) = [] :=
  cncWrites_of_nic ((only_transmitPacket b n).exec
    (completes_transmitPacket.mpr ⟨vs, u, hvs, hu, rfl, rfl⟩))

theorem nic_isrTrace (inter : BitVec 32) : ∀ x ∈ isrTrace inter, nicAccess x := by
  simp [isrTrace, nicAccess, Access.addr]

theorem nic_trace (b : Buffer) {r : RxResponse} (hr : r.Complete) :
    ∀ x ∈ r.trace, nicAccess x :=
  (only_receivePacket b).exec (completes_receivePacket.mpr ⟨r, hr, rfl, rfl⟩)

/-- An accepted command writes the nine registers and nothing else of
`cnc_module`. -/
theorem cncWrites_of_answerCommand {g g' : Globals} {tr : List BusAccess}
    (hcmd : isCommand g.rxt = true) (h : Completes (answerCommand g) tr g') :
    cncWrites tr = regWrites g.rxt := by
  obtain ⟨v, vs, u, hvs, hu, rfl, -⟩ := (completes_answerCommand hcmd).mp h
  rw [commandTrace, cncWrites_append, cncWrites_append, cncWrites_append, cncWrites_readsTrace,
    cncWrites_txTrace _ _ hvs hu, cncWrites_regTrace]
  exact List.append_nil _

end HelloLed

namespace Dm9000a.RxResponse

/-- The NIC hands over the frame `bs`, perhaps with more behind it. -/
structure Carries (r : RxResponse) (bs : List (BitVec 8)) : Prop where
  complete : r.Complete
  ready : r.packetReady
  good : r.good
  length : bs.length ≤ r.len.toNat
  bytes : ∀ j < bs.length, wordByte r.words j = bs.getD j 0

/-- The frame is then what the copy loop leaves in the buffer. -/
theorem Carries.byte {r : RxResponse} {bs : List (BitVec 8)} (h : r.Carries bs)
    (b : Buffer) {j : ℕ} (hj : j < bs.length) :
    (r.result b).dataPtr.byte j = bs.getD j 0 := by
  rw [result_byte_of_good h.complete h.ready h.good b (hj.trans_le h.length)]
  exact h.bytes j hj

/-- The answers for a frame of an even number of bytes. -/
def ofFrame (bs : List (BitVec 8)) : RxResponse where
  dummy := 0
  ready := 1
  status := 0
  len := BitVec.ofNat 32 bs.length
  words := (List.range ((bs.length + 1) / 2)).map fun k =>
    (bs.getD (2 * k + 1) 0).setWidth 32 <<< 8 ||| (bs.getD (2 * k) 0).setWidth 32

theorem carries_ofFrame {bs : List (BitVec 8)} (h : bs.length < 1522) :
    (ofFrame bs).Carries bs := by
  have hlen : (BitVec.ofNat 32 bs.length).toNat = bs.length := by
    rw [BitVec.toNat_ofNat]
    omega
  have hready : (ofFrame bs).packetReady :=
    show (1#32 &&& 0x03 : BitVec 32) = DM9000_PKT_READY by decide
  have hstatus : (ofFrame bs).status &&& 0xBF00 = 0 :=
    show (0#32 &&& 0xBF00 : BitVec 32) = 0 by decide
  refine ⟨?_, hready, ⟨hstatus, ?_⟩, hlen.ge, fun j hj => ?_⟩
  · rw [Complete, if_pos hready]
    simp only [ofFrame, List.length_map, List.length_range, hlen]
  · show BitVec.ofNat 32 bs.length < 1522#32
    rw [BitVec.lt_def, hlen]
    exact h
  · have hword : (ofFrame bs).words.getD (j / 2) 0 =
        (bs.getD (2 * (j / 2) + 1) 0).setWidth 32 <<< 8 |||
          (bs.getD (2 * (j / 2)) 0).setWidth 32 := by
      rw [ofFrame, List.getD_eq_getElem _ _ (by simp; omega)]
      simp
    rw [wordByte, hword]
    rcases Nat.mod_two_eq_zero_or_one j with heven | hodd
    · rw [heven, show 2 * (j / 2) = j by omega]
      ext i hi
      simp
    · rw [hodd, show 2 * (j / 2) + 1 = j by omega]
      ext i hi
      simp only [BitVec.getElem_setWidth, BitVec.getLsbD_ushiftRight, BitVec.getLsbD_or,
        BitVec.getLsbD_shiftLeft, BitVec.getLsbD_setWidth]
      simp [show 8 + i < 32 by omega, show i < 32 by omega]
      exact BitVec.getLsbD_eq_getElem hi

end Dm9000a.RxResponse

/-! ## §3  The registers -/

/-- Register writes as the bus sees them. -/
def busWrites (xs : List (ℕ × BitVec 32)) : List (BitVec 6 × BitVec 32) :=
  xs.map fun x => (BitVec.ofNat 6 x.1, x.2)

/-- The register writes a buffer stands for, on the bus. -/
def frameWrites (b : Buffer) : List (BitVec 6 × BitVec 32) :=
  busWrites (HelloLed.regWrites b)

/-- The register file after the nine writes of `b`. -/
def CtlRegs.ofFrame (b : Buffer) : CtlRegs where
  sg0Per := b.loadLe32 14
  sg1Per := b.loadLe32 18
  sg2Per := b.loadLe32 22
  sg3Per := b.loadLe32 26
  sg4Per := b.loadLe32 30
  sgDirs := (b.loadLe32 34).extractLsb' 0 5
  sgEns := (b.loadLe32 34).extractLsb' 5 5
  pwmEn := (b.loadLe32 34).getLsbD 10
  spare := (b.loadLe32 34).extractLsb' 11 21
  pwmCounter := b.loadLe32 38
  pwmCapture := b.loadLe32 42
  ogpio := b.loadLe32 46

theorem CtlRegs.sgPer_ofFrame (b : Buffer) (i : Fin 5) :
    (CtlRegs.ofFrame b).sgPer i = b.loadLe32 (14 + 4 * i.val) := by
  match i with
  | 0 | 1 | 2 | 3 | 4 => rfl

theorem CtlRegs.sgDir_ofFrame (b : Buffer) (i : Fin 5) :
    (CtlRegs.ofFrame b).sgDir i = (b.loadLe32 34).getLsbD i := by
  show ((b.loadLe32 34).extractLsb' 0 5).getLsbD i = _
  rw [BitVec.getLsbD_extractLsb', decide_eq_true i.isLt, Bool.true_and, Nat.zero_add]

theorem CtlRegs.sgEn_ofFrame (b : Buffer) (i : Fin 5) :
    (CtlRegs.ofFrame b).sgEn i = (b.loadLe32 34).getLsbD (5 + i) := by
  show ((b.loadLe32 34).extractLsb' 5 5).getLsbD i = _
  rw [BitVec.getLsbD_extractLsb', decide_eq_true i.isLt, Bool.true_and]

/-- The nine writes leave nothing of the old register file. -/
theorem CtlRegs.writes_frameWrites (r : CtlRegs) (b : Buffer) :
    r.writes (frameWrites b) = CtlRegs.ofFrame b := rfl

/-- What a command asks of the register file. -/
structure CtlRegs.Holds (r : CtlRegs) (w : De2.Words) (c : De2.CompState) : Prop where
  per : ∀ i, r.sgPer i = w.per i
  dir : ∀ i, r.sgDir i = decide (1 / 100 ≤ (c.sg i).velocityCmd)
  en : ∀ i, r.sgEn i = (c.sg i).enable
  pwmCounter : r.pwmCounter = w.pwmCounter
  pwmCapture : r.pwmCapture = w.pwmCapture
  ogpio : ∀ k : Fin 32, r.ogpio.getLsbD k = c.gpioOut k
  pwmEn : r.pwmEn = false
  spare : r.spare = 0

namespace De2

theorem dirsEnsByte_dir (c : CompState) (i : Fin 5) :
    (dirsEnsByte c).getLsbD i = sgDir (c.sg i) := by
  match i with
  | 0 | 1 | 2 | 3 | 4 =>
      simp only [dirsEnsByte, BitVec.getLsbD_setWidth, BitVec.getLsbD_or]
      rw [getLsbD_bit_shiftLeft _ _ _ (by decide), getLsbD_bit_shiftLeft _ _ _ (by decide),
        getLsbD_bit_shiftLeft _ _ _ (by decide), getLsbD_bit_shiftLeft _ _ _ (by decide),
        getLsbD_bit_shiftLeft _ _ _ (by decide), getLsbD_bit_shiftLeft _ _ _ (by decide),
        getLsbD_bit_shiftLeft _ _ _ (by decide), getLsbD_bit _ _ (by decide)]
      simp [CompState.sg]

/-- The enable bits of axes 0 to 2 fill up `buf[34]`. -/
theorem dirsEnsByte_en (c : CompState) {k : ℕ} (hk : k < 3) :
    (dirsEnsByte c).getLsbD (5 + k) =
      match k with
      | 0 => c.sg0.enable
      | 1 => c.sg1.enable
      | _ => c.sg2.enable := by
  interval_cases k <;>
  · simp only [dirsEnsByte, BitVec.getLsbD_setWidth, BitVec.getLsbD_or]
    rw [getLsbD_bit_shiftLeft _ _ _ (by decide), getLsbD_bit_shiftLeft _ _ _ (by decide),
      getLsbD_bit_shiftLeft _ _ _ (by decide), getLsbD_bit_shiftLeft _ _ _ (by decide),
      getLsbD_bit_shiftLeft _ _ _ (by decide), getLsbD_bit_shiftLeft _ _ _ (by decide),
      getLsbD_bit_shiftLeft _ _ _ (by decide), getLsbD_bit _ _ (by decide)]
    simp

/-- `buf[35]` holds the enable bits of axes 3 and 4 and nothing else. -/
theorem getLsbD_ensByte (c : CompState) {j : ℕ} (hj : j < 8) :
    (ensByte c).getLsbD j =
      (c.sg4.enable && decide (j = 1) || c.sg3.enable && decide (j = 0)) := by
  rw [ensByte, BitVec.getLsbD_setWidth, BitVec.getLsbD_or,
    getLsbD_bit_shiftLeft _ _ _ (by omega), getLsbD_bit _ _ (by omega), decide_eq_true hj,
    Bool.true_and]

end De2

section OfFrame

variable (w : De2.Words) (c : De2.CompState) {buf : Buffer}

/-- The bits of the direction and enable word of a command. -/
theorem encode_dirsEns_bit (hbuf : De2.CmdBuf buf) {j : ℕ} (hj : j < 32) :
    ((De2.encode w c buf).loadLe32 34).getLsbD j =
      if j < 8 then (De2.dirsEnsByte c).getLsbD j
      else if j < 16 then (De2.ensByte c).getLsbD (j - 8) else false := by
  obtain ⟨-, -, h36, h37⟩ := hbuf.fixed
  rw [De2.encode_dirsEns, Buffer.getLsbD_joinLe32 _ _ _ _ hj, h36, h37]
  split_ifs <;> simp

/-- **A command frame decodes to the command.** -/
theorem CtlRegs.ofFrame_holds (hbuf : De2.CmdBuf buf) :
    (CtlRegs.ofFrame (De2.encode w c buf)).Holds w c where
  per i := by rw [CtlRegs.sgPer_ofFrame, De2.encode_per]
  dir i := by
    rw [CtlRegs.sgDir_ofFrame, encode_dirsEns_bit w c hbuf (by omega),
      if_pos (by omega), De2.dirsEnsByte_dir, De2.sgDir_eq]
  en i := by
    rw [CtlRegs.sgEn_ofFrame, encode_dirsEns_bit w c hbuf (by omega)]
    match i with
    | 0 => exact De2.dirsEnsByte_en c (k := 0) (by decide)
    | 1 => exact De2.dirsEnsByte_en c (k := 1) (by decide)
    | 2 => exact De2.dirsEnsByte_en c (k := 2) (by decide)
    | 3 | 4 => exact (De2.getLsbD_ensByte c (by decide)).trans (by simp [De2.CompState.sg])
  pwmCounter := (De2.encode_pwm w c buf).1
  pwmCapture := (De2.encode_pwm w c buf).2.1
  ogpio k := by
    show ((De2.encode w c buf).loadLe32 46).getLsbD k = _
    rw [(De2.encode_pwm w c buf).2.2, De2.getLsbD_opins]
  pwmEn := by
    show ((De2.encode w c buf).loadLe32 34).getLsbD 10 = false
    rw [encode_dirsEns_bit w c hbuf (by decide)]
    exact (De2.getLsbD_ensByte c (by decide)).trans (by simp)
  spare := by
    show ((De2.encode w c buf).loadLe32 34).extractLsb' 11 21 = 0
    apply BitVec.eq_of_getLsbD_eq
    intro j hj
    rw [BitVec.getLsbD_extractLsb', decide_eq_true hj, Bool.true_and,
      encode_dirsEns_bit w c hbuf (by omega), if_neg (by omega)]
    split_ifs with h16
    · rw [De2.getLsbD_ensByte c (by omega)]
      simp
      omega
    · simp

end OfFrame

/-! ## §4  The round trip -/

section RoundTrip

open IoProg Dm9000a HelloLed

variable {w : De2.Words} {c : De2.CompState} {buf : Buffer} {r : RxResponse}

/-- `RXT` after the reception of a command frame, where the handler looks. -/
theorem rxt_of_carries (hr : r.Carries (De2.sentFrame (De2.encode w c buf))) (b : Buffer)
    {j : ℕ} (hj : j < 64) : (r.result b).dataPtr.byte j = (De2.encode w c buf).byte j := by
  rw [hr.byte b (by rw [De2.length_sentFrame]; exact hj), De2.sentFrame_getD _ hj]

theorem isCommand_of_carries (hbuf : De2.CmdBuf buf)
    (hr : r.Carries (De2.sentFrame (De2.encode w c buf))) (b : Buffer) :
    isCommand (r.result b).dataPtr = true := by
  obtain ⟨h12, h13, -⟩ := (hbuf.encode w c).fixed
  rw [isCommand, rxt_of_carries hr b (by decide), rxt_of_carries hr b (by decide), h12, h13]
  rfl

/-- A run that receives a command frame writes its nine registers. -/
theorem cncWrites_of_carries (hbuf : De2.CmdBuf buf)
    (hr : r.Carries (De2.sentFrame (De2.encode w c buf))) {g g' : Globals}
    {inter : BitVec 32} (hprs : inter &&& 1 = 1) {t : List BusAccess}
    (hrun : Completes (ethernetInterrupts g) (isrTrace inter ++ (r.trace ++ t)) g') :
    cncWrites (isrTrace inter ++ (r.trace ++ t)) = regWrites (De2.encode w c buf) := by
  have hcmd : isCommand (g.received (r.result g.rxt)).rxt = true :=
    isCommand_of_carries hbuf hr g.rxt
  rw [Completes, exec_ethernetInterrupts_received g hprs hr.complete, afterReceive,
    if_pos hcmd] at hrun
  rw [cncWrites_append, cncWrites_append, cncWrites_of_nic (nic_isrTrace inter),
    cncWrites_of_nic (nic_trace g.rxt hr.complete), List.nil_append, List.nil_append,
    cncWrites_of_answerCommand hcmd hrun]
  exact regWrites_congr fun j _ hj => rxt_of_carries hr g.rxt (by omega)

/-- **The command path is the identity.** Whatever the pins, the converted
words and the frames before were: once a handler run has received the frame and
its register writes have been clocked into the module, with any other clocks
in between, the register file holds the command. -/
theorem command_round_trip (w : De2.Words) (c : De2.CompState) {buf : Buffer}
    (hbuf : De2.CmdBuf buf) {g g' : Globals} {inter : BitVec 32} {r : RxResponse}
    {t : List BusAccess} (hprs : inter &&& 1 = 1)
    (hr : r.Carries (De2.sentFrame (De2.encode w c buf)))
    (hrun : Completes (ethernetInterrupts g) (isrTrace inter ++ (r.trace ++ t)) g')
    (s : CncModule) (bs : List CncIn)
    (hbs : CncModule.writesOf bs =
      busWrites (cncWrites (isrTrace inter ++ (r.trace ++ t)))) :
    (run CncModule.posedge s bs).ctl.Holds w c := by
  rw [cncWrites_of_carries hbuf hr hprs hrun] at hbs
  rw [CncModule.ctl_run, hbs, ← frameWrites, CtlRegs.writes_frameWrites]
  exact CtlRegs.ofFrame_holds w c hbuf

/-- Axis 0 driven forward, the others at rest, every third output set. -/
def samplePins : De2.CompState where
  sg0 := ⟨.fin 0, 5 / 4, true, 4000⟩
  sg1 := ⟨.fin 0, 0, true, 4000⟩
  sg2 := ⟨.fin 0, 0, false, 4000⟩
  sg3 := ⟨.fin 0, 0, false, 4000⟩
  sg4 := ⟨.fin 0, 0, false, 4000⟩
  spindleRpm := 0
  gpioOut k := k.val % 3 == 0
  gpioIn _ := false
  pwmFreq := 1000

def sampleWords : De2.Words := ⟨4999, 0, 0, 0, 0, 50000, 0⟩

/-- The command frame for `samplePins`. -/
def sampleFrame : Buffer := De2.encode sampleWords samplePins (De2.initBuf fun _ => 0)

theorem command_round_trip_sample :
    ∃ tr g', Completes (ethernetInterrupts .init) tr g' ∧
      (run CncModule.posedge CncModule.powerUp.reset
        ((busWrites (cncWrites tr)).map fun x => CncIn.writeTo x.1 x.2)).ctl.Holds
        sampleWords samplePins := by
  have hprs : (1#32) &&& 1 = 1 := by decide
  have hr : (RxResponse.ofFrame (De2.sentFrame sampleFrame)).Carries (De2.sentFrame sampleFrame) :=
    RxResponse.carries_ofFrame (by rw [De2.length_sentFrame]; decide)
  obtain ⟨g', hrun, -⟩ := exists_command_run .init hprs hr.complete
    (isCommand_of_carries (.init _) hr _) (fun _ => 0) (List.forall_mem_nil _) txDone_both
  exact ⟨_, g', hrun, command_round_trip _ _ (.init _) hprs hr hrun _ _
    (CncModule.writesOf_map_writeTo _)⟩

end RoundTrip

end FpgaCnc
