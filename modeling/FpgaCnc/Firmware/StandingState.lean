import FpgaCnc.Firmware.Nic

/-!
# The standing state of the ethernet handler

Between two runs of the handler the NIC's interrupt mask is `INTR_set` and
`TXT` starts with the reply header. `ReceivePacket` masks the interrupts and
does not unmask them; `TransmitPacket` does, and every path on which a frame
was signalled goes through it, the early return with a byte of the header
changed meanwhile.

§1 the interrupt mask · §2 the frames a run sends · §3 the reply header · §4
the handler.
-/

namespace FpgaCnc

open IoProg Dm9000a

/-! ## §1  The interrupt mask -/

/-- The interrupt mask behind the two ports: the register selected, the value
last written to `IMR`, and what `IMR` holds, which a software reset clears. -/
structure ImrPort where
  index : BitVec 32
  written : BitVec 32
  imr : BitVec 32
  holds : imr = written ∨ imr = 0

namespace ImrPort

/-- A write to the data port. -/
def write (p : ImrPort) (w : BitVec 32) : ImrPort :=
  if p.index = IMR then ⟨p.index, w, w, Or.inl rfl⟩
  else if p.index = NCR ∧ w.getLsbD 0 = true then ⟨p.index, p.written, 0, Or.inr rfl⟩
  else p

/-- An access of the Nios. -/
def access (p : ImrPort) : BusAccess → ImrPort
  | .wr ⟨.dm9000a, 0⟩ w => { p with index := w }
  | .wr ⟨.dm9000a, _ + 1⟩ w => p.write w
  | _ => p

def run (p : ImrPort) (tr : List BusAccess) : ImrPort := tr.foldl access p

@[simp] theorem run_nil (p : ImrPort) : p.run [] = p := rfl
@[simp] theorem run_cons (p : ImrPort) (x : BusAccess) (tr : List BusAccess) :
    p.run (x :: tr) = (p.access x).run tr := rfl

theorem run_append (p : ImrPort) (t₁ t₂ : List BusAccess) :
    p.run (t₁ ++ t₂) = (p.run t₁).run t₂ := List.foldl_append

theorem index_write (p : ImrPort) (w : BitVec 32) : (p.write w).index = p.index := by
  unfold write
  split_ifs <;> rfl

/-- The mask is not clear, so no reset has come after the last write. -/
theorem written_of_imr {p : ImrPort} (h : p.imr = INTR_set) : p.written = INTR_set := by
  rcases p.holds with hw | hz
  · exact hw.symm.trans h
  · exact absurd (hz.symm.trans h) (by decide)

/-- The port of a chip. -/
def OfNic (p : ImrPort) (n : Nic) : Prop := p.index = n.index ∧ p.imr = n.imr

theorem OfNic.write {p : ImrPort} {n : Nic} (h : p.OfNic n) (w : BitVec 32) :
    (p.write w).OfNic (n.write w) := by
  obtain ⟨hindex, himr⟩ := h
  have hidx : (p.write w).index = (n.write w).index := by
    rw [index_write, hindex, Nic.index, Nic.index, Nic.tx_write, Tx.index_write]
  refine ⟨hidx, ?_⟩
  unfold ImrPort.write Nic.write
  rw [hindex]
  -- neither the mask nor a reset, the mask, a reset
  by_cases hisr : n.index = ISR
  · rw [if_pos hisr, if_neg (hisr ▸ by decide), if_neg (hisr ▸ by simp [ISR, NCR])]
    exact himr
  · rw [if_neg hisr]
    split_ifs
    · rfl
    · rfl
    · exact himr

theorem OfNic.access {p : ImrPort} {n n' : Nic} (h : p.OfNic n) {x : BusAccess}
    (hx : n.access x = some n') : (p.access x).OfNic n' := by
  match x with
  | .wr ⟨.dm9000a, 0⟩ w =>
      cases hx
      exact ⟨rfl, h.2⟩
  | .wr ⟨.dm9000a, k + 1⟩ w =>
      cases hx
      exact h.write w
  | .rd ⟨.dm9000a, 0⟩ _ =>
      cases hx
      exact h
  | .rd ⟨.dm9000a, k + 1⟩ v =>
      obtain ⟨htx, himr⟩ := Nic.tx_imr_read (v := v) hx
      exact ⟨h.1.trans (congrArg Tx.index htx).symm, h.2.trans himr.symm⟩
  | .rd ⟨.cncModule0, _⟩ _ | .rd ⟨.ledGreen, _⟩ _ | .wr ⟨.cncModule0, _⟩ _
  | .wr ⟨.ledGreen, _⟩ _ =>
      cases hx
      exact h

/-- **The port follows the chip**, whatever frames arrive meanwhile. -/
theorem OfNic.run {p : ImrPort} {n n' : Nic} {tr : List BusAccess} (h : p.OfNic n)
    (htakes : n.Takes tr n') : (p.run tr).OfNic n' := by
  induction htakes generalizing p with
  | nil n => exact h
  | arrive r _ ih => exact ih h
  | access hacc _ ih => exact ih (h.access hacc)

/-- The accesses outside the NIC do not touch the mask. -/
theorem run_of_not_nic {p : ImrPort} {tr : List BusAccess} (h : ∀ x ∈ tr, ¬ nicAccess x) :
    p.run tr = p := by
  induction tr with
  | nil => rfl
  | cons x tr ih =>
      have haccess : p.access x = p := by
        have hx := h x List.mem_cons_self
        match x with
        | .rd _ _ => rfl
        | .wr ⟨.dm9000a, _⟩ _ => exact absurd rfl hx
        | .wr ⟨.cncModule0, _⟩ _ | .wr ⟨.ledGreen, _⟩ _ => rfl
      rw [run_cons, haccess]
      exact ih fun y hy => h y (List.mem_cons_of_mem _ hy)

/-- The acknowledgement does not touch the mask. -/
theorem imr_run_isrTrace (p : ImrPort) (inter : BitVec 32) :
    (p.run (HelloLed.isrTrace inter)).imr = p.imr := rfl

/-- **A transmission unmasks the interrupts**, whatever came before it. -/
theorem imr_run_txTrace (p : ImrPort) (b : Buffer) (len : BitVec 32) (vs : List (BitVec 32)) :
    (p.run (txTrace b len vs)).imr = INTR_set := by
  rw [txTrace, run_append]
  rfl

end ImrPort

/-! ## §2  The frames a run sends -/

namespace Tx

/-- Starting with an empty transmit buffer, the accesses send these frames and
leave the buffer empty. -/
def Sends (tr : List BusAccess) (frames : List (List (BitVec 8))) : Prop :=
  ∀ t : Tx, t.data = [] → (t.run tr).data = [] ∧ (t.run tr).sent = t.sent ++ frames

theorem Sends.append {t₁ t₂ : List BusAccess} {f₁ f₂ : List (List (BitVec 8))}
    (h₁ : Sends t₁ f₁) (h₂ : Sends t₂ f₂) : Sends (t₁ ++ t₂) (f₁ ++ f₂) := by
  intro t ht
  obtain ⟨hdata₁, hsent₁⟩ := h₁ t ht
  obtain ⟨hdata₂, hsent₂⟩ := h₂ (t.run t₁) hdata₁
  rw [run_append]
  exact ⟨hdata₂, by rw [hsent₂, hsent₁, List.append_assoc]⟩

theorem sends_isrTrace (inter : BitVec 32) : Sends (HelloLed.isrTrace inter) [] := by
  intro t ht
  have h := run_isrTrace ht inter (List.forall_mem_nil _)
  rwa [List.append_nil, ← List.append_nil t.sent] at h

theorem sends_reception (inter : BitVec 32) (r : RxResponse) :
    Sends (HelloLed.isrTrace inter ++ r.trace) [] := by
  intro t ht
  have h := run_reception ht inter r
  rwa [← List.append_nil t.sent] at h

end Tx

/-! ## §3  The reply header -/

namespace HelloLed

/-- `TXT[0..13]` is as initialised. -/
def ReplyHeader (txt : Buffer) : Prop := ∀ j < 14, txt.byte j = txtInit.byte j

/-- The register reads fill in the bytes after the header. -/
theorem replyTxt_header (g : Globals) (v : ℕ → BitVec 32) {j : ℕ} (hj : j < 14) :
    (replyTxt g v).byte j = g.txt.byte j := by
  have hword : ∀ (b : Buffer) (off : ℕ) (w : BitVec 32), 14 ≤ off →
      (b.storeLe32 off w).byte j = b.byte j :=
    fun b off w hoff => b.storeLe32_byte_of_disjoint w (Or.inl (hj.trans_le hoff))
  have hbyte : ∀ (b : Buffer) (off : ℕ) (w : BitVec 8), 14 ≤ off →
      (b.store off w).byte j = b.byte j :=
    fun b off w hoff => b.store_byte_of_ne w (hj.trans_le hoff).ne
  unfold replyTxt
  rw [hword _ 42 _ (by decide), hword _ 38 _ (by decide), hword _ 34 _ (by decide),
    hword _ 30 _ (by decide), hword _ 26 _ (by decide), hword _ 22 _ (by decide),
    hword _ 18 _ (by decide), hbyte _ 17 _ (by decide), hbyte _ 16 _ (by decide),
    hbyte _ 15 _ (by decide), hbyte _ 14 _ (by decide)]

/-- The early return puts back the byte it changed. -/
theorem store_aa_store_ab {txt : Buffer} (h13 : txt.byte 13 = 0xab) (j : ℕ) :
    ((txt.store 13 0xaa).store 13 0xab).byte j = txt.byte j := by
  rw [Buffer.store_byte]
  split_ifs with hj
  · rw [hj, h13]
  · exact Buffer.store_byte_of_ne txt 0xaa hj

/-! ## §4  The handler -/

/-- A frame of `len` bytes and of type `0x08` followed by `low`. -/
def FrameOf (len : ℕ) (low : BitVec 8) (f : List (BitVec 8)) : Prop :=
  f.length = len ∧ f.getD 12 0 = 0x08 ∧ f.getD 13 0 = low

/-- The frame a buffer with a reply header is sent as. -/
theorem frameOf_bytes {len : ℕ} {low : BitVec 8} {b : Buffer} (hlen : 14 ≤ len)
    (h12 : b.byte 12 = 0x08) (h13 : b.byte 13 = low) :
    FrameOf len low ((List.range len).map b.byte) := by
  have hget : ∀ k < 14, ((List.range len).map b.byte).getD k 0 = b.byte k := by
    intro k hk
    simp [List.getD_eq_getElem?_getD, hk.trans_le hlen]
  refine ⟨by simp, ?_, ?_⟩
  · rw [hget 12 (by decide), h12]
  · rw [hget 13 (by decide), h13]

/-- **The part after the reception**: however it came out, the mask is written
back, the header is as before, and one frame goes out. -/
theorem afterReceive_restores {g g' : Globals} {t : List BusAccess}
    (h12 : g.txt.byte 12 = 0x08) (h13 : g.txt.byte 13 = 0xab)
    (h : Completes (afterReceive g) t g') :
    (∀ p : ImrPort, (p.run t).imr = INTR_set) ∧ (∀ j < 14, g'.txt.byte j = g.txt.byte j) ∧
      ∃ f, Tx.Sends t [f] ∧ (FrameOf 46 0xab f ∨ FrameOf 14 0xaa f) := by
  unfold afterReceive at h
  split_ifs at h with hcmd
  · obtain ⟨v, vs, u, -, -, rfl, rfl⟩ := (completes_answerCommand hcmd).mp h
    have hheader : ∀ j < 14, (replyTxt g v).byte j = g.txt.byte j :=
      fun j hj => replyTxt_header g v hj
    refine ⟨fun p => ?_, hheader, (List.range 46).map (replyTxt g v).byte, ?_, Or.inl ?_⟩
    · -- the register reads before the transmission, the register writes after it
      have hregs : ∀ p' : ImrPort, p'.run (regTrace g.rxt ++
          [.wr ⟨.ledGreen, 0⟩ (((g.packetNum + 1) >>> 7) &&& 1)]) = p' :=
        fun p' => ImrPort.run_of_not_nic fun x hx => Tx.not_nic_of_regTrace hx
      rw [commandTrace, ImrPort.run_append, ImrPort.run_append, hregs]
      exact ImrPort.imr_run_txTrace _ _ _ _
    · intro t ht
      exact Tx.run_commandTrace ht g v vs u
    · apply frameOf_bytes (by decide)
      · rw [hheader 12 (by decide), h12]
      · rw [hheader 13 (by decide), h13]
  · obtain ⟨vs, u, -, -, rfl, rfl⟩ := completes_rejectFrame.mp h
    refine ⟨fun p => p.imr_run_txTrace _ _ _, fun j _ => store_aa_store_ab h13 j,
      (List.range 14).map (g.txt.store 13 0xaa).byte, ?_, Or.inr ?_⟩
    · intro t ht
      exact Tx.run_txTrace ht _ (show (14#32).toNat < 2 ^ 16 by decide) vs u
    · apply frameOf_bytes (le_refl 14)
      · rw [Buffer.store_byte_of_ne _ _ (by decide), h12]
      · exact Buffer.store_byte_same _ _ _

/-- **The handler restores its standing state.** From a set mask and the reply
header in `TXT`, whatever the NIC answers: when the handler returns, the mask
has been written back if it was touched, the header is unchanged, and the run
has sent one reply or one short reply if a reception was signalled, nothing
otherwise. -/
theorem standing_state_restored {g g' : Globals} {tr : List BusAccess} (p : ImrPort)
    (hp : p.imr = INTR_set) (htxt : ReplyHeader g.txt)
    (hrun : Completes (ethernetInterrupts g) tr g') :
    (p.run tr).imr = INTR_set ∧ (p.run tr).written = INTR_set ∧
      (∀ j < 14, g'.txt.byte j = g.txt.byte j) ∧
      ∃ inter rest, tr = isrTrace inter ++ rest ∧
        (inter &&& 1 ≠ 1 → Tx.Sends tr []) ∧
        (inter &&& 1 = 1 → ∃ f, Tx.Sends tr [f] ∧ (FrameOf 46 0xab f ∨ FrameOf 14 0xaa f)) := by
  obtain ⟨inter, ⟨hprs, rfl, rfl⟩ | ⟨hprs, r, -, t, rfl, hrest⟩⟩ :=
    completes_ethernetInterrupts.mp hrun
  · have himr : (p.run (isrTrace inter)).imr = INTR_set := (p.imr_run_isrTrace inter).trans hp
    refine ⟨himr, ImrPort.written_of_imr himr, fun j _ => rfl, inter, [],
      (List.append_nil _).symm, fun _ => Tx.sends_isrTrace inter, fun h => absurd h hprs⟩
  · obtain ⟨hmask, hheader, f, hsends, hframe⟩ :=
      afterReceive_restores (g := g.received (r.result g.rxt)) (htxt 12 (by decide))
        (htxt 13 (by decide)) hrest
    have himr : (p.run (isrTrace inter ++ (r.trace ++ t))).imr = INTR_set := by
      rw [ImrPort.run_append, ImrPort.run_append]
      exact hmask _
    refine ⟨himr, ImrPort.written_of_imr himr, hheader, inter, r.trace ++ t, rfl,
      fun h => absurd hprs h, fun _ => ⟨f, ?_, hframe⟩⟩
    rw [← List.append_assoc]
    exact (Tx.sends_reception inter r).append hsends

/-- The NIC shows a ready byte that is neither 0 nor 1, and is reset. -/
def resetAnswers : RxResponse := ⟨0, 2, 0, 0, []⟩

/-- The standing state after a software reset of the NIC. -/
theorem standing_state_restored_after_reset :
    ∃ tr g', resetTrace <:+: tr ∧ Completes (ethernetInterrupts .init) tr g' ∧
      (ImrPort.run ⟨0, INTR_set, INTR_set, Or.inl rfl⟩ tr).imr = INTR_set ∧
      ∃ f, Tx.Sends tr [f] ∧ (FrameOf 46 0xab f ∨ FrameOf 14 0xaa f) := by
  obtain ⟨g', hrun, -⟩ := exists_reject_run .init (show (1#32) &&& 1 = 1 by decide)
    (show resetAnswers.Complete from rfl)
    (show isCommand (resetAnswers.result Globals.init.rxt).dataPtr = false by decide)
    (List.forall_mem_nil _) txDone_both
  obtain ⟨himr, -, -, inter, rest, htr, -, hsends⟩ :=
    standing_state_restored ⟨0, INTR_set, INTR_set, Or.inl rfl⟩ rfl (fun _ _ => rfl) hrun
  -- the interrupt status is the value read
  obtain ⟨rfl, -⟩ : 1#32 = inter ∧ _ = rest := by simpa [isrTrace] using htr
  refine ⟨_, g', ?_, hrun, himr, hsends (by decide)⟩
  refine ⟨isrTrace 1 ++ [wrIdx IMR, wrDat PAR_set, wrIdx MRCMDX, rdDat 0, rdDat 2],
    txTrace (Globals.init.txt.store 13 0xaa) 14 ([] ++ [0x0C]), ?_⟩
  rw [RxResponse.trace_of_not_ready (by decide), if_pos (by decide)]
  simp [resetAnswers]

end HelloLed

end FpgaCnc
