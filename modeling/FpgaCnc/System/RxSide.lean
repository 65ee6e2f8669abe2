import FpgaCnc.Lib.IoTrace
import FpgaCnc.Firmware.Nic

/-!
# The receive side of the chip, while frames arrive

The chip as a device of its own: the Nios accesses it, and frames arrive
whenever they like. Beside the chip stands a note of the frames that have
arrived; what is noted is left open, and so is which frames may arrive. A run of
the handler acknowledges the interrupt, takes one record out of the FIFO and
leaves the rest of the receive side alone, whatever arrives meanwhile.

§1 chip and arrivals · §2 assertions · §3 single accesses · §4 a reception ·
§5 accesses that keep the receive side · §6 one run of the handler.
-/

namespace FpgaCnc.RxSide

open IoProg Dm9000a HelloLed

/-! ## §1  Chip and arrivals -/

/-- The chip, and a note of the frames that have arrived. -/
structure Noted (G : Type) where
  nic : Nic
  note : G

/-- Which frames may arrive, and what is noted of one that finds `PRS` so. -/
structure Arrivals (G : Type) where
  admits : RxRecord → Prop
  note : G → Bool → RxRecord → G

variable {G : Type}

def Noted.arrive (A : Arrivals G) (c : Noted G) (r : RxRecord) : Noted G where
  nic := c.nic.arrive r
  note := A.note c.note c.nic.prs r

/-- The chip as a device: accesses, and arrivals at any time. -/
def device (A : Arrivals G) : Device Addr (BitVec 32) (Noted G) where
  access c x c' := c.nic.access x = some c'.nic ∧ c'.note = c.note
  env c c' := ∃ r, A.admits r ∧ c' = c.arrive A r

/-! ## §2  Assertions -/

/-- An assertion about the note, `PRS` and the FIFO. -/
abbrev RxPred (G : Type) := G → Bool → List (BitVec 16) → Prop

def On (P : RxPred G) (c : Noted G) : Prop := P c.note c.nic.prs c.nic.rxFifo

/-- The same, with the index port at `reg`; `primed` once `MRCMDX` has had its
dummy read. -/
def At (reg : BitVec 32) (primed : Bool) (P : RxPred G) (c : Noted G) : Prop :=
  c.nic.index = reg ∧ c.nic.primed = primed ∧ On P c

/-- Kept by arrivals. -/
def RxStable (A : Arrivals G) (P : RxPred G) : Prop :=
  ∀ note prs fifo, P note prs fifo → ∀ r, A.admits r →
    P (A.note note prs r) true (fifo ++ r.words)

/-- An assertion about the note, `PRS` and the records not taken out yet. -/
abbrev Tally (G : Type) := G → Bool → List RxRecord → Prop

/-- The FIFO holds some words, and then the records of a tally. -/
def records (R : Tally G) (ws : List (BitVec 16)) : RxPred G := fun note prs fifo =>
  ∃ rest, fifo = ws ++ rest.flatMap RxRecord.words ∧ R note prs rest

def signalled (R : Tally G) : RxPred G := fun note prs fifo =>
  prs = true ∧ records R [] note prs fifo

/-- A tally kept by arrivals. -/
def Kept (A : Arrivals G) (R : Tally G) : Prop :=
  ∀ note prs rest, R note prs rest → ∀ r, A.admits r → R (A.note note prs r) true (rest ++ [r])

/-- From `R` to `R'` when the bit has been cleared and the first record is the
one to take out: there is one. -/
structure Takes (R : Tally G) (R' : RxRecord → Tally G) : Prop where
  some : ∀ note, ¬ R note true []
  first : ∀ note r rest, R note true (r :: rest) → R' r note false rest

variable {A : Arrivals G}

theorem Kept.records {R : Tally G} (h : Kept A R) (ws : List (BitVec 16)) :
    RxStable A (records R ws) := by
  rintro note prs fifo ⟨rest, rfl, hrest⟩ r hr
  exact ⟨rest ++ [r], by simp, h note prs rest hrest r hr⟩

theorem Kept.signalled {R : Tally G} (h : Kept A R) : RxStable A (signalled R) := by
  rintro note prs fifo ⟨-, hrest⟩ r hr
  exact ⟨rfl, h.records [] note prs fifo hrest r hr⟩

section Rx

variable {P : RxPred G} {R : Tally G} {R' : RxRecord → Tally G} {c c' : Noted G}
  {tr : List BusAccess} {reg w : BitVec 32} {primed : Bool}

theorem stable_on (hP : RxStable A P) : Stable (device A) (On P) := by
  rintro c _ hc ⟨r, hr, rfl⟩
  exact hP _ _ _ hc r hr

theorem stable_at (hP : RxStable A P) : Stable (device A) (At reg primed P) := by
  rintro c _ ⟨hindex, hprimed, hc⟩ ⟨r, hr, rfl⟩
  exact ⟨hindex, hprimed, stable_on hP c _ hc ⟨r, hr, rfl⟩⟩

/-! ## §3  Single accesses -/

theorem trace_wrIdx (hP : RxStable A P) (h : Trace (device A) c (wrIdx reg :: tr) c')
    (hc : On P c) : ∃ d, At reg false P d ∧ Trace (device A) d tr c' := by
  refine h.step (stable_on hP) hc ?_
  rintro d d' hd ⟨hacc, hnote⟩
  have hnic := (Option.some.inj hacc).symm
  unfold At On
  rw [hnic, hnote]
  exact ⟨rfl, rfl, hd⟩

/-- A register write that does not reach the receive side. -/
theorem trace_wrDat (hP : RxStable A P) (hisr : reg ≠ ISR) (hncr : reg ≠ NCR)
    (h : Trace (device A) c (wrDat w :: tr) c') (hc : At reg primed P c) :
    ∃ d, On P d ∧ Trace (device A) d tr c' := by
  refine h.step (stable_at hP) hc ?_
  rintro d d' ⟨hindex, -, hd⟩ ⟨hacc, hnote⟩
  have hnic : d'.nic = d.nic.write w := (Option.some.inj hacc).symm
  obtain ⟨hprs, hfifo, -⟩ := Nic.write_rx (n := d.nic) (hindex ▸ hisr) (hindex ▸ hncr) w
  unfold On
  rw [hnic, hnote, hprs, hfifo]
  exact hd

/-- **The acknowledgement.** It finds the bit set, clears it for every frame it
stands for, and there is one to take out. -/
theorem trace_ack (hR : Kept A R) (hT : Takes R R') {inter : BitVec 32}
    (h : Trace (device A) c (isrTrace inter ++ tr) c') (hc : On (signalled R) c) :
    inter.getLsbD 0 = true ∧
      ∃ r d, On (records (R' r) r.words) d ∧ Trace (device A) d tr c' := by
  have hP := hR.signalled
  obtain ⟨d₁, hd₁, h₁⟩ := trace_wrIdx hP h hc
  obtain ⟨d₂, ⟨hbit, hd₂⟩, h₂⟩ := h₁.step (Q := fun d => inter.getLsbD 0 = true ∧
      On (signalled R) d) (stable_at hP) hd₁ (by
    rintro d d' ⟨hindex, -, hd⟩ ⟨hacc, hnote⟩
    rw [Nic.access_rdDat, Nic.read_isr hindex] at hacc
    split_ifs at hacc with hv
    have hnic := (Option.some.inj hacc).symm
    refine ⟨hv.trans hd.1, ?_⟩
    unfold On
    rw [hnic, hnote]
    exact hd)
  obtain ⟨d₃, hd₃, h₃⟩ := trace_wrIdx hP h₂ hd₂
  refine ⟨hbit, ?_⟩
  obtain ⟨d₄, ⟨r, hd₄⟩, h₄⟩ := h₃.step (Q := fun d => ∃ r, On (records (R' r) r.words) d)
      (stable_at hP) hd₃ (by
    rintro d d' ⟨hindex, -, hprs, rest, hfifo, hrest⟩ ⟨hacc, hnote⟩
    have hnic : d'.nic = d.nic.write inter := (Option.some.inj hacc).symm
    obtain ⟨hclear, hsame⟩ := Nic.write_isr hindex hbit
    rw [hprs] at hrest
    cases rest with
    | nil => exact absurd hrest (hT.some _)
    | cons r rest =>
        refine ⟨r, rest, ?_, ?_⟩
        · rw [hnic, hsame, hfifo]
          rfl
        · rw [hnic, hclear, hnote]
          exact hT.first _ _ _ hrest)
  exact ⟨r, d₄, hd₄, h₄⟩

/-- **Reads of the data port** take the words in front, in order. -/
theorem trace_pops (hR : Kept A R) {a b : List (BitVec 16)} {vs : List (BitVec 32)}
    (hlen : vs.length = a.length) (h : Trace (device A) c (vs.map rdDat ++ tr) c')
    (hc : At MRCMD false (records R (a ++ b)) c) :
    vs = a.map (fun w => w.setWidth 32) ∧
      ∃ d, At MRCMD false (records R b) d ∧ Trace (device A) d tr c' := by
  induction a generalizing c vs with
  | nil =>
      obtain rfl := List.eq_nil_of_length_eq_zero hlen
      exact ⟨rfl, c, hc, h⟩
  | cons w a ih =>
      cases vs with
      | nil => exact absurd hlen (by simp)
      | cons v vs =>
          obtain ⟨d, ⟨hv, hd⟩, hrest⟩ := Trace.step (Q := fun d => v = w.setWidth 32 ∧
              At MRCMD false (records R (a ++ b)) d) h
              (stable_at (hR.records (w :: a ++ b))) hc (by
            rintro d d' ⟨hindex, hprimed, rest, hfifo, hrest⟩ ⟨hacc, hnote⟩
            rw [Nic.access_rdDat, Nic.read_mrcmd hindex hfifo] at hacc
            split_ifs at hacc with hv
            have hnic := (Option.some.inj hacc).symm
            unfold At On
            rw [hnic, hnote]
            exact ⟨hv, hindex, hprimed, rest, rfl, hrest⟩)
          obtain ⟨hvs, hdone⟩ := ih (Nat.succ.inj hlen) hrest hd
          exact ⟨by rw [hv, hvs]; rfl, hdone⟩

/-! ## §4  A reception -/

/-- The dummy read and the ready byte: there is a record. -/
theorem trace_ready (hR : Kept A R) {dummy ready : BitVec 32} {r : RxRecord}
    (h : Trace (device A) c (wrIdx MRCMDX :: rdDat dummy :: rdDat ready :: tr) c')
    (hc : On (records R r.words) c) :
    ready = r.statusWord.setWidth 32 ∧
      ∃ d, On (records R r.words) d ∧ Trace (device A) d tr c' := by
  have hP := hR.records r.words
  obtain ⟨d₁, hd₁, h₁⟩ := trace_wrIdx hP h hc
  obtain ⟨d₂, hd₂, h₂⟩ := h₁.step (Q := At MRCMDX true (records R r.words))
      (stable_at hP) hd₁ (by
    rintro d d' ⟨hindex, hprimed, hd⟩ ⟨hacc, hnote⟩
    rw [Nic.access_rdDat, Nic.read_mrcmdx hindex hprimed] at hacc
    have hnic := (Option.some.inj hacc).symm
    unfold At On
    rw [hnic, hnote]
    exact ⟨hindex, rfl, hd⟩)
  obtain ⟨d₃, ⟨hready, hd₃⟩, h₃⟩ := h₂.step
      (Q := fun d => ready = r.statusWord.setWidth 32 ∧ On (records R r.words) d)
      (stable_at hP) hd₂ (by
    rintro d d' ⟨hindex, hprimed, rest, hfifo, hrest⟩ ⟨hacc, hnote⟩
    rw [Nic.access_rdDat, Nic.read_mrcmdx_primed hindex hprimed (w := r.statusWord) hfifo] at hacc
    split_ifs at hacc with hv
    have hnic := (Option.some.inj hacc).symm
    unfold On
    rw [hnic, hnote]
    exact ⟨hv, rest, hfifo, hrest⟩)
  exact ⟨hready, d₃, hd₃, h₃⟩

/-- Up to the ready byte, the accesses of a reception are always the same. -/
def peekTrace (dummy ready : BitVec 32) : List BusAccess :=
  [wrIdx IMR, wrDat PAR_set, wrIdx MRCMDX, rdDat dummy, rdDat ready]

theorem trace_peek (hR : Kept A R) {dummy ready : BitVec 32} {r : RxRecord}
    (h : Trace (device A) c (peekTrace dummy ready ++ tr) c') (hc : On (records R r.words) c) :
    ready = r.statusWord.setWidth 32 ∧
      ∃ d, On (records R r.words) d ∧ Trace (device A) d tr c' := by
  have hP := hR.records r.words
  obtain ⟨d₁, hd₁, h₁⟩ := trace_wrIdx hP h hc
  obtain ⟨d₂, hd₂, h₂⟩ := trace_wrDat hP (by decide) (by decide) h₁ hd₁
  exact trace_ready hR h₂ hd₂

/-- **A reception takes the record in front**: the answers are its words. -/
theorem trace_reception (hR : Kept A R) {a : RxResponse} {r : RxRecord} (ha : a.Complete)
    (h : Trace (device A) c (a.trace ++ tr) c') (hc : On (records R r.words) c) :
    a = r.answers a.dummy ∧ ∃ d, On (records R []) d ∧ Trace (device A) d tr c' := by
  have hP := hR.records r.words
  have hhead : ∃ u, a.trace ++ tr = peekTrace a.dummy a.ready ++ u := by
    unfold RxResponse.trace
    exact ⟨_, List.append_assoc _ _ _⟩
  obtain ⟨u, hu⟩ := hhead
  rw [hu] at h
  obtain ⟨hready, d₃, hd₃, h₃⟩ := trace_peek hR h hc
  have hpacket : a.packetReady := by
    rw [RxResponse.packetReady, hready]
    exact r.ready_statusWord
  obtain rfl : u = wrIdx MRCMD :: ([a.status, a.len].map rdDat ++ (a.words.map rdDat ++ tr)) := by
    rw [RxResponse.trace_of_ready hpacket] at hu
    simpa [peekTrace] using hu.symm
  obtain ⟨d₄, hd₄, h₄⟩ := trace_wrIdx hP h₃ hd₃
  -- the header of the record, and with it the number of its data words
  obtain ⟨hheader, d₅, hd₅, h₅⟩ := trace_pops hR (a := [r.statusWord, r.lenWord])
    (b := r.dataWords) rfl h₄ hd₄
  obtain ⟨hstatus, hlen⟩ : a.status = r.statusWord.setWidth 32 ∧ a.len = r.lenWord.setWidth 32 := by
    simpa using hheader
  have hbytes : a.len.toNat = r.bytes.length := by
    rw [hlen, BitVec.toNat_setWidth, r.toNat_lenWord]
    exact Nat.mod_eq_of_lt (lt_trans r.fits (by decide))
  have hcount : a.words.length = r.dataWords.length := by
    rw [ha.trans (if_pos hpacket), hbytes, r.length_dataWords]
  obtain ⟨hwords, d₆, hd₆, h₆⟩ := trace_pops hR (b := []) hcount h₅ (by rwa [List.append_nil])
  refine ⟨?_, d₆, hd₆.2.2, h₆⟩
  obtain ⟨dummy, ready, status, len, words⟩ := a
  obtain rfl : ready = _ := hready
  obtain rfl : status = _ := hstatus
  obtain rfl : len = _ := hlen
  obtain rfl : words = _ := hwords
  rfl

/-! ## §5  Accesses that keep the receive side -/

/-- The access selects no register of the receive side. -/
def rxQuiet : BusAccess → Bool
  | .wr ⟨.dm9000a, 0⟩ w => w != ISR && w != NCR && w != MRCMD
  | _ => true

/-- The index port is at none of them. -/
def Quiet (n : Nic) : Prop := n.index ≠ ISR ∧ n.index ≠ NCR ∧ n.index ≠ MRCMD

theorem read_quiet {n n' : Nic} {v : BitVec 32} (hn : Quiet n) (h : n.read v = some n') :
    n'.prs = n.prs ∧ n'.rxFifo = n.rxFifo ∧ n'.index = n.index := by
  unfold Nic.read at h
  rw [if_neg hn.1, if_neg hn.2.2] at h
  repeat' split at h
  all_goals
    cases h
    try exact ⟨rfl, rfl, rfl⟩

theorem access_quiet {n n' : Nic} {x : BusAccess} (hx : rxQuiet x = true) (hn : Quiet n)
    (h : n.access x = some n') : n'.prs = n.prs ∧ n'.rxFifo = n.rxFifo ∧ Quiet n' := by
  match x with
  | .wr ⟨.dm9000a, 0⟩ w =>
      cases h
      obtain ⟨h₁, h₂⟩ := Bool.and_eq_true_iff.mp hx
      obtain ⟨hisr, hncr⟩ := Bool.and_eq_true_iff.mp h₁
      exact ⟨rfl, rfl, bne_iff_ne.mp hisr, bne_iff_ne.mp hncr, bne_iff_ne.mp h₂⟩
  | .wr ⟨.dm9000a, k + 1⟩ w =>
      cases h
      obtain ⟨hprs, hfifo, hindex⟩ := Nic.write_rx hn.1 hn.2.1 w
      exact ⟨hprs, hfifo, by unfold Quiet; rw [hindex]; exact hn⟩
  | .rd ⟨.dm9000a, 0⟩ _ =>
      cases h
      exact ⟨rfl, rfl, hn⟩
  | .rd ⟨.dm9000a, k + 1⟩ v =>
      obtain ⟨hprs, hfifo, hindex⟩ := read_quiet (v := v) hn h
      exact ⟨hprs, hfifo, by unfold Quiet; rw [hindex]; exact hn⟩
  | .rd ⟨.cncModule0, _⟩ _ | .rd ⟨.ledGreen, _⟩ _ | .wr ⟨.cncModule0, _⟩ _
  | .wr ⟨.ledGreen, _⟩ _ =>
      cases h
      exact ⟨rfl, rfl, hn⟩

/-- After a write of the index port, quiet accesses keep the receive side. -/
theorem trace_quiet (hP : RxStable A P) (h : Trace (device A) c (wrIdx IMR :: tr) c')
    (hc : On P c) (hquiet : ∀ x ∈ tr, rxQuiet x = true) : On P c' := by
  obtain ⟨d, ⟨hindex, -, hd⟩, hrest⟩ := trace_wrIdx hP h hc
  have hstable : Stable (device A) fun c => Quiet c.nic ∧ On P c := by
    rintro c _ ⟨hq, hc⟩ hmove
    obtain ⟨r, -, rfl⟩ := id hmove
    exact ⟨hq, stable_on hP c _ hc hmove⟩
  have hstart : Quiet d.nic := by
    unfold Quiet
    rw [hindex]
    decide
  refine (hrest.keeps hstable ⟨hstart, hd⟩ ?_).2
  rintro x hx d d' ⟨hq, hd⟩ ⟨hacc, hnote⟩
  obtain ⟨hprs, hfifo, hq'⟩ := access_quiet (hquiet x hx) hq hacc
  refine ⟨hq', ?_⟩
  unfold On
  rw [hnote, hprs, hfifo]
  exact hd

/-- Accesses of other peripherals keep the receive side. -/
theorem trace_not_nic (hP : RxStable A P) (h : Trace (device A) c tr c') (hc : On P c)
    (hother : ∀ x ∈ tr, ¬ nicAccess x) : On P c' := by
  refine h.keeps (stable_on hP) hc ?_
  rintro x hx d d' hd ⟨hacc, hnote⟩
  rw [Nic.access_of_not_nic _ (hother x hx)] at hacc
  unfold On
  rw [hnote, ← Option.some.inj hacc]
  exact hd

theorem rxQuiet_txTrace (b : Buffer) (len : BitVec 32) (vs : List (BitVec 32)) :
    ∀ x ∈ txTrace b len vs, rxQuiet x = true := by
  have hwrites : ∀ ws : List (BitVec 32 × BitVec 32),
      (ws.all fun w => w.1 != ISR && w.1 != NCR && w.1 != MRCMD) = true →
      ∀ x ∈ writeTrace (iowWrites ws), rxQuiet x = true := by
    intro ws hws x hx
    obtain ⟨y, hy, rfl⟩ := List.mem_map.mp hx
    obtain ⟨w, hw, hy'⟩ := List.mem_flatMap.mp hy
    simp only [List.mem_cons, List.not_mem_nil, or_false] at hy'
    rcases hy' with rfl | rfl
    · exact List.all_eq_true.mp hws w hw
    · rfl
  intro x hx
  unfold txTrace at hx
  simp only [List.mem_append, List.mem_cons] at hx
  rcases hx with (((hx | (rfl | hx)) | hx) | hx) | hx
  · exact hwrites _ rfl x hx
  · rfl
  · obtain ⟨w, -, rfl⟩ := List.mem_map.mp hx
    rfl
  · exact hwrites _ rfl x hx
  · obtain ⟨v, -, hx'⟩ := List.mem_flatMap.mp hx
    simp only [List.mem_cons, List.not_mem_nil, or_false] at hx'
    rcases hx' with rfl | rfl <;> rfl
  · exact hwrites _ rfl x hx

/-- A transmission, and accesses of other peripherals behind it, keep the
receive side. -/
theorem trace_txTrace (hP : RxStable A P) {b : Buffer} {len : BitVec 32} {vs : List (BitVec 32)}
    (hother : ∀ x ∈ tr, ¬ nicAccess x) (h : Trace (device A) c (txTrace b len vs ++ tr) c')
    (hc : On P c) : On P c' := by
  obtain ⟨d, hsend, hrest⟩ := h.split
  refine trace_not_nic hP hrest (trace_quiet hP hsend hc fun x hx => ?_) hother
  exact rxQuiet_txTrace b len vs x (List.mem_cons_of_mem _ hx)

/-- The transmit side sees the accesses and nothing else. -/
theorem trace_tx (h : Trace (device A) c tr c') : c'.nic.tx = c.nic.tx.run tr := by
  induction h with
  | nil c => rfl
  | env hmove _ ih =>
      obtain ⟨r, -, rfl⟩ := hmove
      exact ih
  | access hx _ ih => rw [ih, Nic.tx_access hx.1, Tx.run_cons]

/-! ## §6  One run of the handler -/

/-- Once the frame is out of the chip, the handler leaves the receive side
alone. -/
theorem rx_of_afterReceive (hP : RxStable A P) {g g' : Globals}
    (h : Completes (afterReceive g) tr g') (htrace : Trace (device A) c tr c') (hc : On P c) :
    On P c' := by
  unfold afterReceive at h
  split_ifs at h with hcmd
  · obtain ⟨v, vs, u, -, -, rfl, rfl⟩ := (completes_answerCommand hcmd).mp h
    obtain ⟨d, hreads, hrest⟩ := htrace.split
    refine trace_txTrace hP (fun x hx => Tx.not_nic_of_regTrace hx) hrest
      (trace_not_nic hP hreads hc fun x hx => ?_)
    obtain ⟨k, -, rfl⟩ := List.mem_map.mp hx
    exact not_nic_of_cnc rfl
  · obtain ⟨vs, u, -, -, rfl, rfl⟩ := completes_rejectFrame.mp h
    exact trace_txTrace hP (List.forall_mem_nil _) (by rwa [List.append_nil]) hc

/-- **One run of the handler takes out one record**: what it goes on with is
what `ReceivePacket` makes of this record. -/
theorem handler_takes (hR : Kept A R) (hT : Takes R R') (hR' : ∀ r, Kept A (R' r))
    {g g' : Globals} (h : Completes (ethernetInterrupts g) tr g')
    (htrace : Trace (device A) c tr c') (hc : On (signalled R) c) :
    ∃ r inter a t, RxResponse.Complete a ∧ tr = isrTrace inter ++ (a.trace ++ t) ∧
      Completes (afterReceive (g.received ((r.answers 0).result g.rxt))) t g' ∧
      On (records (R' r) []) c' := by
  obtain ⟨inter, ⟨hprs, rfl, -⟩ | ⟨-, a, ha, t, rfl, hrest⟩⟩ := completes_ethernetInterrupts.mp h
  · -- the bit was set when it was read
    rw [← List.append_nil (isrTrace inter)] at htrace
    obtain ⟨hbit, -⟩ := trace_ack hR hT htrace hc
    refine absurd ?_ hprs
    apply BitVec.eq_of_getLsbD_eq
    intro j hj
    cases j with
    | zero => simpa using hbit
    | succ j => simp
  · obtain ⟨-, r, d, hd, h₁⟩ := trace_ack hR hT htrace hc
    obtain ⟨hanswers, d', hd', h₂⟩ := trace_reception (hR' r) ha h₁ hd
    have hresult : a.result g.rxt = (r.answers 0).result g.rxt := by
      rw [hanswers]
      rfl
    rw [hresult] at hrest
    exact ⟨r, inter, a, t, ha, rfl, hrest, rx_of_afterReceive ((hR' r).records []) hrest h₂ hd'⟩

end Rx

end FpgaCnc.RxSide
