import FpgaCnc.Firmware.HelloLed

/-!
# The DM9000A behind its two ports

The network chip as far as the driver relies on it: the index port selects a
register, `ISR` bit 0 (`PRS`) is set by an arriving frame and cleared by
writing a one to it, `MRCMDX` shows the head of the receive FIFO after a dummy
read, `MRCMD` takes it out word by word, `MWCMD` collects transmit data, and
`TCR` bit 0 sends as many of its bytes as the length registers say. What the
driver leaves open (dummy bytes, status registers, reads from an empty FIFO) is
left open here.

§1 received frames · §2 the transmit side · §3 the chip · §4 what the
transmit side sends · §5 the handler and the transmit side.
-/

namespace FpgaCnc

open IoProg Dm9000a

/-! ## §1  Received frames -/

/-- A frame as the chip records it, with its length field. -/
structure RxRecord where
  status : BitVec 8
  bytes : List (BitVec 8)
  fits : bytes.length < 2 ^ 16

namespace RxRecord

/-- The data words of a record, low byte first. -/
def dataWords (r : RxRecord) : List (BitVec 16) :=
  (List.range ((r.bytes.length + 1) / 2)).map fun k =>
    (r.bytes.getD (2 * k + 1) 0).setWidth 16 <<< 8 ||| (r.bytes.getD (2 * k) 0).setWidth 16

def lenWord (r : RxRecord) : BitVec 16 := BitVec.ofNat 16 r.bytes.length

/-- The ready byte is 1. -/
def statusWord (r : RxRecord) : BitVec 16 := r.status.setWidth 16 <<< 8 ||| 1

/-- The words of a record in the FIFO. -/
def words (r : RxRecord) : List (BitVec 16) :=
  r.statusWord :: r.lenWord :: r.dataWords

theorem words_ne_nil (r : RxRecord) : r.words ≠ [] := List.cons_ne_nil _ _

theorem flatMap_words_eq_nil {recs : List RxRecord} : recs.flatMap words = [] ↔ recs = [] := by
  cases recs with
  | nil => simp
  | cons r recs => simp [words_ne_nil]

@[simp] theorem length_dataWords (r : RxRecord) :
    r.dataWords.length = (r.bytes.length + 1) / 2 := by
  simp [dataWords]

theorem toNat_lenWord (r : RxRecord) : r.lenWord.toNat = r.bytes.length := by
  rw [lenWord, BitVec.toNat_ofNat, Nat.mod_eq_of_lt r.fits]

/-- What the driver sees of the ready byte. -/
theorem ready_statusWord (r : RxRecord) :
    r.statusWord.setWidth 32 &&& 0x03 = DM9000_PKT_READY := by
  apply BitVec.eq_of_getLsbD_eq
  intro j hj
  interval_cases j <;> simp [statusWord, DM9000_PKT_READY]

/-- What the driver reads of a record, after a dummy. -/
def answers (r : RxRecord) (dummy : BitVec 32) : RxResponse where
  dummy := dummy
  ready := r.statusWord.setWidth 32
  status := r.statusWord.setWidth 32
  len := r.lenWord.setWidth 32
  words := r.dataWords.map fun w => w.setWidth 32

theorem complete_answers (r : RxRecord) (dummy : BitVec 32) : (r.answers dummy).Complete := by
  have hlen : (r.lenWord.setWidth 32).toNat = r.bytes.length := by
    rw [BitVec.toNat_setWidth, r.toNat_lenWord, Nat.mod_eq_of_lt (lt_trans r.fits (by decide))]
  unfold RxResponse.Complete
  rw [if_pos (show (r.answers dummy).packetReady from r.ready_statusWord)]
  show (r.dataWords.map _).length = ((r.lenWord.setWidth 32).toNat + 1) / 2
  rw [List.length_map, length_dataWords, hlen]

end RxRecord

/-! ## §2  The transmit side -/

structure Tx where
  index : BitVec 32
  data : List (BitVec 16)
  lenLow : BitVec 8
  lenHigh : BitVec 8
  sent : List (List (BitVec 8))
deriving DecidableEq, Repr

namespace Tx

/-- The bytes of transmit data, low byte first. -/
def bytes (ws : List (BitVec 16)) : List (BitVec 8) :=
  ws.flatMap fun (w : BitVec 16) => [w.setWidth 8, (w >>> 8).setWidth 8]

/-- The frame that a transmit request sends. -/
def frame (t : Tx) : List (BitVec 8) := (bytes t.data).take (t.lenHigh ++ t.lenLow).toNat

/-- A write to the data port. -/
def write (t : Tx) (w : BitVec 32) : Tx :=
  if t.index = MWCMD then { t with data := t.data ++ [w.setWidth 16] }
  else if t.index = 0xFC then { t with lenLow := w.setWidth 8 }
  else if t.index = 0xFD then { t with lenHigh := w.setWidth 8 }
  else if t.index = TCR then
    if w.getLsbD 0 then { t with sent := t.sent ++ [t.frame], data := [] } else t
  else if t.index = NCR then if w.getLsbD 0 then { t with data := [] } else t
  else t

/-- An access of the Nios. -/
def access (t : Tx) : BusAccess → Tx
  | .wr ⟨.dm9000a, 0⟩ w => { t with index := w }
  | .wr ⟨.dm9000a, _ + 1⟩ w => t.write w
  | _ => t

def run (t : Tx) (tr : List BusAccess) : Tx := tr.foldl access t

@[simp] theorem run_nil (t : Tx) : t.run [] = t := rfl
@[simp] theorem run_cons (t : Tx) (x : BusAccess) (tr : List BusAccess) :
    t.run (x :: tr) = (t.access x).run tr := rfl

theorem run_append (t : Tx) (t₁ t₂ : List BusAccess) :
    t.run (t₁ ++ t₂) = (t.run t₁).run t₂ := List.foldl_append

theorem index_write (t : Tx) (w : BitVec 32) : (t.write w).index = t.index := by
  unfold write
  split_ifs <;> rfl

end Tx

/-! ## §3  The chip -/

structure Nic where
  tx : Tx
  prs : Bool
  imr : BitVec 32
  rxFifo : List (BitVec 16)
  /-- The dummy read of `MRCMDX` has been made. -/
  primed : Bool
deriving DecidableEq, Repr

namespace Nic

/-- The chip after `DM9000_init`: receive interrupts on, nothing received. -/
def idle : Nic where
  tx := ⟨0, [], 0, 0, []⟩
  prs := false
  imr := INTR_set
  rxFifo := []
  primed := false

/-- The register the index port selects. -/
def index (n : Nic) : BitVec 32 := n.tx.index

/-- A write to the data port. -/
def write (n : Nic) (w : BitVec 32) : Nic :=
  -- the status bits are cleared by writing ones
  if n.index = ISR then { n with tx := n.tx.write w, prs := n.prs && !w.getLsbD 0 }
  else if n.index = IMR then { n with tx := n.tx.write w, imr := w }
  else if n.index = NCR ∧ w.getLsbD 0 = true then
    { n with tx := n.tx.write w, prs := false, imr := 0, rxFifo := [] }
  else { n with tx := n.tx.write w }

/-- A read of the data port that returns `v`, if the chip can return it. -/
def read (n : Nic) (v : BitVec 32) : Option Nic :=
  if n.index = ISR then if v.getLsbD 0 = n.prs then some n else none
  else if n.index = MRCMDX then
    -- the first read returns anything, the later ones the head of the FIFO
    if n.primed then
      match n.rxFifo with
      | [] => if v &&& 0x03 = 0 then some n else none
      | w :: _ => if v = w.setWidth 32 then some n else none
    else some { n with primed := true }
  else if n.index = MRCMD then
    match n.rxFifo with
    | [] => some n
    | w :: ws => if v = w.setWidth 32 then some { n with rxFifo := ws } else none
  else some n

/-- An access of the Nios, with the value it reads or writes. -/
def access (n : Nic) : BusAccess → Option Nic
  | .wr ⟨.dm9000a, 0⟩ w => some { n with tx := { n.tx with index := w }, primed := false }
  | .wr ⟨.dm9000a, _ + 1⟩ w => some (n.write w)
  | .rd ⟨.dm9000a, 0⟩ _ => some n
  | .rd ⟨.dm9000a, _ + 1⟩ v => n.read v
  | _ => some n

/-- A frame arrives. -/
def arrive (n : Nic) (r : RxRecord) : Nic :=
  { n with rxFifo := n.rxFifo ++ r.words, prs := true }

/-- The interrupt line. -/
def irq (n : Nic) : Bool := n.prs && n.imr.getLsbD 0

/-- The accesses of a run, with frames arriving anywhere in between. -/
inductive Takes : Nic → List BusAccess → Nic → Prop where
  | nil (n : Nic) : Takes n [] n
  | arrive {n n' : Nic} {tr : List BusAccess} (r : RxRecord) :
      Takes (n.arrive r) tr n' → Takes n tr n'
  | access {n n₁ n' : Nic} {x : BusAccess} {tr : List BusAccess} :
      n.access x = some n₁ → Takes n₁ tr n' → Takes n (x :: tr) n'

/-- The chip after a list of accesses, if it can answer them so. -/
def run : Nic → List BusAccess → Option Nic
  | n, [] => some n
  | n, x :: tr => (n.access x).bind fun n' => n'.run tr

theorem access_rdDat (n : Nic) (v : BitVec 32) : n.access (rdDat v) = n.read v := rfl

theorem access_of_not_nic (n : Nic) {x : BusAccess} (h : ¬ nicAccess x) :
    n.access x = some n := by
  match x with
  | .rd ⟨.dm9000a, _⟩ _ => exact absurd rfl h
  | .wr ⟨.dm9000a, _⟩ _ => exact absurd rfl h
  | .rd ⟨.cncModule0, _⟩ _ | .rd ⟨.ledGreen, _⟩ _ => rfl
  | .wr ⟨.cncModule0, _⟩ _ | .wr ⟨.ledGreen, _⟩ _ => rfl

/-- Only `ISR` and `NCR` reach the receive side. -/
theorem write_rx {n : Nic} (hisr : n.index ≠ ISR) (hncr : n.index ≠ NCR) (w : BitVec 32) :
    (n.write w).prs = n.prs ∧ (n.write w).rxFifo = n.rxFifo ∧
      (n.write w).index = n.index := by
  have hidx := Tx.index_write n.tx w
  unfold write
  rw [if_neg hisr, if_neg (fun h : n.index = NCR ∧ w.getLsbD 0 = true => hncr h.1)]
  split_ifs <;> exact ⟨rfl, rfl, hidx⟩

/-- Writing the one back clears `PRS` and does no more. -/
theorem write_isr {n : Nic} (h : n.index = ISR) {w : BitVec 32} (hw : w.getLsbD 0 = true) :
    (n.write w).prs = false ∧ (n.write w).rxFifo = n.rxFifo := by
  rw [write, if_pos h, hw, Bool.not_true, Bool.and_false]
  exact ⟨rfl, rfl⟩

theorem read_isr {n : Nic} (h : n.index = ISR) (v : BitVec 32) :
    n.read v = if v.getLsbD 0 = n.prs then some n else none := by
  rw [read, if_pos h]

theorem read_mrcmdx {n : Nic} (h : n.index = MRCMDX) (hp : n.primed = false) (v : BitVec 32) :
    n.read v = some { n with primed := true } := by
  rw [read, if_neg (h ▸ by decide), if_pos h, hp]
  rfl

theorem read_mrcmdx_primed {n : Nic} (h : n.index = MRCMDX) (hp : n.primed = true)
    {w : BitVec 16} {ws : List (BitVec 16)} (hfifo : n.rxFifo = w :: ws) (v : BitVec 32) :
    n.read v = if v = w.setWidth 32 then some n else none := by
  rw [read, if_neg (h ▸ by decide), if_pos h, if_pos hp, hfifo]

theorem read_mrcmd {n : Nic} (h : n.index = MRCMD) {w : BitVec 16} {ws : List (BitVec 16)}
    (hfifo : n.rxFifo = w :: ws) (v : BitVec 32) :
    n.read v = if v = w.setWidth 32 then some { n with rxFifo := ws } else none := by
  rw [read, if_neg (h ▸ by decide), if_neg (h ▸ by decide), if_pos h, hfifo]

/-- Reads leave the transmit side and the interrupt mask alone. -/
theorem tx_imr_read {n n' : Nic} {v : BitVec 32} (h : n.read v = some n') :
    n'.tx = n.tx ∧ n'.imr = n.imr := by
  unfold read at h
  repeat' split at h
  all_goals
    cases h
    try exact ⟨rfl, rfl⟩

theorem tx_write (n : Nic) (w : BitVec 32) : (n.write w).tx = n.tx.write w := by
  unfold write
  split_ifs <;> rfl

/-- The transmit side sees the accesses and nothing else. -/
theorem tx_access {n n' : Nic} {x : BusAccess} (h : n.access x = some n') :
    n'.tx = n.tx.access x := by
  match x with
  | .wr ⟨.dm9000a, 0⟩ w =>
      cases h
      rfl
  | .wr ⟨.dm9000a, k + 1⟩ w =>
      cases h
      exact tx_write n w
  | .rd ⟨.dm9000a, 0⟩ _ =>
      cases h
      rfl
  | .rd ⟨.dm9000a, k + 1⟩ v => exact (tx_imr_read (v := v) h).1
  | .rd ⟨.cncModule0, _⟩ _ | .rd ⟨.ledGreen, _⟩ _ | .wr ⟨.cncModule0, _⟩ _
  | .wr ⟨.ledGreen, _⟩ _ =>
      cases h
      rfl

theorem Takes.of_run {n n' : Nic} {tr : List BusAccess} (h : n.run tr = some n') :
    Takes n tr n' := by
  induction tr generalizing n with
  | nil =>
      cases h
      exact .nil _
  | cons x tr ih =>
      obtain ⟨n₁, hacc, hrest⟩ := Option.bind_eq_some_iff.mp h
      exact .access hacc (ih hrest)

/-- **Program and chip together**: what one access leads to, a whole run leads
to. -/
theorem along {α : Type} {R : Fw α → Nic → List BusAccess → Prop}
    (hstep : ∀ {p p' : Fw α} {x : BusAccess} {n n' : Nic} {t : List BusAccess}, R p n t →
      IoProg.step p x = some p' → n.access x = some n' → R p' n' (t ++ [x]))
    {p q : Fw α} {n n' : Nic} {t tr : List BusAccess} (h : R p n t)
    (hexec : IoProg.exec p tr = some q) (hrun : n.run tr = some n') : R q n' (t ++ tr) := by
  induction tr generalizing p n t with
  | nil =>
      cases hexec
      cases hrun
      rwa [List.append_nil]
  | cons x tr ih =>
      obtain ⟨p', hs, hexec'⟩ := Option.bind_eq_some_iff.mp hexec
      obtain ⟨n₁, hacc, hrun'⟩ := Option.bind_eq_some_iff.mp hrun
      have hrest := ih (hstep h hs hacc) hexec' hrun'
      rwa [List.append_assoc] at hrest

theorem Takes.tx {n n' : Nic} {tr : List BusAccess} (h : Takes n tr n') :
    n'.tx = n.tx.run tr := by
  induction h with
  | nil n => rfl
  | arrive r _ ih => exact ih
  | access hacc _ ih => rw [ih, tx_access hacc, Tx.run_cons]

end Nic

/-! ## §4  What the transmit side sends -/

namespace Tx

theorem run_map_wrDat {t : Tx} (h : t.index = MWCMD) (ws : List (BitVec 32)) :
    t.run (ws.map wrDat) = { t with data := t.data ++ ws.map fun w => w.setWidth 16 } := by
  induction ws generalizing t with
  | nil => rw [List.map_nil, List.map_nil, List.append_nil, run_nil]
  | cons w ws ih =>
      have hwrite : t.write w = { t with data := t.data ++ [w.setWidth 16] } := by
        rw [write, if_pos h]
      show (t.write w).run (ws.map wrDat) = _
      rw [hwrite, ih (by exact h)]
      simp

theorem run_pollTrace (t : Tx) (vs : List (BitVec 32)) (v : BitVec 32) :
    t.run (pollTrace ⟨.dm9000a, IO_addr⟩ NSR ⟨.dm9000a, IO_data⟩ (vs ++ [v])) =
      { t with index := NSR } := by
  induction vs generalizing t with
  | nil => rfl
  | cons u vs ih =>
      show ({ t with index := NSR } : Tx).run
        (pollTrace ⟨.dm9000a, IO_addr⟩ NSR ⟨.dm9000a, IO_data⟩ (vs ++ [v])) = _
      rw [ih]

/-- The bytes of the words the transmit loop writes. -/
theorem bytes_txWords (b : Buffer) (m i : ℕ) :
    bytes ((txWords b m i).map fun w => w.setWidth 16) =
      (List.range (2 * m)).map fun k => b.byte (i + k) := by
  induction m generalizing i with
  | zero => rfl
  | succ m ih =>
      have hlow : ∀ x y : BitVec 8,
          ((x.setWidth 32 <<< 8 ||| y.setWidth 32).setWidth 16).setWidth 8 = y := by
        intro x y
        ext k hk
        interval_cases k <;> simp
      have hhigh : ∀ x y : BitVec 8,
          (((x.setWidth 32 <<< 8 ||| y.setWidth 32).setWidth 16) >>> 8).setWidth 8 = x := by
        intro x y
        ext k hk
        interval_cases k <;> simp
      have hrest := ih (i + 2)
      unfold bytes at hrest ⊢
      rw [txWords, List.map_cons, List.flatMap_cons, hrest, hlow, hhigh, Nat.mul_succ,
        Nat.add_comm (2 * m) 2, List.range_add, List.map_append, List.map_map]
      simp [Nat.add_assoc]
      rfl

/-- The length the two length registers are given. -/
theorem lenHigh_append_lenLow {len : BitVec 32} (hlen : len.toNat < 2 ^ 16) :
    (((len >>> 8) &&& 0xFF).setWidth 8 ++ (len &&& 0xFF).setWidth 8).toNat = len.toNat := by
  have hword : (((len >>> 8) &&& 0xFF).setWidth 8 ++ (len &&& 0xFF).setWidth 8 : BitVec 16) =
      len.setWidth 16 := by
    apply BitVec.eq_of_getLsbD_eq
    intro k hk
    rw [BitVec.getLsbD_append, setWidth_and_ff, setWidth_and_ff]
    interval_cases k <;> simp
  calc _ = (len.setWidth 16).toNat := congrArg BitVec.toNat hword
    _ = len.toNat := by rw [BitVec.toNat_setWidth, Nat.mod_eq_of_lt hlen]

/-- **A transmission sends the buffer.** -/
theorem run_txTrace {t : Tx} (h : t.data = []) (b : Buffer) {len : BitVec 32}
    (hlen : len.toNat < 2 ^ 16) (vs : List (BitVec 32)) (v : BitVec 32) :
    (t.run (txTrace b len (vs ++ [v]))).data = [] ∧
      (t.run (txTrace b len (vs ++ [v]))).sent =
        t.sent ++ [(List.range len.toNat).map b.byte] := by
  -- the registers before the data, and the state the request finds
  obtain ⟨t₁, ht₁⟩ : ∃ t₁ : Tx, t₁ = { t with
      index := MWCMD
      lenHigh := ((len >>> 8) &&& 0xFF).setWidth 8
      lenLow := (len &&& 0xFF).setWidth 8 } := ⟨_, rfl⟩
  have hsetup : t.run (writeTrace (iowWrites [(IMR, PAR_set), (0xFD, (len >>> 8) &&& 0xFF),
      (0xFC, len &&& 0xFF)]) ++ [wrIdx MWCMD]) = t₁ := by
    rw [ht₁]
    rfl
  have hdata := run_map_wrDat (t := t₁) (by rw [ht₁]) (txWords b ((len.toNat + 1) / 2) 0)
  obtain ⟨t₂, ht₂⟩ : ∃ t₂ : Tx, t₂ = { t₁ with
      data := t₁.data ++ (txWords b ((len.toNat + 1) / 2) 0).map fun w => w.setWidth 16 } :=
    ⟨_, rfl⟩
  have hframe : t₂.frame = (List.range len.toNat).map b.byte := by
    rw [frame, ht₂, ht₁]
    dsimp only
    rw [h, List.nil_append, bytes_txWords, lenHigh_append_lenLow hlen, ← List.map_take,
      List.take_range, Nat.min_eq_left (by omega)]
    simp
  have hrequest : t₂.run (writeTrace (iowWrites [(TCR, TX_REQUEST)])) =
      { t₂ with index := TCR, sent := t₂.sent ++ [t₂.frame], data := [] } := rfl
  have hsent : t₂.sent = t.sent := by rw [ht₂, ht₁]
  have htrace : txTrace b len (vs ++ [v]) =
      (writeTrace (iowWrites [(IMR, PAR_set), (0xFD, (len >>> 8) &&& 0xFF),
        (0xFC, len &&& 0xFF)]) ++ [wrIdx MWCMD]) ++
      ((txWords b ((len.toNat + 1) / 2) 0).map wrDat ++
      (writeTrace (iowWrites [(TCR, TX_REQUEST)]) ++
      (pollTrace ⟨.dm9000a, IO_addr⟩ NSR ⟨.dm9000a, IO_data⟩ (vs ++ [v]) ++
      writeTrace (iowWrites [(NSR, 0x00), (IMR, INTR_set)])))) := by
    simp [txTrace]
  rw [htrace, run_append, hsetup, run_append, hdata, ← ht₂, run_append, hrequest, run_append,
    run_pollTrace]
  refine ⟨rfl, ?_⟩
  show t₂.sent ++ [t₂.frame] = _
  rw [hframe, hsent]

/-! ## §5  The handler and the transmit side -/

/-- The access selects no register that collects or sends data. -/
def quiet : BusAccess → Bool
  | .wr ⟨.dm9000a, 0⟩ w => w != MWCMD && w != TCR
  | _ => true

theorem run_quiet {tr : List BusAccess} (h : ∀ x ∈ tr, quiet x = true) {t : Tx}
    (hdata : t.data = []) (hmwcmd : t.index ≠ MWCMD) (htcr : t.index ≠ TCR) :
    (t.run tr).data = [] ∧ (t.run tr).sent = t.sent := by
  induction tr generalizing t with
  | nil => exact ⟨hdata, rfl⟩
  | cons x tr ih =>
      have hx := h x List.mem_cons_self
      have hrest := fun y hy => h y (List.mem_cons_of_mem x hy)
      rw [run_cons]
      match x with
      | .wr ⟨.dm9000a, 0⟩ w =>
          obtain ⟨h₁, h₂⟩ := Bool.and_eq_true_iff.mp hx
          exact ih (t := { t with index := w }) hrest hdata (bne_iff_ne.mp h₁) (bne_iff_ne.mp h₂)
      | .wr ⟨.dm9000a, k + 1⟩ w =>
          have hwrite : (t.write w).data = [] ∧ (t.write w).sent = t.sent := by
            unfold write
            rw [if_neg hmwcmd, if_neg htcr]
            split_ifs <;> exact ⟨by first | exact hdata | rfl, rfl⟩
          have hidx := index_write t w
          obtain ⟨hd, hs⟩ := ih (t := t.write w) hrest hwrite.1 (hidx ▸ hmwcmd) (hidx ▸ htcr)
          exact ⟨hd, hs.trans hwrite.2⟩
      | .rd _ _ | .wr ⟨.cncModule0, _⟩ _ | .wr ⟨.ledGreen, _⟩ _ =>
          exact ih hrest hdata hmwcmd htcr

theorem quiet_trace (r : RxResponse) : ∀ x ∈ r.trace, quiet x = true := by
  have hreset : ∀ x ∈ resetTrace, quiet x = true := by decide
  intro x hx
  unfold RxResponse.trace at hx
  rcases List.mem_append.mp hx with hx' | hx'
  · simp only [List.mem_cons, List.not_mem_nil, or_false] at hx'
    rcases hx' with rfl | rfl | rfl | rfl | rfl <;> rfl
  · split_ifs at hx'
    · rcases List.mem_append.mp hx' with hx'' | hx''
      · simp only [List.mem_cons, List.not_mem_nil, or_false] at hx''
        rcases hx'' with rfl | rfl | rfl <;> rfl
      · obtain ⟨w, -, rfl⟩ := List.mem_map.mp hx''
        rfl
    · exact hreset x hx'
    · exact absurd hx' (by simp)

theorem quiet_isr (inter : BitVec 32) :
    ∀ x ∈ [rdDat inter, wrIdx ISR, wrDat inter], quiet x = true := by
  intro x hx
  simp only [List.mem_cons, List.not_mem_nil, or_false] at hx
  rcases hx with rfl | rfl | rfl <;> rfl

/-- The acknowledgement, and what quiet accesses follow it, send nothing. -/
theorem run_isrTrace {t : Tx} (hdata : t.data = []) (inter : BitVec 32) {tr : List BusAccess}
    (h : ∀ x ∈ tr, quiet x = true) :
    (t.run (HelloLed.isrTrace inter ++ tr)).data = [] ∧
      (t.run (HelloLed.isrTrace inter ++ tr)).sent = t.sent := by
  have hquiet : ∀ x ∈ [rdDat inter, wrIdx ISR, wrDat inter] ++ tr, quiet x = true := by
    intro x hx
    rcases List.mem_append.mp hx with hx' | hx'
    · exact quiet_isr inter x hx'
    · exact h x hx'
  exact run_quiet (t := { t with index := ISR }) hquiet hdata (show ISR ≠ MWCMD by decide)
    (show ISR ≠ TCR by decide)

/-- A reception sends nothing. -/
theorem run_reception {t : Tx} (hdata : t.data = []) (inter : BitVec 32) (r : RxResponse) :
    (t.run (HelloLed.isrTrace inter ++ r.trace)).data = [] ∧
      (t.run (HelloLed.isrTrace inter ++ r.trace)).sent = t.sent :=
  run_isrTrace hdata inter (quiet_trace r)

theorem run_of_not_nic {t : Tx} {tr : List BusAccess} (h : ∀ x ∈ tr, ¬ nicAccess x) :
    t.run tr = t := by
  induction tr with
  | nil => rfl
  | cons x tr ih =>
      have hx := h x List.mem_cons_self
      have haccess : t.access x = t := by
        match x with
        | .rd _ _ => rfl
        | .wr ⟨.dm9000a, _⟩ _ => exact absurd rfl hx
        | .wr ⟨.cncModule0, _⟩ _ | .wr ⟨.ledGreen, _⟩ _ => rfl
      rw [run_cons, haccess]
      exact ih fun y hy => h y (List.mem_cons_of_mem _ hy)

/-- What follows the reply of a command does not touch the NIC. -/
theorem not_nic_of_regTrace {rxt : Buffer} {u : BitVec 32} {x : BusAccess}
    (hx : x ∈ HelloLed.regTrace rxt ++ [.wr ⟨.ledGreen, 0⟩ u]) : ¬ nicAccess x := by
  rcases List.mem_append.mp hx with hx' | hx'
  · obtain ⟨y, -, rfl⟩ := List.mem_map.mp hx'
    exact not_nic_of_cnc rfl
  · rw [List.mem_singleton.mp hx']
    exact not_nic_of_led rfl

/-- **An accepted command sends the 46 bytes of its reply.** -/
theorem run_commandTrace {t : Tx} (hdata : t.data = []) (g : HelloLed.Globals)
    (v : ℕ → BitVec 32) (vs : List (BitVec 32)) (u : BitVec 32) :
    (t.run (HelloLed.commandTrace g v (vs ++ [u]))).data = [] ∧
      (t.run (HelloLed.commandTrace g v (vs ++ [u]))).sent =
        t.sent ++ [(List.range 46).map (HelloLed.replyTxt g v).byte] := by
  have hreads : t.run (HelloLed.readsTrace v) = t := run_of_not_nic fun x hx => by
    obtain ⟨k, -, rfl⟩ := List.mem_map.mp hx
    exact not_nic_of_cnc rfl
  have hwrites : ∀ t' : Tx, t'.run (HelloLed.regTrace g.rxt ++
      [.wr ⟨.ledGreen, 0⟩ (((g.packetNum + 1) >>> 7) &&& 1)]) = t' :=
    fun t' => run_of_not_nic fun x hx => not_nic_of_regTrace hx
  rw [HelloLed.commandTrace, run_append, hreads, run_append, hwrites]
  exact run_txTrace hdata (HelloLed.replyTxt g v) (show (46#32).toNat < 2 ^ 16 by decide) vs u

end Tx

end FpgaCnc
