import FpgaCnc.Firmware.Nic

/-!
# `ReceivePacket` and the receive FIFO

The FIFO is a list of records: a word with the ready byte and the status, a
length word and the data words that the length asks for. The copy loop and the
discard loop of `ReceivePacket` must both take the data words of exactly one
record, for every length, or every later packet is read askew.

§1 records · §2 reading the FIFO · §3 one call · §4 alignment.
-/

namespace FpgaCnc

open IoProg Dm9000a

/-! ## §1  Records -/

/-- A record as the words of the FIFO, with as many data words as its length
asks for. -/
structure FifoRecord where
  statusWord : BitVec 16
  lenWord : BitVec 16
  data : List (BitVec 16)
  complete : data.length = (lenWord.toNat + 1) / 2

namespace FifoRecord

def words (r : FifoRecord) : List (BitVec 16) := r.statusWord :: r.lenWord :: r.data

/-- Byte `j` of the data, low byte of a word first. -/
def byte (r : FifoRecord) (j : ℕ) : BitVec 8 := (r.data.getD (j / 2) 0 >>> (8 * (j % 2))).setWidth 8

/-- No error bit in the status, and a length that fits. -/
def Good (r : FifoRecord) : Prop := r.statusWord &&& 0xBF00 = 0 ∧ r.lenWord.toNat < 1522

end FifoRecord

/-- The words of a list of records. -/
def fifoWords (rs : List FifoRecord) : List (BitVec 16) := rs.flatMap FifoRecord.words

/-- A frame is recorded as a record. -/
def RxRecord.toFifo (r : RxRecord) : FifoRecord where
  statusWord := r.statusWord
  lenWord := r.lenWord
  data := r.dataWords
  complete := by rw [r.length_dataWords, r.toNat_lenWord]

namespace Nic

/-- The chip with these records in its FIFO. -/
def holding (n : Nic) (rs : List FifoRecord) : Nic := { n with rxFifo := fifoWords rs }

/-! ## §2  Reading the FIFO -/

theorem run_append (n : Nic) (t₁ t₂ : List BusAccess) :
    n.run (t₁ ++ t₂) = (n.run t₁).bind fun n₁ => n₁.run t₂ := by
  induction t₁ generalizing n with
  | nil => rfl
  | cons x t₁ ih =>
      show ((n.access x).bind fun n₁ => n₁.run (t₁ ++ t₂)) =
        ((n.access x).bind fun n₁ => n₁.run t₁).bind _
      rw [Option.bind_assoc]
      exact congrArg _ (funext fun n₁ => ih n₁)

/-- What the ready byte reads as: the head of the FIFO, or not ready. -/
def Peek (fifo : List (BitVec 16)) (v : BitVec 32) : Prop :=
  match fifo with
  | [] => v &&& 0x03 = 0
  | w :: _ => v = w.setWidth 32

/-- The chip after the ready byte has been read. -/
def peeked (n : Nic) : Nic :=
  { n with tx := { n.tx with index := MRCMDX }, imr := PAR_set, primed := true }

/-- The accesses up to the ready byte take nothing out. -/
theorem run_peek (n : Nic) (dummy ready : BitVec 32) (n' : Nic) :
    n.run [wrIdx IMR, wrDat PAR_set, wrIdx MRCMDX, rdDat dummy, rdDat ready] = some n' ↔
      Peek n.rxFifo ready ∧ n' = n.peeked := by
  have hrun : n.run [wrIdx IMR, wrDat PAR_set, wrIdx MRCMDX, rdDat dummy, rdDat ready] =
      n.peeked.read ready := by
    show (n.peeked.read ready).bind some = _
    exact Option.bind_fun_some _
  rw [hrun]
  rcases hfifo : n.rxFifo with _ | ⟨w, ws⟩
  · have hread : n.peeked.read ready = if ready &&& 0x03 = 0 then some n.peeked else none := by
      show (match n.rxFifo with | [] => _ | w :: _ => _) = _
      rw [hfifo]
    rw [hread, Peek]
    split_ifs with h
    · exact ⟨fun he => ⟨h, (Option.some.inj he).symm⟩, fun he => congrArg some he.2.symm⟩
    · exact ⟨nofun, fun he => absurd he.1 h⟩
  · rw [read_mrcmdx_primed (n := n.peeked) rfl rfl hfifo, Peek]
    split_ifs with h
    · exact ⟨fun he => ⟨h, (Option.some.inj he).symm⟩, fun he => congrArg some he.2.symm⟩
    · exact ⟨nofun, fun he => absurd he.1 h⟩

/-- **Each read of the data port takes one word**: as many reads as there are
words in front take exactly these. -/
theorem run_pops {n : Nic} (hindex : n.index = MRCMD) {ws rest : List (BitVec 16)}
    {vs : List (BitVec 32)} (hlen : vs.length = ws.length) (hfifo : n.rxFifo = ws ++ rest)
    (n' : Nic) :
    n.run (vs.map rdDat) = some n' ↔
      vs = ws.map (fun w => w.setWidth 32) ∧ n' = { n with rxFifo := rest } := by
  induction ws generalizing n vs with
  | nil =>
      obtain rfl := List.eq_nil_of_length_eq_zero hlen
      obtain rfl : n.rxFifo = rest := hfifo
      exact ⟨fun h => ⟨rfl, (Option.some.inj h).symm⟩, fun h => congrArg some h.2.symm⟩
  | cons w ws ih =>
      rcases vs with _ | ⟨v, vs⟩
      · exact absurd hlen (by simp)
      · have hhead : n.rxFifo = w :: (ws ++ rest) := hfifo
        have hread := read_mrcmd hindex hhead v
        show (n.read v).bind (fun n₁ => n₁.run (vs.map rdDat)) = some n' ↔ _
        rw [hread, List.map_cons, List.cons.injEq]
        split_ifs with hv
        · rw [Option.bind_some, ih (n := { n with rxFifo := ws ++ rest }) hindex
            (Nat.succ.inj hlen) rfl]
          exact ⟨fun h => ⟨⟨hv, h.1⟩, h.2⟩, fun h => ⟨h.1.2, h.2⟩⟩
        · exact ⟨nofun, fun h => absurd h.1.1 hv⟩

/-- The chip takes any write. -/
theorem exists_run_writeTrace (n : Nic) (ws : List (Addr × BitVec 32)) :
    ∃ n', n.run (writeTrace ws) = some n' := by
  induction ws generalizing n with
  | nil => exact ⟨n, rfl⟩
  | cons x ws ih =>
      obtain ⟨n₁, hacc⟩ : ∃ n₁, n.access (.wr x.1 x.2) = some n₁ := by
        match x with
        | ⟨⟨.dm9000a, 0⟩, _⟩ | ⟨⟨.dm9000a, _ + 1⟩, _⟩ => exact ⟨_, rfl⟩
        | ⟨⟨.cncModule0, _⟩, _⟩ | ⟨⟨.ledGreen, _⟩, _⟩ => exact ⟨_, rfl⟩
      obtain ⟨n', hrun⟩ := ih n₁
      exact ⟨n', by rw [writeTrace, List.map_cons, run, hacc]; exact hrun⟩

/-! ## §3  One call -/

/-- What the driver reads of a record, after a dummy. -/
def answersOf (r : FifoRecord) (dummy : BitVec 32) : RxResponse where
  dummy := dummy
  ready := r.statusWord.setWidth 32
  status := r.statusWord.setWidth 32
  len := r.lenWord.setWidth 32
  words := r.data.map fun w => w.setWidth 32

theorem len_answersOf (r : FifoRecord) (dummy : BitVec 32) :
    (answersOf r dummy).len.toNat = r.lenWord.toNat := by
  have hlt := r.lenWord.isLt
  show (r.lenWord.setWidth 32).toNat = _
  rw [BitVec.toNat_setWidth]
  exact Nat.mod_eq_of_lt (by omega)

theorem length_words_answersOf (r : FifoRecord) (dummy : BitVec 32) :
    (answersOf r dummy).words.length = ((answersOf r dummy).len.toNat + 1) / 2 := by
  rw [len_answersOf, ← r.complete]
  exact List.length_map ..

/-- The chip after a packet has been read and these records are left. -/
def taken (n : Nic) (rs : List FifoRecord) : Nic :=
  { n with
    tx := { n.tx with index := MRCMD }, imr := PAR_set, primed := false, rxFifo := fifoWords rs }

/-- The reads after the ready byte take the record at the head. -/
theorem run_record (n : Nic) (r : FifoRecord) (rs : List FifoRecord) {status len : BitVec 32}
    {ws : List (BitVec 32)} (hlen : len = r.lenWord.setWidth 32 → ws.length = r.data.length)
    (n' : Nic) :
    (n.holding (r :: rs)).peeked.run
        (wrIdx MRCMD :: ([status, len].map rdDat ++ ws.map rdDat)) = some n' ↔
      (status = r.statusWord.setWidth 32 ∧ len = r.lenWord.setWidth 32 ∧
        ws = r.data.map fun w => w.setWidth 32) ∧ n' = n.taken rs := by
  obtain ⟨n₁, hn₁⟩ : ∃ n₁, n₁ = n.taken (r :: rs) := ⟨_, rfl⟩
  have hselect : (n.holding (r :: rs)).peeked.run
      (wrIdx MRCMD :: ([status, len].map rdDat ++ ws.map rdDat)) =
        n₁.run ([status, len].map rdDat ++ ws.map rdDat) := by
    rw [hn₁]
    rfl
  have hlength : [status, len].length = [r.statusWord, r.lenWord].length := rfl
  have hheader := fun n₂ => run_pops (n := n₁) (by rw [hn₁]; rfl) hlength (by rw [hn₁]; rfl) n₂
  have hpair : [status, len] = [r.statusWord, r.lenWord].map (fun w => w.setWidth 32) ↔
      status = r.statusWord.setWidth 32 ∧ len = r.lenWord.setWidth 32 := by simp
  rw [hselect, run_append]
  constructor
  · intro h
    obtain ⟨n₂, h₂, h₃⟩ := Option.bind_eq_some_iff.mp h
    obtain ⟨hwords, rfl⟩ := (hheader n₂).mp h₂
    obtain ⟨hstatus, hlenWord⟩ := hpair.mp hwords
    obtain ⟨hws, rfl⟩ := (run_pops (by rw [hn₁]; rfl) (hlen hlenWord) rfl n').mp h₃
    exact ⟨⟨hstatus, hlenWord, hws⟩, by rw [hn₁]; rfl⟩
  · rintro ⟨⟨hstatus, hlenWord, hws⟩, rfl⟩
    rw [(hheader _).mpr ⟨hpair.mpr ⟨hstatus, hlenWord⟩, rfl⟩, Option.bind_some]
    exact (run_pops (by rw [hn₁]; rfl) (hlen hlenWord) rfl _).mpr ⟨hws, by rw [hn₁]; rfl⟩

/-- **A call that finds a packet takes one record**, whatever its status and
its length: the answers are the words of the record, and they are gone. -/
theorem run_trace_of_ready {n : Nic} {rs : List FifoRecord} {a : RxResponse} (ha : a.Complete)
    (hready : a.packetReady) (n' : Nic) :
    (n.holding rs).run a.trace = some n' ↔
      ∃ r rs', rs = r :: rs' ∧ a = answersOf r a.dummy ∧ n' = n.taken rs' := by
  have htrace : a.trace = [wrIdx IMR, wrDat PAR_set, wrIdx MRCMDX, rdDat a.dummy, rdDat a.ready] ++
      (wrIdx MRCMD :: ([a.status, a.len].map rdDat ++ a.words.map rdDat)) := by
    rw [RxResponse.trace_of_ready hready]
    rfl
  have hcount : ∀ r : FifoRecord, a.len = r.lenWord.setWidth 32 →
      a.words.length = r.data.length := by
    intro r hr
    rw [ha.trans (if_pos hready), hr, r.complete, ← len_answersOf r 0]
    rfl
  rw [htrace, run_append]
  constructor
  · intro h
    obtain ⟨n₁, hpeek, hrest⟩ := Option.bind_eq_some_iff.mp h
    obtain ⟨hhead, rfl⟩ := (run_peek _ _ _ _).mp hpeek
    cases rs with
    | nil =>
        -- an empty FIFO does not look ready
        have hzero : a.ready &&& 0x03 = 0 := hhead
        rw [RxResponse.packetReady, hzero] at hready
        exact absurd hready (by decide)
    | cons r rs =>
        have hr : a.ready = r.statusWord.setWidth 32 := hhead
        obtain ⟨⟨hstatus, hlenWord, hws⟩, rfl⟩ := (run_record n r rs (hcount r) n').mp hrest
        refine ⟨r, rs, rfl, ?_, rfl⟩
        obtain ⟨dummy, ready, status, len, ws⟩ := a
        obtain rfl : ready = _ := hr
        obtain rfl : status = _ := hstatus
        obtain rfl : len = _ := hlenWord
        obtain rfl : ws = _ := hws
        rfl
  · rintro ⟨r, rs, rfl, heq, rfl⟩
    have hhead : Peek (n.holding (r :: rs)).rxFifo a.ready := congrArg RxResponse.ready heq
    rw [(run_peek _ _ _ _).mpr ⟨hhead, rfl⟩, Option.bind_some]
    exact (run_record n r rs (hcount r) _).mpr ⟨⟨congrArg RxResponse.status heq,
      congrArg RxResponse.len heq, congrArg RxResponse.words heq⟩, rfl⟩

/-- A call that finds none takes nothing. -/
theorem run_trace_of_empty {n n' : Nic} {rs : List FifoRecord} {a : RxResponse}
    (hready : a.ready &&& 0x03 = 0) (hrun : (n.holding rs).run a.trace = some n') :
    n'.rxFifo = fifoWords rs := by
  have hnot : ¬ a.packetReady := by
    rw [RxResponse.packetReady, hready]
    decide
  rw [RxResponse.trace_of_not_ready hnot, if_neg fun h => h.2 hready, List.append_nil] at hrun
  obtain ⟨-, rfl⟩ := (run_peek _ _ _ _).mp hrun
  rfl

/-- The chip can answer a call, whatever is in the FIFO. -/
theorem exists_run_trace (n : Nic) (rs : List FifoRecord) :
    ∃ (a : RxResponse) (n' : Nic), a.Complete ∧ (n.holding rs).run a.trace = some n' := by
  have hnotReady : ∀ a : RxResponse, Peek (fifoWords rs) a.ready → ¬ a.packetReady →
      ∃ n', (n.holding rs).run a.trace = some n' := by
    intro a hhead hnot
    rw [RxResponse.trace_of_not_ready hnot, run_append,
      (run_peek (n.holding rs) a.dummy a.ready _).mpr ⟨hhead, rfl⟩, Option.bind_some]
    split_ifs
    · exact exists_run_writeTrace _ _
    · exact ⟨_, rfl⟩
  cases rs with
  | nil =>
      have hnot : ¬ (⟨0, 0, 0, 0, []⟩ : RxResponse).packetReady := by decide
      obtain ⟨n', hrun⟩ := hnotReady ⟨0, 0, 0, 0, []⟩ rfl hnot
      exact ⟨_, n', (if_neg hnot).symm, hrun⟩
  | cons r rs =>
      by_cases hready : (answersOf r 0).packetReady
      · have hcomplete : (answersOf r 0).Complete :=
          (length_words_answersOf r 0).trans (if_pos hready).symm
        exact ⟨_, _, hcomplete, (run_trace_of_ready hcomplete hready _).mpr ⟨r, rs, rfl, rfl, rfl⟩⟩
      · have hnot : ¬ (⟨0, r.statusWord.setWidth 32, 0, 0, []⟩ : RxResponse).packetReady := hready
        obtain ⟨n', hrun⟩ := hnotReady ⟨0, r.statusWord.setWidth 32, 0, 0, []⟩ rfl hnot
        exact ⟨_, n', (if_neg hnot).symm, hrun⟩

end Nic

/-! ## §4  Alignment -/

namespace FifoRecord

theorem good_answersOf (r : FifoRecord) (dummy : BitVec 32) :
    (Nic.answersOf r dummy).good ↔ r.Good := by
  have hstatus : r.statusWord.setWidth 32 &&& 0xBF00 = (r.statusWord &&& 0xBF00).setWidth 32 := by
    rw [BitVec.setWidth_and]
    rfl
  have hzero : (r.statusWord &&& 0xBF00).setWidth 32 = 0 ↔ r.statusWord &&& 0xBF00 = 0 := by
    have hlt := (r.statusWord &&& 0xBF00).isLt
    rw [← BitVec.toNat_inj, ← BitVec.toNat_inj, BitVec.toNat_setWidth,
      Nat.mod_eq_of_lt (by omega)]
    rfl
  have hlen : (Nic.answersOf r dummy).len < MAX_PACKET_SIZE ↔ r.lenWord.toNat < 1522 := by
    rw [BitVec.lt_def, Nic.len_answersOf]
    rfl
  exact and_congr ((iff_of_eq (congrArg (· = 0) hstatus)).trans hzero) hlen

theorem wordByte_answersOf (r : FifoRecord) (dummy : BitVec 32) (j : ℕ) :
    wordByte (Nic.answersOf r dummy).words j = r.byte j := by
  have hword : ∀ w : BitVec 16, ((w.setWidth 32) >>> (8 * (j % 2))).setWidth 8 =
      (w >>> (8 * (j % 2))).setWidth 8 := by
    intro w
    rcases Nat.mod_two_eq_zero_or_one j with h | h <;> rw [h] <;> ext k hk <;>
      interval_cases k <;> simp
  have hget : (Nic.answersOf r dummy).words.getD (j / 2) 0 =
      (r.data.getD (j / 2) 0).setWidth 32 := by
    show (r.data.map fun w => w.setWidth 32).getD (j / 2) 0 = _
    rw [List.getD_eq_getElem?_getD, List.getD_eq_getElem?_getD, List.getElem?_map]
    cases r.data[j / 2]? <;> rfl
  rw [wordByte, byte, hget, hword]

end FifoRecord

/-- What a call that takes a record leaves behind. -/
structure Taken (r : FifoRecord) (b : Buffer) (y : RxResult) : Prop where
  ret : y.ret = DMFE_SUCCESS ↔ r.Good
  copied : r.Good → y.rxLen = r.lenWord.setWidth 32 ∧
    ∀ j < r.lenWord.toNat, y.dataPtr.byte j = r.byte j
  refused : ¬ r.Good → y.ret = DMFE_FAIL ∧ y.dataPtr = b ∧ y.rxLen = 0

theorem taken_result {r : FifoRecord} {dummy : BitVec 32}
    (hready : (Nic.answersOf r dummy).packetReady) (b : Buffer) :
    Taken r b ((Nic.answersOf r dummy).result b) := by
  have hgood := r.good_answersOf dummy
  refine ⟨?_, fun h => ?_, fun h => ?_⟩
  · rw [RxResponse.result_ret_eq_success, hgood]
    exact and_iff_right hready
  · have hcomplete : (Nic.answersOf r dummy).Complete :=
      (Nic.length_words_answersOf r dummy).trans (if_pos hready).symm
    refine ⟨by rw [RxResponse.result_of_good hready (hgood.mpr h)]; rfl, fun j hj => ?_⟩
    rw [← Nic.len_answersOf r dummy] at hj
    rw [RxResponse.result_byte_of_good hcomplete hready (hgood.mpr h) b hj, r.wordByte_answersOf]
  · rw [RxResponse.result_of_not_good fun hc => h (hgood.mp hc.2)]
    exact ⟨rfl, rfl, rfl⟩

/-- **`ReceivePacket` keeps the FIFO aligned.** Whatever records the FIFO holds,
a call returns; if it has seen a packet ready, exactly the first record is
gone, and what it leaves behind is right for that record; if it has seen none,
nothing is gone and nothing has changed. -/
theorem receivePacket_aligned (n : Nic) (rs : List FifoRecord) (b : Buffer) :
    (∃ tr y n', Completes (receivePacket b) tr y ∧ (n.holding rs).run tr = some n') ∧
    ∀ tr y n', Completes (receivePacket b) tr y → (n.holding rs).run tr = some n' →
      ∃ a : RxResponse, a.Complete ∧ tr = a.trace ∧
        (a.ready &&& 0x03 = 1 →
          ∃ r rs', rs = r :: rs' ∧ n'.rxFifo = fifoWords rs' ∧ Taken r b y) ∧
        (a.ready &&& 0x03 = 0 → n'.rxFifo = fifoWords rs ∧ y = ⟨DMFE_FAIL, 0, b⟩) := by
  constructor
  · obtain ⟨a, n', ha, hrun⟩ := Nic.exists_run_trace n rs
    exact ⟨a.trace, a.result b, n', completes_receivePacket.mpr ⟨a, ha, rfl, rfl⟩, hrun⟩
  · intro tr y n' hcall hrun
    obtain ⟨a, ha, rfl, rfl⟩ := completes_receivePacket.mp hcall
    refine ⟨a, ha, rfl, ?_, ?_⟩
    · intro hready
      obtain ⟨r, rs', hrs, heq, rfl⟩ := (Nic.run_trace_of_ready ha hready n').mp hrun
      have hready' : (Nic.answersOf r a.dummy).packetReady := heq ▸ hready
      refine ⟨r, rs', hrs, rfl, ?_⟩
      rw [heq]
      exact taken_result hready' b
    · intro hready
      refine ⟨Nic.run_trace_of_empty hready hrun, RxResponse.result_of_not_good fun hc => ?_⟩
      have hone : a.ready &&& 0x03 = 1 := hc.1
      exact absurd (hready.symm.trans hone) (by decide)

end FpgaCnc
