import FpgaCnc.System.CommandPath

/-!
# Whose command is carried out

`ethernet_interrupts` ignores what `ReceivePacket` returns and decides by
`RXT` alone, which a failed or short reception leaves as an earlier frame
filled it. This file says exactly when the decision and the words written come
from the frame received in the same run.

§1 the answers of the NIC · §2 fresh runs · §3 runs of the handler over given
answers · §4 when every run is fresh · §5 an old command carried out again.
-/

namespace FpgaCnc.HelloLed

open IoProg Dm9000a

/-! ## §1  The answers of the NIC -/

/-- The words read from the data port of the NIC, in order. -/
def nicReads (tr : List BusAccess) : List (BitVec 32) :=
  tr.filterMap fun x =>
    match x with
    | .rd ⟨.dm9000a, 1⟩ v => some v
    | _ => none

/-- The NIC answers with the words of `ρ`. -/
def Follows (ρ : ℕ → BitVec 32) (tr : List BusAccess) : Prop :=
  ∀ k v, (nicReads tr)[k]? = some v → v = ρ k

/-- `ReceivePacket` as the NIC answers with `ρ`: the first word is the interrupt
status, then come the dummy, the ready byte, and status, length and data. -/
def answers (ρ : ℕ → BitVec 32) : RxResponse where
  dummy := ρ 1
  ready := ρ 2
  status := ρ 3
  len := ρ 4
  words :=
    if ρ 2 &&& 0x03 = DM9000_PKT_READY then
      (List.range (((ρ 4).toNat + 1) / 2)).map fun k => ρ (5 + k)
    else []

theorem complete_answers (ρ : ℕ → BitVec 32) : (answers ρ).Complete := by
  unfold RxResponse.Complete RxResponse.packetReady
  show (answers ρ).words.length =
    if ρ 2 &&& 0x03 = DM9000_PKT_READY then ((ρ 4).toNat + 1) / 2 else 0
  rw [answers]
  split_ifs <;> simp

theorem nicReads_append (t₁ t₂ : List BusAccess) :
    nicReads (t₁ ++ t₂) = nicReads t₁ ++ nicReads t₂ :=
  List.filterMap_append

theorem nicReads_map_rdDat (ws : List (BitVec 32)) : nicReads (ws.map rdDat) = ws := by
  induction ws with
  | nil => rfl
  | cons w ws ih =>
      show w :: nicReads (ws.map rdDat) = _
      rw [ih]

/-- What `ReceivePacket` reads. -/
theorem nicReads_trace (r : RxResponse) :
    nicReads r.trace =
      r.dummy :: r.ready :: if r.packetReady then r.status :: r.len :: r.words else [] := by
  by_cases hready : r.packetReady
  · rw [RxResponse.trace_of_ready hready, if_pos hready, nicReads_append, nicReads_map_rdDat]
    rfl
  · rw [RxResponse.trace_of_not_ready hready, if_neg hready, nicReads_append]
    split_ifs <;> rfl

/-- Words read from position 5 on are those of the answers. -/
theorem words_of_answers {ρ : ℕ → BitVec 32} {ws rest : List (BitVec 32)} {n : ℕ}
    (hlen : ws.length = n) (h : ∀ k v, (ws ++ rest)[k]? = some v → v = ρ (5 + k)) :
    ws = (List.range n).map fun k => ρ (5 + k) := by
  apply List.ext_getElem
  · rw [hlen, List.length_map, List.length_range]
  · intro k hk _
    rw [List.getElem_map, List.getElem_range]
    apply h k
    rw [List.getElem?_append_left hk, List.getElem?_eq_getElem hk]

/-- **The answers determine the reception.** -/
theorem Follows.reception {ρ : ℕ → BitVec 32} {inter : BitVec 32} {r : RxResponse}
    {t : List BusAccess} (hr : r.Complete)
    (h : Follows ρ (isrTrace inter ++ (r.trace ++ t))) :
    inter = ρ 0 ∧ r.trace = (answers ρ).trace ∧ ∀ b, r.result b = (answers ρ).result b := by
  have hreads : nicReads (isrTrace inter ++ (r.trace ++ t)) =
      inter :: (nicReads r.trace ++ nicReads t) := by
    rw [nicReads_append, nicReads_append]
    rfl
  unfold Follows at h
  rw [hreads, nicReads_trace] at h
  have hinter : inter = ρ 0 := h 0 _ rfl
  have hdummy : r.dummy = ρ 1 := h 1 _ rfl
  have hrdy : r.ready = ρ 2 := h 2 _ rfl
  refine ⟨hinter, ?_⟩
  by_cases hready : r.packetReady
  · rw [if_pos hready] at h
    have hstatus : r.status = ρ 3 := h 3 _ rfl
    have hlen : r.len = ρ 4 := h 4 _ rfl
    have hcount : r.words.length = (r.len.toNat + 1) / 2 := hr.trans (if_pos hready)
    rw [hlen] at hcount
    have hwords := words_of_answers hcount fun k v hk =>
      h (5 + k) v (by rw [Nat.add_comm 5 k]; exact hk)
    have heq : r = answers ρ := by
      have hready' : ρ 2 &&& 0x03 = DM9000_PKT_READY := hrdy ▸ hready
      obtain ⟨dummy, ready, status, len, words⟩ := r
      dsimp only at hdummy hrdy hstatus hlen hwords
      rw [hdummy, hrdy, hstatus, hlen, hwords, answers, if_pos hready']
    rw [heq]
    exact ⟨rfl, fun _ => rfl⟩
  · have hready' : ¬ (answers ρ).packetReady := fun hc => hready (by
      unfold RxResponse.packetReady at hc ⊢
      rw [hrdy]
      exact hc)
    constructor
    · rw [RxResponse.trace_of_not_ready hready, RxResponse.trace_of_not_ready hready', hdummy, hrdy]
      rfl
    · intro b
      rw [RxResponse.result_of_not_good fun hc => hready hc.1,
        RxResponse.result_of_not_good fun hc => hready' hc.1]

/-- A run that ends with the reception follows its answers. -/
theorem follows_answers (ρ : ℕ → BitVec 32) {t : List BusAccess} (ht : nicReads t = []) :
    Follows ρ (isrTrace (ρ 0) ++ ((answers ρ).trace ++ t)) := by
  have hreads : nicReads (isrTrace (ρ 0) ++ ((answers ρ).trace ++ t)) =
      ρ 0 :: nicReads (answers ρ).trace := by
    rw [nicReads_append, nicReads_append, ht, List.append_nil]
    rfl
  intro k v hk
  rw [hreads, nicReads_trace] at hk
  match k with
  | 0 | 1 | 2 => exact (Option.some.inj hk).symm
  | k + 3 =>
      by_cases hready : (answers ρ).packetReady
      · rw [if_pos hready] at hk
        match k with
        | 0 | 1 => exact (Option.some.inj hk).symm
        | k + 2 =>
            have hwords : (answers ρ).words =
                (List.range (((ρ 4).toNat + 1) / 2)).map fun k => ρ (5 + k) := if_pos hready
            have hget : (answers ρ).words[k]? = some v := hk
            rw [hwords, List.getElem?_map] at hget
            obtain ⟨j, hj, rfl⟩ := Option.map_eq_some_iff.mp hget
            rw [List.getElem?_eq_some_iff] at hj
            obtain ⟨hlt, rfl⟩ := hj
            rw [List.getElem_range, Nat.add_comm 5 k]
      · rw [if_neg hready] at hk
        exact absurd hk (by simp)

/-! ## §2  Fresh runs -/

/-- Byte `j` of the frame the NIC answers with. -/
def rxByte (ρ : ℕ → BitVec 32) (j : ℕ) : BitVec 8 :=
  (ρ (5 + j / 2) >>> (8 * (j % 2))).setWidth 8

/-- The run reads or writes a register of `cnc_module`. -/
def TouchesCnc (tr : List BusAccess) : Prop := ∃ x ∈ tr, x.addr.base = .cncModule0

/-- What the run does is what the frame received in it says. -/
structure Fresh (g : Globals) (ρ : ℕ → BitVec 32) (tr : List BusAccess) : Prop where
  /-- `ReceivePacket` has returned success with bytes up to 49. -/
  received : ∃ t₁ t₂ res, tr = isrTrace (ρ 0) ++ (t₁ ++ t₂) ∧
    Completes (receivePacket g.rxt) t₁ res ∧ res.ret = DMFE_SUCCESS ∧ 50 ≤ res.rxLen.toNat
  header : rxByte ρ 12 = 0x80#8 ∧ rxByte ρ 13 = 0xab#8
  written : ∀ k w, .wr ⟨.cncModule0, k⟩ w ∈ tr → ∃ j, j + 3 < 50 ∧
    w = Buffer.joinLe32 (rxByte ρ (j + 3)) (rxByte ρ (j + 2)) (rxByte ρ (j + 1)) (rxByte ρ j)

/-- A good packet that reaches up to byte 49. -/
def ReceivesWhole (ρ : ℕ → BitVec 32) : Prop :=
  (answers ρ).packetReady ∧ (answers ρ).good ∧ 50 ≤ (ρ 4).toNat

/-- The header bytes the handler looks at: from a good packet that has them,
otherwise from `RXT` as it was. -/
def headerByte (g : Globals) (ρ : ℕ → BitVec 32) (j : ℕ) : BitVec 8 :=
  if (answers ρ).packetReady ∧ (answers ρ).good ∧ 12 < (ρ 4).toNat then rxByte ρ j
  else g.rxt.byte j

/-! ## §3  Runs over given answers -/

/-- `RXT` after the reception, byte by byte. -/
theorem rxt_answers (ρ : ℕ → BitVec 32) (b : Buffer) (j : ℕ) :
    ((answers ρ).result b).dataPtr.byte j =
      if (answers ρ).packetReady ∧ (answers ρ).good ∧ j / 2 < ((ρ 4).toNat + 1) / 2 then rxByte ρ j
      else b.byte j := by
  have hiff : j < 2 * (((answers ρ).len.toNat + 1) / 2) ↔ j / 2 < ((ρ 4).toNat + 1) / 2 := by
    show j < 2 * (((ρ 4).toNat + 1) / 2) ↔ _
    omega
  rw [RxResponse.result_byte (complete_answers ρ)]
  refine if_ctx_congr (and_congr_right fun _ => and_congr_right fun _ => hiff)
    (fun hcovers => ?_) fun _ => rfl
  have hwords : (answers ρ).words =
      (List.range (((ρ 4).toNat + 1) / 2)).map fun k => ρ (5 + k) := if_pos hcovers.1
  rw [hwords, wordByte, List.getD_eq_getElem _ _ (by simpa using hcovers.2.2), List.getElem_map,
    List.getElem_range]
  rfl

theorem isCommand_answers (g : Globals) (ρ : ℕ → BitVec 32) :
    isCommand ((answers ρ).result g.rxt).dataPtr = true ↔
      headerByte g ρ 12 = 0x80#8 ∧ headerByte g ρ 13 = 0xab#8 := by
  have hbyte : ∀ j, j / 2 = 6 →
      ((answers ρ).result g.rxt).dataPtr.byte j = headerByte g ρ j := by
    intro j hj
    rw [rxt_answers, headerByte, hj]
    have hlen : 6 < ((ρ 4).toNat + 1) / 2 ↔ 12 < (ρ 4).toNat := by omega
    simp only [hlen]
  rw [isCommand, hbyte 12 rfl, hbyte 13 rfl, Bool.and_eq_true, beq_iff_eq, beq_iff_eq]

/-- A run that touches `cnc_module` has received, and found the header. -/
theorem exec_of_touches {g : Globals} {ρ : ℕ → BitVec 32} {tr : List BusAccess}
    {q : Fw Globals} (h : exec (ethernetInterrupts g) tr = some q) (hρ : Follows ρ tr)
    (htouch : TouchesCnc tr) :
    ρ 0 &&& 1 = 1 ∧ isCommand ((answers ρ).result g.rxt).dataPtr = true ∧
      ∃ t, tr = isrTrace (ρ 0) ++ ((answers ρ).trace ++ t) ∧
        exec (answerCommand (g.received ((answers ρ).result g.rxt))) t = some q := by
  obtain ⟨x, hx, hbase⟩ := htouch
  have hnic : ¬ nicAccess x := fun hc => by
    unfold nicAccess at hc
    rw [hbase] at hc
    exact absurd hc (by decide)
  obtain ⟨inter, hprs, r, hr, t, rfl, hq, hxt⟩ := exec_ethernetInterrupts_outside h hx hnic
  obtain ⟨rfl, htrace, hresult⟩ := hρ.reception hr
  rw [htrace, hresult] at *
  unfold afterReceive at hq
  by_cases hcmd : isCommand (g.received ((answers ρ).result g.rxt)).rxt = true
  · rw [if_pos hcmd] at hq
    exact ⟨hprs, hcmd, t, rfl, hq⟩
  · rw [if_neg hcmd] at hq
    exact absurd ((only_rejectFrame _).exec hq x hxt) hnic

/-- With the header found, the handler goes on to the first register. -/
theorem exec_first_read (g : Globals) {ρ : ℕ → BitVec 32} (hprs : ρ 0 &&& 1 = 1)
    (hcmd : isCommand ((answers ρ).result g.rxt).dataPtr = true) :
    ∃ q, exec (ethernetInterrupts g)
      (isrTrace (ρ 0) ++ ((answers ρ).trace ++ [.rd ⟨.cncModule0, 9⟩ 0])) = some q := by
  have hcmd' : isCommand (g.received ((answers ρ).result g.rxt)).rxt = true := hcmd
  rw [exec_ethernetInterrupts_received g hprs (complete_answers ρ), afterReceive, if_pos hcmd']
  exact ⟨_, rfl⟩

/-! ## §4  When every run is fresh -/

/-- The words an accepted whole frame writes are the frame's. -/
theorem fresh_of_receivesWhole {g : Globals} {ρ : ℕ → BitVec 32} (hwhole : ReceivesWhole ρ)
    {tr : List BusAccess} {q : Fw Globals} (h : exec (ethernetInterrupts g) tr = some q)
    (hρ : Follows ρ tr) (htouch : TouchesCnc tr) : Fresh g ρ tr := by
  obtain ⟨hready, hgood, hlen⟩ := hwhole
  obtain ⟨-, hcmd, t, rfl, hq⟩ := exec_of_touches h hρ htouch
  have hresult : (answers ρ).result g.rxt = _ := RxResponse.result_of_good hready hgood
  have hbyte : ∀ j < 50, ((answers ρ).result g.rxt).dataPtr.byte j = rxByte ρ j := by
    intro j hj
    rw [rxt_answers, if_pos ⟨hready, hgood, by omega⟩]
  constructor
  · refine ⟨(answers ρ).trace, t, _, rfl,
      completes_receivePacket.mpr ⟨answers ρ, complete_answers ρ, rfl, rfl⟩, ?_, ?_⟩
    · exact RxResponse.result_ret_eq_success.mpr ⟨hready, hgood⟩
    · rw [hresult]
      exact hlen
  · have hheader := (isCommand_answers g ρ).mp hcmd
    unfold headerByte at hheader
    rwa [if_pos ⟨hready, hgood, by omega⟩, if_pos ⟨hready, hgood, by omega⟩] at hheader
  · intro k w hmem
    have hnic : ¬ nicAccess (.wr ⟨.cncModule0, k⟩ w) := not_nic_of_cnc rfl
    rcases List.mem_append.mp hmem with hisr | hrest
    · exact absurd (nic_isrTrace _ _ hisr) hnic
    rcases List.mem_append.mp hrest with hrx | ht
    · exact absurd (nic_trace g.rxt (complete_answers ρ) _ hrx) hnic
    rcases (only_answerCommand _).exec hq _ ht with hc | ⟨_, _, hc⟩ | ⟨y, hy, hc⟩ | hc
    · exact absurd hc hnic
    · exact absurd hc (by simp)
    · obtain ⟨n, hn, rfl⟩ := List.mem_map.mp hy
      have hn9 := List.mem_range.mp hn
      obtain ⟨-, rfl⟩ := Access.wr.inj hc
      refine ⟨14 + 4 * n, by omega, ?_⟩
      show Buffer.loadLe32 ((answers ρ).result g.rxt).dataPtr (14 + 4 * n) = _
      rw [Buffer.loadLe32, hbyte _ (by omega), hbyte _ (by omega), hbyte _ (by omega),
        hbyte _ (by omega)]
    · exact absurd (show Base.cncModule0 = Base.ledGreen from hc) (by decide)

theorem receivesWhole_of_fresh {g : Globals} {ρ : ℕ → BitVec 32} {tr : List BusAccess}
    (hρ : Follows ρ tr) (hfresh : Fresh g ρ tr) : ReceivesWhole ρ := by
  obtain ⟨t₁, t₂, res, rfl, hrx, hret, hlen⟩ := hfresh.received
  obtain ⟨r, hr, rfl, rfl⟩ := completes_receivePacket.mp hrx
  obtain ⟨-, -, hresult⟩ := hρ.reception hr
  rw [hresult] at hret hlen
  obtain ⟨hready, hgood⟩ := RxResponse.result_ret_eq_success.mp hret
  rw [RxResponse.result_of_good hready hgood] at hlen
  exact ⟨hready, hgood, hlen⟩

/-- **Freshness, exactly.** From any state and for any answers of the NIC: every
run that touches `cnc_module` is fresh if and only if no reception is
signalled, or a good packet of at least 50 bytes is received, or the header
bytes the handler will look at are not those of a command. What is left is a
failed, empty or short reception over an `RXT` that still holds a command. -/
theorem fresh_iff (g : Globals) (ρ : ℕ → BitVec 32) :
    (∀ tr q, exec (ethernetInterrupts g) tr = some q → Follows ρ tr → TouchesCnc tr →
      Fresh g ρ tr) ↔
      (ρ 0 &&& 1 ≠ 1 ∨ ReceivesWhole ρ ∨
        ¬ (headerByte g ρ 12 = 0x80#8 ∧ headerByte g ρ 13 = 0xab#8)) := by
  constructor
  · intro hall
    by_contra hnot
    rw [not_or, not_or, not_not, not_not] at hnot
    obtain ⟨hprs, hwhole, hheader⟩ := hnot
    obtain ⟨q, hq⟩ := exec_first_read g hprs ((isCommand_answers g ρ).mpr hheader)
    have hρ : Follows ρ (isrTrace (ρ 0) ++ ((answers ρ).trace ++ [.rd ⟨.cncModule0, 9⟩ 0])) :=
      follows_answers ρ rfl
    exact hwhole (receivesWhole_of_fresh hρ
      (hall _ q hq hρ ⟨.rd ⟨.cncModule0, 9⟩ 0, by simp, rfl⟩))
  · rintro (hprs | hwhole | hheader) tr q hq hρ htouch
    · exact absurd (exec_of_touches hq hρ htouch).1 hprs
    · exact fresh_of_receivesWhole hwhole hq hρ htouch
    · exact absurd ((isCommand_answers g ρ).mp (exec_of_touches hq hρ htouch).2.1) hheader

/-! ## §5  An old command carried out again -/

/-- A frame with a receive error: ready, error bit in the status, 64 bytes. -/
def erroredFrame (k : ℕ) : BitVec 32 := [1, 0, 1, 0x8000, 64].getD k 0

/-- **A stale command.** After one accepted command, a frame the NIC reports as
damaged makes the handler stroke the watchdog and go through the old command
again, although `ReceivePacket` has failed. -/
theorem stale_command :
    ∃ tr₁ g₁, Completes (ethernetInterrupts .init) tr₁ g₁ ∧
      ∃ tr q, exec (ethernetInterrupts g₁) tr = some q ∧ Follows erroredFrame tr ∧
        TouchesCnc tr ∧ ¬ Fresh g₁ erroredFrame tr := by
  have hr : (RxResponse.ofFrame (De2.sentFrame sampleFrame)).Carries (De2.sentFrame sampleFrame) :=
    RxResponse.carries_ofFrame (by rw [De2.length_sentFrame]; decide)
  have hcmd := isCommand_of_carries (.init _) hr Globals.init.rxt
  obtain ⟨g₁, hrun, hrxt⟩ := exists_command_run .init (show (1#32) &&& 1 = 1 by decide)
    hr.complete hcmd (fun _ => 0) (List.forall_mem_nil _) txDone_both
  have hfail : ¬ ((answers erroredFrame).packetReady ∧ (answers erroredFrame).good) := by decide
  have hstale : isCommand ((answers erroredFrame).result g₁.rxt).dataPtr = true := by
    rw [RxResponse.result_of_not_good hfail, hrxt]
    exact hcmd
  obtain ⟨q, hq⟩ := exec_first_read g₁ (show erroredFrame 0 &&& 1 = 1 by decide) hstale
  refine ⟨_, g₁, hrun, _, q, hq, follows_answers erroredFrame rfl,
    ⟨.rd ⟨.cncModule0, 9⟩ 0, by simp, rfl⟩, ?_⟩
  intro hfresh
  have hwhole := receivesWhole_of_fresh (follows_answers erroredFrame rfl) hfresh
  exact hfail ⟨hwhole.1, hwhole.2.1⟩

end FpgaCnc.HelloLed
