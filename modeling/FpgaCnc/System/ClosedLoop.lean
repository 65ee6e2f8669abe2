import FpgaCnc.Lib.Gaps
import FpgaCnc.System.HostSync
import FpgaCnc.System.FeedbackInStep
import FpgaCnc.System.SpindlePwm
import FpgaCnc.System.StoppedAxis

/-!
# The closed loop

Host and board on one link: the calls of `do_work`, the frames on their way,
and the board as it is, one register access at a time, with frames of other
types arriving on both sides. The link keeps the order of the frames and brings
none twice, but it may lose any of them. Each frame carries where it comes from:
of a frame at the board, the call that has sent it; of a frame on its way to the
host, its place among the frames the board has sent. The board of `HostSync`
answers each command once, in order, because that is how it is drawn there; here
it is shown that this board does so, and what it means for the calls.

§1 frames for the board · §2 the loop · §3 where the frames come from · §4 the
order of the calls · §5 the loop refines `HostSync` · §6 some runs · §7 whose
reply a call uses · §8 what the pins show.
-/

namespace FpgaCnc.ClosedLoop

open Delivery

/-! ## §1  Frames for the board -/

/-- The buffer of a call, received without errors, with the checksum behind
it. -/
structure Carried (buf : Buffer) (r : RxRecord) : Prop where
  good : r.toFifo.Good
  bytes : ∃ crc, crc.length = 4 ∧ r.bytes = De2.sentFrame buf ++ crc

namespace Carried

variable {buf : Buffer} {r : RxRecord}

theorem length_bytes (h : Carried buf r) : r.bytes.length = 68 := by
  obtain ⟨-, crc, hcrc, hbytes⟩ := h
  rw [hbytes, List.length_append, De2.length_sentFrame, hcrc]

theorem byte (h : Carried buf r) {j : ℕ} (hj : j < 64) : r.bytes.getD j 0 = buf.byte j := by
  obtain ⟨-, crc, -, hbytes⟩ := h
  rw [hbytes, List.getD_append _ _ _ _ (by rw [De2.length_sentFrame]; exact hj),
    De2.sentFrame_getD _ hj]

theorem fitsRxt (h : Carried buf r) : r.FitsRxt := by
  intro _
  rw [h.length_bytes]
  decide

/-- It is a command, and long enough. -/
theorem plain (h : Carried buf r) (hbuf : De2.CmdBuf buf) :
    hasCommandType r = true ∧ Plain r := by
  have htype : hasCommandType r = true := by
    rw [hasCommandType, h.byte (by decide), h.byte (by decide), hbuf.fixed.1, hbuf.fixed.2.1]
    rfl
  refine ⟨htype, h.good, ?_⟩
  rw [if_pos htype, h.length_bytes]
  decide

/-- It asks for the register writes of the call. -/
theorem frameWrites_buffer (h : Carried buf r) : frameWrites r.buffer = frameWrites buf := by
  have hwrites : HelloLed.regWrites r.buffer = HelloLed.regWrites buf :=
    HelloLed.regWrites_congr fun _ _ hj => h.byte (by omega)
  rw [frameWrites, hwrites, ← frameWrites]

end Carried

/-! ## §2  The loop -/

/-- The chip may put anything behind a frame it sends. -/
def Padded (f x : List (BitVec 8)) : Prop := ∃ pad, x = f ++ pad

/-- A frame for the host, and its place among the frames the board has sent, if
the board has sent it. -/
structure Wire where
  place : Option ℕ
  bytes : List (BitVec 8)

/-- The host takes it for a reply. -/
def Wire.isReply (x : Wire) : Bool := isReplyFrame x.bytes

/-- Frames that the board sends one after the other, from a place on. -/
def wires : ℕ → List (List (BitVec 8)) → List Wire
  | _, [] => []
  | n, x :: xs => ⟨some n, x⟩ :: wires (n + 1) xs

/-- The call that a frame answers: the one whose frame has arrived at the board
at the same place. -/
def callOf (origin : List (Option ℕ)) (x : Wire) : Option ℕ :=
  x.place.bind fun j => (origin[j]?).join

/-- Host, board and what is between them. The calls are numbered from 0. -/
structure Loop where
  host : De2.Host
  /-- The last call is in `recvfrom`. -/
  waiting : Bool
  /-- The buffers the calls have sent, one a call. -/
  asked : List Buffer
  /-- The calls whose frames are on their way. -/
  toBoard : List ℕ
  board : Board
  /-- Of each frame that has arrived at the board, the call that has sent it. -/
  origin : List (Option ℕ)
  toHost : List Wire
  /-- The receive queue of the socket. -/
  queue : List Wire
  /-- The frames the calls have taken from it. -/
  taken : List Wire
  /-- How often `recvfrom` has failed. -/
  failed : ℕ
  /-- The calls whose frame, or the answer to it, has been lost. -/
  lost : List ℕ

inductive Step (ub : FVal → BitVec 32) : Loop → Loop → Prop where
  /-- A call begins, with the pins it finds. -/
  | send {l : Loop} (c : De2.CompState) : l.waiting = false → Step ub l
      { l with
        host := De2.doWorkSend ub { l.host with inst := c }
        waiting := true
        asked := l.asked ++ [(De2.doWorkSend ub { l.host with inst := c }).buf]
        toBoard := l.toBoard ++ [l.asked.length] }
  | reach {l : Loop} {k : ℕ} {ks : List ℕ} {buf : Buffer} (r : RxRecord) : l.toBoard = k :: ks →
      l.asked[k]? = some buf → Carried buf r → Step ub l
      { l with
        toBoard := ks
        board := { l.board with chip := l.board.chip.arrive r }
        origin := l.origin ++ [some k] }
  /-- Lost, or damaged: the chip skips frames with a wrong checksum (`RCR_set`). -/
  | loseCommand {l : Loop} {k : ℕ} {ks : List ℕ} : l.toBoard = k :: ks → Step ub l
      { l with toBoard := ks, lost := l.lost ++ [k] }
  | stray {l : Loop} (r : RxRecord) : Plain r → r.FitsRxt → hasCommandType r = false → Step ub l
      { l with
        board := { l.board with chip := l.board.chip.arrive r }
        origin := l.origin ++ [none] }
  /-- Anything the board does by itself; what it sends goes to the host. -/
  | work {l : Loop} {b : Board} {fs new : List (List (BitVec 8))} : Delivery.Step l.board b →
      b.chip.arrived = l.board.chip.arrived →
      b.chip.nic.tx.sent = l.board.chip.nic.tx.sent ++ fs → List.Forall₂ Padded fs new →
      Step ub l
      { l with board := b, toHost := l.toHost ++ wires l.board.chip.nic.tx.sent.length new }
  | deliver {l : Loop} {x : Wire} {xs : List Wire} : l.toHost = x :: xs → Step ub l
      { l with toHost := xs, queue := l.queue ++ [x] }
  | loseReply {l : Loop} {x : Wire} {xs : List Wire} : l.toHost = x :: xs → Step ub l
      { l with toHost := xs, lost := l.lost ++ (callOf l.origin x).toList }
  | foreign {l : Loop} (f : List (BitVec 8)) : isReplyFrame f = false → Step ub l
      { l with queue := l.queue ++ [⟨none, f⟩] }
  /-- `recvfrom` returns a frame, and the call returns. -/
  | recv {l : Loop} {x : Wire} {xs : List Wire} : l.waiting = true → l.queue = x :: xs → Step ub l
      { l with
        host := De2.doWorkRecv (.frame x.bytes) l.host
        waiting := false
        queue := xs
        taken := l.taken ++ [x] }
  /-- `recvfrom` fails, and the call returns. -/
  | fail {l : Loop} : l.waiting = true → Step ub l
      { l with
        host := De2.doWorkRecv .failed l.host
        waiting := false
        failed := l.failed + 1 }

inductive Reachable (ub : FVal → BitVec 32) : Loop → Prop where
  | boot (host : De2.Host) (n : Nic) (m : HelloLed.Main) : De2.CmdBuf host.buf → Fresh n →
      m.g = .init →
      Reachable ub ⟨host, false, [], [], ⟨⟨n, []⟩, m, none, []⟩, [], [], [], [], 0, []⟩
  | step {l l' : Loop} : Reachable ub l → Step ub l l' → Reachable ub l'

variable {ub : FVal → BitVec 32} {l l' : Loop}

/-- The calls that have come back without a reply. -/
def Loop.wasted (l : Loop) : ℕ := l.taken.countP (fun x => !x.isReply) + l.failed

theorem Reachable.run (h : Reachable ub l) (hruns : Relation.ReflTransGen (Step ub) l l') :
    Reachable ub l' := by
  induction hruns with
  | refl => exact h
  | tail _ hs ih => exact ih.step hs

/-! ## §3  Where the frames come from -/

/-- A frame at the board is the one a call has sent, or no command. -/
def ComesFrom (asked : List Buffer) (r : RxRecord) : Option ℕ → Prop
  | none => Plain r ∧ hasCommandType r = false
  | some k => ∃ buf, asked[k]? = some buf ∧ De2.CmdBuf buf ∧ Carried buf r

/-- A frame for the host is the one the board has sent at its place, or no
reply. -/
def Sent (sent : List (List (BitVec 8))) (x : Wire) : Prop :=
  match x.place with
  | none => x.isReply = false
  | some j => ∃ f, sent[j]? = some f ∧ Padded f x.bytes

namespace ComesFrom

variable {asked : List Buffer} {r : RxRecord} {o : Option ℕ}

theorem plain (h : ComesFrom asked r o) : Plain r ∧ hasCommandType r = o.isSome := by
  cases o with
  | none => exact h
  | some k =>
      obtain ⟨buf, -, hbuf, hcarried⟩ := h
      exact ⟨(hcarried.plain hbuf).2, (hcarried.plain hbuf).1⟩

theorem snoc (h : ComesFrom asked r o) (buf : Buffer) : ComesFrom (asked ++ [buf]) r o := by
  cases o with
  | none => exact h
  | some k =>
      obtain ⟨buf', hask, hrest⟩ := h
      refine ⟨buf', ?_, hrest⟩
      exact (List.getElem?_append_left (List.getElem?_eq_some_iff.mp hask).1).trans hask

end ComesFrom

theorem Sent.append {sent : List (List (BitVec 8))} {x : Wire} (h : Sent sent x)
    (fs : List (List (BitVec 8))) : Sent (sent ++ fs) x := by
  unfold Sent at h ⊢
  split
  · rename_i hplace
    rwa [hplace] at h
  · rename_i j hplace
    rw [hplace] at h
    obtain ⟨f, hf, hpad⟩ := h
    exact ⟨f, (List.getElem?_append_left (List.getElem?_eq_some_iff.mp hf).1).trans hf, hpad⟩

theorem Sent.of_wires {sent fs new : List (List (BitVec 8))} (h : List.Forall₂ Padded fs new) :
    ∀ x ∈ wires sent.length new, Sent (sent ++ fs) x := by
  induction h generalizing sent with
  | nil => exact List.forall_mem_nil _
  | @cons f y fs new hpad _ ih =>
      intro x hx
      rcases List.mem_cons.mp hx with rfl | hx
      · exact ⟨f, by rw [List.getElem?_append_right le_rfl, Nat.sub_self]; rfl, hpad⟩
      · have hrest := @ih (sent ++ [f]) x (by rwa [List.length_append])
        rwa [List.append_assoc] at hrest

/-- All frames for the host: taken, waiting, on their way. -/
def Loop.frames (l : Loop) : List Wire := l.taken ++ (l.queue ++ l.toHost)

theorem Loop.toHost_subset (l : Loop) : l.toHost ⊆ l.frames := fun _ hx =>
  List.mem_append_right _ (List.mem_append_right _ hx)

theorem Loop.queue_subset (l : Loop) : l.queue ⊆ l.frames := fun _ hx =>
  List.mem_append_right _ (List.mem_append_left _ hx)

/-- Each frame is what its source has sent. -/
structure Inv (l : Loop) : Prop where
  board : Delivery.Reachable l.board
  cmdBuf : De2.CmdBuf l.host.buf
  asked : ∀ buf ∈ l.asked, De2.CmdBuf buf
  origin : List.Forall₂ (ComesFrom l.asked) l.board.chip.arrived l.origin
  frames : ∀ x ∈ l.frames, Sent l.board.chip.nic.tx.sent x

theorem buf_doWorkRecv (r : De2.Received) (h : De2.Host) : (De2.doWorkRecv r h).buf = h.buf := by
  unfold De2.doWorkRecv
  split
  · rfl
  · rfl
  · split_ifs <;> rfl

/-- The arrivals and their origins go together. -/
theorem Inv.arrivals (h : Inv l) : ∀ r ∈ l.board.chip.arrived, Plain r := by
  intro r hr
  obtain ⟨j, hj⟩ := List.mem_iff_getElem?.mp hr
  obtain ⟨o, -, ho⟩ := exists_of_forall₂ (List.Forall₂.flip h.origin) hj
  exact (ComesFrom.plain ho).1

theorem inv_step (h : Inv l) (hs : Step ub l l') : Inv l' := by
  obtain ⟨hboard, hbuf, hasked, horigin, hframes⟩ := h
  unfold Loop.frames at hframes
  cases hs with
  | send c _ =>
      have hbuf' : De2.CmdBuf (De2.doWorkSend ub { l.host with inst := c }).buf := .encode _ _ hbuf
      refine ⟨hboard, hbuf', ?_, horigin.imp fun _ _ ho => ho.snoc _, hframes⟩
      exact List.forall_mem_append.mpr ⟨hasked, List.forall_mem_singleton.mpr hbuf'⟩
  | @reach k ks buf r hwire hask hr =>
      refine ⟨hboard.step (.arrive r hr.fitsRxt), hbuf, hasked, ?_, hframes⟩
      refine List.rel_append horigin (.cons ⟨buf, hask, ?_, hr⟩ .nil)
      exact hasked buf (List.mem_of_getElem? hask)
  | loseCommand _ => exact ⟨hboard, hbuf, hasked, horigin, hframes⟩
  | stray r hr hfits htype =>
      refine ⟨hboard.step (.arrive r hfits), hbuf, hasked, ?_, hframes⟩
      exact List.rel_append horigin (.cons ⟨hr, htype⟩ .nil)
  | @work b fs new hstep harrived hsent hnew =>
      refine ⟨hboard.step hstep, hbuf, hasked, harrived ▸ horigin, ?_⟩
      show ∀ x ∈ l.taken ++ (l.queue ++ (l.toHost ++ wires _ new)), Sent b.chip.nic.tx.sent x
      rw [hsent, ← List.append_assoc l.queue, ← List.append_assoc l.taken, List.forall_mem_append]
      exact ⟨fun x hx => (hframes x hx).append fs, Sent.of_wires hnew⟩
  | deliver hlink =>
      refine ⟨hboard, hbuf, hasked, horigin, ?_⟩
      rw [hlink] at hframes
      unfold Loop.frames
      rwa [List.append_assoc l.queue]
  | loseReply hlink =>
      refine ⟨hboard, hbuf, hasked, horigin, fun x hx => hframes x ?_⟩
      rw [hlink]
      unfold Loop.frames at hx
      simp only [List.mem_append, List.mem_cons] at hx ⊢
      tauto
  | foreign f hf =>
      refine ⟨hboard, hbuf, hasked, horigin, ?_⟩
      unfold Loop.frames
      simp only [List.forall_mem_append, List.forall_mem_singleton] at hframes ⊢
      exact ⟨hframes.1, ⟨hframes.2.1, hf⟩, hframes.2.2⟩
  | @recv x xs _ hqueue =>
      refine ⟨hboard, ?_, hasked, horigin, ?_⟩
      · show De2.CmdBuf (De2.doWorkRecv (.frame x.bytes) l.host).buf
        rw [buf_doWorkRecv]
        exact hbuf
      · rw [hqueue] at hframes
        unfold Loop.frames
        rwa [List.append_assoc l.taken]
  | fail _ => exact ⟨hboard, hbuf, hasked, horigin, hframes⟩

theorem inv_of_reachable (h : Reachable ub l) : Inv l := by
  induction h with
  | boot host n m hbuf hfresh hm =>
      exact ⟨.boot n m hfresh hm, hbuf, List.forall_mem_nil _, .nil, List.forall_mem_nil _⟩
  | step _ hs ih => exact inv_step ih hs

/-- The frame sent at a place answers the frame that arrived at that place, and
is a reply if a call has sent that one. -/
theorem Inv.answer (h : Inv l) {j : ℕ} {f : List (BitVec 8)}
    (hf : l.board.chip.nic.tx.sent[j]? = some f) :
    ∃ r o, l.board.chip.arrived[j]? = some r ∧ l.origin[j]? = some o ∧ ComesFrom l.asked r o ∧
      Answer r f ∧ ∀ pad, isReplyFrame (f ++ pad) = o.isSome := by
  obtain ⟨r, hr, hanswer⟩ := answer_at h.board hf
  obtain ⟨o, ho, hcomes⟩ := exists_of_forall₂ (List.Forall₂.flip h.origin) hr
  obtain ⟨hplain, htype⟩ := ComesFrom.plain hcomes
  refine ⟨r, o, hr, ho, hcomes, hanswer, fun pad => ?_⟩
  rw [hanswer.isReplyFrame_eq hplain pad, htype]

/-- **The replies are the frames that answer a call.** -/
theorem Inv.isReply_eq (h : Inv l) {x : Wire} (hx : x ∈ l.frames) :
    x.isReply = (callOf l.origin x).isSome := by
  have hx := h.frames x hx
  obtain ⟨place, bytes⟩ := x
  cases place with
  | none => exact hx
  | some j =>
      obtain ⟨f, hf, pad, rfl⟩ := hx
      obtain ⟨r, o, -, ho, -, -, hreply⟩ := h.answer hf
      show isReplyFrame (f ++ pad) = (l.origin[j]?).join.isSome
      rw [hreply, ho]
      rfl

theorem Inv.length_sent_le (h : Inv l) :
    l.board.chip.nic.tx.sent.length ≤ l.origin.length := by
  obtain ⟨done, waiting, harrived, hanswers⟩ := answers_of_board h.board
  rw [← h.origin.length_eq, harrived, List.length_append, hanswers.length_eq]
  exact Nat.le_add_right _ _

/-! ## §4  The order of the calls -/

/-- The calls whose frames have reached the board. -/
def Loop.reached (l : Loop) : List ℕ := l.origin.filterMap id

/-- The calls from the host's past to the board: those whose answers have been
taken or are on their way, those whose frames wait at the board, those whose
frames are on their way there. -/
def Loop.line (l : Loop) : List ℕ :=
  l.frames.filterMap (callOf l.origin) ++
    ((l.origin.drop l.board.chip.nic.tx.sent.length).filterMap id ++ l.toBoard)

/-- Every call has taken a frame, or failed, or is waiting; the calls stand in
line in their order; and none is missing there but the lost ones. -/
structure Order (l : Loop) : Prop where
  balance : l.taken.length + l.failed + l.waiting.toNat = l.asked.length
  reached : (l.reached ++ l.toBoard).Pairwise (· < ·)
  line : l.line.Pairwise (· < ·)
  calls : (l.line ++ l.lost).Perm (List.range l.asked.length)

/-- A frame more at the board changes nothing for the frames it has sent. -/
theorem callOf_append (h : Inv l) {x : Wire} (hx : x ∈ l.frames) (o : Option ℕ) :
    callOf (l.origin ++ [o]) x = callOf l.origin x := by
  obtain ⟨place, bytes⟩ := x
  have hsent := h.frames _ hx
  cases place with
  | none => rfl
  | some j =>
      obtain ⟨f, hf, -⟩ := hsent
      have hlt := (List.getElem?_eq_some_iff.mp hf).1.trans_le h.length_sent_le
      show ((l.origin ++ [o])[j]?).join = (l.origin[j]?).join
      rw [List.getElem?_append_left hlt]

/-- The frames sent at some places answer the calls of these places. -/
theorem filterMap_callOf_wires {origin : List (Option ℕ)} {n : ℕ} {xs : List (List (BitVec 8))}
    (h : n + xs.length ≤ origin.length) :
    (wires n xs).filterMap (callOf origin) = ((origin.drop n).take xs.length).filterMap id := by
  induction xs generalizing n with
  | nil => rfl
  | cons x xs ih =>
      rw [List.length_cons] at h ⊢
      have hlt : n < origin.length := by omega
      have hcall : callOf origin ⟨some n, x⟩ = origin[n] := by
        show (origin[n]?).join = _
        rw [List.getElem?_eq_getElem hlt]
        rfl
      rw [List.drop_eq_getElem_cons hlt, List.take_succ_cons, List.filterMap_cons (f := id),
        ← ih (by omega), wires, List.filterMap_cons, hcall]
      rfl

/-- What stands in line are calls. -/
theorem Order.line_lt (h : Order l) : ∀ k ∈ l.line, k < l.asked.length := by
  intro k hk
  exact List.mem_range.mp (h.calls.subset (List.mem_append_left _ hk))

theorem Inv.reached_lt (h : Inv l) : ∀ k ∈ l.reached, k < l.asked.length := by
  intro k hk
  obtain ⟨o, ho, rfl⟩ := List.mem_filterMap.mp hk
  obtain ⟨j, hj⟩ := List.mem_iff_getElem?.mp ho
  obtain ⟨r, -, buf, hask, -⟩ := exists_of_forall₂ h.origin hj
  exact (List.getElem?_eq_some_iff.mp hask).1

theorem pairwise_snoc {ks : List ℕ} {n : ℕ} (h : ks.Pairwise (· < ·)) (hlt : ∀ k ∈ ks, k < n) :
    (ks ++ [n]).Pairwise (· < ·) := by
  refine List.pairwise_append.mpr ⟨h, List.pairwise_singleton _ n, fun k hk m hm => ?_⟩
  rw [List.mem_singleton.mp hm]
  exact hlt k hk

theorem filterMap_cons_toList {α β : Type} (f : α → Option β) (x : α) (xs : List α) :
    (x :: xs).filterMap f = (f x).toList ++ xs.filterMap f := by
  cases hx : f x with
  | none => exact List.filterMap_cons_none hx
  | some y => exact List.filterMap_cons_some hx

/-- A call begins: it is the last in line. -/
theorem order_send (h : Order l) (hinv : Inv l) (host : De2.Host) (buf : Buffer)
    (hidle : l.waiting = false) : Order { l with
      host := host, waiting := true, asked := l.asked ++ [buf]
      toBoard := l.toBoard ++ [l.asked.length] } := by
  obtain ⟨hbal, hreached, hline, hcalls⟩ := id h
  have hlast : Loop.line { l with
      host := host, waiting := true, asked := l.asked ++ [buf]
      toBoard := l.toBoard ++ [l.asked.length] } = l.line ++ [l.asked.length] := by
    unfold Loop.line
    rw [List.append_assoc, List.append_assoc]
    rfl
  refine ⟨?_, ?_, ?_, ?_⟩
  · rw [hidle, Bool.toNat_false, Nat.add_zero] at hbal
    show l.taken.length + l.failed + 1 = (l.asked ++ [buf]).length
    rw [List.length_append, hbal]
    rfl
  · show (l.reached ++ (l.toBoard ++ [l.asked.length])).Pairwise (· < ·)
    rw [← List.append_assoc]
    refine pairwise_snoc hreached (List.forall_mem_append.mpr ⟨hinv.reached_lt, fun k hk => ?_⟩)
    exact h.line_lt k (List.mem_append_right _ (List.mem_append_right _ hk))
  · rw [hlast]
    exact pairwise_snoc hline h.line_lt
  · rw [hlast]
    show (l.line ++ [l.asked.length] ++ l.lost).Perm (List.range (l.asked ++ [buf]).length)
    rw [List.length_append, List.length_singleton, List.range_succ, List.append_assoc]
    refine (List.perm_append_comm.append_left l.line).trans ?_
    rw [← List.append_assoc]
    exact hcalls.append_right _

/-- **What is lost leaves the line**, and the others keep their order. -/
theorem order_lose (h : Order l) (front ks back : List ℕ) (hline : l.line = front ++ (ks ++ back))
    (hline' : l'.line = front ++ back) (hlost : l'.lost = l.lost ++ ks)
    (hasked : l'.asked = l.asked)
    (hreached : (l'.reached ++ l'.toBoard).Sublist (l.reached ++ l.toBoard))
    (hbal : l'.taken = l.taken ∧ l'.failed = l.failed ∧ l'.waiting = l.waiting) : Order l' := by
  refine ⟨?_, h.reached.sublist hreached, ?_, ?_⟩
  · rw [hbal.1, hbal.2.1, hbal.2.2, hasked]
    exact h.balance
  · rw [hline']
    refine h.line.sublist ?_
    rw [hline]
    exact (List.sublist_append_right ks back).append_left front
  · have hcalls := h.calls
    rw [hline] at hcalls
    rw [hline', hlost, hasked]
    refine List.Perm.trans ?_ hcalls
    rw [List.append_assoc, List.append_assoc, List.append_assoc, ← List.append_assoc back]
    exact List.perm_append_comm.append_left front

/-- The other steps leave the line as it is. -/
theorem order_same (h : Order l) (hline : l'.line = l.line)
    (hreached : l'.reached ++ l'.toBoard = l.reached ++ l.toBoard) (hlost : l'.lost = l.lost)
    (hasked : l'.asked = l.asked)
    (hbal : l'.taken.length + l'.failed + l'.waiting.toNat =
      l.taken.length + l.failed + l.waiting.toNat) : Order l' := by
  refine ⟨?_, ?_, ?_, ?_⟩
  · rw [hbal, hasked]
    exact h.balance
  · rw [hreached]
    exact h.reached
  · rw [hline]
    exact h.line
  · rw [hline, hlost, hasked]
    exact h.calls

/-- A frame arrives at the board: its call waits there now. -/
theorem line_arrive (h : Inv l) {ks : List ℕ} {o : Option ℕ} (r : RxRecord)
    (hks : l.toBoard = o.toList ++ ks) :
    Loop.line { l with
      toBoard := ks
      board := { l.board with chip := l.board.chip.arrive r }
      origin := l.origin ++ [o] } = l.line := by
  have hfront : l.frames.filterMap (callOf (l.origin ++ [o])) =
      l.frames.filterMap (callOf l.origin) :=
    List.filterMap_congr fun x hx => callOf_append h hx o
  unfold Loop.line
  show l.frames.filterMap (callOf (l.origin ++ [o])) ++
    (((l.origin ++ [o]).drop l.board.chip.nic.tx.sent.length).filterMap id ++ ks) = _
  rw [hfront, List.drop_append_of_le_length h.length_sent_le, List.filterMap_append,
    filterMap_cons_toList, List.filterMap_nil, hks, List.append_nil, List.append_assoc]
  rfl

/-- The board has answered some of the frames that waited. -/
theorem line_work (h : Inv l) {b : Board} {fs new : List (List (BitVec 8))}
    (hb : Delivery.Reachable b) (harrived : b.chip.arrived = l.board.chip.arrived)
    (hsent : b.chip.nic.tx.sent = l.board.chip.nic.tx.sent ++ fs)
    (hnew : List.Forall₂ Padded fs new) :
    Loop.line { l with
      board := b, toHost := l.toHost ++ wires l.board.chip.nic.tx.sent.length new } = l.line := by
  have hlength : l.board.chip.nic.tx.sent.length + new.length ≤ l.origin.length := by
    have hle := Inv.length_sent_le
      (l := { l with board := b, toHost := [], queue := [], taken := [] })
      ⟨hb, h.cmdBuf, h.asked, harrived ▸ h.origin, List.forall_mem_nil _⟩
    have hle' : b.chip.nic.tx.sent.length ≤ l.origin.length := hle
    rwa [hsent, List.length_append, hnew.length_eq] at hle'
  unfold Loop.line Loop.frames
  show (l.taken ++ (l.queue ++ (l.toHost ++ wires _ new))).filterMap (callOf l.origin) ++
    ((l.origin.drop b.chip.nic.tx.sent.length).filterMap id ++ l.toBoard) = _
  rw [hsent, List.length_append, hnew.length_eq, ← List.append_assoc l.queue,
    ← List.append_assoc l.taken, List.filterMap_append (l := l.taken ++ (l.queue ++ l.toHost)),
    filterMap_callOf_wires hlength, List.append_assoc (List.filterMap _ _),
    ← List.append_assoc (List.filterMap id _), ← List.filterMap_append, ← List.drop_drop,
    List.take_append_drop]

theorem order_step (h : Order l) (hinv : Inv l) (hs : Step ub l l') : Order l' := by
  cases hs with
  | send c hidle => exact order_send h hinv _ _ hidle
  | @reach k ks buf r hwire _ _ =>
      refine order_same h (line_arrive hinv r hwire) ?_ rfl rfl rfl
      show (l.origin ++ [some k]).filterMap id ++ ks = l.reached ++ l.toBoard
      rw [hwire, List.filterMap_append, List.append_assoc]
      rfl
  | @loseCommand k ks hwire =>
      refine order_lose h (l.frames.filterMap (callOf l.origin) ++
        (l.origin.drop l.board.chip.nic.tx.sent.length).filterMap id) [k] ks ?_ ?_ rfl rfl ?_
        ⟨rfl, rfl, rfl⟩
      · rw [Loop.line, hwire, List.append_assoc]
        rfl
      · rw [List.append_assoc]
        rfl
      · rw [hwire]
        exact (List.sublist_cons_self k ks).append_left l.reached
  | stray r _ _ _ =>
      refine order_same h (line_arrive hinv r rfl) ?_ rfl rfl rfl
      show (l.origin ++ [none]).filterMap id ++ l.toBoard = l.reached ++ l.toBoard
      rw [List.filterMap_append]
      exact congrArg (· ++ l.toBoard) (List.append_nil _)
  | work hstep harrived hsent hnew =>
      have hline := line_work hinv (hinv.board.step hstep) harrived hsent hnew
      exact order_same h hline rfl rfl rfl rfl
  | @deliver x xs hlink =>
      refine order_same h ?_ rfl rfl rfl rfl
      unfold Loop.line Loop.frames
      rw [hlink, List.append_assoc l.queue]
      rfl
  | @loseReply x xs hlink =>
      refine order_lose h ((l.taken ++ l.queue).filterMap (callOf l.origin))
        (callOf l.origin x).toList (xs.filterMap (callOf l.origin) ++
          ((l.origin.drop l.board.chip.nic.tx.sent.length).filterMap id ++ l.toBoard)) ?_ ?_ rfl rfl
        (List.Sublist.refl _) ⟨rfl, rfl, rfl⟩
      · unfold Loop.line Loop.frames
        rw [hlink, ← List.append_assoc l.taken, List.filterMap_append, filterMap_cons_toList,
          List.append_assoc, List.append_assoc]
      · unfold Loop.line Loop.frames
        rw [← List.append_assoc l.taken, List.filterMap_append, List.append_assoc]
  | foreign f _ =>
      refine order_same h ?_ rfl rfl rfl rfl
      have hnone : callOf l.origin ⟨none, f⟩ = none := rfl
      unfold Loop.line Loop.frames
      simp [List.filterMap_append, hnone]
  | @recv x xs hwait hqueue =>
      refine order_same h ?_ rfl rfl rfl ?_
      · unfold Loop.line Loop.frames
        rw [hqueue, List.append_assoc l.taken]
        rfl
      · show (l.taken ++ [x]).length + l.failed + 0 = _
        rw [hwait, Bool.toNat_true, List.length_append, List.length_singleton]
        omega
  | fail hwait =>
      refine order_same h rfl rfl rfl rfl ?_
      show l.taken.length + (l.failed + 1) + 0 = _
      rw [hwait, Bool.toNat_true]
      omega

theorem order_of_reachable (h : Reachable ub l) : Order l := by
  induction h with
  | boot host n m _ _ _ =>
      have hline : Loop.line ⟨host, false, [], [], ⟨⟨n, []⟩, m, none, []⟩, [], [], [], [], 0, []⟩ =
          [] := by
        show (([] : List (Option ℕ)).drop _).filterMap id ++ [] = []
        rw [List.drop_nil]
        rfl
      refine ⟨rfl, .nil, ?_, ?_⟩
      · rw [hline]
        exact .nil
      · rw [hline]
        exact .nil
  | step hl hs ih => exact order_step ih (inv_of_reachable hl) hs

/-! ## §5  The loop refines `HostSync` -/

section Simulation

open HostSync (World Frame)

/-- The same frame, with the same call, which `HostSync` numbers from 1. -/
def Reads (origin : List (Option ℕ)) (F : Frame) (x : Wire) : Prop :=
  F.bytes = x.bytes ∧ F.call = (callOf origin x).map (· + 1)

/-- The link of `HostSync` has no frames but replies on the board's side. -/
structure Matches (w : World) (l : Loop) : Prop where
  host : w.host = l.host
  calls : w.calls = l.asked.length
  waiting : w.waiting = l.waiting
  failed : w.failed = l.failed
  taken : List.Forall₂ (Reads l.origin) w.taken l.taken
  queue : List.Forall₂ (Reads l.origin) w.queue l.queue
  toHost : List.Forall₂ (Reads l.origin) w.toHost (l.toHost.filter Wire.isReply)
  toBoard : w.toBoard =
    ((l.origin.drop l.board.chip.nic.tx.sent.length).filterMap id ++ l.toBoard).map (· + 1)

variable {w : World}

/-- The board of `HostSync` sends the replies of a list of frames. -/
theorem exists_answered (hw : HostSync.Reachable ub w) {origin : List (Option ℕ)} {xs : List Wire}
    (hxs : ∀ x ∈ xs, x.isReply = (callOf origin x).isSome) {ks : List ℕ}
    (hboard : w.toBoard = (xs.filterMap (callOf origin) ++ ks).map (· + 1)) :
    ∃ new, HostSync.Reachable ub
        { w with toBoard := ks.map (· + 1), toHost := w.toHost ++ new } ∧
      List.Forall₂ (Reads origin) new (xs.filter Wire.isReply) := by
  induction xs generalizing w with
  | nil =>
      refine ⟨[], ?_, .nil⟩
      rw [List.append_nil, show ks.map (· + 1) = w.toBoard from hboard.symm]
      exact hw
  | cons x xs ih =>
      obtain ⟨hx, hrest⟩ := List.forall_mem_cons.mp hxs
      cases hcall : callOf origin x with
      | none =>
          rw [hcall, Option.isSome_none] at hx
          rw [List.filterMap_cons_none hcall] at hboard
          rw [List.filter_cons_of_neg (by simp [hx])]
          exact ih hw hrest hboard
      | some k =>
          rw [hcall, Option.isSome_some] at hx
          rw [List.filterMap_cons_some hcall] at hboard
          obtain ⟨new, hreach, hnew⟩ := ih (hw.step (.answer x.bytes hx hboard)) hrest rfl
          refine ⟨.reply (k + 1) x.bytes hx :: new, ?_, ?_⟩
          · rwa [List.append_assoc] at hreach
          · rw [List.filter_cons_of_pos hx]
            exact .cons ⟨rfl, by rw [hcall]; rfl⟩ hnew

/-- A frame more at the board changes nothing for the frames of `HostSync`. -/
theorem reads_append (h : Inv l) (o : Option ℕ) {Fs : List Frame} {xs : List Wire}
    (hxs : ∀ x ∈ xs, x ∈ l.frames) (hreads : List.Forall₂ (Reads l.origin) Fs xs) :
    List.Forall₂ (Reads (l.origin ++ [o])) Fs xs := by
  induction hreads with
  | nil => exact .nil
  | cons hx _ ih =>
      obtain ⟨hmem, hrest⟩ := List.forall_mem_cons.mp hxs
      exact .cons ⟨hx.1, by rw [callOf_append h hmem, hx.2]⟩ (ih hrest)

/-- A frame arrives at the board: `HostSync` stays where it is. -/
theorem matches_arrive (hm : Matches w l) (h : Inv l) {ks : List ℕ} {o : Option ℕ}
    (r : RxRecord) (hks : l.toBoard = o.toList ++ ks) :
    Matches w { l with
      toBoard := ks
      board := { l.board with chip := l.board.chip.arrive r }
      origin := l.origin ++ [o] } := by
  obtain ⟨hhost, hcalls, hwaiting, hfailed, htaken, hqueue, htoHost, htoBoard⟩ := hm
  refine ⟨hhost, hcalls, hwaiting, hfailed, reads_append h o ?_ htaken,
    reads_append h o ?_ hqueue, reads_append h o ?_ htoHost, ?_⟩
  · exact fun x hx => List.mem_append_left _ hx
  · exact fun x hx => l.queue_subset hx
  · exact fun x hx => l.toHost_subset (List.mem_filter.mp hx).1
  · show w.toBoard = (((l.origin ++ [o]).drop l.board.chip.nic.tx.sent.length).filterMap id ++
      ks).map (· + 1)
    rw [htoBoard, List.drop_append_of_le_length h.length_sent_le, List.filterMap_append,
      filterMap_cons_toList, List.filterMap_nil, hks, List.append_nil, List.append_assoc]
    rfl

/-- **A step of the loop that loses nothing is some steps of `HostSync`.** -/
theorem matches_step (hw : HostSync.Reachable ub w) (hm : Matches w l) (hinv : Inv l)
    (hs : Step ub l l') (hlost : l'.lost = []) :
    ∃ w', HostSync.Reachable ub w' ∧ Matches w' l' := by
  obtain ⟨hhost, hcalls, hwaiting, hfailed, htaken, hqueue, htoHost, htoBoard⟩ := id hm
  cases hs with
  | send c hidle =>
      refine ⟨_, hw.step (.send c (hwaiting.trans hidle)), ?_, ?_, rfl, hfailed, htaken, hqueue,
        htoHost, ?_⟩
      · rw [hhost]
      · rw [hcalls, List.length_append]
        rfl
      · have hsnoc : ∀ (ks : List ℕ) n, (ks ++ [n]).map (· + 1) = ks.map (· + 1) ++ [n + 1] :=
          fun _ _ => List.map_append
        show w.toBoard ++ [w.calls + 1] = (_ ++ (l.toBoard ++ [l.asked.length])).map (· + 1)
        rw [htoBoard, hcalls, ← List.append_assoc, hsnoc]
  | reach r hwire _ _ => exact ⟨w, hw, matches_arrive hm hinv r hwire⟩
  | loseCommand _ => exact absurd hlost (by simp)
  | stray r _ _ _ => exact ⟨w, hw, matches_arrive hm hinv r rfl⟩
  | @work b fs new hstep harrived hsent hnew =>
      -- what stands in line is the same, so the frames sent answer the first that wait
      have hworked : Step ub l _ := .work hstep harrived hsent hnew
      have hinv' := inv_step hinv hworked
      have hlength : l.board.chip.nic.tx.sent.length + new.length ≤ l.origin.length := by
        have hle : b.chip.nic.tx.sent.length ≤ l.origin.length := hinv'.length_sent_le
        rwa [hsent, List.length_append, hnew.length_eq] at hle
      have hreplies : ∀ x ∈ wires l.board.chip.nic.tx.sent.length new,
          x.isReply = (callOf l.origin x).isSome :=
        fun x hx => hinv'.isReply_eq (Loop.toHost_subset _ (List.mem_append_right _ hx))
      rw [← List.take_append_drop new.length (l.origin.drop _), List.filterMap_append,
        ← filterMap_callOf_wires hlength, List.drop_drop, List.append_assoc] at htoBoard
      obtain ⟨replies, hreach, hsame⟩ := exists_answered hw hreplies htoBoard
      refine ⟨_, hreach, hhost, hcalls, hwaiting, hfailed, htaken, hqueue, ?_, ?_⟩
      · show List.Forall₂ _ (w.toHost ++ replies) ((l.toHost ++ wires _ new).filter Wire.isReply)
        rw [List.filter_append]
        exact List.rel_append htoHost hsame
      · show _ = ((l.origin.drop b.chip.nic.tx.sent.length).filterMap id ++ _).map (· + 1)
        rw [hsent, List.length_append, hnew.length_eq]
  | @deliver x xs hlink =>
      have hx := hinv.isReply_eq (l.toHost_subset (hlink ▸ List.mem_cons_self))
      rw [hlink] at htoHost
      cases hcall : callOf l.origin x with
      | none =>
          rw [hcall, Option.isSome_none] at hx
          rw [List.filter_cons_of_neg (by simp [hx])] at htoHost
          refine ⟨_, hw.step (.foreign x.bytes hx), hhost, hcalls, hwaiting, hfailed, htaken,
            List.rel_append hqueue (.cons ⟨rfl, ?_⟩ .nil), htoHost, htoBoard⟩
          rw [hcall]
          rfl
      | some k =>
          rw [hcall, Option.isSome_some] at hx
          rw [List.filter_cons_of_pos hx] at htoHost
          obtain ⟨F, Fs, hF, hrest, hlist⟩ := List.forall₂_cons_right_iff.mp htoHost
          exact ⟨_, hw.step (.deliver hlist), hhost, hcalls, hwaiting, hfailed, htaken,
            List.rel_append hqueue (.cons hF .nil), hrest, htoBoard⟩
  | @loseReply x xs hlink =>
      have hx := hinv.isReply_eq (l.toHost_subset (hlink ▸ List.mem_cons_self))
      have hnone : callOf l.origin x = none := by
        obtain ⟨-, hnil⟩ := List.append_eq_nil_iff.mp hlost
        exact Option.toList_eq_nil_iff.mp hnil
      rw [hnone, Option.isSome_none] at hx
      rw [hlink, List.filter_cons_of_neg (by simp [hx])] at htoHost
      exact ⟨w, hw, hhost, hcalls, hwaiting, hfailed, htaken, hqueue, htoHost, htoBoard⟩
  | foreign f hf =>
      exact ⟨_, hw.step (.foreign f hf), hhost, hcalls, hwaiting, hfailed, htaken,
        List.rel_append hqueue (.cons ⟨rfl, rfl⟩ .nil), htoHost, htoBoard⟩
  | @recv x xs hwait hcons =>
      rw [hcons] at hqueue
      obtain ⟨F, Fs, hF, hrest, hlist⟩ := List.forall₂_cons_right_iff.mp hqueue
      refine ⟨_, hw.step (.recv (hwaiting.trans hwait) hlist), ?_, hcalls, rfl, hfailed,
        List.rel_append htaken (.cons hF .nil), hrest, htoHost, htoBoard⟩
      rw [hF.1, hhost]
  | fail hwait =>
      refine ⟨_, hw.step (.fail (hwaiting.trans hwait)), ?_, hcalls, rfl, ?_, htaken, hqueue,
        htoHost, htoBoard⟩
      · rw [hhost]
      · rw [hfailed]

theorem lost_step (hs : Step ub l l') : l.lost <+: l'.lost := by
  cases hs with
  | loseCommand _ | loseReply _ => exact List.prefix_append _ _
  | _ => exact List.prefix_rfl

theorem exists_world (h : Reachable ub l) (hlost : l.lost = []) :
    ∃ w, HostSync.Reachable ub w ∧ Matches w l := by
  induction h with
  | boot host n m _ _ _ =>
      refine ⟨_, .boot host, rfl, rfl, rfl, rfl, .nil, .nil, .nil, ?_⟩
      show [] = ((([] : List (Option ℕ)).drop _).filterMap id ++ []).map (· + 1)
      rw [List.drop_nil]
      rfl
  | @step l l' hl hs ih =>
      obtain ⟨w, hw, hm⟩ := ih (List.prefix_nil.mp (hlost ▸ lost_step hs))
      exact matches_step hw hm (inv_of_reachable hl) hs hlost

end Simulation

/-! ## §6  Some runs -/

open IoProg Dm9000a HelloLed Relation

theorem wires_append (n : ℕ) (fs gs : List (List (BitVec 8))) :
    wires n (fs ++ gs) = wires n fs ++ wires (n + fs.length) gs := by
  induction fs generalizing n with
  | nil => rfl
  | cons f fs ih =>
      rw [List.cons_append, wires, wires, ih, List.cons_append, List.length_cons, Nat.add_assoc,
        Nat.add_comm 1]

/-- A step of the board that sends nothing. -/
theorem work_silent {b : Board} (hs : Delivery.Step l.board b)
    (harrived : b.chip.arrived = l.board.chip.arrived)
    (hsent : b.chip.nic.tx.sent = l.board.chip.nic.tx.sent) : Step ub l { l with board := b } := by
  have hwork : Step ub l { l with board := b, toHost := l.toHost ++ [] } :=
    .work hs harrived (hsent.trans (List.append_nil _).symm) .nil
  rwa [List.append_nil] at hwork

/-- The board goes along a run that the chip can answer. -/
theorem work_of_exec {p q : Fw Globals} {tr : List BusAccess}
    (hexec : exec p tr = some q) (hp : l.board.handler = some p) {n : Nic}
    (hrun : l.board.chip.nic.run tr = some n) :
    ∃ new, n.tx.sent = l.board.chip.nic.tx.sent ++ new ∧
      ReflTransGen (Step ub) l
        { l with
          board := { l.board with
            chip := ⟨n, l.board.chip.arrived⟩, handler := some q, log := l.board.log ++ tr }
          toHost := l.toHost ++ wires l.board.chip.nic.tx.sent.length new } := by
  obtain ⟨host, waiting, asked, toBoard, ⟨⟨m, arrived⟩, loop, handler, log⟩, origin, toHost,
    queue, taken, failed, lost⟩ := l
  cases hp
  refine Nic.along (R := fun p n log' => ∃ new, n.tx.sent = m.tx.sent ++ new ∧
    ReflTransGen (Step ub)
      ⟨host, waiting, asked, toBoard, ⟨⟨m, arrived⟩, loop, some _, log⟩, origin, toHost, queue,
        taken, failed, lost⟩
      ⟨host, waiting, asked, toBoard, ⟨⟨n, arrived⟩, loop, some p, log'⟩, origin,
        toHost ++ wires m.tx.sent.length new, queue, taken, failed, lost⟩) ?_ ?_ hexec hrun
  · rintro p p' x n n' log' ⟨new, hnew, hruns⟩ hstep hacc
    obtain ⟨next, hnext⟩ := sent_access n.tx x
    rw [← Nic.tx_access hacc] at hnext
    have hmore := hruns.tail (.work (.access (c := ⟨n', arrived⟩) rfl hstep ⟨hacc, rfl⟩) rfl
      hnext.symm (List.forall₂_same.mpr fun f _ => ⟨[], (List.append_nil f).symm⟩))
    refine ⟨new ++ next, by rw [← hnext, hnew, List.append_assoc], ?_⟩
    rwa [List.append_assoc, hnew, List.length_append, ← wires_append] at hmore
  · refine ⟨[], (List.append_nil _).symm, ?_⟩
    rw [wires, List.append_nil]

theorem words_samplePins : De2.words (fun _ => 0) samplePins = sampleWords := by
  have hslow : ∀ p : De2.AxisPins, p.velocityCmd = 0 → p.scale = 4000 →
      De2.per (fun _ => 0) p = 0 := by
    intro p hv hscale
    exact De2.per_of_deadband _ (by rw [hv]; norm_num) (by rw [hscale]; norm_num)
  have hcounter : De2.pwmCounter (fun _ => 0) samplePins = 50000 :=
    De2.pwmCounter_of_integral _ (N := 50000) (by norm_num [samplePins]) (by norm_num [samplePins])
      (by norm_num)
  unfold De2.words sampleWords
  rw [hslow samplePins.sg1 rfl rfl, hslow samplePins.sg2 rfl rfl, hslow samplePins.sg3 rfl rfl,
    hslow samplePins.sg4 rfl rfl, hcounter,
    De2.pwmCapture_of_integral _ hcounter (C := 0) (by norm_num [samplePins]) (by norm_num)
      (by norm_num),
    De2.per_of_integral _ (N := 5000) (by norm_num [samplePins]) (by norm_num [samplePins])
      (by norm_num [samplePins]) (by norm_num) (by norm_num)]
  rfl

/-- The board before the first frame. -/
def freshBoard : Board := ⟨⟨Nic.idle, []⟩, .start, none, []⟩

/-- The sample command reaches a board that has done nothing yet, and its reply
the socket. -/
theorem exists_answer (h : Reachable ub l) (hboard : l.board = freshBoard) {k : ℕ}
    (hwire : l.toBoard = [k]) {buf : Buffer} (hask : l.asked[k]? = some buf)
    (hcarried : Carried buf sampleRecord) (horigin : l.origin = []) (hlink : l.toHost = [])
    (hqueue : l.queue = []) :
    ∃ b x, b.log = sampleTrace ∧ x.isReply = true ∧ ReflTransGen (Step ub) l
      { l with toBoard := [], board := b, origin := [some k], queue := [x] } := by
  obtain ⟨host, waiting, asked, toBoard, board, origin, toHost, queue, taken, failed, lost⟩ := l
  obtain rfl : board = freshBoard := hboard
  obtain rfl : toBoard = [k] := hwire
  obtain rfl : origin = [] := horigin
  obtain rfl : toHost = [] := hlink
  obtain rfl : queue = [] := hqueue
  have hcmd : isCommand ((sampleRecord.answers 0).result Globals.init.rxt).dataPtr = true := by
    decide +kernel
  obtain ⟨g', hrun, -⟩ := exists_command_run .init (show (1#32) &&& 1 = 1 by decide)
    (sampleRecord.complete_answers 0) hcmd sampleReads (List.forall_mem_nil _) txDone_both
  have hchip : ((Nic.idle.arrive sampleRecord).run sampleTrace).map (fun n => n.tx.sent.length) =
      some 1 := by
    decide +kernel
  obtain ⟨n, hnic, hlength⟩ := Option.map_eq_some_iff.mp hchip
  have hirq : (Nic.idle.arrive sampleRecord).irq = true := by decide
  -- the frame reaches the board, and the handler is called
  have hreached :
      Step ub ⟨host, waiting, asked, [k], freshBoard, [], [], [], taken, failed, lost⟩ _ :=
    .reach sampleRecord rfl hask hcarried
  have hcalled := (ReflTransGen.single hreached).tail
    (work_silent (.irq rfl hirq) rfl rfl)
  -- it runs to its end
  obtain ⟨new, hnew, hworked⟩ := @work_of_exec ub ⟨host, waiting, asked, [],
    ⟨⟨Nic.idle.arrive sampleRecord, [sampleRecord]⟩, .start, some (ethernetInterrupts .init), []⟩,
    [some k], [], [], taken, failed, lost⟩ _ _ sampleTrace hrun rfl n hnic
  have hdone := (hcalled.trans hworked).tail
    (work_silent (.done rfl) rfl rfl)
  obtain ⟨f, rfl⟩ : ∃ f, new = [f] := by
    rw [hnew] at hlength
    exact List.length_eq_one_iff.mp hlength
  refine ⟨_, ⟨some 0, f⟩, rfl, ?_, hdone.tail (.deliver rfl)⟩
  have hinv := inv_of_reachable (h.run hdone)
  exact hinv.isReply_eq (x := ⟨some 0, f⟩) (Loop.toHost_subset _ List.mem_cons_self)

/-- The first call, its command on the way. -/
def firstCall : Loop where
  host := De2.doWorkSend (fun _ => 0) HostSync.freshHost
  waiting := true
  asked := [sampleFrame]
  toBoard := [0]
  board := freshBoard
  origin := []
  toHost := []
  queue := []
  taken := []
  failed := 0
  lost := []

theorem buf_firstCall : firstCall.host.buf = sampleFrame := by
  show De2.encode (De2.words (fun _ => 0) samplePins) samplePins _ = _
  rw [words_samplePins]
  rfl

theorem reachable_firstCall : Reachable (fun _ => 0) firstCall := by
  have hbuf : (De2.doWorkSend (fun _ => 0) HostSync.freshHost).buf = sampleFrame := buf_firstCall
  have hboot : Reachable (fun _ => 0) _ :=
    .boot HostSync.freshHost Nic.idle .start (De2.CmdBuf.init fun _ => 0) ⟨rfl, rfl, rfl, rfl⟩ rfl
  have hsent := hboot.step (.send samplePins rfl)
  rwa [show { HostSync.freshHost with inst := samplePins } = HostSync.freshHost from rfl, hbuf]
    at hsent

theorem carried_sample : Carried sampleFrame sampleRecord :=
  ⟨plain_sample.good, [0, 0, 0, 0], rfl, rfl⟩

/-- The first call, answered. -/
theorem exists_first_answer :
    ∃ l x, Reachable (fun _ => 0) l ∧ l.waiting = true ∧ l.queue = [x] ∧ x.isReply = true ∧
      l.host = firstCall.host ∧ l.asked.length = 1 ∧ l.lost = [] ∧ l.board.log = sampleTrace := by
  obtain ⟨b, x, hlog, hreply, hruns⟩ :=
    exists_answer reachable_firstCall rfl rfl rfl carried_sample rfl rfl rfl
  exact ⟨_, x, reachable_firstCall.run hruns, rfl, rfl, hreply, rfl, rfl, rfl, hlog⟩

/-- The frame of the first call is lost; it comes back without a reply, and the
second call is answered. -/
theorem exists_second_answer :
    ∃ l x, Reachable (fun _ => 0) l ∧ l.waiting = true ∧ l.queue = [x] ∧ x.isReply = true ∧
      l.asked.length = 2 ∧ l.lost = [0] ∧ l.wasted = 1 := by
  have hback := (reachable_firstCall.step (.loseCommand rfl)).step (.fail rfl)
  have hsecond := hback.step (.send samplePins rfl)
  have hcarried : Carried (De2.encode sampleWords samplePins sampleFrame) sampleRecord :=
    ⟨plain_sample.good, [0, 0, 0, 0], rfl, by decide +kernel⟩
  have hbuf : (De2.encode (De2.words (fun _ => 0) samplePins) samplePins firstCall.host.buf) =
      De2.encode sampleWords samplePins sampleFrame := by
    rw [words_samplePins, buf_firstCall]
  obtain ⟨b, x, -, hreply, hruns⟩ :=
    exists_answer hsecond rfl rfl (congrArg some hbuf) hcarried rfl rfl rfl
  exact ⟨_, x, hsecond.run hruns, rfl, rfl, hreply, rfl, rfl, rfl⟩

/-! ## §7  Whose reply a call uses -/

/-- `x` is what the board has sent for the frame of call `k`: it is the frame
sent at some place, and at this place the frame of call `k` has arrived. -/
def RepliesTo (l : Loop) (x : Wire) (k : ℕ) : Prop :=
  ∃ j f r buf, x.place = some j ∧ l.board.chip.nic.tx.sent[j]? = some f ∧ Padded f x.bytes ∧
    l.board.chip.arrived[j]? = some r ∧ l.origin[j]? = some (some k) ∧ l.asked[k]? = some buf ∧
    Carried buf r ∧ Answer r f

theorem RepliesTo.callOf_eq {x : Wire} {k : ℕ} (h : RepliesTo l x k) :
    callOf l.origin x = some k := by
  obtain ⟨j, -, -, -, hplace, -, -, -, horigin, -⟩ := h
  rw [callOf, hplace, Option.bind_some, horigin]
  rfl

/-- A frame answers one call at most. -/
theorem RepliesTo.unique {x : Wire} {k k' : ℕ} (h : RepliesTo l x k) (h' : RepliesTo l x k') :
    k = k' := Option.some.inj (h.callOf_eq.symm.trans h'.callOf_eq)

theorem Inv.exists_repliesTo (h : Inv l) {x : Wire} (hx : x ∈ l.frames)
    (hreply : x.isReply = true) : ∃ k, RepliesTo l x k := by
  have hsent := h.frames x hx
  obtain ⟨k, hk⟩ := Option.isSome_iff_exists.mp ((h.isReply_eq hx).symm.trans hreply)
  obtain ⟨place, bytes⟩ := x
  cases place with
  | none => exact absurd hk (by simp [callOf])
  | some j =>
      obtain ⟨f, hf, hpad⟩ := hsent
      obtain ⟨r, o, hr, ho, hcomes, hanswer, -⟩ := h.answer hf
      have hcall : (l.origin[j]?).join = some k := hk
      rw [ho] at hcall
      obtain rfl : o = some k := hcall
      obtain ⟨buf, hask, -, hcarried⟩ := hcomes
      exact ⟨k, j, f, r, buf, rfl, hf, hpad, hr, ho, hask, hcarried, hanswer⟩

/-- The frames taken are replies, or wasted. -/
theorem Inv.length_taken (h : Inv l) :
    (l.taken.filterMap (callOf l.origin)).length + l.wasted = l.taken.length + l.failed := by
  have hcount : ∀ xs : List Wire, (∀ x ∈ xs, x.isReply = (callOf l.origin x).isSome) →
      (xs.filterMap (callOf l.origin)).length + xs.countP (fun x => !x.isReply) = xs.length := by
    intro xs hxs
    induction xs with
    | nil => rfl
    | cons x xs ih =>
        obtain ⟨hx, hrest⟩ := List.forall_mem_cons.mp hxs
        have hlength := ih hrest
        rw [filterMap_cons_toList, List.length_append, List.countP_cons, hx, List.length_cons]
        cases callOf l.origin x with
        | none =>
            show 0 + _ + (_ + 1) = _
            omega
        | some k =>
            show 1 + _ + (_ + 0) = _
            omega
  have htaken := hcount l.taken fun x hx =>
    h.isReply_eq (List.mem_append_left _ hx)
  unfold Loop.wasted
  omega

/-- **How far behind a reply is**: as many calls as have come back without one,
but for those before it that have been lost. -/
theorem lag_of_reply (h : Reachable ub l) (hwait : l.waiting = true) {x : Wire} {xs : List Wire}
    (hqueue : l.queue = x :: xs) {k : ℕ} (hk : RepliesTo l x k) :
    k ∉ l.lost ∧ k + l.wasted + 1 = l.asked.length + l.lost.countP (fun i => i < k) := by
  obtain ⟨hbal, -, hline, hcalls⟩ := order_of_reachable h
  have hplace : l.line = l.taken.filterMap (callOf l.origin) ++ k ::
      ((xs ++ l.toHost).filterMap (callOf l.origin) ++
        ((l.origin.drop l.board.chip.nic.tx.sent.length).filterMap id ++ l.toBoard)) := by
    unfold Loop.line Loop.frames
    rw [hqueue, List.cons_append, List.filterMap_append,
      List.filterMap_cons_some hk.callOf_eq, List.append_assoc]
    rfl
  rw [hplace] at hline hcalls
  have hgap := Gaps.eq_length_add hline hcalls
  have htaken := (inv_of_reachable h).length_taken
  rw [hwait, Bool.toNat_true] at hbal
  exact ⟨Gaps.not_mem_gone hcalls, by omega⟩

/-- Any reply that the waiting call finds answers one call. -/
theorem reply_of_call (h : Reachable ub l) (hwait : l.waiting = true) {x : Wire} {xs : List Wire}
    (hqueue : l.queue = x :: xs) (hreply : x.isReply = true) :
    ∃ k, RepliesTo l x k ∧ (∀ k', RepliesTo l x k' → k' = k) ∧ k ∉ l.lost ∧
      k + l.wasted + 1 = l.asked.length + l.lost.countP (fun i => i < k) := by
  have hmem : x ∈ l.frames := l.queue_subset (hqueue ▸ List.mem_cons_self)
  obtain ⟨k, hk⟩ := (inv_of_reachable h).exists_repliesTo hmem hreply
  exact ⟨k, hk, fun k' hk' => hk'.unique hk, lag_of_reply h hwait hqueue hk⟩

/-- **The closed loop.** If the link has lost nothing, what has happened between
host and board is a run of `HostSync`. Whatever it has lost: any reply that the
waiting call finds is what the board has sent for the frame of one call, and this
call is as many calls ago as calls have come back without a reply, less one for
each call before it whose frame or answer has been lost. -/
theorem closed_loop (h : Reachable ub l) :
    (l.lost = [] → ∃ w, HostSync.Reachable ub w ∧ Matches w l) ∧
      ∀ x xs, l.waiting = true → l.queue = x :: xs → x.isReply = true →
        ∃ k, RepliesTo l x k ∧ (∀ k', RepliesTo l x k' → k' = k) ∧ k ∉ l.lost ∧
          k + l.wasted + 1 = l.asked.length + l.lost.countP (fun i => i < k) :=
  ⟨exists_world h, fun _ _ hwait hqueue hreply => reply_of_call h hwait hqueue hreply⟩

theorem closed_loop_two_calls :
    (∃ l x w, Reachable (fun _ => 0) l ∧ l.queue = [x] ∧ l.asked.length = 1 ∧
      HostSync.Reachable (fun _ => 0) w ∧ Matches w l ∧ RepliesTo l x 0) ∧
    ∃ l x, Reachable (fun _ => 0) l ∧ l.queue = [x] ∧ l.asked.length = 2 ∧ l.lost = [0] ∧
      RepliesTo l x 1 := by
  constructor
  · obtain ⟨l, x, hl, hwait, hqueue, hreply, -, hasked, hlost, -⟩ := exists_first_answer
    obtain ⟨hworld, hreplies⟩ := closed_loop hl
    obtain ⟨w, hw, hm⟩ := hworld hlost
    obtain ⟨k, hk, -, -, hlag⟩ := hreplies x [] hwait hqueue hreply
    rw [hasked, hlost] at hlag
    obtain rfl : k = 0 := by
      have hle : k + l.wasted + 1 = 1 := hlag
      omega
    exact ⟨l, x, w, hl, hqueue, hasked, hw, hm, hk⟩
  · obtain ⟨l, x, hl, hwait, hqueue, hreply, hasked, hlost, hwasted⟩ := exists_second_answer
    obtain ⟨k, hk, -, hkept, hlag⟩ := (closed_loop hl).2 x [] hwait hqueue hreply
    rw [hlost, List.mem_singleton] at hkept
    have hone : [0].countP (fun i => decide (i < k)) = 1 :=
      List.countP_cons_of_pos (decide_eq_true (Nat.pos_of_ne_zero hkept))
    rw [hasked, hlost, hwasted, hone] at hlag
    obtain rfl : k = 1 := by omega
    exact ⟨l, x, hl, hqueue, hasked, hlost, hk⟩

theorem wasted_step (hs : Step ub l l') : l.wasted ≤ l'.wasted := by
  cases hs with
  | recv _ _ =>
      unfold Loop.wasted
      rw [List.countP_append]
      exact Nat.add_le_add_right (Nat.le_add_right _ _) l.failed
  | fail _ => exact Nat.le_succ _
  | _ => exact le_rfl

theorem wasted_run (hruns : Relation.ReflTransGen (Step ub) l l') : l.wasted ≤ l'.wasted := by
  induction hruns with
  | refl => exact le_rfl
  | tail _ hs ih => exact ih.trans (wasted_step hs)

/-- **The loop catches up by losing frames only.** Whatever happens after a state
in which `n` calls have come back without a reply: every reply that a call finds
from then on answers a call at least `n` calls before it, less one for each call
before that one whose frame or answer has been lost. -/
theorem lag_never_shrinks (h : Reachable ub l) (hruns : Relation.ReflTransGen (Step ub) l l')
    (hwait : l'.waiting = true) {x : Wire} {xs : List Wire} (hqueue : l'.queue = x :: xs)
    (hreply : x.isReply = true) :
    ∃ k, RepliesTo l' x k ∧ (∀ k', RepliesTo l' x k' → k' = k) ∧ k ∉ l'.lost ∧
      k + l.wasted + 1 ≤ l'.asked.length + l'.lost.countP (fun i => i < k) := by
  obtain ⟨k, hk, hunique, hlost, hlag⟩ := reply_of_call (h.run hruns) hwait hqueue hreply
  refine ⟨k, hk, hunique, hlost, ?_⟩
  rw [← hlag]
  exact Nat.succ_le_succ (Nat.add_le_add_left (wasted_run hruns) k)

/-- The first call has come back with a frame of another type. -/
def afterStray (f : List (BitVec 8)) : Loop :=
  { firstCall with
    host := De2.doWorkRecv (.frame f) firstCall.host, waiting := false, taken := [⟨none, f⟩] }

/-- **One stray frame** at the first call, and from then on every call uses the
reply to the call before it, or an older one, as long as nothing is lost. -/
theorem lag_never_shrinks_stray :
    ∃ l l' x, Reachable (fun _ => 0) l ∧ ReflTransGen (Step fun _ => 0) l l' ∧ l.wasted = 1 ∧
      l'.queue = [x] ∧ l'.asked.length = 2 ∧ RepliesTo l' x 0 := by
  obtain ⟨arp, harp⟩ : ∃ arp : List (BitVec 8), isReplyFrame arp = false :=
    ⟨List.replicate 60 0xff, by decide⟩
  have hreturned : Reachable (fun _ => 0) (afterStray arp) :=
    (reachable_firstCall.step (.foreign arp harp)).step
      (.recv (x := ⟨none, arp⟩) rfl rfl)
  obtain ⟨b, x, -, hreply, hruns⟩ :=
    exists_answer hreturned rfl rfl rfl carried_sample rfl rfl rfl
  have hcalled := hruns.tail (.send samplePins rfl)
  obtain ⟨k, hk, -, -, hlag⟩ := lag_never_shrinks hreturned hcalled rfl rfl hreply
  have hwasted : (afterStray arp).wasted = 1 := by
    show [(⟨none, arp⟩ : Wire)].countP (fun x => !x.isReply) + 0 = 1
    rw [List.countP_cons_of_pos (by simp [Wire.isReply, harp])]
    rfl
  rw [hwasted] at hlag
  obtain rfl : k = 0 := by
    have hle : k + 1 + 1 ≤ 2 := hlag
    omega
  exact ⟨_, _, x, hreturned, hcalled, hwasted, rfl, rfl, hk⟩

/-! ## §8  What the pins show -/

/-- The buffers of the calls before call `k` whose frames have reached the
board, in order. -/
def Loop.carriedBefore (l : Loop) (k : ℕ) : List Buffer :=
  (l.reached.filter fun i => i < k).filterMap fun i => l.asked[i]?

/-- The register file after the calls of a list. -/
def commandedBy (ctl : CtlRegs) (bufs : List Buffer) : CtlRegs :=
  match bufs.getLast? with
  | none => ctl
  | some buf => CtlRegs.ofFrame buf

theorem writes_flatMap (ctl : CtlRegs) (bufs : List Buffer) :
    ctl.writes (bufs.flatMap frameWrites) = commandedBy ctl bufs := by
  unfold commandedBy
  rcases bufs.eq_nil_or_concat with rfl | ⟨front, buf, rfl⟩
  · rfl
  · rw [List.concat_eq_append, List.flatMap_append, List.flatMap_singleton, CtlRegs.writes_append,
      CtlRegs.writes_frameWrites, List.getLast?_concat]

/-- What frames at the board ask for, as the calls have sent it. -/
theorem busWrites_of_comesFrom {asked : List Buffer} {rs : List RxRecord} {os : List (Option ℕ)}
    (h : List.Forall₂ (ComesFrom asked) rs os) :
    busWrites (payload rs) =
      ((os.filterMap id).filterMap fun i => asked[i]?).flatMap frameWrites := by
  rw [busWrites_payload]
  induction h with
  | nil => rfl
  | @cons r o rs os hr _ ih =>
      cases o with
      | none =>
          rw [List.filter_cons_of_neg (by simp [hr.2]), ih, List.filterMap_cons_none rfl]
      | some k =>
          obtain ⟨buf, hask, hbuf, hcarried⟩ := hr
          rw [List.filter_cons_of_pos (hcarried.plain hbuf).1, List.flatMap_cons, ih,
            hcarried.frameWrites_buffer, List.filterMap_cons_some (f := id) rfl,
            List.filterMap_cons_some hask, List.flatMap_cons]

/-- The calls whose frames arrived before that of call `k` are the smaller
ones. -/
theorem reached_take (h : Order l) {j k : ℕ} (hj : l.origin[j]? = some (some k)) :
    (l.origin.take j).filterMap id = l.reached.filter fun i => i < k := by
  obtain ⟨hlt, hget⟩ := List.getElem?_eq_some_iff.mp hj
  have hsplit : l.reached =
      (l.origin.take j).filterMap id ++ k :: (l.origin.drop (j + 1)).filterMap id := by
    have hcons : l.origin.drop j = some k :: l.origin.drop (j + 1) := by
      rw [List.drop_eq_getElem_cons hlt, hget]
    unfold Loop.reached
    conv_lhs => rw [← List.take_append_drop j l.origin, List.filterMap_append, hcons]
    rfl
  have horder := (List.pairwise_append.mp h.reached).1
  rw [hsplit] at horder ⊢
  exact (Gaps.filter_lt horder).symm

/-- **What the pins show.** Whatever happens between host and board, and
whatever clocks the accesses of the board take: when the waiting call finds a
reply, this is the reply to a call as many calls ago as calls have come back
without one, less one for each call before it that has been lost; and the axis
positions it sets are those the module held at moments when the register writes
of the calls before that one that have reached the board had been made, all of
them and no others. -/
theorem pins_of_call (h : Reachable ub l) (hwait : l.waiting = true) {x : Wire} {xs : List Wire}
    (hqueue : l.queue = x :: xs) (hreply : x.isReply = true) {s : CncModule} {bs : List CncIn}
    (hbus : Drives s l.board.log bs) :
    ∃ k before after y, RepliesTo l x k ∧ k ∉ l.lost ∧
      k + l.wasted + 1 = l.asked.length + l.lost.countP (fun i => i < k) ∧ bs = before ++ after ∧
      CncModule.writesOf before = (l.carriedBefore k).flatMap frameWrites ∧
      (Clocked.run CncModule.posedge s before).ctl = commandedBy s.ctl (l.carriedBefore k) ∧
      HeldBefore (Clocked.run CncModule.posedge s before) after y ∧
      ∀ i, (l.host.inst.sg i).scale ≠ 0 →
        ((De2.doWorkRecv (.frame x.bytes) l.host).inst.sg i).positionFb =
          .fin (((y.location i - 0x80000000#32).toInt : ℚ) / (l.host.inst.sg i).scale) := by
  have hinv := inv_of_reachable h
  obtain ⟨k, hk, -, hlost, hlag⟩ := reply_of_call h hwait hqueue hreply
  obtain ⟨j, f, r, buf, hplace, hf, ⟨pad, hpad⟩, hr, ho, hask, hcarried, hanswer⟩ := id hk
  have hreplyFrame : isReplyFrame f = true := by
    obtain ⟨-, o, -, ho', -, -, hkind⟩ := hinv.answer hf
    have hkind' := hkind []
    rw [List.append_nil] at hkind'
    rw [hkind', Option.some.inj (ho'.symm.trans ho)]
    rfl
  obtain ⟨before, after, y, hbs, hwrites, hctl, hheld, _, _, hfeedback⟩ :=
    feedback_in_step hinv.board hinv.arrivals hbus hf hreplyFrame
  have hcalls : CncModule.writesOf before = (l.carriedBefore k).flatMap frameWrites := by
    rw [hwrites, busWrites_of_comesFrom (List.forall₂_take j hinv.origin),
      reached_take (order_of_reachable h) ho]
    rfl
  refine ⟨k, before, after, y, hk, hlost, hlag, hbs, hcalls, ?_, hheld, ?_⟩
  · rw [CncModule.ctl_run, hcalls, writes_flatMap]
  · intro i hscale
    rw [hpad]
    exact hfeedback.positionFb pad l.host i hscale

/-- At the first call the axis is where it was after reset. -/
theorem pins_of_call_first :
    ∃ l x bs before after y, Reachable (fun _ => 0) l ∧ l.queue = [x] ∧
      Drives CncModule.powerUp.reset l.board.log bs ∧ bs = before ++ after ∧
      CncModule.writesOf before = [] ∧
      HeldBefore (Clocked.run CncModule.posedge CncModule.powerUp.reset before) after y ∧
      ((De2.doWorkRecv (.frame x.bytes) l.host).inst.sg 0).positionFb =
        .fin (((y.location 0 - 0x80000000#32).toInt : ℚ) / 4000) := by
  obtain ⟨l, x, hl, hwait, hqueue, hreply, hhost, hasked, hlost, hlog⟩ := exists_first_answer
  have hmodule : Drives.answers 0x20 CncModule.powerUp.reset sampleTrace = true := by
    decide +kernel
  have hbus : Drives CncModule.powerUp.reset l.board.log
      (l.board.log.filterMap (Drives.clockOf 0x20)) :=
    Drives.of_answers (hlog ▸ hmodule)
  obtain ⟨k, before, after, y, hk, -, hlag, hbs, hwrites, -, hheld, hpins⟩ :=
    pins_of_call hl hwait hqueue hreply hbus
  rw [hasked, hlost] at hlag
  obtain rfl : k = 0 := by
    have hle : k + l.wasted + 1 = 1 := hlag
    omega
  have hnone : l.carriedBefore 0 = [] := by
    have hfilter : (l.reached.filter fun i => i < 0) = [] :=
      List.filter_eq_nil_iff.mpr fun i _ => by simp
    rw [Loop.carriedBefore, hfilter]
    rfl
  rw [hnone] at hwrites
  have hscale : (l.host.inst.sg 0).scale = 4000 := by
    rw [hhost]
    rfl
  have hpin := hpins 0 (by rw [hscale]; norm_num)
  rw [hscale] at hpin
  exact ⟨l, x, _, before, after, y, hl, hqueue, hbus, hbs, hwrites, hheld, hpin⟩

end FpgaCnc.ClosedLoop
