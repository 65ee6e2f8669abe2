import FpgaCnc.System.FeedbackPath

/-!
# Requests and replies at the HAL component

`do_work` sends one command and takes one frame from a socket that sees every
frame on the wire. The board answers each command once, in order, and nothing
is lost; frames of other types arrive at the socket in between, whenever they
like, and `recvfrom` may fail. What a call makes of the frame it takes is
`De2.doWorkRecv`; which call that frame answers is what this file follows.

§1 frames · §2 calls, board and link · §3 nothing is lost · §4 whose reply a
call uses · §5 one stray frame.
-/

namespace FpgaCnc.HostSync

/-! ## §1  Frames -/

/-- A frame that arrives at the host: the board's reply to a call's command,
or a frame of another type. -/
inductive Frame where
  | reply (call : ℕ) (bytes : List (BitVec 8)) (h : De2.isReply (De2.rxBuf bytes) = true)
  | foreign (bytes : List (BitVec 8)) (h : De2.isReply (De2.rxBuf bytes) = false)

namespace Frame

def bytes : Frame → List (BitVec 8)
  | reply _ bytes _ => bytes
  | foreign bytes _ => bytes

/-- The call whose command the frame answers. -/
def call : Frame → Option ℕ
  | reply k _ _ => some k
  | foreign _ _ => none

@[simp] theorem calls_reply (k : ℕ) (bytes : List (BitVec 8))
    (h : De2.isReply (De2.rxBuf bytes) = true) (fs : List Frame) :
    (reply k bytes h :: fs).filterMap call = k :: fs.filterMap call := rfl

@[simp] theorem calls_foreign (bytes : List (BitVec 8))
    (h : De2.isReply (De2.rxBuf bytes) = false) (fs : List Frame) :
    (foreign bytes h :: fs).filterMap call = fs.filterMap call := rfl

/-- A frame of another type leaves the pins alone. -/
theorem inst_of_foreign {f : Frame} (h : f.call = none) (host : De2.Host) :
    (De2.doWorkRecv (.frame f.bytes) host).inst = host.inst := by
  rcases f with ⟨k, bytes, hreply⟩ | ⟨bytes, hforeign⟩
  · exact absurd h (by simp [call])
  · unfold Frame.bytes De2.doWorkRecv
    cases bytes with
    | nil => rfl
    | cons x xs =>
        dsimp only
        rw [if_neg (by rw [hforeign]; exact Bool.false_ne_true)]

/-- A reply is decoded into the pins, whichever call it answers. -/
theorem inst_of_reply {f : Frame} {k : ℕ} (h : f.call = some k) (host : De2.Host) :
    (De2.doWorkRecv (.frame f.bytes) host).inst = De2.decode (De2.rxBuf f.bytes) host.inst := by
  rcases f with ⟨k', bytes, hreply⟩ | ⟨bytes, hforeign⟩
  · exact congrArg De2.Host.inst (De2.doWorkRecv_of_isReply hreply host)
  · exact absurd h (by simp [call])

end Frame

/-- The replies of a list of frames and the others make up the list. -/
theorem length_replies_add (fs : List Frame) :
    (fs.filterMap Frame.call).length + fs.countP (fun f => f.call.isNone) = fs.length := by
  induction fs with
  | nil => rfl
  | cons f fs ih =>
      rcases f with ⟨k, bytes, h⟩ | ⟨bytes, h⟩
      · rw [Frame.calls_reply, List.countP_cons_of_neg (by simp [Frame.call]),
          List.length_cons, List.length_cons, ← ih]
        omega
      · rw [Frame.calls_foreign, List.countP_cons_of_pos rfl, List.length_cons, ← ih]
        omega

/-! ## §2  Calls, board and link -/

/-- The host, the board and what is between them. -/
structure World where
  host : De2.Host
  /-- Calls begun so far. -/
  calls : ℕ
  /-- The last of them is in `recvfrom`. -/
  waiting : Bool
  /-- The calls whose commands the board has not answered. -/
  toBoard : List ℕ
  toHost : List Frame
  /-- The receive queue of the socket. -/
  queue : List Frame
  /-- The frames the calls have taken from it. -/
  taken : List Frame
  /-- How often `recvfrom` has failed. -/
  failed : ℕ

inductive Step (ub : FVal → BitVec 32) : World → World → Prop where
  /-- A call begins, with the pins it finds. -/
  | send {w : World} (c : De2.CompState) : w.waiting = false → Step ub w
      { w with
        host := De2.doWorkSend ub { w.host with inst := c }
        calls := w.calls + 1
        waiting := true
        toBoard := w.toBoard ++ [w.calls + 1] }
  | answer {w : World} {k : ℕ} {ks : List ℕ} (bytes : List (BitVec 8))
      (h : De2.isReply (De2.rxBuf bytes) = true) : w.toBoard = k :: ks → Step ub w
      { w with toBoard := ks, toHost := w.toHost ++ [.reply k bytes h] }
  | deliver {w : World} {f : Frame} {fs : List Frame} : w.toHost = f :: fs → Step ub w
      { w with toHost := fs, queue := w.queue ++ [f] }
  | foreign {w : World} (bytes : List (BitVec 8))
      (h : De2.isReply (De2.rxBuf bytes) = false) : Step ub w
      { w with queue := w.queue ++ [.foreign bytes h] }
  /-- `recvfrom` returns a frame, and the call returns. -/
  | recv {w : World} {f : Frame} {fs : List Frame} : w.waiting = true → w.queue = f :: fs →
      Step ub w
      { w with
        host := De2.doWorkRecv (.frame f.bytes) w.host
        waiting := false
        queue := fs
        taken := w.taken ++ [f] }
  /-- `recvfrom` fails, and the call returns. -/
  | fail {w : World} : w.waiting = true → Step ub w
      { w with
        host := De2.doWorkRecv .failed w.host
        waiting := false
        failed := w.failed + 1 }

/-- The worlds any number of calls can lead to. -/
inductive Reachable (ub : FVal → BitVec 32) : World → Prop where
  | boot (host : De2.Host) : Reachable ub ⟨host, 0, false, [], [], [], [], 0⟩
  | step {w w' : World} : Reachable ub w → Step ub w w' → Reachable ub w'

variable {ub : FVal → BitVec 32} {w w' : World}

/-! ## §3  Nothing is lost -/

/-- The calls whose commands or replies are somewhere, in the order of the
link. -/
def World.line (w : World) : List ℕ :=
  (w.taken ++ (w.queue ++ w.toHost)).filterMap Frame.call ++ w.toBoard

/-- Every call has taken a frame, or failed, or is waiting; and the line from
the host's past to the board is that of the calls. -/
structure Inv (w : World) : Prop where
  balance : w.taken.length + w.failed + w.waiting.toNat = w.calls
  line : w.line = List.range' 1 w.calls

theorem inv_step (h : Inv w) (hs : Step ub w w') : Inv w' := by
  obtain ⟨hbal, hline⟩ := h
  unfold World.line at hline
  cases hs with
  | send c hidle =>
      rw [hidle, Bool.toNat_false, Nat.add_zero] at hbal
      constructor
      · rw [← hbal]
        rfl
      · show _ ++ (w.toBoard ++ [w.calls + 1]) = _
        rw [← List.append_assoc, hline, List.range'_concat, Nat.one_mul, Nat.add_comm 1]
  | answer bytes hreply hboard =>
      refine ⟨hbal, ?_⟩
      rw [hboard] at hline
      rw [← hline]
      unfold World.line
      simp [Frame.call]
  | deliver hlink =>
      -- the frame stays where it is in the line
      refine ⟨hbal, ?_⟩
      rw [hlink] at hline
      rw [← hline]
      unfold World.line
      simp
  | foreign bytes hforeign =>
      -- the line does not see it
      refine ⟨hbal, ?_⟩
      rw [← hline]
      unfold World.line
      simp
  | recv hwait hqueue =>
      rw [hwait, Bool.toNat_true] at hbal
      constructor
      · rw [← hbal]
        simp
        omega
      · rw [hqueue] at hline
        rw [← hline]
        unfold World.line
        simp
  | fail hwait =>
      rw [hwait, Bool.toNat_true] at hbal
      refine ⟨?_, hline⟩
      rw [← hbal]
      simp
      omega

theorem inv_of_reachable (h : Reachable ub w) : Inv w := by
  induction h with
  | boot host => exact ⟨rfl, rfl⟩
  | step _ hs ih => exact inv_step ih hs

/-! ## §4  Whose reply a call uses -/

/-- The calls that have come back without a reply. -/
def World.wasted (w : World) : ℕ := w.taken.countP (fun f => f.call.isNone) + w.failed

theorem wasted_eq_zero :
    w.wasted = 0 ↔ w.failed = 0 ∧ ∀ f ∈ w.taken, f.call ≠ none := by
  unfold World.wasted
  rw [Nat.add_eq_zero_iff, List.countP_eq_zero, and_comm]
  simp [Option.isNone_iff_eq_none]

/-- **How far behind a reply is.** A reply the waiting call finds is as many
calls old as calls have come back without one. -/
theorem call_of_reply (h : Reachable ub w) (hwait : w.waiting = true) {f : Frame}
    {fs : List Frame} (hqueue : w.queue = f :: fs) {k : ℕ} (hk : f.call = some k) :
    k + w.wasted = w.calls := by
  obtain ⟨hbal, hline⟩ := inv_of_reachable h
  rw [hwait, Bool.toNat_true] at hbal
  -- the reply is behind those of the calls that got one
  obtain ⟨rest, hsplit⟩ :
      ∃ rest, w.taken.filterMap Frame.call ++ k :: rest = List.range' 1 w.calls := by
    refine ⟨(fs ++ w.toHost).filterMap Frame.call ++ w.toBoard, ?_⟩
    rw [← hline, World.line, hqueue, List.cons_append, List.filterMap_append (l := w.taken),
      List.filterMap_cons_some hk, List.append_assoc, List.cons_append]
  have hget : (List.range' 1 w.calls)[(w.taken.filterMap Frame.call).length]? = some k := by
    rw [← hsplit, List.getElem?_append_right le_rfl, Nat.sub_self, List.getElem?_cons_zero]
  obtain ⟨hlt, hval⟩ := List.getElem?_eq_some_iff.mp hget
  rw [List.getElem_range'] at hval
  have hcount := length_replies_add w.taken
  unfold World.wasted
  omega

/-- **Whose reply a call uses.** At every return of a call: a frame of another
type leaves the pins alone; a reply sets them, and it is the reply to this very
call if and only if every call before it has come back with a reply, that is,
no `recvfrom` has failed and no frame of another type has been taken. -/
theorem own_reply_iff (h : Reachable ub w) (hwait : w.waiting = true) {f : Frame}
    {fs : List Frame} (hqueue : w.queue = f :: fs) :
    (f.call = none → (De2.doWorkRecv (.frame f.bytes) w.host).inst = w.host.inst) ∧
    ∀ k, f.call = some k →
      (De2.doWorkRecv (.frame f.bytes) w.host).inst =
        De2.decode (De2.rxBuf f.bytes) w.host.inst ∧
      (k = w.calls ↔ w.failed = 0 ∧ ∀ x ∈ w.taken, x.call ≠ none) := by
  refine ⟨fun hnone => Frame.inst_of_foreign hnone w.host, ?_⟩
  intro k hk
  have hage := call_of_reply h hwait hqueue hk
  refine ⟨Frame.inst_of_reply hk w.host, ?_⟩
  rw [← wasted_eq_zero]
  constructor <;> intro heq <;> omega

/-! ## §5  One stray frame -/

/-- A reply of the board whose registers all read 0. -/
def zeroReply : List (BitVec 8) := replyFrame .init fun _ => 0

theorem isReply_zeroReply : De2.isReply (De2.rxBuf zeroReply) = true := by
  have h := De2.isReply_replyFrame (g := .init) ⟨rfl, rfl⟩ (fun _ => 0) []
  rwa [List.append_nil] at h

/-- The host before its first call. -/
def freshHost : De2.Host := ⟨samplePins, De2.initBuf fun _ => 0, 0⟩

/-- A first call, answered before it looks. -/
theorem exists_first_call (ub : FVal → BitVec 32) :
    ∃ w, Reachable ub w ∧ w.waiting = true ∧ w.calls = 1 ∧ w.failed = 0 ∧ w.taken = [] ∧
      w.queue = [.reply 1 zeroReply isReply_zeroReply] := by
  have hboot : Reachable ub _ := .boot freshHost
  have hsent := hboot.step (.send samplePins rfl)
  have hanswered := hsent.step (.answer zeroReply isReply_zeroReply rfl)
  exact ⟨_, hanswered.step (.deliver rfl), rfl, rfl, rfl, rfl, rfl⟩

theorem own_reply_first_call :
    ∃ w, Reachable (fun _ => 0x80000000) w ∧ w.calls = 1 ∧ w.waiting = true ∧
      ∃ f, w.queue = [f] ∧ f.call = some 1 ∧
        (De2.doWorkRecv (.frame f.bytes) w.host).inst =
          De2.decode (De2.rxBuf f.bytes) w.host.inst ∧
        (1 = w.calls ↔ w.failed = 0 ∧ ∀ x ∈ w.taken, x.call ≠ none) := by
  obtain ⟨w, hw, hwait, hcalls, -, -, hqueue⟩ := exists_first_call fun _ => 0x80000000
  exact ⟨w, hw, hcalls, hwait, _, hqueue, rfl, (own_reply_iff hw hwait hqueue).2 1 rfl⟩

/-- **One stray frame** at the first call, and the second call uses the reply
to the first. -/
theorem stray_frame :
    ∃ w, Reachable (fun _ => 0x80000000) w ∧ w.waiting = true ∧ w.calls = 2 ∧ w.failed = 0 ∧
      ∃ f fs, w.queue = f :: fs ∧ f.call = some 1 ∧
        (De2.doWorkRecv (.frame f.bytes) w.host).inst =
          De2.decode (De2.rxBuf f.bytes) w.host.inst := by
  obtain ⟨arp, harp⟩ : ∃ arp : List (BitVec 8), De2.isReply (De2.rxBuf arp) = false :=
    ⟨List.replicate 60 0xff, by decide⟩
  have hboot : Reachable (fun _ => 0x80000000) _ := .boot freshHost
  have hstray := (hboot.step (.send samplePins rfl)).step (.foreign arp harp)
  have hreturned := hstray.step (.recv rfl rfl)
  have hanswered := hreturned.step (.answer zeroReply isReply_zeroReply rfl)
  have hsecond := (hanswered.step (.deliver rfl)).step (.send samplePins rfl)
  exact ⟨_, hsecond, rfl, rfl, rfl, _, [], rfl, rfl, Frame.inst_of_reply (k := 1) rfl _⟩

end FpgaCnc.HostSync
