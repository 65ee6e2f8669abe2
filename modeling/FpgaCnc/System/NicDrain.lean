import FpgaCnc.System.RxSide

/-!
# Frames left behind in the NIC

The handler and the chip, in any interleaving of frame arrivals with single
register accesses. One status bit stands for any number of frames and each run
of the handler takes out one, so a frame that arrives while the bit is set
stays behind for good.

§1 the board · §2 the handler takes one frame · §3 what is left behind · §4 a
frame left behind.
-/

namespace FpgaCnc.NicDrain

open IoProg Dm9000a HelloLed RxSide

/-! ## §1  The board -/

/-- The chip, and the number of frames that have found `PRS` set. -/
abbrev Chip := Noted ℕ

abbrev Chip.missed (c : Chip) : ℕ := c.note

/-- Any frame may arrive. -/
def arrivals : Arrivals ℕ where
  admits _ := True
  note missed prs _ := missed + prs.toNat

abbrev Chip.arrive (c : Chip) (r : RxRecord) : Chip := Noted.arrive arrivals c r

/-- The chip as a device: accesses, and arrivals at any time. -/
abbrev device : Device Addr (BitVec 32) Chip := RxSide.device arrivals

/-- The chip, the globals, and what is left of the handler while it runs. -/
structure Board where
  chip : Chip
  globals : Globals
  handler : Option (Fw Globals)

inductive Step : Board → Board → Prop where
  | arrive {b : Board} (r : RxRecord) : Step b { b with chip := b.chip.arrive r }
  | irq {b : Board} : b.handler = none → b.chip.nic.irq = true →
      Step b { b with handler := some (ethernetInterrupts b.globals) }
  | access {b : Board} {p p' : Fw Globals} {x : BusAccess} {c : Chip} :
      b.handler = some p → step p x = some p' → device.access b.chip x c →
      Step b { b with chip := c, handler := some p' }
  | done {b : Board} {g : Globals} : b.handler = some (ret g) →
      Step b { b with globals := g, handler := none }

/-- From a chip without frames, by any steps. -/
inductive Reachable : Board → Prop where
  | boot (n : Nic) (g : Globals) : n.prs = false → n.rxFifo = [] →
      Reachable ⟨⟨n, 0⟩, g, none⟩
  | step {b b' : Board} : Reachable b → Step b b' → Reachable b'

/-! ## §2  The handler takes one frame -/

/-- There is one record if `PRS` is set, the missed ones, and no other. -/
def unread : Tally ℕ := fun missed prs rest => rest.length = prs.toNat + missed

theorem kept_unread : Kept arrivals unread := by
  intro missed prs rest hlen r _
  show (rest ++ [r]).length = (true).toNat + (missed + prs.toNat)
  rw [List.length_append, hlen, List.length_singleton, Bool.toNat_true]
  omega

/-- **Acknowledging clears the bit for every frame it stands for**, and one of
them is taken out. -/
theorem takes_unread : Takes unread fun _ => unread where
  some missed h := by
    unfold unread at h
    rw [List.length_nil, Bool.toNat_true] at h
    omega
  first missed r rest h := by
    unfold unread at h ⊢
    rw [List.length_cons, Bool.toNat_true] at h
    rw [Bool.toNat_false]
    omega

/-- **One run of the handler takes out the one frame the bit stood for.** -/
theorem handler_drains {g g' : Globals} {tr : List BusAccess}
    (h : Completes (ethernetInterrupts g) tr g') {c c' : Chip} (htrace : Trace device c tr c')
    (hc : On (signalled unread) c) : On (records unread []) c' := by
  obtain ⟨_, _, _, _, -, -, -, hend⟩ :=
    handler_takes kept_unread takes_unread (fun _ => kept_unread) h htrace hc
  exact hend

/-! ## §3  What is left behind -/

/-- While the handler runs, it has been started on a signalled frame. -/
def Inv (b : Board) : Prop :=
  match b.handler with
  | none => On (records unread []) b.chip
  | some p => ∃ c tr, On (signalled unread) c ∧
      exec (ethernetInterrupts b.globals) tr = some p ∧ Trace device c tr b.chip

theorem inv_step {b b' : Board} (h : Inv b) (hs : Step b b') : Inv b' := by
  cases hs with
  | arrive r =>
      unfold Inv at h ⊢
      cases hb : b.handler with
      | none =>
          rw [hb] at h
          exact stable_on (kept_unread.records []) _ _ h ⟨r, trivial, rfl⟩
      | some p =>
          rw [hb] at h
          obtain ⟨c, tr, hc, hexec, htrace⟩ := h
          exact ⟨c, tr, hc, hexec, htrace.moved ⟨r, trivial, rfl⟩⟩
  | irq hidle hirq =>
      unfold Inv at h
      rw [hidle] at h
      have hprs : b.chip.nic.prs = true := (Bool.and_eq_true_iff.mp hirq).1
      exact ⟨b.chip, [], ⟨hprs, h⟩, exec_nil _, .nil _⟩
  | access hp hstep hacc =>
      unfold Inv at h
      rw [hp] at h
      obtain ⟨c, tr, hc, hexec, htrace⟩ := h
      exact ⟨c, _, hc, exec_snoc hexec hstep, htrace.snoc hacc⟩
  | done hp =>
      unfold Inv at h
      rw [hp] at h
      obtain ⟨c, tr, hc, hexec, htrace⟩ := h
      exact handler_drains hexec htrace hc

theorem inv_of_reachable {b : Board} (h : Reachable b) : Inv b := by
  induction h with
  | boot n g hprs hfifo =>
      refine ⟨[], hfifo, ?_⟩
      rw [hprs]
      rfl
  | step _ hs ih => exact inv_step ih hs

/-- **What is left behind.** In every reachable state in which the handler is
not running and `PRS` is clear, the FIFO holds exactly as many unread frames as
have found `PRS` set when they arrived; it is empty if and only if none has. -/
theorem left_behind {b : Board} (h : Reachable b) (hidle : b.handler = none)
    (hprs : b.chip.nic.prs = false) :
    (∃ recs : List RxRecord, b.chip.nic.rxFifo = recs.flatMap RxRecord.words ∧
      recs.length = b.chip.missed) ∧
    (b.chip.nic.rxFifo = [] ↔ b.chip.missed = 0) := by
  have hinv := inv_of_reachable h
  unfold Inv at hinv
  rw [hidle] at hinv
  obtain ⟨recs, hfifo, hlen⟩ := hinv
  rw [unread, hprs, Bool.toNat_false, Nat.zero_add] at hlen
  rw [List.nil_append] at hfifo
  refine ⟨⟨recs, hfifo, hlen⟩, ?_⟩
  rw [hfifo, RxRecord.flatMap_words_eq_nil, Chip.missed, ← hlen, List.length_eq_zero_iff]

/-! ## §4  A frame left behind -/

/-- The handler can go along a run that the chip can answer. -/
theorem reachable_of_exec {b : Board} (h : Reachable b) {p q : Fw Globals}
    (hp : b.handler = some p) {tr : List BusAccess} (hexec : exec p tr = some q) {n : Nic}
    (hrun : b.chip.nic.run tr = some n) :
    Reachable { b with chip := ⟨n, b.chip.missed⟩, handler := some q } := by
  obtain ⟨⟨m, missed⟩, g, handler⟩ := b
  cases hp
  refine Nic.along (R := fun p n _ => Reachable ⟨⟨n, missed⟩, g, some p⟩) ?_ (t := []) h
    hexec hrun
  intro p p' x n n' _ hreach hstep hacc
  exact hreach.step (.access rfl hstep ⟨hacc, rfl⟩)

/-- A broadcast of some other protocol. -/
def broadcast : RxRecord := ⟨0, List.replicate 64 0xff, by decide⟩

/-- The handler's accesses for a broadcast. -/
def broadcastTrace : List BusAccess :=
  isrTrace 1 ++ ((broadcast.answers 0).trace ++ txTrace (txtInit.store 13 0xaa) 14 [0x0C])

/-- What two broadcasts before the handler runs lead to. -/
theorem exists_two_arrivals :
    ∃ b, Reachable b ∧ b.handler = none ∧ b.chip.nic.prs = false ∧ b.chip.missed = 1 ∧
      b.chip.nic.rxFifo = broadcast.words := by
  have hboot : Reachable ⟨⟨Nic.idle, 0⟩, .init, none⟩ := .boot Nic.idle .init rfl rfl
  have hirq := ((hboot.step (.arrive broadcast)).step (.arrive broadcast)).step
    (.irq rfl (by decide))
  have hforeign : isCommand ((broadcast.answers 0).result Globals.init.rxt).dataPtr = false := by
    decide +kernel
  obtain ⟨g, hrun, -⟩ := exists_reject_run .init (show (1#32) &&& 1 = 1 by decide)
    (broadcast.complete_answers 0) hforeign (List.forall_mem_nil _) txDone_both
  have hexec : exec (ethernetInterrupts .init) broadcastTrace = some (ret g) := hrun
  -- the chip can answer the handler so, and one record is left
  have hchip : (((Nic.idle.arrive broadcast).arrive broadcast).run broadcastTrace).map
      (fun n => (n.prs, n.rxFifo)) = some (false, broadcast.words) := by
    decide +kernel
  obtain ⟨n, hnic, hn⟩ := Option.map_eq_some_iff.mp hchip
  obtain ⟨hprs, hfifo⟩ := Prod.mk.inj hn
  exact ⟨_, (reachable_of_exec hirq rfl hexec hnic).step (.done rfl), rfl, hprs, rfl, hfifo⟩

theorem left_behind_two_arrivals :
    ∃ b, Reachable b ∧ b.chip.missed = 1 ∧
      (∃ recs : List RxRecord, b.chip.nic.rxFifo = recs.flatMap RxRecord.words ∧
        recs.length = 1) := by
  obtain ⟨b, hb, hidle, hprs, hmissed, -⟩ := exists_two_arrivals
  obtain ⟨recs, hfifo, hlen⟩ := (left_behind hb hidle hprs).1
  exact ⟨b, hb, hmissed, recs, hfifo, hlen.trans hmissed⟩

/-- **A frame left behind.** Two frames arrive before the handler runs; it
acknowledges both, takes one out, and the other stays in the FIFO with `PRS`
clear. -/
theorem frame_left_behind :
    ∃ b, Reachable b ∧ b.handler = none ∧ b.chip.nic.prs = false ∧
      b.chip.nic.rxFifo ≠ [] := by
  obtain ⟨b, hb, hidle, hprs, -, hfifo⟩ := exists_two_arrivals
  exact ⟨b, hb, hidle, hprs, by rw [hfifo]; exact broadcast.words_ne_nil⟩

end FpgaCnc.NicDrain
