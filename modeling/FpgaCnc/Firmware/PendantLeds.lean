import FpgaCnc.Firmware.Pendant
import FpgaCnc.Lib.Mirror
import Mathlib.Logic.Function.Iterate

/-!
# The LED byte of the pendant

The main loop passes `RXT[49]` on to the pendant when it differs from
`old_pendant_leds`. `RXT` is where `ReceivePacket` puts every good packet,
before the handler has looked at its type; and the loop reads `RXT[49]` three
times, to compare, to remember and to send.

§1 the loop as a poller · §2 received frames · §3 where the bytes sent come
from · §4 whether the last byte sent is the one remembered · §5 runs.
-/

namespace FpgaCnc.HelloLed

open IoProg Dm9000a

/-! ## §1  The loop as a poller -/

/-- The part of the loop body around `RXT[49]`. -/
def Pc.leds : Pc → Mirror.Pc (BitVec 8)
  | .ledsOld rxt49 => .compare rxt49
  | .oldRxt => .again
  | .oldStore rxt49 => .remember rxt49
  | .sendRxt => .fetch
  | .send rxt49 => .send rxt49
  | _ => .outside

def Main.leds (m : Main) : Mirror (BitVec 8) where
  pc := m.pc.leds
  source := m.g.rxt.byte 49
  remembered := m.oldPendantLeds
  sent := m.uartTx

/-- Accesses left of the key branch, at most. -/
def KeyPc.left : KeyPc → ℕ
  | .clearPressed => 14
  | .segsKeys => 13
  | .buttonKeys => 12
  | .buttonStore _ => 11
  | .buttonTest => 10
  | .lowerLoad => 9
  | .lowerStore _ => 8
  | .maskLoad _ => 7
  | .maskStore .. => 6
  | .imageLoad _ => 5
  | .tempButLoad .. => 4
  | .bitKeys .. => 3
  | .shiftLoad .. => 2
  | .imageStore .. => 1

theorem KeyPc.left_pos (k : KeyPc) : 0 < k.left := by
  cases k <;> exact Nat.succ_pos _

/-- Accesses before the next one around `RXT[49]`, at most. -/
def Pc.untilLeds : Pc → ℕ
  | .countLoad => 20
  | .countStore _ => 19
  | .pressedTest => 18
  | .key k => 3 + k.left
  | .countTest => 3
  | .segsTxt => 2
  | .segsOut => 1
  | _ => 0

/-- **The loop refines the poller**: an access of the loop is one of the
poller, or none, and then the next one of the poller is nearer. -/
theorem leds_mainStep (m : Main) :
    (mainStep m).leds = m.leds.poll ∨
      (mainStep m).leds = m.leds ∧ (mainStep m).pc.untilLeds < m.pc.untilLeds := by
  obtain ⟨pc, g, pressed, keys, button, tempBut, oldLeds, count, count2, seg7, tx⟩ := m
  cases pc with
  | ledsRxt | oldRxt | oldStore | sendRxt | send => exact Or.inl rfl
  | ledsOld rxt49 =>
      left
      unfold mainStep Mirror.poll Main.leds
      dsimp only [Pc.leds]
      split_ifs <;> rfl
  | segsTxt | segsOut | countLoad | countStore => exact Or.inr ⟨rfl, Nat.lt_succ_self _⟩
  | pressedTest =>
      right
      unfold mainStep
      dsimp only
      split_ifs
      · exact ⟨rfl, Nat.lt_succ_self _⟩
      · exact ⟨rfl, show 3 < 18 by decide⟩
  | countTest =>
      right
      unfold mainStep
      dsimp only
      split_ifs
      · exact ⟨rfl, Nat.lt_succ_self _⟩
      · exact ⟨rfl, show 0 < 3 by decide⟩
  | key k =>
      right
      cases k with
      | buttonTest =>
          unfold mainStep keyStep
          dsimp only
          split_ifs
          · exact ⟨rfl, show 3 + 7 < 3 + 10 by decide⟩
          · exact ⟨rfl, Nat.lt_succ_self _⟩
      | imageStore half => cases half <;> exact ⟨rfl, Nat.lt_succ_self _⟩
      | _ => exact ⟨rfl, Nat.lt_succ_self _⟩

/-- The loop, left alone, makes the poller's next access. -/
theorem exists_poll (m : Main) : ∃ k, (mainStep^[k] m).leds = m.leds.poll := by
  induction hn : m.pc.untilLeds using Nat.strong_induction_on generalizing m with
  | h n ih =>
      subst hn
      rcases leds_mainStep m with hpoll | ⟨hsame, hless⟩
      · exact ⟨1, hpoll⟩
      · obtain ⟨k, hk⟩ := ih _ hless (mainStep m) rfl
        exact ⟨k + 1, by rw [Function.iterate_succ_apply, hk, hsame]⟩

theorem exists_polls (m : Main) (n : ℕ) : ∃ k, (mainStep^[k] m).leds = Mirror.poll^[n] m.leds := by
  induction n with
  | zero => exact ⟨0, rfl⟩
  | succ n ih =>
      obtain ⟨k, hk⟩ := ih
      obtain ⟨k', hk'⟩ := exists_poll (mainStep^[k] m)
      refine ⟨k' + k, ?_⟩
      rw [Function.iterate_add_apply, hk', hk, Function.iterate_succ_apply']

/-- What the poller keeps, the loop keeps, left alone. -/
theorem left_alone {P : Mirror (BitVec 8) → Prop} (hpoll : ∀ s, P s → P s.poll) {m : Main}
    (h : P m.leds) (n : ℕ) : P (mainStep^[n] m).leds := by
  induction n with
  | zero => exact h
  | succ n ih =>
      rw [Function.iterate_succ_apply']
      rcases leds_mainStep (mainStep^[n] m) with hnext | ⟨hsame, -⟩
      · rw [hnext]
        exact hpoll _ ih
      · rw [hsame]
        exact ih

theorem leds_receiverInterupts (status rxdata : BitVec 32) (m : Main) :
    (receiverInterupts status rxdata m).leds = m.leds := by
  unfold receiverInterupts
  split_ifs <;> rfl

/-- What a step does to the poller: an access, nothing, or a store by a run of
the ethernet handler. -/
theorem Step.leds {m m' : Main} {e : Event} (h : Step m e m') :
    m'.leds = m.leds.poll ∨ m'.leds = m.leds ∨
      ∃ tr, e = .ethernet tr ∧ Completes (ethernetInterrupts m.g) tr m'.g ∧
        m'.leds = m.leds.store (m'.g.rxt.byte 49) := by
  cases h with
  | main =>
      rcases leds_mainStep m with hpoll | ⟨hsame, -⟩
      · exact Or.inl hpoll
      · exact Or.inr (Or.inl hsame)
  | uart status rxdata => exact Or.inr (Or.inl (leds_receiverInterupts status rxdata m))
  | ethernet hrun => exact Or.inr (Or.inr ⟨_, rfl, hrun, rfl⟩)

/-! ## §2  Received frames -/

/-- The event is a run of the ethernet handler in which `ReceivePacket` got the
answers `r`. -/
def Event.Receives (e : Event) (r : RxResponse) : Prop :=
  ∃ inter t, inter &&& 1 = 1 ∧ r.Complete ∧ e = .ethernet (isrTrace inter ++ (r.trace ++ t))

/-- A good packet that reaches up to `RXT[49]`. -/
def ReachesLeds (r : RxResponse) : Prop := r.packetReady ∧ r.good ∧ 49 ≤ r.len.toNat

/-- A good frame of type `0x80ab` with a byte 49. -/
def IsCommandFrame (r : RxResponse) : Prop :=
  r.packetReady ∧ r.good ∧ 50 ≤ r.len.toNat ∧
    wordByte r.words 12 = 0x80#8 ∧ wordByte r.words 13 = 0xab#8

/-- What a run of the handler leaves at `RXT[49]`. -/
theorem rxt49_of_ethernetInterrupts {g g' : Globals} {tr : List BusAccess}
    (h : Completes (ethernetInterrupts g) tr g') :
    g'.rxt.byte 49 = g.rxt.byte 49 ∨
      ∃ r, (Event.ethernet tr).Receives r ∧ ReachesLeds r ∧
        g'.rxt.byte 49 = wordByte r.words 49 := by
  obtain ⟨inter, ⟨-, rfl, rfl⟩ | ⟨hprs, r, hr, t, rfl, hrest⟩⟩ := completes_ethernetInterrupts.mp h
  · exact Or.inl rfl
  have hrxt : g'.rxt = (r.result g.rxt).dataPtr := (afterReceive_keeps hrest).1
  rw [hrxt, RxResponse.result_byte hr]
  split_ifs with hcovers
  · obtain ⟨hready, hgood, hlen⟩ := hcovers
    exact Or.inr ⟨r, ⟨inter, t, hprs, hr, rfl⟩, ⟨hready, hgood, by omega⟩, rfl⟩
  · exact Or.inl rfl

/-- A packet that reaches up to `RXT[49]` puts its byte there. -/
theorem rxt49_of_receives {m m' : Main} {e : Event} {r : RxResponse} (hstep : Step m e m')
    (hr : e.Receives r) (hreaches : ReachesLeds r) :
    m'.g.rxt.byte 49 = wordByte r.words 49 := by
  obtain ⟨hready, hgood, hlen⟩ := hreaches
  obtain ⟨inter, t, hprs, hcomplete, rfl⟩ := hr
  cases hstep with
  | ethernet hrun =>
      rw [Completes, exec_ethernetInterrupts_received m.g hprs hcomplete] at hrun
      have hrxt := (afterReceive_keeps hrun).1
      dsimp only
      rw [hrxt]
      exact (RxResponse.result_byte hcomplete _ 49).trans (if_pos ⟨hready, hgood, by omega⟩)

/-! ## §3  Where the bytes sent come from -/

/-- The initial zero of `RXT`, or byte 49 of a command frame received. -/
def FromCommands (es : List Event) (b : BitVec 8) : Prop :=
  b = 0 ∨ ∃ e ∈ es, ∃ r, e.Receives r ∧ IsCommandFrame r ∧ wordByte r.words 49 = b

theorem FromCommands.cons {es : List Event} {b : BitVec 8} (h : FromCommands es b) (e : Event) :
    FromCommands (e :: es) b := by
  rcases h with hzero | ⟨e', he', r, hr⟩
  · exact Or.inl hzero
  · exact Or.inr ⟨e', List.mem_cons_of_mem e he', r, hr⟩

/-- Every packet that reaches `RXT[49]` is a command frame, or has there a zero
or a byte that a command frame had before. -/
def CommandsOnly (es : List Event) : Prop :=
  ∀ e es', e :: es' <:+ es → ∀ r, e.Receives r → ReachesLeds r →
    FromCommands (e :: es') (wordByte r.words 49)

theorem CommandsOnly.tail {e : Event} {es : List Event} (h : CommandsOnly (e :: es)) :
    CommandsOnly es :=
  fun e' es' hsuffix => h e' es' (hsuffix.trans (List.suffix_cons e es))

theorem from_step {es : List Event} {m m' : Main} {e : Event}
    (h : m.leds.From (FromCommands es)) (hstep : Step m e m') (hes : CommandsOnly (e :: es)) :
    m'.leds.From (FromCommands (e :: es)) := by
  have hmono : m.leds.From (FromCommands (e :: es)) := h.mono fun _ hb => hb.cons e
  rcases hstep.leds with hpoll | hsame | ⟨tr, rfl, hrun, hstore⟩
  · rw [hpoll]
    exact hmono.poll
  · rw [hsame]
    exact hmono
  · rw [hstore]
    apply hmono.store
    rcases rxt49_of_ethernetInterrupts hrun with hkept | ⟨r, hreceives, hreaches, hbyte⟩
    · rw [hkept]
      exact hmono.source
    · rw [hbyte]
      exact hes _ es (List.suffix_refl _) r hreceives hreaches

theorem remembers_step {es : List Event} {m m' : Main} {e : Event}
    (hfrom : m.leds.From (FromCommands es)) (h : m.leds.Remembers (FromCommands es))
    (hstep : Step m e m') : m'.leds.Remembers (FromCommands (e :: es)) := by
  have hmono : m.leds.Remembers (FromCommands (e :: es)) := h.mono fun _ hb => hb.cons e
  rcases hstep.leds with hpoll | hsame | ⟨tr, rfl, -, hstore⟩
  · rw [hpoll]
    exact hmono.poll (hfrom.source.cons e)
  · rw [hsame]
    exact hmono
  · rw [hstore]
    exact ⟨hmono.remembered, hmono.inHand⟩

theorem from_of_runs {m₀ m : Main} {es : List Event} (hpc : m₀.pc = .pressedTest)
    (hrxt : m₀.g.rxt.byte 49 = 0) (htx : m₀.uartTx = []) (hrun : Runs Step m₀ es m) :
    CommandsOnly es → m.leds.From (FromCommands es) := by
  refine Runs.invariant (P := fun es m => CommandsOnly es → m.leds.From (FromCommands es))
    (fun _ => ⟨Or.inl hrxt, ?_, ?_⟩)
    (fun es m e m' ih hstep hes => from_step (ih hes.tail) hstep hes) hrun
  · show ∀ v, m₀.pc.leds = .send v → _
    rw [hpc]
    nofun
  · show ∀ v ∈ m₀.uartTx, _
    rw [htx]
    nofun

/-- **The bytes sent come from command frames**, in every run in which nothing
else is received into `RXT[49]`. -/
theorem sent_from_commands {m₀ m : Main} {es : List Event} (hpc : m₀.pc = .pressedTest)
    (hrxt : m₀.g.rxt.byte 49 = 0) (htx : m₀.uartTx = []) (hrun : Runs Step m₀ es m)
    (hes : CommandsOnly es) : ∀ b ∈ m.uartTx, FromCommands es b :=
  (from_of_runs hpc hrxt htx hrun hes).sent

theorem remembers_of_runs {m₀ m : Main} {es : List Event} (hpc : m₀.pc = .pressedTest)
    (hrxt : m₀.g.rxt.byte 49 = 0) (hold : m₀.oldPendantLeds = 0) (htx : m₀.uartTx = [])
    (hrun : Runs Step m₀ es m) (hes : CommandsOnly es) :
    m.leds.Remembers (FromCommands es) := by
  induction hrun with
  | start =>
      refine ⟨Or.inl hold, ?_⟩
      show ∀ v, m₀.pc.leds = .remember v → _
      rw [hpc]
      nofun
  | next hprev hstep ih =>
      exact remembers_step (from_of_runs hpc hrxt htx hprev hes.tail) (ih hes.tail) hstep

/-- **The condition is exact**: when an event comes that breaks it, the loop,
left alone from there, sends a byte that no command frame has had. -/
theorem commandsOnly_iff {m₀ m m' : Main} {es : List Event} {e : Event}
    (hpc : m₀.pc = .pressedTest) (hrxt : m₀.g.rxt.byte 49 = 0) (hold : m₀.oldPendantLeds = 0)
    (htx : m₀.uartTx = []) (hrun : Runs Step m₀ es m) (hes : CommandsOnly es)
    (hstep : Step m e m') :
    CommandsOnly (e :: es) ↔
      ∀ n, ∀ b ∈ (mainStep^[n] m').uartTx, FromCommands (e :: es) b := by
  have hfrom := from_of_runs hpc hrxt htx hrun hes
  constructor
  · intro hnext n
    exact (left_alone (fun _ h => h.poll) (from_step hfrom hstep hnext) n).sent
  · intro hsent e' es' hsuffix r hr hreaches
    rcases List.suffix_cons_iff.mp hsuffix with heq | hearlier
    · obtain ⟨rfl, rfl⟩ := List.cons.inj heq
      by_contra hforeign
      have hremembers :=
        remembers_step hfrom (remembers_of_runs hpc hrxt hold htx hrun hes) hstep
      obtain ⟨n, b, hb, hbad⟩ := hremembers.exists_sent (by
        show ¬ FromCommands (e' :: es') (m'.g.rxt.byte 49)
        rwa [rxt49_of_receives hstep hr hreaches])
      obtain ⟨k, hk⟩ := exists_polls m' n
      rw [← hk] at hb
      exact hbad (hsent k b hb)
    · exact hes e' es' hearlier r hr hreaches

/-! ## §4  Whether the last byte sent is the one remembered -/

/-- A run of the ethernet handler that changes `RXT[49]` does no harm to the
comparison. -/
def HarmlessStore (m : Main) (e : Event) (m' : Main) : Prop :=
  ∀ tr, e = .ethernet tr → m'.g.rxt.byte 49 ≠ m.g.rxt.byte 49 → m.leds.Takes (m'.g.rxt.byte 49)

theorem settled_step {m m' : Main} {e : Event} (h : m.leds.Settled) (hstep : Step m e m')
    (hharmless : HarmlessStore m e m') : m'.leds.Settled := by
  rcases hstep.leds with hpoll | hsame | ⟨tr, he, -, hstore⟩
  · rw [hpoll]
    exact h.poll
  · rw [hsame]
    exact h
  · rw [hstore]
    by_cases hkept : m'.g.rxt.byte 49 = m.g.rxt.byte 49
    · rw [hkept]
      exact h
    · exact (m.leds.settled_store_iff _).mpr (hharmless tr he hkept)

/-- At the end of an iteration that finds `RXT[49]` equal to
`old_pendant_leds`, the last byte sent, if any, is that byte. -/
def UpToDate (m : Main) : Prop :=
  m.pc = .pressedTest → m.g.rxt.byte 49 = m.oldPendantLeds →
    ∀ b, m.uartTx.head? = some b → b = m.g.rxt.byte 49

theorem upToDate_of_settled {m : Main} (h : m.leds.Settled) : UpToDate m := by
  intro hpc hsame b hb
  have hoff : m.leds.pc = .outside := congrArg Pc.leds hpc
  exact (m.leds.settled_iff.mp h 0 hoff hsame b hb).trans hsame.symm

/-- **The pendant shows what is remembered.** If every store to `RXT[49]` is
harmless where it happens, then at the end of every iteration that finds
`RXT[49]` equal to `old_pendant_leds` the last byte sent, if any, is that byte. -/
theorem leds_up_to_date {m₀ m : Main} {es : List Event} (hpc₀ : m₀.pc = .pressedTest)
    (htx : m₀.uartTx = [])
    (hrun : Runs (fun m e m' => Step m e m' ∧ HarmlessStore m e m') m₀ es m)
    (hpc : m.pc = .pressedTest) (hsame : m.g.rxt.byte 49 = m.oldPendantLeds) :
    ∀ b, m.uartTx.head? = some b → b = m.g.rxt.byte 49 := by
  have hstart : m₀.leds.Settled := by
    obtain ⟨pc, g, pressed, keys, button, tempBut, oldLeds, count, count2, seg7, tx⟩ := m₀
    cases hpc₀
    cases htx
    intro _
    nofun
  have hinv : m.leds.Settled :=
    Runs.invariant (P := fun _ m => m.leds.Settled) hstart
      (fun _ _ _ _ ih hstep => settled_step ih hstep.1 hstep.2) hrun
  exact upToDate_of_settled hinv hpc hsame

theorem pc_of_compare {pc : Pc} {v : BitVec 8} (h : pc.leds = .compare v) : pc = .ledsOld v := by
  cases pc with
  | ledsOld rxt49 => exact congrArg Pc.ledsOld (Mirror.Pc.compare.inj h)
  | _ => nomatch h

/-- A comparison that finds no difference ends the iteration. -/
theorem rest_of_compare {m : Main} (h : m.pc = .ledsOld m.oldPendantLeds) :
    mainStep^[3] m = { m with pc := .pressedTest, count := m.count + 1 } := by
  obtain ⟨pc, g, pressed, keys, button, tempBut, oldLeds, count, count2, seg7, tx⟩ := m
  obtain rfl : pc = .ledsOld oldLeds := h
  show mainStep (mainStep (if oldLeds ≠ oldLeds then _ else _)) = _
  rw [if_neg (not_not.mpr rfl)]
  rfl

/-- A settled loop is one that stays up to date, left alone. -/
theorem settled_iff_left_alone (m : Main) : m.leds.Settled ↔ ∀ k, UpToDate (mainStep^[k] m) := by
  constructor
  · intro h k
    exact upToDate_of_settled (left_alone (fun _ h => h.poll) h k)
  · intro h
    rw [Mirror.settled_iff]
    intro n hoff hsource w hw
    -- one more access of the poller, and the iteration ends in this state
    obtain ⟨k, hk⟩ := exists_polls m (n + 1)
    rw [Function.iterate_succ_apply'] at hk
    generalize Mirror.poll^[n] m.leds = s at hoff hsource hw hk
    obtain ⟨pc, source, remembered, sent⟩ := s
    obtain rfl : pc = .outside := hoff
    obtain rfl : source = remembered := hsource
    have hleds : (mainStep^[k] m).leds = ⟨.compare source, source, source, sent⟩ := hk
    have hrxt : (mainStep^[k] m).g.rxt.byte 49 = source := congrArg Mirror.source hleds
    have hold : (mainStep^[k] m).oldPendantLeds = source := congrArg Mirror.remembered hleds
    have htx : (mainStep^[k] m).uartTx = sent := congrArg Mirror.sent hleds
    have hpc : (mainStep^[k] m).pc = .ledsOld (mainStep^[k] m).oldPendantLeds := by
      rw [hold]
      exact pc_of_compare (congrArg Mirror.pc hleds)
    have hup := h (3 + k)
    rw [Function.iterate_add_apply, rest_of_compare hpc] at hup
    exact (hup rfl (hrxt.trans hold.symm) w ((congrArg List.head? htx).trans hw)).trans hrxt

/-- **The condition is exact**: a store is harmless if and only if the loop,
left alone after it, stays up to date. -/
theorem takes_iff_left_alone {m m' : Main} {tr : List BusAccess}
    (hstep : Step m (.ethernet tr) m') :
    m.leds.Takes (m'.g.rxt.byte 49) ↔ ∀ k, UpToDate (mainStep^[k] m') := by
  have hstore : m'.leds = m.leds.store (m'.g.rxt.byte 49) := by
    cases hstep with
    | ethernet hrun => rfl
  rw [← settled_iff_left_alone, hstore, Mirror.settled_store_iff]

/-! ## §5  Runs -/

/-- The words of a packet can be read off the accesses of its reception. -/
theorem words_of_receives {e : Event} {r r' : RxResponse} (h : e.Receives r)
    (h' : e.Receives r') (hready : r.packetReady) : r'.words = r.words := by
  obtain ⟨inter, t, -, hr, rfl⟩ := h
  obtain ⟨inter', t', -, hr', he⟩ := h'
  have htrace : r.trace ++ t = r'.trace ++ t' :=
    (List.append_inj (Event.ethernet.inj he) rfl).2
  have hready_eq : r.ready = r'.ready := by
    have hget : (r.trace ++ t)[4]? = (r'.trace ++ t')[4]? := by rw [htrace]
    simpa [RxResponse.trace] using hget
  have hready' : r'.packetReady := by rwa [RxResponse.packetReady, ← hready_eq]
  rw [RxResponse.trace_of_ready hready, RxResponse.trace_of_ready hready'] at htrace
  simp only [List.cons_append, List.nil_append, List.cons.injEq, Access.rd.injEq] at htrace
  obtain ⟨-, -, -, -, -, -, -, ⟨-, hlen⟩, hwords⟩ := htrace
  have hcount : r.words.length = r'.words.length := by
    rw [hr.trans (if_pos hready), hr'.trans (if_pos hready'), hlen]
  have hmap := (List.append_inj hwords (by simp [hcount])).1
  exact (List.map_injective_iff.mpr (fun v v' hv => (Access.rd.inj hv).2) hmap).symm

/-- A command frame of 60 bytes with the LED byte `x`. -/
def ledFrame (x : BitVec 8) : RxResponse where
  dummy := 1
  ready := 1
  status := 0
  len := 60
  words := (List.range 30).map fun k =>
    if k = 6 then 0xab80 else if k = 24 then x.setWidth 32 <<< 8 else 0

/-- A frame of 60 bytes of another type. -/
def foreignFrame : RxResponse := ⟨1, 1, 0, 60, List.replicate 30 0xFFFF⟩

theorem wordByte_ledFrame (x : BitVec 8) : wordByte (ledFrame x).words 49 = x := by
  show ((x.setWidth 32 <<< 8) >>> 8 : BitVec 32).setWidth 8 = x
  ext j hj
  interval_cases j <;> simp

theorem len_ledFrame (x : BitVec 8) : (ledFrame x).len.toNat = 60 := by
  show (60 : BitVec 32).toNat = 60
  decide

theorem isCommandFrame_ledFrame (x : BitVec 8) : IsCommandFrame (ledFrame x) := by
  refine ⟨?_, ⟨?_, ?_⟩, ?_, ?_, ?_⟩
  · show (1 : BitVec 32) &&& 0x03 = 1
    decide
  · show (0 : BitVec 32) &&& 0xBF00 = 0
    decide
  · show (60 : BitVec 32) < 1522
    decide
  · rw [len_ledFrame]
    decide
  · show ((0xab80 : BitVec 32) >>> (8 * 0)).setWidth 8 = 0x80#8
    decide
  · show ((0xab80 : BitVec 32) >>> (8 * 1)).setWidth 8 = 0xab#8
    decide

theorem complete_ledFrame (x : BitVec 8) : (ledFrame x).Complete := by
  rw [RxResponse.Complete, if_pos (isCommandFrame_ledFrame x).1, len_ledFrame]
  exact (List.length_map ..).trans List.length_range

/-- The host can change the LED byte at any time. -/
theorem exists_led_run (g : Globals) (x : BitVec 8) :
    ∃ tr g', Completes (ethernetInterrupts g) tr g' ∧
      (Event.ethernet tr).Receives (ledFrame x) ∧ g'.rxt.byte 49 = x := by
  obtain ⟨hready, hgood, -, h12, h13⟩ := isCommandFrame_ledFrame x
  have hcomplete := complete_ledFrame x
  have hbyte : ∀ j < 60, ((ledFrame x).result g.rxt).dataPtr.byte j =
      wordByte (ledFrame x).words j := by
    intro j hj
    rw [← len_ledFrame x] at hj
    exact RxResponse.result_byte_of_good hcomplete hready hgood g.rxt hj
  have hcmd : isCommand ((ledFrame x).result g.rxt).dataPtr = true := by
    rw [isCommand, hbyte 12 (by decide), hbyte 13 (by decide), h12, h13]
    rfl
  obtain ⟨g', hrun, hrxt⟩ := exists_command_run g (show (1#32) &&& 1 = 1 by decide) hcomplete hcmd
    (fun _ => 0) (List.forall_mem_nil _) txDone_both
  refine ⟨_, g', hrun, ⟨1, _, by decide, hcomplete, rfl⟩, ?_⟩
  rw [hrxt, hbyte 49 (by decide), wordByte_ledFrame]

theorem exists_foreign_run (g : Globals) :
    ∃ tr g', Completes (ethernetInterrupts g) tr g' ∧
      (Event.ethernet tr).Receives foreignFrame ∧ g'.rxt.byte 49 = 0xFF := by
  have hcomplete : foreignFrame.Complete := rfl
  have hgood : foreignFrame.good := ⟨rfl, by show (60 : BitVec 32) < 1522; decide⟩
  have hbyte : ∀ j < 60, (foreignFrame.result g.rxt).dataPtr.byte j =
      wordByte foreignFrame.words j := by
    intro j hj
    exact RxResponse.result_byte_of_good hcomplete rfl hgood g.rxt hj
  have hcmd : isCommand (foreignFrame.result g.rxt).dataPtr = false := by
    rw [isCommand, hbyte 12 (by decide), hbyte 13 (by decide)]
    rfl
  obtain ⟨g', hrun, hrxt⟩ := exists_reject_run g (show (1#32) &&& 1 = 1 by decide) hcomplete hcmd
    (List.forall_mem_nil _) txDone_both
  refine ⟨_, g', hrun, ⟨1, _, by decide, hcomplete, rfl⟩, ?_⟩
  rw [hrxt, hbyte 49 (by decide)]
  rfl

/-- The loop runs on with nothing in between. -/
theorem runs_main {step : Main → Event → Main → Prop} {m₀ m : Main} {es : List Event}
    (hmain : ∀ m, step m .main (mainStep m)) (h : Runs step m₀ es m) (n : ℕ) :
    Runs step m₀ (List.replicate n .main ++ es) (mainStep^[n] m) := by
  induction n with
  | zero => exact h
  | succ n ih =>
      rw [Function.iterate_succ_apply']
      exact .next ih (hmain _)

/-- The first iteration on a new LED byte, up to where it is remembered. -/
theorem first_iteration (g : Globals) (h : g.rxt.byte 49 ≠ 0) :
    ∃ g' seg7, g'.rxt = g.rxt ∧ mainStep^[8] { Main.start with g := g } =
      { Main.start with
        pc := .sendRxt, g := g', oldPendantLeds := g.rxt.byte 49, count2 := 1,
        seg7Display := seg7 } := by
  obtain ⟨g', seg7, hrxt, hcompare⟩ : ∃ g' seg7, g'.rxt = g.rxt ∧
      mainStep^[5] { Main.start with g := g } =
        { Main.start with
          pc := .ledsOld (g.rxt.byte 49), g := g', count2 := 1, seg7Display := seg7 } :=
    ⟨_, _, rfl, rfl⟩
  refine ⟨g', seg7, hrxt, ?_⟩
  refine (Function.iterate_add_apply mainStep 3 5 _).trans ?_
  rw [hcompare, ← hrxt]
  show mainStep (mainStep (if g'.rxt.byte 49 ≠ 0 then _ else _)) = _
  rw [if_pos (by rw [hrxt]; exact h)]
  rfl

/-- The first iteration on a new LED byte, up to where it has been sent. -/
theorem first_send (g : Globals) (h : g.rxt.byte 49 ≠ 0) :
    ∃ g' seg7, g'.rxt = g.rxt ∧ mainStep^[10] { Main.start with g := g } =
      { Main.start with
        pc := .countLoad, g := g', oldPendantLeds := g.rxt.byte 49, count2 := 1,
        seg7Display := seg7, uartTx := [g.rxt.byte 49] } := by
  obtain ⟨g', seg7, hrxt, hremember⟩ := first_iteration g h
  refine ⟨g', seg7, hrxt, (Function.iterate_add_apply mainStep 2 8 _).trans ?_⟩
  rw [hremember, ← hrxt]
  rfl

/-- The events of a run that has received one frame. -/
theorem eq_ethernet_of_receives {n : ℕ} {tr : List BusAccess} {e : Event} {r : RxResponse}
    (he : e ∈ List.replicate n .main ++ [.ethernet tr]) (hr : e.Receives r) :
    e = .ethernet tr := by
  rcases List.mem_append.mp he with hmain | hethernet
  · obtain ⟨inter, t, -, -, rfl⟩ := hr
    exact absurd (List.eq_of_mem_replicate hmain) (by nofun)
  · exact List.mem_singleton.mp hethernet

/-- One command frame with the LED byte 1, and the byte goes out. -/
theorem sent_from_commands_first :
    ∃ es m, Runs Step .start es m ∧ m.uartTx = [1] ∧ ∀ b ∈ m.uartTx, FromCommands es b := by
  obtain ⟨tr, g, hrun, hreceives, hbyte⟩ := exists_led_run Main.start.g 1
  obtain ⟨g', seg7, -, hsend⟩ := first_send g (by rw [hbyte]; decide)
  have hfirst : Runs Step .start [.ethernet tr] { Main.start with g := g } :=
    .next .start (.ethernet hrun)
  have hruns := runs_main Step.main hfirst 10
  rw [hsend, hbyte] at hruns
  refine ⟨_, _, hruns, rfl, sent_from_commands rfl rfl rfl hruns ?_⟩
  rintro e es' hsuffix r hr -
  obtain rfl := eq_ethernet_of_receives (hsuffix.subset List.mem_cons_self) hr
  refine Or.inr ⟨_, List.mem_cons_self, ledFrame 1, hreceives, isCommandFrame_ledFrame 1, ?_⟩
  rw [words_of_receives hreceives hr (isCommandFrame_ledFrame 1).1]

/-- **A byte of a rejected frame is sent.** A frame of type `0xffff` is
answered with `0x08aa`, and its byte 49 goes to the pendant. -/
theorem rejected_byte_sent :
    ∃ es m b, Runs Step .start es m ∧ b ∈ m.uartTx ∧ ¬ FromCommands es b := by
  obtain ⟨tr, g, hrun, hreceives, hbyte⟩ := exists_foreign_run Main.start.g
  obtain ⟨g', seg7, -, hsend⟩ := first_send g (by rw [hbyte]; decide)
  have hfirst : Runs Step .start [.ethernet tr] { Main.start with g := g } :=
    .next .start (.ethernet hrun)
  have hruns := runs_main Step.main hfirst 10
  rw [hsend, hbyte] at hruns
  refine ⟨_, _, 0xFF, hruns, List.mem_singleton_self _, ?_⟩
  rintro (hzero | ⟨e, he, r, hr, hcommand, -⟩)
  · exact absurd hzero (by decide)
  · obtain rfl := eq_ethernet_of_receives he hr
    have h12 := hcommand.2.2.2.1
    rw [words_of_receives hreceives hr rfl] at h12
    exact absurd h12 (by decide)

/-- The same run as the loop sees it: it ends its iteration up to date. -/
theorem leds_up_to_date_first :
    ∃ es m, Runs (fun m e m' => Step m e m' ∧ HarmlessStore m e m') .start es m ∧
      m.pc = .pressedTest ∧ m.uartTx.head? = some 1 ∧ 1 = m.g.rxt.byte 49 := by
  obtain ⟨tr, g, hrun, -, hbyte⟩ := exists_led_run Main.start.g 1
  obtain ⟨g', seg7, hrxt, hsend⟩ := first_send g (by rw [hbyte]; decide)
  have hharmless : HarmlessStore .start (.ethernet tr) { Main.start with g := g } :=
    fun _ _ _ => Or.inr nofun
  have hfirst : Runs (fun m e m' => Step m e m' ∧ HarmlessStore m e m') .start [.ethernet tr]
      { Main.start with g := g } := .next .start ⟨.ethernet hrun, hharmless⟩
  have hmain : ∀ m, Step m .main (mainStep m) ∧ HarmlessStore m .main (mainStep m) :=
    fun m => ⟨.main m, nofun⟩
  have hruns := runs_main hmain (runs_main hmain hfirst 10) 2
  rw [hsend, hbyte] at hruns
  refine ⟨_, _, hruns, rfl, rfl, leds_up_to_date rfl rfl hruns rfl ?_ 1 rfl⟩
  show g'.rxt.byte 49 = 1
  rw [hrxt, hbyte]

/-- **The pendant left behind.** The LED byte becomes 1, the loop finds the
difference and remembers 1; it becomes 2, and 2 is sent; it becomes 1 again,
and the loop sees no difference any more. -/
theorem pendant_left_behind :
    ∃ es m, Runs Step .start es m ∧ m.pc = .pressedTest ∧
      m.g.rxt.byte 49 = m.oldPendantLeds ∧
      ∃ b, m.uartTx.head? = some b ∧ b ≠ m.g.rxt.byte 49 := by
  obtain ⟨tr₁, g₁, hrun₁, -, hbyte₁⟩ := exists_led_run Main.start.g 1
  obtain ⟨g₁', seg7, -, hremember⟩ := first_iteration g₁ (by rw [hbyte₁]; decide)
  obtain ⟨tr₂, g₂, hrun₂, -, hbyte₂⟩ := exists_led_run g₁' 2
  obtain ⟨tr₃, g₃, hrun₃, -, hbyte₃⟩ := exists_led_run g₂ 1
  have hfirst : Runs Step .start [.ethernet tr₁] { Main.start with g := g₁ } :=
    .next .start (.ethernet hrun₁)
  have hremembered := runs_main Step.main hfirst 8
  rw [hremember, hbyte₁] at hremembered
  have hsent := runs_main Step.main (hremembered.next (.ethernet hrun₂)) 2
  have hdone := runs_main Step.main (hsent.next (.ethernet hrun₃)) 2
  refine ⟨_, _, hdone, rfl, hbyte₃, 2, congrArg some hbyte₂, ?_⟩
  show 2 ≠ g₃.rxt.byte 49
  rw [hbyte₃]
  decide

end FpgaCnc.HelloLed
