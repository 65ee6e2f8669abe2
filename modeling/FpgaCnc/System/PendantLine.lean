import FpgaCnc.Firmware.PendantLeds
import FpgaCnc.Hdl.Uart

/-!
# From the pendant's line to the image of its buttons

The pendant sends a byte for every key event. The UART receives it and raises
its interrupt, the handler reads status and data and leaves the byte to the main
loop, and the loop puts it into the image. Nowhere on the way is there room for
two bytes: a byte has to be taken before the next one comes. This module has the
times that are enough.

§1 how soon the loop is done · §2 bytes that are far enough apart · §3 the
handler on the bus · §4 the whole way.
-/

namespace FpgaCnc.PendantLine

open Clocked SerialLine HelloLed

/-! ## §1  How soon the loop is done -/

/-- The accesses from here to `if (pendant_pressed == 1)`, at most. -/
def testLeft : Pc → ℕ
  | .pressedTest => 0
  | .key k => k.left + 11
  | .countTest => 11
  | .segsTxt => 10
  | .segsOut => 9
  | .ledsRxt => 8
  | .ledsOld _ => 7
  | .oldRxt => 6
  | .oldStore _ => 5
  | .sendRxt => 4
  | .send _ => 3
  | .countLoad => 2
  | .countStore _ => 1

/-- Whether a byte is waiting. -/
def raised (m : Main) : ℕ := (m.pendantPressed == 1).toNat

/-- The accesses until no byte is waiting or in hand, at most. -/
def todo (m : Main) : ℕ :=
  match m.pc with
  | .key .clearPressed => 14
  | .key k => k.left + 26 * raised m
  | pc => (testLeft pc + 15) * raised m

/-- What a byte takes from its arrival on. -/
def pickUp : ℕ := 26

theorem todo_keyStep (k : KeyPc) {m : Main} (hpc : m.pc = .key k) :
    todo (keyStep k m) ≤ todo m - 1 := by
  obtain ⟨pc, g, pressed, keys, button, tempBut, oldLeds, count, count2, seg7, tx⟩ := m
  obtain rfl : pc = .key k := hpc
  cases k with
  | clearPressed => exact le_rfl
  | buttonTest =>
      by_cases hlow : button ≤ 7
      · simp only [keyStep, if_pos hlow, todo, KeyPc.left, raised]
        omega
      · simp only [keyStep, if_neg hlow, todo, KeyPc.left, raised]
        omega
  | _ =>
      simp only [keyStep, todo, KeyPc.left, testLeft, raised]
      omega

/-- **Every access** of the loop is one less. -/
theorem todo_mainStep (m : Main) : todo (mainStep m) ≤ todo m - 1 := by
  obtain ⟨pc, g, pressed, keys, button, tempBut, oldLeds, count, count2, seg7, tx⟩ := m
  cases pc with
  | key k => exact todo_keyStep k rfl
  | pressedTest =>
      by_cases hp : pressed = 1
      · obtain rfl := hp
        exact le_rfl
      · simp only [mainStep, if_neg hp, todo, raised, beq_eq_false_iff_ne.mpr hp]
        exact le_rfl
  | countTest =>
      by_cases hc : count % 1000 = 0
      · simp only [mainStep, if_pos hc, todo, testLeft, raised]
        omega
      · simp only [mainStep, if_neg hc, todo, testLeft, raised]
        omega
  | ledsOld v =>
      by_cases hv : v ≠ oldLeds
      · simp only [mainStep, if_pos hv, todo, testLeft, raised]
        omega
      · simp only [mainStep, if_neg hv, todo, testLeft, raised]
        omega
  | _ =>
      simp only [mainStep, todo, testLeft, raised]
      omega

/-- Nothing is waiting, nothing is in hand. -/
structure Settled (m : Main) : Prop where
  pressed : m.pendantPressed = 0
  pc : ∀ k, m.pc ≠ .key k

theorem todo_of_settled {m : Main} (h : Settled m) : todo m = 0 := by
  obtain ⟨pc, g, pressed, keys, button, tempBut, oldLeds, count, count2, seg7, tx⟩ := m
  obtain rfl : pressed = 0 := h.pressed
  cases pc with
  | key k => exact absurd rfl (h.pc k)
  | _ => exact Nat.mul_zero _

theorem settled_of_todo {m : Main} (hpressed : m.pendantPressed = 0 ∨ m.pendantPressed = 1)
    (h : todo m = 0) : Settled m := by
  obtain ⟨pc, g, pressed, keys, button, tempBut, oldLeds, count, count2, seg7, tx⟩ := m
  have hnot : ∀ k, pc ≠ .key k := by
    rintro k rfl
    have hk := k.left_pos
    cases k with
    | clearPressed => exact absurd h (Nat.succ_ne_zero 13)
    | _ =>
        simp only [todo] at h
        omega
  refine ⟨hpressed.resolve_right ?_, hnot⟩
  rintro (rfl : pressed = 1)
  cases pc with
  | key k => exact hnot k rfl
  | _ => exact absurd h (Nat.succ_ne_zero _)

/-- A byte that comes when the last one is done. -/
theorem todo_received {m : Main} (h : Settled m) (b : BitVec 8) :
    todo (m.received b) ≤ pickUp := by
  obtain ⟨pc, g, pressed, keys, button, tempBut, oldLeds, count, count2, seg7, tx⟩ := m
  cases pc with
  | key k => exact absurd rfl (h.pc k)
  | _ => exact show (_ + 15) * 1 ≤ 26 from Nat.le_of_ble_eq_true rfl

/-! ## §2  Bytes that are far enough apart -/

/-- The accesses of the loop since the last key byte. -/
def sinceKey : List Event → ℕ
  | [] => 0
  | e :: es => if e.key = none then sinceKey es + (if e = .main then 1 else 0) else 0

theorem sinceKey_main (es : List Event) : sinceKey (.main :: es) = sinceKey es + 1 := by
  rw [sinceKey, if_pos (show Event.main.key = none from rfl), if_pos rfl]

theorem sinceKey_of_key {e : Event} (h : e.key ≠ none) (es : List Event) :
    sinceKey (e :: es) = 0 := if_neg h

theorem sinceKey_of_not_main {e : Event} (h : e.key = none) (hmain : e ≠ .main)
    (es : List Event) : sinceKey (e :: es) = sinceKey es := by
  rw [sinceKey, if_pos h, if_neg hmain, Nat.add_zero]

/-- Every key byte but the first comes when the loop has had the accesses to pick
up the one before. -/
def Spaced : List Event → Prop
  | [] => True
  | e :: es => Spaced es ∧ (e.key ≠ none → receivedKeys es = [] ∨ pickUp ≤ sinceKey es)

/-- What a run of bytes that are far enough apart keeps. -/
structure Keeps (init : Fin 16 → Bool) (es : List Event) (m : Main) : Prop where
  inv : Inv init es m
  flag : m.pendantPressed = 0 ∨ m.pendantPressed = 1
  todo : todo m ≤ if receivedKeys es = [] then 0 else pickUp - sinceKey es

theorem Keeps.settled {init : Fin 16 → Bool} {es : List Event} {m : Main} (h : Keeps init es m)
    (hdone : receivedKeys es = [] ∨ pickUp ≤ sinceKey es) : Settled m := by
  refine settled_of_todo h.flag (Nat.le_zero.mp (h.todo.trans ?_))
  rcases hdone with hnone | hlong
  · rw [if_pos hnone]
  · split_ifs <;> omega

theorem flag_mainStep {m : Main} (h : m.pendantPressed = 0 ∨ m.pendantPressed = 1) :
    (mainStep m).pendantPressed = 0 ∨ (mainStep m).pendantPressed = 1 := by
  by_cases hpc : ∃ k, m.pc = .key k
  · obtain ⟨k, hk⟩ := hpc
    obtain ⟨pc, g, pressed, keys, button, tempBut, oldLeds, count, count2, seg7, tx⟩ := m
    obtain rfl : pc = .key k := hk
    cases k with
    | clearPressed => exact .inl rfl
    | buttonTest =>
        simp only [mainStep, keyStep]
        split_ifs <;> exact h
    | _ => exact h
  · rw [(mainStep_outside m fun k hk => hpc ⟨k, hk⟩).1]
    exact h

theorem keeps_step {init : Fin 16 → Bool} {es : List Event} {m m' : Main} {e : Event}
    (h : Keeps init es m) (hspaced : Spaced (e :: es)) (hstep : Step m e m') :
    Keeps init (e :: es) m' := by
  cases hstep with
  | main =>
      refine ⟨h.inv.mainStep, flag_mainStep h.flag, (todo_mainStep m).trans ?_⟩
      have htodo := h.todo
      rw [receivedKeys_cons rfl, sinceKey_main]
      split_ifs at htodo ⊢ <;> omega
  | ethernet hrun =>
      refine ⟨h.inv.ethernet hrun, h.flag, ?_⟩
      rw [receivedKeys_cons rfl, sinceKey_of_not_main rfl (fun heq => Event.noConfusion heq)]
      exact h.todo
  | uart status rxdata =>
      by_cases hready : receiveReady status = true
      · -- the byte finds the loop settled
        have hkey : (Event.uart status rxdata).key = some (rxdata.setWidth 8) := if_pos hready
        have hsettled := h.settled (hspaced.2 (by rw [hkey]; exact Option.some_ne_none _))
        have heq : receiverInterupts status rxdata m = m.received (rxdata.setWidth 8) :=
          if_pos hready
        have htakes : Takes m (rxdata.setWidth 8) := by
          rw [Takes]
          split
          · next k hk => exact absurd hk (hsettled.pc k)
          · trivial
        rw [heq]
        refine ⟨h.inv.received hkey hsettled.pressed htakes, .inr rfl, ?_⟩
        have hsome : receivedKeys (Event.uart status rxdata :: es) ≠ [] := by
          rw [receivedKeys, List.filterMap_cons_some hkey]
          exact List.cons_ne_nil _ _
        rw [if_neg hsome, sinceKey_of_key (by rw [hkey]; exact Option.some_ne_none _)]
        exact todo_received hsettled _
      · have hkey : (Event.uart status rxdata).key = none := if_neg hready
        have heq : receiverInterupts status rxdata m = m := if_neg hready
        rw [heq]
        refine ⟨h.inv.of_same hkey rfl rfl rfl h.inv.facts, h.flag, ?_⟩
        rw [receivedKeys_cons hkey, sinceKey_of_not_main hkey (fun heq => Event.noConfusion heq)]
        exact h.todo

theorem keeps_run {m₀ m : Main} {es : List Event} (h₀ : Idle m₀) (hrun : Runs Step m₀ es m)
    (hspaced : Spaced es) : Keeps (pendantImage m₀) es m := by
  induction hrun with
  | start =>
      have hsettled : Settled m₀ := ⟨h₀.pressed, fun k hk => Pc.noConfusion (h₀.pc.symm.trans hk)⟩
      exact ⟨h₀.inv, .inl h₀.pressed, (todo_of_settled hsettled).le⟩
  | next _ hstep ih => exact keeps_step (ih hspaced.1) hspaced hstep

/-- **Bytes far enough apart** do each other no harm: when the last one is picked
up, each button is in the state of the last byte about it. -/
theorem image_of_spaced {m₀ m : Main} {es : List Event} (h₀ : Idle m₀) (hrun : Runs Step m₀ es m)
    (hspaced : Spaced es) (hdone : receivedKeys es = [] ∨ pickUp ≤ sinceKey es) :
    pendantImage m = expectedImage (pendantImage m₀) (receivedKeys es) := by
  have hkeeps := keeps_run h₀ hrun hspaced
  have hsettled := hkeeps.settled hdone
  rw [← hkeeps.inv.image, imageToBe, hsettled.pressed, if_neg (by decide), afterBranch]
  split
  · next hk => exact absurd hk (hsettled.pc _)
  · next k _ hk => exact absurd hk (hsettled.pc k)
  · rfl

/-! ## §3  The handler on the bus -/

/-- The UART before clock `t`. -/
def uartAt (div : BitVec 13) (sched : ℕ → UartIn) (t : ℕ) : Uart :=
  stateAt (Uart.posedge div) Uart.reset sched t

/-- `IORD_ALTERA_AVALON_UART_STATUS` begins. -/
def statusRead (i : UartIn) : Bool :=
  i.chipselect && !i.readN && i.address == 2 && i.begintransfer

/-- `IORD_ALTERA_AVALON_UART_RXDATA` begins. -/
def dataRead (i : UartIn) : Bool := Uart.rxRdStrobe i && i.begintransfer

/-- What a read begun at clock `t` reads. -/
def readValue (div : BitVec 13) (sched : ℕ → UartIn) (t : ℕ) : BitVec 32 :=
  (uartAt div sched (t + 1)).readdata.setWidth 32

/-- The handler, up to clock `T`: its interrupt is enabled when there is
something to read; it answers an interrupt that stays up for `L` clocks, if it is
not just running; it reads the data within `M` clocks of a status that says that
there are any, and at no other time. -/
structure Handler (div : BitVec 13) (sched : ℕ → UartIn) (L M T : ℕ) : Prop where
  enabled : ∀ t ≤ T, (uartAt div sched t).rx.rxCharReady = true →
    (uartAt div sched t).controlReg.getLsbD 7 = true
  answers : ∀ t ≤ T, (∀ w, t ≤ w → w < t + L → (uartAt div sched w).irq = true) →
    ∃ u, t ≤ u ∧ u < t + L ∧ (statusRead (sched u) = true ∨ dataRead (sched u) = true)
  reads : ∀ u ≤ T, statusRead (sched u) = true → receiveReady (readValue div sched u) = true →
    ∃ v, u < v ∧ v < u + M ∧ dataRead (sched v) = true
  only : ∀ v ≤ T, dataRead (sched v) = true → ∃ u < v, statusRead (sched u) = true ∧
    receiveReady (readValue div sched u) = true ∧
    ∀ w, u < w → w < v → dataRead (sched w) = false

section Bus

variable {div : BitVec 13} {sched : ℕ → UartIn} {L M T T' t : ℕ}

theorem receiveReady_statusReg (s : Uart) :
    receiveReady (((Uart.statusReg s).setWidth 16).setWidth 32) = s.rx.rxCharReady := by
  unfold Uart.statusReg
  generalize Uart.anyError s = anyError
  generalize s.rx.rxCharReady = ready
  generalize s.tx.txReady = txReady
  generalize s.tx.txShiftEmpty = txShiftEmpty
  generalize s.tx.txOverrun = txOverrun
  generalize s.rx.rxOverrun = rxOverrun
  generalize s.rx.breakDetect = breakDetect
  generalize s.rx.framingError = framingError
  revert anyError ready txReady txShiftEmpty txOverrun rxOverrun breakDetect framingError
  decide

/-- The status the handler reads says whether a character is ready. -/
theorem receiveReady_readValue (h : statusRead (sched t) = true) :
    receiveReady (readValue div sched t) = (uartAt div sched t).rx.rxCharReady := by
  have haddress : (sched t).address = 2 := by
    rw [statusRead, Bool.and_eq_true, Bool.and_eq_true] at h
    exact eq_of_beq h.1.2
  have hdata : (uartAt div sched (t + 1)).readdata =
      (Uart.statusReg (uartAt div sched t)).setWidth 16 := by
    show Uart.selectedReadData (sched t) (uartAt div sched t) = _
    rw [Uart.selectedReadData, haddress]
    simp
  rw [readValue, hdata, receiveReady_statusReg]

theorem dataRead_of_statusRead {i : UartIn} (h : statusRead i = true) : dataRead i = false := by
  rw [statusRead, Bool.and_eq_true, Bool.and_eq_true] at h
  rw [dataRead, Uart.rxRdStrobe, eq_of_beq h.1.2]
  simp

theorem irq_succ (hready : (uartAt div sched t).rx.rxCharReady = true)
    (henabled : (uartAt div sched t).controlReg.getLsbD 7 = true) :
    (uartAt div sched (t + 1)).irq = true := by
  show Uart.qualifiedIrq (uartAt div sched t) = true
  rw [Uart.qualifiedIrq, hready, henabled]
  simp

theorem rxCharReady_kept {u : ℕ} (htu : t ≤ u)
    (hready : (uartAt div sched t).rx.rxCharReady = true)
    (hnone : ∀ w, t ≤ w → w < u → dataRead (sched w) = false) :
    (uartAt div sched u).rx.rxCharReady = true := by
  unfold uartAt at hready ⊢
  rw [Uart.rx_stateAt] at hready ⊢
  exact UartRx.rxCharReady_kept htu hready hnone

/-- **The handler is a prompt reader.** -/
theorem Handler.prompt (h : Handler div sched L M T) (hT : T' + L + 1 ≤ T) :
    UartRx.Prompt (L + M + 1) UartRx.reset (Uart.rxSched div sched) T' := by
  have hsame : ∀ t, (stateAt UartRx.posedge UartRx.reset (Uart.rxSched div sched) t).rxCharReady =
      (uartAt div sched t).rx.rxCharReady := by
    intro t
    rw [uartAt, Uart.rx_stateAt]
    rfl
  constructor
  · intro v hv hread
    obtain ⟨u, huv, hstatus, hsaid, hnone⟩ := h.only v (by omega) hread
    rw [receiveReady_readValue hstatus] at hsaid
    rw [hsame]
    refine rxCharReady_kept huv.le hsaid fun w huw hwv => ?_
    rcases Nat.eq_or_lt_of_le huw with rfl | hlt
    · exact dataRead_of_statusRead hstatus
    · exact hnone w hlt hwv
  · intro t ht hready
    rw [hsame] at hready
    by_contra hnever
    have hnone : ∀ w, t ≤ w → w < t + (L + M + 1) → dataRead (sched w) = false := by
      intro w htw hwt
      apply Bool.eq_false_iff.mpr
      exact fun hread => hnever ⟨w, htw, hwt, hread⟩
    have hstays : ∀ w, t ≤ w → w ≤ t + L → (uartAt div sched w).rx.rxCharReady = true :=
      fun w htw hwt => rxCharReady_kept htw hready fun w' htw' hww => hnone w' htw' (by omega)
    obtain ⟨u, htu, hut, hstatus | hread⟩ := h.answers (t + 1) (by omega) (by
      intro w htw hwt
      obtain ⟨w, rfl⟩ : ∃ w', w = w' + 1 := ⟨w - 1, by omega⟩
      have hup := hstays w (by omega) (by omega)
      exact irq_succ hup (h.enabled w (by omega) hup))
    · have hsaid : receiveReady (readValue div sched u) = true := by
        rw [receiveReady_readValue hstatus]
        exact hstays u (by omega) (by omega)
      obtain ⟨v, huv, hvu, hread⟩ := h.reads u (by omega) hstatus hsaid
      exact hnever ⟨v, by omega, by omega, hread⟩
    · exact hnever ⟨u, by omega, by omega, hread⟩

end Bus

/-! ## §4  The whole way -/

/-- The bytes the handler reads, and when. -/
def dataReads (div : BitVec 13) (sched : ℕ → UartIn) : ℕ → List (ℕ × BitVec 8)
  | 0 => []
  | t + 1 =>
      dataReads div sched t ++
        if dataRead (sched t) then [(t, (readValue div sched t).setWidth 8)] else []

/-- The key bytes of a run whose events are stamped with clocks, latest first. -/
def keyTimes (es : List (ℕ × Event)) : List (ℕ × BitVec 8) :=
  es.filterMap fun x => x.2.key.map fun b => (x.1, b)

/-- The loop is quick: between two key bytes more than `d` clocks apart it has the
accesses to pick up the first. -/
def Quick (d : ℕ) : List (ℕ × Event) → Prop
  | [] => True
  | x :: es => Quick d es ∧ (x.2.key ≠ none → ∀ y, (keyTimes es).head? = some y →
      y.1 + d < x.1 → pickUp ≤ sinceKey (es.map Prod.snd))

section Way

variable {div : BitVec 13} {sched : ℕ → UartIn} {t T d : ℕ} {es : List (ℕ × Event)}

theorem dataReads_read (t : ℕ) :
    (dataReads div sched t).map Prod.snd = Uart.read div sched t := by
  induction t with
  | zero => rfl
  | succ t ih =>
      rw [dataReads, List.map_append, ih, Uart.read]
      congr 1
      show List.map Prod.snd (if dataRead (sched t) then _ else _) =
        if dataRead (sched t) then _ else _
      split
      · show [((uartAt div sched (t + 1)).readdata.setWidth 32).setWidth 8] = _
        rw [BitVec.setWidth_setWidth_of_le _ (by decide)]
        rfl
      · rfl

theorem mem_dataReads {x : ℕ × BitVec 8} (h : x ∈ dataReads div sched t) :
    x.1 < t ∧ dataRead (sched x.1) = true := by
  induction t with
  | zero => exact absurd h List.not_mem_nil
  | succ t ih =>
      rw [dataReads, List.mem_append] at h
      rcases h with hold | hnew
      · obtain ⟨hlt, hread⟩ := ih hold
        exact ⟨by omega, hread⟩
      · split at hnew
        · next hread =>
            obtain rfl := List.mem_singleton.mp hnew
            exact ⟨Nat.lt_succ_self t, hread⟩
        · exact absurd hnew List.not_mem_nil

theorem dataReads_pairwise {R : ℕ → ℕ → Prop}
    (h : ∀ r r', r < r' → r' < T → dataRead (sched r) = true → dataRead (sched r') = true → R r r')
    (ht : t ≤ T) : (dataReads div sched t).Pairwise fun x y => R x.1 y.1 := by
  induction t with
  | zero => exact .nil
  | succ t ih =>
      rw [dataReads, List.pairwise_append]
      refine ⟨ih (by omega), ?_, ?_⟩
      · split
        · exact List.pairwise_singleton _ _
        · exact .nil
      · intro x hx y hy
        obtain ⟨hlt, hread⟩ := mem_dataReads hx
        split at hy
        · next hread' =>
            obtain rfl := List.mem_singleton.mp hy
            exact h x.1 t hlt (by omega) hread hread'
        · exact absurd hy List.not_mem_nil

theorem keyTimes_keys (es : List (ℕ × Event)) :
    (keyTimes es).map Prod.snd = receivedKeys (es.map Prod.snd) := by
  rw [keyTimes, List.map_filterMap, receivedKeys, List.filterMap_map]
  congr 1
  funext x
  cases hkey : x.2.key with
  | none => simp [hkey]
  | some b => simp [hkey]

/-- A loop that is quick, and bytes that are apart. -/
theorem spaced_of_quick (hquick : Quick d es)
    (hapart : (keyTimes es).Pairwise fun x y => y.1 + d < x.1) : Spaced (es.map Prod.snd) := by
  induction es with
  | nil => trivial
  | cons x es ih =>
      cases hkey : x.2.key with
      | none =>
          rw [keyTimes, List.filterMap_cons_none (by rw [hkey]; rfl)] at hapart
          exact ⟨ih hquick.1 hapart, fun h => absurd hkey h⟩
      | some b =>
          rw [keyTimes, List.filterMap_cons_some (b := (x.1, b)) (by rw [hkey]; rfl),
            List.pairwise_cons] at hapart
          obtain ⟨hfar, hrest⟩ := hapart
          refine ⟨ih hquick.1 hrest, fun h => ?_⟩
          rw [← keyTimes_keys]
          cases hlast : keyTimes es with
          | nil => exact .inl rfl
          | cons y ys =>
              have hhead : (keyTimes es).head? = some y := by rw [hlast]; rfl
              refine .inr (hquick.2 h y hhead (hfar y ?_))
              show y ∈ keyTimes es
              rw [hlast]
              exact List.mem_cons_self

/-- **From the line to the image.** Bytes whose cells can be read, a handler that
takes them before the next one comes, and a loop that picks each up before the
handler brings the next: when the last byte is picked up, each button is in the
state of the last byte about it. -/
theorem image_of_line {line : ℕ → Bool} {ds : List (BitVec 8)} {L M m b : ℕ} {m₀ m₁ : Main}
    (hline : ∀ t, (sched t).syncRxd = line t) (hpos : 0 < div.toNat)
    (hlow : Holds line 0 m false) (hidle : line m = true)
    (hsession : Session line (div.toNat / 2 + 2) (div.toNat + 1) (m + 1) ds b)
    (hhandler : Handler div sched L M (b + L + 1)) (hsoon : L + M + 1 ≤ UartRx.gap div)
    (hstart : Idle m₀) (hrun : Runs Step m₀ (es.map Prod.snd) m₁)
    (hkeys : keyTimes es = (dataReads div sched (b + 1)).reverse)
    (hquick : Quick (UartRx.gap div - (L + M + 1)) es)
    (hempty : (uartAt div sched (b + 1)).rx.rxCharReady = false)
    (hdone : ds = [] ∨ pickUp ≤ sinceKey (es.map Prod.snd)) :
    pendantImage m₁ = expectedImage (pendantImage m₀) ds.reverse := by
  have hin : UartRx.Listens div line (Uart.rxSched div sched) := ⟨fun _ => rfl, hline⟩
  have hreader : UartRx.Prompt (L + M + 1) UartRx.reset (Uart.rxSched div sched) b :=
    hhandler.prompt le_rfl
  -- what the handler has read
  have hread : Uart.read div sched (b + 1) = ds := by
    obtain ⟨hbytes, -⟩ := UartRx.bytes_in_time hin hpos hlow hidle hsession (hreader.slower hsoon)
    have hnone : UartRx.waiting (stateAt UartRx.posedge UartRx.reset (Uart.rxSched div sched)
        (b + 1)) = [] := by
      rw [uartAt, Uart.rx_stateAt] at hempty
      exact if_neg (Bool.eq_false_iff.mp hempty)
    rw [hnone, List.append_nil] at hbytes
    rw [Uart.read_eq]
    exact hbytes
  have hbytes : receivedKeys (es.map Prod.snd) = ds.reverse := by
    rw [← keyTimes_keys, hkeys, List.map_reverse, dataReads_read, hread]
  -- and when
  obtain ⟨-, hgaps⟩ := UartRx.received_of_reset hin hpos hlow hidle hsession
  have hapart : (keyTimes es).Pairwise fun x y => y.1 + (UartRx.gap div - (L + M + 1)) < x.1 := by
    rw [hkeys, List.pairwise_reverse]
    refine dataReads_pairwise (R := fun r r' => r + (UartRx.gap div - (L + M + 1)) < r')
      (T := b + 1) ?_ le_rfl
    intro r r' hrr hr' hread hread'
    have hfar := UartRx.reads_apart rfl hreader (fun t u => UartRx.got_apart hgaps)
      (show r' ≤ b by omega) hrr hread hread'
    omega
  rw [← hbytes]
  refine image_of_spaced hstart hrun (spaced_of_quick hquick hapart) (hdone.imp_left ?_)
  rintro rfl
  exact hbytes

end Way

/-- The pendant sends that button 1 has gone down, and up again, in cells of five
clocks; the interrupt is enabled at once, and the handler runs at clocks 66 and
120. -/
def button1Line (t : ℕ) : UartIn where
  address := if t = 0 then 3 else if t = 66 || t = 120 then 2 else 0
  begintransfer := t = 0 || t = 66 || t = 70 || t = 120 || t = 124
  chipselect := t = 0 || t = 66 || t = 70 || t = 120 || t = 124
  readN := t = 0
  writeN := t ≠ 0
  writedata := 0x80
  syncRxd := 2 ≤ t && (t < 10 || 10 ≤ t && t < 62 && (frame 0x11).getLsbD ((t - 12) / 5) ||
    62 ≤ t && t < 64 || 64 ≤ t && t < 116 && (frame 0x10).getLsbD ((t - 66) / 5) || 116 ≤ t)

theorem session_button1 :
    Session (fun t => (button1Line t).syncRxd) 4 5 3 [0x11, 0x10] 126 := by
  have hbytes : ∀ i < 10,
      (∀ t < 126, cells 10 5 2 i ≤ t → t < cells 10 5 2 (i + 1) →
        (button1Line t).syncRxd = (frame 0x11).getLsbD i) ∧
      ∀ t < 126, cells 64 5 2 i ≤ t → t < cells 64 5 2 (i + 1) →
        (button1Line t).syncRxd = (frame 0x10).getLsbD i := by decide +kernel
  have hend : ∀ a, ∀ i < 10, cells a 5 2 (i + 1) ≤ a + 52 := by
    intro a i hi
    rw [cells]
    omega
  have hfirst : Carries (fun t => (button1Line t).syncRxd) 0x11 (cells 10 5 2) := by
    intro i hi t hat htb
    have hbefore := hend 10 i hi
    exact (hbytes i hi).1 t (by omega) hat htb
  have hsecond : Carries (fun t => (button1Line t).syncRxd) 0x10 (cells 64 5 2) := by
    intro i hi t hat htb
    have hbefore := hend 64 i hi
    exact (hbytes i hi).2 t (by omega) hat htb
  have hhigh : ∀ t < 126, 2 ≤ t → t < 10 ∨ 62 ≤ t ∧ t < 64 ∨ 116 ≤ t →
      (button1Line t).syncRxd = true := by
    decide +kernel
  have hread : ∀ a, Readable 4 5 (cells a 5 2) :=
    fun a => readable_cells a (by decide) (by decide)
  refine .byte (by decide) ?_ hfirst (hread 10) (.byte (by decide) ?_ hsecond (hread 64)
    (.idle (by decide) ?_))
  · intro t hat (htb : t < 10)
    exact hhigh t (by omega) (by omega) (.inl htb)
  · intro t (hat : 62 ≤ t) (htb : t < 64)
    exact hhigh t (by omega) (by omega) (.inr (.inl ⟨hat, htb⟩))
  · intro t (hat : 116 ≤ t) htb
    exact hhigh t (by omega) (by omega) (.inr (.inr hat))

theorem handler_button1 : Handler 4 button1Line 10 10 137 where
  enabled := by decide +kernel
  answers t ht hup := by
    have hwhen : ∀ t ≤ 147, (uartAt 4 button1Line t).irq = true →
        64 ≤ t ∧ t ≤ 71 ∨ 118 ≤ t ∧ t ≤ 125 := by
      decide +kernel
    have hfirst := hwhen t (by omega) (hup t le_rfl (by omega))
    have hlast := hwhen (t + 9) (by omega) (hup (t + 9) (by omega) (by omega))
    omega
  reads := by
    have hwhen : ∀ u ≤ 137, statusRead (button1Line u) = true → u = 66 ∨ u = 120 := by
      decide +kernel
    intro u hu hstatus _
    rcases hwhen u hu hstatus with rfl | rfl
    · exact ⟨70, by omega, by omega, by decide⟩
    · exact ⟨124, by omega, by omega, by decide⟩
  only := by
    have hwhen : ∀ v ≤ 137, dataRead (button1Line v) = true → v = 70 ∨ v = 124 := by
      decide +kernel
    intro v hv hread
    rcases hwhen v hv hread with rfl | rfl
    · refine ⟨66, by omega, by decide, by decide +kernel, fun w huw hwv => ?_⟩
      apply Bool.eq_false_iff.mpr
      intro hread
      have hother := hwhen w (by omega) hread
      omega
    · refine ⟨120, by omega, by decide, by decide +kernel, fun w huw hwv => ?_⟩
      apply Bool.eq_false_iff.mpr
      intro hread
      have hother := hwhen w (by omega) hread
      omega

/-- The handler's runs, and what the loop does after each. -/
def button1Events : List (ℕ × Event) :=
  List.replicate 26 (140, .main) ++ ((124, .uart 0xE0 0x10) ::
    (List.replicate 26 (90, .main) ++ [(70, .uart 0xE0 0x11)]))

theorem quick_main {d n t : ℕ} {es : List (ℕ × Event)} (h : Quick d es) :
    Quick d (List.replicate n (t, .main) ++ es) := by
  induction n with
  | zero => exact h
  | succ n ih => exact ⟨ih, fun hkey => absurd rfl hkey⟩

/-- The second byte finds the first picked up. -/
theorem quick_button1 (d : ℕ) : Quick d button1Events := by
  refine quick_main ⟨quick_main ⟨trivial, fun _ y hy => ?_⟩, fun _ _ _ _ => by decide⟩
  exact absurd hy (Option.some_ne_none y).symm

theorem image_of_line_button1 :
    pendantImage ((button1Events.map Prod.snd).foldr Event.run .start) =
      expectedImage (pendantImage .start) [0x10, 0x11] := by
  have hlow : ∀ t < 2, (button1Line t).syncRxd = false := by decide +kernel
  have hrun : Runs Step .start (button1Events.map Prod.snd)
      ((button1Events.map Prod.snd).foldr Event.run .start) :=
    Runs.of_checked Event.run Event.pickedUp (fun _ _ h => (Event.pickedUpStep h).1) (by decide)
  have hkeys : keyTimes button1Events = (dataReads 4 button1Line 127).reverse := by decide +kernel
  have hsession : Session (fun t => (button1Line t).syncRxd) ((4 : BitVec 13).toNat / 2 + 2)
      ((4 : BitVec 13).toNat + 1) (2 + 1) [0x11, 0x10] 126 := session_button1
  have hempty : (uartAt 4 button1Line 127).rx.rxCharReady = false := by decide +kernel
  exact image_of_line (fun _ => rfl) (by decide) (fun t _ ht => hlow t ht) (by decide) hsession
    handler_button1 (by decide) Main.idle_start hrun hkeys (quick_button1 _) hempty
    (.inr (by decide))

end FpgaCnc.PendantLine
