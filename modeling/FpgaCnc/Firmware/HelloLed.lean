import FpgaCnc.Firmware.Dm9000a

/-!
# The ethernet interrupt handler

`software/cnc/hello_led.c`, `ethernet_interrupts`: acknowledge the interrupt,
receive one frame into `RXT`, and, if `RXT` starts with the command type,
answer with the inputs of `cnc_module` and write its nine registers from
`RXT`. The handler runs to completion; the globals it works on are a state
passed through.

§1 globals · §2 handler · §3 its runs · §4 the reply and the register writes.
-/

namespace FpgaCnc.HelloLed

open IoProg Dm9000a

/-! ## §1  Globals -/

/-- The globals the handler reads or writes. -/
structure Globals where
  aaa : BitVec 32
  rxLen : BitVec 32
  i : BitVec 32
  packetNum : BitVec 32
  temp : BitVec 32
  sevenSegs : BitVec 32
  rxt : Buffer
  txt : Buffer
  igpio2316 : BitVec 8
  igpio3124 : BitVec 8

/-- The initialiser of `TXT`. -/
def txtInit : Buffer where
  byte j :=
    ([0x50, 0x46, 0x5d, 0x48, 0x37, 0x42, 0x01, 0x60, 0x6E, 0x11, 0x02, 0x0F, 0x08, 0xab]
      : List (BitVec 8)).getD j 0
  stores := []

/-- The globals at start-up. -/
def Globals.init : Globals := ⟨0, 0, 0, 0, 0, 0, .zero, txtInit, 0, 0⟩

/-! ## §2  The handler -/

/-- `RXT[12] == 0x80 && RXT[13] == 0xab`. -/
def isCommand (rxt : Buffer) : Bool := rxt.byte 12 == 0x80#8 && rxt.byte 13 == 0xab#8

/-- The early return: count the frame and answer with type `0x08aa`. -/
def rejectFrame (g : Globals) : Fw Globals := do
  let i := g.i + 1
  let sevenSegs := (g.sevenSegs &&& 0xFFFFFF00) ||| (i &&& 0xFF)
  let txt := g.txt.store 13 0xaa
  let _ ← transmitPacket txt 14
  return { g with i := i, sevenSegs := sevenSegs, txt := txt.store 13 0xab }

/-- `TXT[14..45]`: eight register reads and the pendant images. -/
def readInputs (g : Globals) : Fw Globals := do
  let igpio ← iord .cncModule0 9
  let txt := g.txt.store 14 ((igpio &&& 0xFF#32).setWidth 8)
  let txt := txt.store 15 (((igpio &&& 0xFF00#32) >>> 8).setWidth 8)
  let txt := txt.store 16 g.igpio2316
  let txt := txt.store 17 g.igpio3124
  let sg0Loc ← iord .cncModule0 10
  let txt := txt.storeLe32 18 sg0Loc
  let sg1Loc ← iord .cncModule0 11
  let txt := txt.storeLe32 22 sg1Loc
  let sg2Loc ← iord .cncModule0 12
  let txt := txt.storeLe32 26 sg2Loc
  let sg3Loc ← iord .cncModule0 13
  let txt := txt.storeLe32 30 sg3Loc
  let sg4Loc ← iord .cncModule0 14
  let txt := txt.storeLe32 34 sg4Loc
  let enc0Count ← iord .cncModule0 15
  let txt := txt.storeLe32 38 enc0Count
  let enc1Count ← iord .cncModule0 16
  let txt := txt.storeLe32 42 enc1Count
  return { g with temp := enc1Count, txt := txt }

/-- The nine register writes. -/
def writeRegs (rxt : Buffer) : Fw Unit := do
  iowr .cncModule0 0 (rxt.loadLe32 14)
  iowr .cncModule0 1 (rxt.loadLe32 18)
  iowr .cncModule0 2 (rxt.loadLe32 22)
  iowr .cncModule0 3 (rxt.loadLe32 26)
  iowr .cncModule0 4 (rxt.loadLe32 30)
  iowr .cncModule0 5 (rxt.loadLe32 34)
  iowr .cncModule0 6 (rxt.loadLe32 38)
  iowr .cncModule0 7 (rxt.loadLe32 42)
  iowr .cncModule0 8 (rxt.loadLe32 46)

/-- The handler after the header test. -/
def answerCommand (g : Globals) : Fw Globals := do
  let g ← readInputs g
  let _ ← transmitPacket g.txt 46
  -- `RXT` has not changed since the first test
  if isCommand g.rxt then
    let packetNum := g.packetNum + 1
    writeRegs g.rxt
    iowr .ledGreen 0 ((packetNum >>> 7) &&& 1)
    return { g with packetNum := packetNum }
  else
    return g

/-- `aaa=ReceivePacket(RXT,&rx_len)`. -/
def Globals.received (g : Globals) (r : RxResult) : Globals :=
  { g with aaa := r.ret, rxLen := r.rxLen, rxt := r.dataPtr }

/-- What follows the reception; `aaa` and `rx_len` are not looked at. -/
def afterReceive (g : Globals) : Fw Globals :=
  if isCommand g.rxt then answerCommand g else rejectFrame g

def ethernetInterrupts (g : Globals) : Fw Globals := do
  let inter ← ior ISR
  iow ISR inter
  if inter &&& 1 = 1 then
    let r ← receivePacket g.rxt
    -- whatever it returned
    afterReceive (g.received r)
  else
    return g

/-! ## §3  Runs of the handler -/

/-- The acknowledgement of the interrupt. -/
def isrTrace (inter : BitVec 32) : List BusAccess :=
  [wrIdx ISR, rdDat inter, wrIdx ISR, wrDat inter]

/-- **The handler, up to the reception.** Its complete runs acknowledge the
interrupt and, if a reception was signalled, receive and go on from what
`ReceivePacket` left. -/
theorem completes_ethernetInterrupts {g g' : Globals} {tr : List BusAccess} :
    Completes (ethernetInterrupts g) tr g' ↔
      ∃ inter,
        (inter &&& 1 ≠ 1 ∧ tr = isrTrace inter ∧ g' = g) ∨
        (inter &&& 1 = 1 ∧ ∃ r : RxResponse, r.Complete ∧ ∃ t,
          tr = isrTrace inter ++ (r.trace ++ t) ∧
            Completes (afterReceive (g.received (r.result g.rxt))) t g') := by
  unfold ethernetInterrupts
  simp only [bind_eq, completes_ior_bind, completes_iow_bind]
  constructor
  · rintro ⟨inter, _, rfl, t, rfl, h⟩
    refine ⟨inter, ?_⟩
    split_ifs at h with hprs
    · obtain ⟨_, t₁, t₂, rfl, hrx, hrest⟩ := completes_bind.mp h
      obtain ⟨r, hcomplete, rfl, rfl⟩ := completes_receivePacket.mp hrx
      exact Or.inr ⟨hprs, r, hcomplete, t₂, rfl, hrest⟩
    · obtain ⟨rfl, rfl⟩ := completes_ret.mp h
      exact Or.inl ⟨hprs, rfl, rfl⟩
  · rintro ⟨inter, ⟨hprs, rfl, rfl⟩ | ⟨hprs, r, hcomplete, t, rfl, hrest⟩⟩
    · exact ⟨inter, _, rfl, [], rfl, by rw [if_neg hprs]; exact completes_ret.mpr ⟨rfl, rfl⟩⟩
    · refine ⟨inter, _, rfl, r.trace ++ t, rfl, ?_⟩
      rw [if_pos hprs]
      exact completes_bind.mpr ⟨_, _, _, rfl,
        completes_receivePacket.mpr ⟨r, hcomplete, rfl, rfl⟩, hrest⟩

/-- A run that got the answers `r`, from the header test on. -/
theorem exec_ethernetInterrupts_received (g : Globals) {inter : BitVec 32}
    (hprs : inter &&& 1 = 1) {r : RxResponse} (hr : r.Complete) (t : List BusAccess) :
    exec (ethernetInterrupts g) (isrTrace inter ++ (r.trace ++ t)) =
      exec (afterReceive (g.received (r.result g.rxt))) t := by
  have hior : Completes (ior ISR) [wrIdx ISR, rdDat inter] inter := completes_ior.mpr rfl
  have hiow : Completes (iow ISR inter) [wrIdx ISR, wrDat inter] () := completes_iow.mpr rfl
  show exec (ethernetInterrupts g)
    ([wrIdx ISR, rdDat inter] ++ ([wrIdx ISR, wrDat inter] ++ (r.trace ++ t))) = _
  unfold ethernetInterrupts
  rw [bind_eq, exec_bind_of_completes hior, bind_eq, exec_bind_of_completes hiow, if_pos hprs,
    bind_eq, exec_bind_of_completes (completes_receivePacket.mpr ⟨r, hr, rfl, rfl⟩)]

/-- A run, complete or not, that has left the NIC alone at some access has
received before, and that access comes after the reception. -/
theorem exec_ethernetInterrupts_outside {g : Globals} {tr : List BusAccess}
    {q : Fw Globals} (h : exec (ethernetInterrupts g) tr = some q) {x : BusAccess}
    (hx : x ∈ tr) (hnic : ¬ nicAccess x) :
    ∃ inter, inter &&& 1 = 1 ∧ ∃ r : RxResponse, r.Complete ∧ ∃ t,
      tr = isrTrace inter ++ (r.trace ++ t) ∧
        exec (afterReceive (g.received (r.result g.rxt))) t = some q ∧ x ∈ t := by
  obtain ⟨inter, t₁, t₂, rfl, h₁, hq, hx₂⟩ := (only_ior ISR).exec_bind_outside h hx hnic
  obtain rfl := completes_ior.mp h₁
  obtain ⟨_, t₃, t₄, rfl, h₃, hq₄, hx₄⟩ := (only_iow ISR inter).exec_bind_outside hq hx₂ hnic
  obtain rfl := completes_iow.mp h₃
  simp only [bind_eq] at hq₄
  split_ifs at hq₄ with hprs
  · obtain ⟨_, t₅, t₆, rfl, h₅, hq₆, hx₆⟩ :=
      (only_receivePacket g.rxt).exec_bind_outside hq₄ hx₄ hnic
    obtain ⟨r, hcomplete, rfl, rfl⟩ := completes_receivePacket.mp h₅
    exact ⟨inter, hprs, r, hcomplete, t₆, rfl, hq₆, hx₆⟩
  · obtain ⟨rfl, -⟩ := exec_ret.mp hq₄
    exact absurd hx₄ (by simp)

theorem only_rejectFrame (g : Globals) : Only nicAccess (rejectFrame g) :=
  Only.bind (only_transmitPacket _ _) fun _ => .ret _

/-- The register writes of a command, in the handler's order. -/
def regWrites (rxt : Buffer) : List (ℕ × BitVec 32) :=
  (List.range 9).map fun k => (k, rxt.loadLe32 (14 + 4 * k))

/-- The register writes depend on bytes 14 to 49 only. -/
theorem regWrites_congr {b b' : Buffer} (h : ∀ j, 14 ≤ j → j < 50 → b.byte j = b'.byte j) :
    regWrites b = regWrites b' := by
  unfold regWrites
  apply List.map_congr_left
  intro k hk
  have hk9 := List.mem_range.mp hk
  rw [Buffer.loadLe32_congr fun j hj hj' => h j (by omega) (by omega)]

theorem writeRegs_eq_script (rxt : Buffer) :
    writeRegs rxt = script ((regWrites rxt).map fun x => (⟨.cncModule0, x.1⟩, x.2)) := rfl

/-- What the handler accesses once it has accepted a command. -/
def commandAccess (rxt : Buffer) (x : BusAccess) : Prop :=
  nicAccess x ∨ (∃ k w, x = .rd ⟨.cncModule0, k⟩ w) ∨
    (∃ y ∈ regWrites rxt, x = .wr ⟨.cncModule0, y.1⟩ y.2) ∨ x.addr.base = .ledGreen

theorem only_writeRegs (rxt : Buffer) : Only (commandAccess rxt) (writeRegs rxt) := by
  rw [writeRegs_eq_script]
  refine Only.script fun x hx => ?_
  obtain ⟨y, hy, rfl⟩ := List.mem_map.mp hx
  exact Or.inr (Or.inr (Or.inl ⟨y, hy, rfl⟩))

theorem only_answerCommand (g : Globals) :
    Only (commandAccess g.rxt) (answerCommand g) := by
  have hrd : ∀ k w, commandAccess g.rxt (.rd ⟨.cncModule0, k⟩ w) :=
    fun k w => Or.inr (Or.inl ⟨k, w, rfl⟩)
  -- the eight reads, with the globals they leave, in which `RXT` is untouched
  refine .read (hrd 9) fun _ => .read (hrd 10) fun _ => .read (hrd 11) fun _ =>
    .read (hrd 12) fun _ => .read (hrd 13) fun _ => .read (hrd 14) fun _ =>
    .read (hrd 15) fun _ => .read (hrd 16) fun _ => ?_
  show Only (commandAccess g.rxt) ((transmitPacket _ 46).bind fun _ =>
    if isCommand g.rxt then _ else _)
  refine Only.bind ((only_transmitPacket _ _).mono fun _ h => Or.inl h) fun _ => ?_
  split_ifs
  · refine Only.bind (only_writeRegs g.rxt) fun _ => Only.bind (Only.put ?_) fun _ => .ret _
    exact Or.inr (Or.inr (Or.inr rfl))
  · exact .ret _

/-! ## §4  The reply and the register writes -/

/-- `TXT` after the register reads returned `v k` at address `k`. -/
def replyTxt (g : Globals) (v : ℕ → BitVec 32) : Buffer :=
  let txt := g.txt.store 14 ((v 9 &&& 0xFF#32).setWidth 8)
  let txt := txt.store 15 (((v 9 &&& 0xFF00#32) >>> 8).setWidth 8)
  let txt := txt.store 16 g.igpio2316
  let txt := txt.store 17 g.igpio3124
  let txt := txt.storeLe32 18 (v 10)
  let txt := txt.storeLe32 22 (v 11)
  let txt := txt.storeLe32 26 (v 12)
  let txt := txt.storeLe32 30 (v 13)
  let txt := txt.storeLe32 34 (v 14)
  let txt := txt.storeLe32 38 (v 15)
  txt.storeLe32 42 (v 16)

/-- The eight register reads. -/
def readsTrace (v : ℕ → BitVec 32) : List BusAccess :=
  (List.range 8).map fun k => .rd ⟨.cncModule0, 9 + k⟩ (v (9 + k))

theorem completes_readInputs {g g' : Globals} {tr : List BusAccess} :
    Completes (readInputs g) tr g' ↔
      ∃ v : ℕ → BitVec 32, tr = readsTrace v ∧
        g' = { g with temp := v 16, txt := replyTxt g v } := by
  unfold readInputs
  simp only [bind_eq, iord, completes_get_bind, pure_eq, completes_ret]
  constructor
  · rintro ⟨v₀, _, rfl, v₁, _, rfl, v₂, _, rfl, v₃, _, rfl, v₄, _, rfl, v₅, _, rfl,
      v₆, _, rfl, v₇, _, rfl, rfl, rfl⟩
    exact ⟨fun k => [v₀, v₁, v₂, v₃, v₄, v₅, v₆, v₇].getD (k - 9) 0, rfl, rfl⟩
  · rintro ⟨v, rfl, rfl⟩
    exact ⟨v 9, _, rfl, v 10, _, rfl, v 11, _, rfl, v 12, _, rfl, v 13, _, rfl,
      v 14, _, rfl, v 15, _, rfl, v 16, _, rfl, rfl, rfl⟩

/-- The nine register writes as accesses. -/
def regTrace (rxt : Buffer) : List BusAccess :=
  (regWrites rxt).map fun x => .wr ⟨.cncModule0, x.1⟩ x.2

theorem completes_writeRegs {rxt : Buffer} {tr : List BusAccess} {y : Unit} :
    Completes (writeRegs rxt) tr y ↔ tr = regTrace rxt := by
  rw [writeRegs_eq_script, completes_script, List.map_map]
  rfl

/-- The accesses after the header test of an accepted command. -/
def commandTrace (g : Globals) (v : ℕ → BitVec 32) (vs : List (BitVec 32)) : List BusAccess :=
  readsTrace v ++ (txTrace (replyTxt g v) 46 vs ++
    (regTrace g.rxt ++ [.wr ⟨.ledGreen, 0⟩ (((g.packetNum + 1) >>> 7) &&& 1)]))

/-- **An accepted command**: eight reads, the reply, nine writes, the LED. -/
theorem completes_answerCommand {g g' : Globals} {tr : List BusAccess}
    (hcmd : isCommand g.rxt = true) :
    Completes (answerCommand g) tr g' ↔
      ∃ (v : ℕ → BitVec 32) (vs : List (BitVec 32)) (u : BitVec 32),
        (∀ z ∈ vs, txDone z = false) ∧ txDone u = true ∧
        tr = commandTrace g v (vs ++ [u]) ∧
        g' = { g with temp := v 16, txt := replyTxt g v, packetNum := g.packetNum + 1 } := by
  unfold answerCommand
  constructor
  · intro h
    obtain ⟨_, t₁, t₂, rfl, hread, h₁⟩ := completes_bind.mp h
    obtain ⟨v, rfl, rfl⟩ := completes_readInputs.mp hread
    obtain ⟨_, t₃, t₄, rfl, htx, h₂⟩ := completes_bind.mp h₁
    obtain ⟨vs, u, hvs, hu, rfl, rfl⟩ := completes_transmitPacket.mp htx
    rw [if_pos hcmd] at h₂
    obtain ⟨_, t₅, t₆, rfl, hw, h₃⟩ := completes_bind.mp h₂
    obtain rfl := completes_writeRegs.mp hw
    obtain ⟨_, rfl, h₄⟩ := completes_put_bind.mp h₃
    obtain ⟨rfl, rfl⟩ := completes_ret.mp h₄
    exact ⟨v, vs, u, hvs, hu, rfl, rfl⟩
  · rintro ⟨v, vs, u, hvs, hu, rfl, rfl⟩
    refine completes_bind.mpr ⟨_, _, _, rfl, completes_readInputs.mpr ⟨v, rfl, rfl⟩, ?_⟩
    refine completes_bind.mpr ⟨_, _, _, rfl,
      completes_transmitPacket.mpr ⟨vs, u, hvs, hu, rfl, rfl⟩, ?_⟩
    rw [if_pos hcmd]
    refine completes_bind.mpr ⟨(), _, _, rfl, completes_writeRegs.mpr rfl, ?_⟩
    exact completes_put_bind.mpr ⟨[], rfl, completes_ret.mpr ⟨rfl, rfl⟩⟩

/-- An accepted command can be carried out, whatever the registers read and
however often the NIC is polled. -/
theorem exists_command_run (g : Globals) {inter : BitVec 32} (hprs : inter &&& 1 = 1)
    {r : RxResponse} (hr : r.Complete) (hcmd : isCommand (r.result g.rxt).dataPtr = true)
    (v : ℕ → BitVec 32) {vs : List (BitVec 32)} {u : BitVec 32}
    (hvs : ∀ z ∈ vs, txDone z = false) (hu : txDone u = true) :
    ∃ g', Completes (ethernetInterrupts g) (isrTrace inter ++ (r.trace ++
      commandTrace (g.received (r.result g.rxt)) v (vs ++ [u]))) g' ∧
      g'.rxt = (r.result g.rxt).dataPtr := by
  have hcmd' : isCommand (g.received (r.result g.rxt)).rxt = true := hcmd
  obtain ⟨g', hanswer, hrxt⟩ : ∃ g', Completes (answerCommand (g.received (r.result g.rxt)))
      (commandTrace (g.received (r.result g.rxt)) v (vs ++ [u])) g' ∧
      g'.rxt = (r.result g.rxt).dataPtr :=
    ⟨_, (completes_answerCommand hcmd').mpr ⟨v, vs, u, hvs, hu, rfl, rfl⟩, rfl⟩
  refine ⟨g', ?_, hrxt⟩
  rw [Completes, exec_ethernetInterrupts_received g hprs hr, afterReceive, if_pos hcmd']
  exact hanswer

/-- **A rejected frame**: one `0x08aa` frame, and the header as before. -/
theorem completes_rejectFrame {g g' : Globals} {tr : List BusAccess} :
    Completes (rejectFrame g) tr g' ↔
      ∃ (vs : List (BitVec 32)) (u : BitVec 32),
        (∀ z ∈ vs, txDone z = false) ∧ txDone u = true ∧
        tr = txTrace (g.txt.store 13 0xaa) 14 (vs ++ [u]) ∧
        g' = { g with
          i := g.i + 1
          sevenSegs := (g.sevenSegs &&& 0xFFFFFF00) ||| ((g.i + 1) &&& 0xFF)
          txt := (g.txt.store 13 0xaa).store 13 0xab } := by
  unfold rejectFrame
  constructor
  · intro h
    obtain ⟨_, t₁, t₂, rfl, htx, h₁⟩ := completes_bind.mp h
    obtain ⟨vs, u, hvs, hu, rfl, -⟩ := completes_transmitPacket.mp htx
    obtain ⟨rfl, rfl⟩ := completes_ret.mp h₁
    exact ⟨vs, u, hvs, hu, List.append_nil _, rfl⟩
  · rintro ⟨vs, u, hvs, hu, rfl, rfl⟩
    exact completes_bind.mpr ⟨_, _, [], (List.append_nil _).symm,
      completes_transmitPacket.mpr ⟨vs, u, hvs, hu, rfl, rfl⟩, completes_ret.mpr ⟨rfl, rfl⟩⟩

/-- A frame that is no command can be rejected, however often the NIC is
polled. -/
theorem exists_reject_run (g : Globals) {inter : BitVec 32} (hprs : inter &&& 1 = 1)
    {r : RxResponse} (hr : r.Complete) (hcmd : isCommand (r.result g.rxt).dataPtr = false)
    {vs : List (BitVec 32)} {u : BitVec 32} (hvs : ∀ z ∈ vs, txDone z = false)
    (hu : txDone u = true) :
    ∃ g', Completes (ethernetInterrupts g) (isrTrace inter ++ (r.trace ++
      txTrace (g.txt.store 13 0xaa) 14 (vs ++ [u]))) g' ∧
      g'.rxt = (r.result g.rxt).dataPtr := by
  have hcmd' : isCommand (g.received (r.result g.rxt)).rxt = false := hcmd
  obtain ⟨g', hreject, hrxt⟩ : ∃ g', Completes (rejectFrame (g.received (r.result g.rxt)))
      (txTrace (g.txt.store 13 0xaa) 14 (vs ++ [u])) g' ∧
      g'.rxt = (r.result g.rxt).dataPtr :=
    ⟨_, completes_rejectFrame.mpr ⟨vs, u, hvs, hu, rfl, rfl⟩, rfl⟩
  refine ⟨g', ?_, hrxt⟩
  rw [Completes, exec_ethernetInterrupts_received g hprs hr, afterReceive, hcmd',
    if_neg Bool.false_ne_true]
  exact hreject

/-- After the reception the handler leaves `RXT` and the pendant images alone. -/
theorem afterReceive_keeps {g g' : Globals} {tr : List BusAccess}
    (h : Completes (afterReceive g) tr g') :
    g'.rxt = g.rxt ∧ g'.igpio2316 = g.igpio2316 ∧ g'.igpio3124 = g.igpio3124 := by
  unfold afterReceive at h
  split_ifs at h with hcmd
  · obtain ⟨v, vs, u, -, -, -, rfl⟩ := (completes_answerCommand hcmd).mp h
    exact ⟨rfl, rfl, rfl⟩
  · obtain ⟨vs, u, -, -, -, rfl⟩ := completes_rejectFrame.mp h
    exact ⟨rfl, rfl, rfl⟩

end FpgaCnc.HelloLed
