import FpgaCnc.Host.De2

/-!
# What a received frame does to the input pins

`do_work` zeroes `rx_buf`, receives into it and looks at bytes 12 and 13 only.
A frame of the reply type that ends before byte 38 is decoded too, with the
zeros of the `memset` in place of the bytes it does not have.

§1 frames and pins · §2 what a call does · §3 exactly when it is right.
-/

namespace FpgaCnc.De2

/-! ## §1  Frames and pins -/

/-- Type bytes `0x08`, `0xab`. -/
def HasReplyType (bytes : List (BitVec 8)) : Prop :=
  bytes.getD 12 0 = 0x08#8 ∧ bytes.getD 13 0 = 0xab#8

/-- The call received a reply that has all of bytes 14 .. 37. -/
def Received.FullReply : Received → Prop
  | .failed => False
  | .frame bytes => HasReplyType bytes ∧ 38 ≤ bytes.length

/-- The call received a frame of the reply type that ends before byte 38. -/
def Received.ShortReply : Received → Prop
  | .failed => False
  | .frame bytes => HasReplyType bytes ∧ bytes.length < 38

/-- The word a frame has at `off`. -/
def frameWord (bytes : List (BitVec 8)) (off : ℕ) : BitVec 32 :=
  Buffer.joinLe32 (bytes.getD (off + 3) 0) (bytes.getD (off + 2) 0) (bytes.getD (off + 1) 0)
    (bytes.getD off 0)

/-- Every input pin has kept its value. -/
structure PinsKept (c c' : CompState) : Prop where
  gpioIn : c'.gpioIn = c.gpioIn
  positionFb : ∀ i, (c'.sg i).positionFb = (c.sg i).positionFb

/-- Every input pin has been set from the frame. -/
structure PinsFrom (bytes : List (BitVec 8)) (c c' : CompState) : Prop where
  gpioIn : ∀ k : Fin 32, c'.gpioIn k = (frameWord bytes 14).getLsbD k
  positionFb : ∀ i : Fin 5, (c'.sg i).positionFb =
    FVal.div (frameWord bytes (18 + 4 * i) - 0x80000000#32).toInt (c.sg i).scale false

/-! ## §2  What a call does -/

theorem rxBuf_byte (bytes : List (BitVec 8)) {j : ℕ} (hj : j < 512) :
    (rxBuf bytes).byte j = bytes.getD j 0 := by
  show (bytes.take 512).getD j 0 = bytes.getD j 0
  rw [List.getD_eq_getElem?_getD, List.getD_eq_getElem?_getD, List.getElem?_take_of_lt hj]

theorem isReply_rxBuf (bytes : List (BitVec 8)) :
    isReply (rxBuf bytes) = true ↔ HasReplyType bytes := by
  rw [isReply, Bool.and_eq_true, beq_iff_eq, beq_iff_eq, rxBuf_byte bytes (by decide),
    rxBuf_byte bytes (by decide)]
  exact Iff.rfl

theorem loadLe32_rxBuf_eq (bytes : List (BitVec 8)) {off : ℕ} (hoff : off + 4 ≤ 512) :
    (rxBuf bytes).loadLe32 off = frameWord bytes off := by
  rw [Buffer.loadLe32, rxBuf_byte bytes (by omega), rxBuf_byte bytes (by omega),
    rxBuf_byte bytes (by omega), rxBuf_byte bytes (by omega)]
  rfl

theorem pinsFrom_decode (bytes : List (BitVec 8)) (c : CompState) :
    PinsFrom bytes c (decode (rxBuf bytes) c) where
  gpioIn k := by
    rw [← loadLe32_rxBuf_eq bytes (by decide)]
    rfl
  positionFb i := by
    have hi := i.isLt
    rw [decode_positionFb, positionFb, loadLe32_rxBuf_eq bytes (by omega)]

/-- A frame of the reply type is decoded, short or not. -/
theorem doWorkRecv_of_replyType {bytes : List (BitVec 8)} (h : HasReplyType bytes) (host : Host) :
    PinsFrom bytes host.inst (doWorkRecv (.frame bytes) host).inst := by
  rw [doWorkRecv_of_isReply ((isReply_rxBuf bytes).mpr h)]
  exact pinsFrom_decode bytes host.inst

/-- Anything else leaves the pins alone. -/
theorem doWorkRecv_of_not_replyType {r : Received} (h : ∀ bytes, r = .frame bytes →
    ¬ HasReplyType bytes) (host : Host) : (doWorkRecv r host).inst = host.inst := by
  rcases r with _ | bytes
  · rfl
  · have hno : ¬ isReply (rxBuf bytes) = true := fun hr => h bytes rfl ((isReply_rxBuf bytes).mp hr)
    cases bytes with
    | nil => rfl
    | cons x xs =>
        rw [doWorkRecv, if_neg hno]
        exact fun h => List.cons_ne_nil x xs h

/-! ## §3  Exactly when it is right -/

/-- What a call should do with the result of `recvfrom`: set every input pin
from a full reply, and keep every one otherwise. -/
def RecvRight (r : Received) (host : Host) : Prop :=
  (∀ bytes, r = .frame bytes → r.FullReply →
    PinsFrom bytes host.inst (doWorkRecv r host).inst) ∧
  (¬ r.FullReply → PinsKept host.inst (doWorkRecv r host).inst)

/-- A host whose first axis has no position yet. -/
def newHost : Host where
  inst := {
    sg0 := ⟨.nan, 0, false, 1⟩, sg1 := ⟨.fin 0, 0, false, 1⟩, sg2 := ⟨.fin 0, 0, false, 1⟩
    sg3 := ⟨.fin 0, 0, false, 1⟩, sg4 := ⟨.fin 0, 0, false, 1⟩
    spindleRpm := 0, gpioOut := fun _ => false, gpioIn := fun _ => true, pwmFreq := 1 }
  buf := initBuf fun _ => 0
  errorCount := 0

/-- **Exactly the short replies go wrong.** For every result of `recvfrom`, a
call does the right thing from every state of the pins if and only if that
result is not a frame of the reply type that ends before byte 38. -/
theorem recvRight_iff (r : Received) : (∀ host, RecvRight r host) ↔ ¬ r.ShortReply := by
  constructor
  · intro hright hshort
    rcases r with _ | bytes
    · exact hshort
    · obtain ⟨htype, hlen⟩ := hshort
      -- the position of an axis that had none becomes a number
      have hkept := (hright newHost).2 fun hfull => absurd hlen (Nat.not_lt.mpr hfull.2)
      have hfrom := doWorkRecv_of_replyType htype newHost
      have hnan := (hfrom.positionFb 0).symm.trans (hkept.positionFb 0)
      rw [FVal.div_of_ne (show (newHost.inst.sg 0).scale ≠ 0 from one_ne_zero)] at hnan
      exact FVal.noConfusion hnan
  · intro hshort host
    refine ⟨?_, fun hfull => ?_⟩
    · rintro bytes rfl hfull
      exact doWorkRecv_of_replyType hfull.1 host
    · have hno : ∀ bytes, r = .frame bytes → ¬ HasReplyType bytes := by
        rintro bytes rfl htype
        rcases Nat.lt_or_ge bytes.length 38 with hlt | hge
        · exact hshort ⟨htype, hlt⟩
        · exact hfull ⟨htype, hge⟩
      rw [doWorkRecv_of_not_replyType hno host]
      exact ⟨rfl, fun _ => rfl⟩

/-- A frame that ends with its type. -/
def headerOnly : List (BitVec 8) := List.replicate 12 0 ++ [0x08, 0xab]

/-- **Fourteen bytes move every axis** to the end of its range and clear every
input. -/
theorem pins_of_headerOnly :
    headerOnly.length = 14 ∧ ¬ (Received.frame headerOnly).FullReply ∧
      ¬ PinsKept newHost.inst (doWorkRecv (.frame headerOnly) newHost).inst ∧
      (∀ i, ((doWorkRecv (.frame headerOnly) newHost).inst.sg i).positionFb =
        .fin (-2147483648)) ∧
      ∀ k, (doWorkRecv (.frame headerOnly) newHost).inst.gpioIn k = false := by
  have htype : HasReplyType headerOnly := ⟨rfl, rfl⟩
  have hfrom := doWorkRecv_of_replyType htype newHost
  have hpos : ∀ i, ((doWorkRecv (.frame headerOnly) newHost).inst.sg i).positionFb =
      .fin (-2147483648) := by
    intro i
    rw [hfrom.positionFb]
    match i with
    | 0 | 1 | 2 | 3 | 4 =>
        refine (FVal.div_of_ne one_ne_zero false).trans ?_
        rw [div_one, show (frameWord headerOnly _ - 0x80000000#32).toInt = -2147483648 by decide]
        norm_num
  refine ⟨rfl, fun hfull => absurd hfull.2 (by decide), fun hkept => ?_, hpos, fun k => ?_⟩
  · exact FVal.noConfusion ((hpos 0).symm.trans (hkept.positionFb 0))
  · rw [hfrom.gpioIn, show frameWord headerOnly 14 = 0#32 by decide, BitVec.getLsbD_zero]

end FpgaCnc.De2
