import Mathlib.Data.List.Basic
import Mathlib.Tactic.IntervalCases

/-!
# Byte buffers and little-endian words

A C array of bytes seen through its base pointer: what every offset holds, and
the log of the offsets stored to (latest first), so that bounds can be stated
about a run that only returns the buffer. Words of 32 bits are taken apart and
put together byte by byte, lowest byte first.
-/

namespace FpgaCnc

/-- Contents by offset, and the offsets stored to. -/
structure Buffer where
  byte : ℕ → BitVec 8
  stores : List ℕ

namespace Buffer

/-- A zeroed buffer. -/
def zero : Buffer := ⟨fun _ => 0, []⟩

/-- `b[i] = v`. -/
def store (b : Buffer) (i : ℕ) (v : BitVec 8) : Buffer where
  byte j := if j = i then v else b.byte j
  stores := i :: b.stores

@[simp] theorem store_byte_same (b : Buffer) (i : ℕ) (v : BitVec 8) :
    (b.store i v).byte i = v := if_pos rfl

theorem store_byte_of_ne (b : Buffer) {i j : ℕ} (v : BitVec 8) (h : j ≠ i) :
    (b.store i v).byte j = b.byte j := if_neg h

theorem store_byte (b : Buffer) (i j : ℕ) (v : BitVec 8) :
    (b.store i v).byte j = if j = i then v else b.byte j := rfl

/-! ## Words -/

/-- `b[off] = w&0xFF; b[off+1] = (w&0xFF00)>>8; ...`, four stores. -/
def storeLe32 (b : Buffer) (off : ℕ) (w : BitVec 32) : Buffer :=
  (((b.store off ((w &&& 0xFF#32).setWidth 8)).store
    (off + 1) (((w &&& 0xFF00#32) >>> 8).setWidth 8)).store
    (off + 2) (((w &&& 0xFF0000#32) >>> 16).setWidth 8)).store
    (off + 3) (((w &&& 0xFF000000#32) >>> 24).setWidth 8)

/-- `b3<<24 | b2<<16 | b1<<8 | b0`. -/
def joinLe32 (b3 b2 b1 b0 : BitVec 8) : BitVec 32 :=
  b3.setWidth 32 <<< 24 ||| b2.setWidth 32 <<< 16 ||| b1.setWidth 32 <<< 8 |||
    b0.setWidth 32

/-- The word at `off`. -/
def loadLe32 (b : Buffer) (off : ℕ) : BitVec 32 :=
  joinLe32 (b.byte (off + 3)) (b.byte (off + 2)) (b.byte (off + 1)) (b.byte off)

theorem joinLe32_split (w : BitVec 32) :
    joinLe32 (((w &&& 0xFF000000#32) >>> 24).setWidth 8)
      (((w &&& 0xFF0000#32) >>> 16).setWidth 8)
      (((w &&& 0xFF00#32) >>> 8).setWidth 8) ((w &&& 0xFF#32).setWidth 8) = w := by
  ext i hi
  interval_cases i <;> simp [joinLe32]

/-- The bits of a joined word, byte by byte. -/
theorem getLsbD_joinLe32 (b3 b2 b1 b0 : BitVec 8) {j : ℕ} (hj : j < 32) :
    (joinLe32 b3 b2 b1 b0).getLsbD j =
      if j < 8 then b0.getLsbD j else if j < 16 then b1.getLsbD (j - 8)
      else if j < 24 then b2.getLsbD (j - 16) else b3.getLsbD (j - 24) := by
  interval_cases j <;> simp [joinLe32]

/-- **Round trip** of a word through the buffer. -/
@[simp] theorem loadLe32_storeLe32 (b : Buffer) (off : ℕ) (w : BitVec 32) :
    (b.storeLe32 off w).loadLe32 off = w := by
  have h : (b.storeLe32 off w).loadLe32 off =
      joinLe32 (((w &&& 0xFF000000#32) >>> 24).setWidth 8)
        (((w &&& 0xFF0000#32) >>> 16).setWidth 8)
        (((w &&& 0xFF00#32) >>> 8).setWidth 8) ((w &&& 0xFF#32).setWidth 8) := by
    simp [loadLe32, storeLe32, store_byte]
  rw [h, joinLe32_split]

/-- A word store leaves the bytes outside it alone. -/
theorem storeLe32_byte_of_disjoint (b : Buffer) {off j : ℕ} (w : BitVec 32)
    (h : j < off ∨ off + 4 ≤ j) : (b.storeLe32 off w).byte j = b.byte j := by
  simp only [storeLe32, store_byte]
  rw [if_neg (by omega), if_neg (by omega), if_neg (by omega), if_neg (by omega)]

/-- The word at `off` depends on its four bytes only. -/
theorem loadLe32_congr {b b' : Buffer} {off : ℕ}
    (h : ∀ j, off ≤ j → j < off + 4 → b.byte j = b'.byte j) :
    b.loadLe32 off = b'.loadLe32 off := by
  simp only [loadLe32]
  rw [h off (by omega) (by omega), h (off + 1) (by omega) (by omega),
    h (off + 2) (by omega) (by omega), h (off + 3) (by omega) (by omega)]

/-- Words that do not overlap do not disturb each other. -/
theorem loadLe32_storeLe32_of_disjoint (b : Buffer) {off off' : ℕ} (w : BitVec 32)
    (h : off' + 4 ≤ off ∨ off + 4 ≤ off') :
    (b.storeLe32 off w).loadLe32 off' = b.loadLe32 off' :=
  loadLe32_congr fun _ _ _ => storeLe32_byte_of_disjoint b w (by omega)

theorem loadLe32_store_of_disjoint (b : Buffer) {i off : ℕ} (v : BitVec 8)
    (h : i < off ∨ off + 4 ≤ i) : (b.store i v).loadLe32 off = b.loadLe32 off :=
  loadLe32_congr fun _ _ _ => store_byte_of_ne b v (by omega)

/-- The four bytes of a stored word, one at a time. -/
theorem storeLe32_byte (b : Buffer) (off : ℕ) (w : BitVec 32) {k : ℕ} (hk : k < 4) :
    (b.storeLe32 off w).byte (off + k) = (w >>> (8 * k)).setWidth 8 := by
  interval_cases k <;> simp only [storeLe32, store_byte] <;> ext i hi <;>
    interval_cases i <;> simp

end Buffer

end FpgaCnc
