import Mathlib.Data.BitVec
import Mathlib.Tactic.Ring
import Mathlib.Tactic.Linarith

/-!
# Bytes on a serial line

A byte on an asynchronous line is a start bit, eight data bits from the lowest
on and a stop bit, each one cell long. Nothing but the edges between cells
tells a receiver where they are: it waits `h` clocks after an edge and then
looks every `P` clocks until the next one. Whether it looks into every cell
once is a matter of where the cells begin.

§1 frames · §2 what a receiver can read · §3 sessions · §4 the baud rate counter.
-/

namespace FpgaCnc.SerialLine

/-! ## §1  Frames -/

/-- The line is at `v` from clock `a` on, up to clock `b`. -/
def Holds (line : ℕ → Bool) (a b : ℕ) (v : Bool) : Prop := ∀ t, a ≤ t → t < b → line t = v

theorem Holds.mono {line : ℕ → Bool} {a b a' b' : ℕ} {v : Bool} (h : Holds line a b v)
    (ha : a ≤ a') (hb : b' ≤ b) : Holds line a' b' v :=
  fun t hat htb => h t (ha.trans hat) (htb.trans_le hb)

/-- The cells of a byte, the first in bit 0. -/
def frame (d : BitVec 8) : BitVec 10 := (1#1 ++ d ++ 0#1).setWidth 10

@[simp] theorem frame_start (d : BitVec 8) : (frame d).getLsbD 0 = false := by
  rw [frame, BitVec.getLsbD_setWidth, BitVec.getLsbD_append]
  rfl

@[simp] theorem frame_stop (d : BitVec 8) : (frame d).getLsbD 9 = true := by
  rw [frame, BitVec.getLsbD_setWidth, BitVec.getLsbD_append, BitVec.getLsbD_append]
  rfl

/-- The data bits in the middle. -/
theorem frame_data (d : BitVec 8) : (frame d).extractLsb' 1 8 = d := by
  apply BitVec.eq_of_getLsbD_eq
  intro i hi
  rw [BitVec.getLsbD_extractLsb', frame, BitVec.getLsbD_setWidth, BitVec.getLsbD_append,
    BitVec.getLsbD_append, if_neg (by omega), if_pos (by omega), Nat.add_sub_cancel_left]
  simp [hi, show 1 + i < 10 by omega]

/-- The line carries `d`, in cells that begin at the clocks `start`. -/
def Carries (line : ℕ → Bool) (d : BitVec 8) (start : ℕ → ℕ) : Prop :=
  ∀ i < 10, Holds line (start i) (start (i + 1)) ((frame d).getLsbD i)

/-! ## §2  What a receiver can read -/

/-- After an edge at the beginning of cell `i` the receiver looks at clock
`start i + h + k * P` for the cell `k` cells on: not after its end, and not yet
when it looked for the one before. -/
structure Readable (h P : ℕ) (start : ℕ → ℕ) : Prop where
  late : ∀ i k, i + k < 10 → start i + h + k * P < start (i + k + 1)
  early : ∀ i k, i + k < 9 → start (i + k + 1) < start i + h + (k + 1) * P

/-- Cells of `P` clocks each from clock `a` on, but the first is `e` clocks
longer. -/
def cells (a P e : ℕ) : ℕ → ℕ
  | 0 => a
  | i + 1 => a + e + (i + 1) * P

/-- A longer start bit puts the looks later in the cells until the next edge. -/
theorem readable_cells {h P e : ℕ} (a : ℕ) (hearly : e < h) (hlate : h < P) :
    Readable h P (cells a P e) := by
  constructor
  · intro i k _
    rw [cells, Nat.succ_mul, Nat.add_mul]
    cases i with
    | zero => exact show a + h + k * P < a + e + (0 * P + k * P + P) by omega
    | succ i =>
        show a + e + (i + 1) * P + h + k * P < a + e + ((i + 1) * P + k * P + P)
        omega
  · intro i k _
    rw [cells, Nat.succ_mul, Nat.add_mul]
    cases i with
    | zero =>
        rw [Nat.succ_mul]
        exact show a + e + (0 * P + k * P + P) < a + h + (k * P + P) by omega
    | succ i =>
        rw [Nat.succ_mul k]
        show a + e + ((i + 1) * P + k * P + P) < a + e + (i + 1) * P + h + (k * P + P)
        omega

/-! ## §3  Sessions -/

/-- From clock `a` to clock `b` the line is idle but for the bytes of a list. -/
inductive Session (line : ℕ → Bool) (h P : ℕ) : ℕ → List (BitVec 8) → ℕ → Prop where
  | idle {a b : ℕ} : a ≤ b → Holds line a b true → Session line h P a [] b
  | byte {a b : ℕ} {d : BitVec 8} {ds : List (BitVec 8)} {start : ℕ → ℕ} :
      a ≤ start 0 → Holds line a (start 0) true → Carries line d start → Readable h P start →
      Session line h P (start 10) ds b → Session line h P a (d :: ds) b

section Session

variable {line line' : ℕ → Bool} {h P a b c δ : ℕ} {ds es : List (BitVec 8)}

theorem Holds.trans {v : Bool} (h₁ : Holds line a b v) (h₂ : Holds line b c v) :
    Holds line a c v := by
  intro t hat htc
  rcases Nat.lt_or_ge t b with htb | hbt
  · exact h₁ t hat htb
  · exact h₂ t hbt htc

theorem Session.wait (hab : a ≤ b) (hhigh : Holds line a b true) (hs : Session line h P b ds c) :
    Session line h P a ds c := by
  cases hs with
  | idle hbc hhigh' => exact .idle (hab.trans hbc) (hhigh.trans hhigh')
  | byte hb hhigh' hcarry hread hrest =>
      exact .byte (hab.trans hb) (hhigh.trans hhigh') hcarry hread hrest

/-- While the line is high, a session may as well begin later. -/
theorem Session.later (hs : Session line h P a ds b) (hac : a ≤ c) (hcb : c ≤ b)
    (hhigh : Holds line a c true) : Session line h P c ds b := by
  cases hs with
  | idle hab hidle => exact .idle hcb (hidle.mono hac le_rfl)
  | @byte _ _ d ds start ha hidle hcarry hread hrest =>
      -- the start bit is low
      have hfirst : start 0 + h + 0 * P < start (0 + 1) := hread.late 0 0 (by omega)
      have hlow := hcarry 0 (by omega) (start 0) le_rfl (by omega)
      rw [frame_start] at hlow
      have hc : c ≤ start 0 := by
        by_contra hlt
        exact absurd (hlow.symm.trans (hhigh (start 0) ha (by omega))) (by decide)
      exact .byte hc (hidle.mono hac le_rfl) hcarry hread hrest

/-- One session after another. -/
theorem Session.trans (h₁ : Session line h P a ds b) (h₂ : Session line h P b es c) :
    Session line h P a (ds ++ es) c := by
  induction h₁ with
  | idle hab hhigh => exact h₂.wait hab hhigh
  | byte hb hhigh hcarry hread _ ih => exact .byte hb hhigh hcarry hread (ih h₂)

/-- The same line, `δ` clocks later. -/
theorem Session.delay (hline : ∀ t, line' (t + δ) = line t) (hs : Session line h P a ds b) :
    Session line' h P (a + δ) ds (b + δ) := by
  have hmoved : ∀ {a b v}, Holds line a b v → Holds line' (a + δ) (b + δ) v := by
    intro a b v hholds t hat htb
    obtain ⟨u, rfl⟩ : ∃ u, t = u + δ := ⟨t - δ, by omega⟩
    rw [hline]
    exact hholds u (by omega) (by omega)
  induction hs with
  | idle hab hhigh => exact .idle (by omega) (hmoved hhigh)
  | @byte a b d ds start ha hhigh hcarry hread _ ih =>
      refine @Session.byte line' h P (a + δ) (b + δ) d ds (fun i => start i + δ)
        (Nat.add_le_add_right ha δ) (hmoved hhigh) (fun i hi => hmoved (hcarry i hi)) ⟨?_, ?_⟩ ih
      · intro i k hk
        have hlate := hread.late i k hk
        show start i + δ + h + k * P < start (i + k + 1) + δ
        omega
      · intro i k hk
        have hearly := hread.early i k hk
        show start (i + k + 1) + δ < start i + δ + h + (k + 1) * P
        omega

end Session

/-! ## §4  The baud rate counter -/

section Counter

variable {w n : ℕ} {div c : BitVec w} {en : Bool}

/-- A counter that runs down and starts again. -/
def tick (div c : BitVec w) : BitVec w := if c == 0 then div else c - 1

/-- The counter, and the flag that it has run out, a clock late: the flag is set
in `n` clocks. -/
def Due (div : BitVec w) : ℕ → Bool → BitVec w → Prop
  | 0, en, c => en = true ∧ c = div
  | n + 1, en, c => en = false ∧ c.toNat = n

theorem toNat_tick (h : c.toNat = n + 1) : (tick div c).toNat = n := by
  have hne : c ≠ 0 := by
    rintro rfl
    exact absurd h (by simp)
  have hone : 1 % 2 ^ w ≤ 1 := Nat.mod_le 1 _
  have hle : (1 : BitVec w) ≤ c := by
    rw [BitVec.le_def, h]
    exact (BitVec.toNat_ofNat 1 w ▸ hone).trans (by omega)
  have hlt := c.isLt
  rw [tick, if_neg (by simpa using hne), BitVec.toNat_sub_of_le hle, h]
  show n + 1 - (BitVec.ofNat w 1).toNat = n
  rw [BitVec.toNat_ofNat, Nat.mod_eq_of_lt (by omega)]
  rfl

theorem Due.succ (h : Due div (n + 1) en c) : Due div n (c == 0) (tick div c) := by
  obtain ⟨-, hcount⟩ := h
  cases n with
  | zero =>
      have hzero : c = 0 := BitVec.eq_of_toNat_eq (hcount.trans (by simp))
      rw [hzero]
      exact ⟨by simp, by simp [tick]⟩
  | succ n =>
      refine ⟨?_, toNat_tick hcount⟩
      apply beq_eq_false_iff_ne.mpr
      rintro rfl
      exact absurd hcount (by simp)

theorem Due.zero (hpos : 0 < div.toNat) (h : Due div 0 en c) :
    Due div div.toNat (c == 0) (tick div c) := by
  obtain ⟨-, rfl⟩ := h
  obtain ⟨m, hm⟩ : ∃ m, c.toNat = m + 1 := ⟨c.toNat - 1, by omega⟩
  rw [hm]
  refine ⟨?_, toNat_tick hm⟩
  apply beq_eq_false_iff_ne.mpr
  rintro rfl
  exact absurd hm (by simp)

end Counter

end FpgaCnc.SerialLine
