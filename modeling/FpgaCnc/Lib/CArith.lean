import Mathlib.Data.Rat.Floor
import Mathlib.Algebra.Order.Floor.Ring
import Mathlib.Tactic.NormNum
import Mathlib.Tactic.Linarith

/-!
# Exact quotients and C conversions to integers

Floating-point expressions are read in exact arithmetic: rationals, with the
IEEE results of a division by zero added. A conversion to a 32-bit integer
truncates toward zero where the truncated value is representable; everywhere
else C leaves the result open, so it is a parameter (`ub`) of the conversion.
-/

namespace FpgaCnc

/-- A value of a floating-point expression, in exact arithmetic. -/
inductive FVal where
  | fin (q : ℚ)
  | posInf
  | negInf
  | nan
deriving DecidableEq, Repr

namespace FVal

/-- `x / y`; `negZero` is the sign of `y` where `y` is zero. -/
def div (x y : ℚ) (negZero : Bool) : FVal :=
  if y ≠ 0 then fin (x / y)
  else if x = 0 then nan
  else if decide (x < 0) = negZero then posInf
  else negInf

/-- `v - q`. -/
def sub : FVal → ℚ → FVal
  | fin r, q => fin (r - q)
  | posInf, _ => posInf
  | negInf, _ => negInf
  | nan, _ => nan

theorem div_of_ne {x y : ℚ} (hy : y ≠ 0) (z : Bool) : div x y z = fin (x / y) :=
  if_pos hy

theorem div_zero_of_pos {x : ℚ} (hx : 0 < x) : div x 0 false = posInf := by
  simp [div, hx.ne', hx.le]

@[simp] theorem sub_fin (r q : ℚ) : (fin r).sub q = fin (r - q) := rfl
@[simp] theorem sub_posInf (q : ℚ) : posInf.sub q = posInf := rfl

end FVal

/-- Truncation toward zero. -/
def trunc (q : ℚ) : ℤ := if 0 ≤ q then ⌊q⌋ else ⌈q⌉

@[simp] theorem trunc_natCast (n : ℕ) : trunc (n : ℚ) = n := by
  rw [trunc, if_pos (Nat.cast_nonneg n), Int.floor_natCast]

/-- Values above `-1` truncate to natural numbers. -/
theorem trunc_nonneg_iff {q : ℚ} : 0 ≤ trunc q ↔ -1 < q := by
  rw [trunc]
  split_ifs with hq
  · exact ⟨fun _ => lt_of_lt_of_le (by norm_num) hq, fun _ => Int.floor_nonneg.mpr hq⟩
  · have hlt : (-1 : ℤ) < ⌈q⌉ ↔ ((-1 : ℤ) : ℚ) < q := Int.lt_ceil
    rw [Int.cast_neg, Int.cast_one] at hlt
    rw [← hlt]
    omega

theorem trunc_lt_iff {q : ℚ} {n : ℤ} (hn : 0 < n) : trunc q < n ↔ q < n := by
  rw [trunc]
  split_ifs with hq
  · exact Int.floor_lt
  · have hq' : q < 0 := not_le.mp hq
    have hceil : ⌈q⌉ ≤ 0 := Int.ceil_le.mpr (by simpa using hq'.le)
    have hn' : (0 : ℚ) < n := Int.cast_pos.mpr hn
    exact ⟨fun _ => hq'.trans hn', fun _ => lt_of_le_of_lt hceil hn⟩

/-- Conversion to `int`. -/
def toInt (ub : FVal → BitVec 32) (v : FVal) : BitVec 32 :=
  match v with
  | .fin q =>
      if -2 ^ 31 ≤ trunc q ∧ trunc q < 2 ^ 31 then BitVec.ofInt 32 (trunc q) else ub v
  | _ => ub v

/-- Conversion to `unsigned int`. -/
def toUInt (ub : FVal → BitVec 32) (v : FVal) : BitVec 32 :=
  match v with
  | .fin q =>
      if 0 ≤ trunc q ∧ trunc q < 2 ^ 32 then BitVec.ofInt 32 (trunc q) else ub v
  | _ => ub v

namespace FVal

/-- A number whose truncation is an `int`. -/
def FitsInt (v : FVal) : Prop := ∃ q, v = .fin q ∧ -2 ^ 31 ≤ trunc q ∧ trunc q < 2 ^ 31

/-- A number whose truncation is an `unsigned int`. -/
def FitsUInt (v : FVal) : Prop := ∃ q, v = .fin q ∧ 0 ≤ trunc q ∧ trunc q < 2 ^ 32

theorem not_fitsInt_posInf : ¬ posInf.FitsInt := by
  rintro ⟨q, hq, -⟩
  exact FVal.noConfusion hq

theorem fitsInt_fin_iff {q : ℚ} (hq : -1 < q) : (fin q).FitsInt ↔ q < 2 ^ 31 := by
  have hnonneg := trunc_nonneg_iff.mpr hq
  have hlt : trunc q < 2 ^ 31 ↔ q < ((2 ^ 31 : ℤ) : ℚ) := trunc_lt_iff (by norm_num)
  rw [Int.cast_pow, Int.cast_ofNat] at hlt
  rw [← hlt]
  constructor
  · rintro ⟨r, hr, -, hr'⟩
    rwa [FVal.fin.inj hr]
  · exact fun h => ⟨q, rfl, by omega, h⟩

theorem fitsUInt_fin_iff {q : ℚ} (hq : -1 < q) : (fin q).FitsUInt ↔ q < 2 ^ 32 := by
  have hnonneg := trunc_nonneg_iff.mpr hq
  have hlt : trunc q < 2 ^ 32 ↔ q < ((2 ^ 32 : ℤ) : ℚ) := trunc_lt_iff (by norm_num)
  rw [Int.cast_pow, Int.cast_ofNat] at hlt
  rw [← hlt]
  constructor
  · rintro ⟨r, hr, -, hr'⟩
    rwa [FVal.fin.inj hr]
  · exact fun h => ⟨q, rfl, hnonneg, h⟩

end FVal

theorem toInt_fin (ub : FVal → BitVec 32) {q : ℚ}
    (h : -2 ^ 31 ≤ trunc q ∧ trunc q < 2 ^ 31) :
    toInt ub (.fin q) = BitVec.ofInt 32 (trunc q) := if_pos h

/-- A natural number that fits converts to itself. -/
theorem toInt_natCast (ub : FVal → BitVec 32) {n : ℕ} (hn : n < 2 ^ 31) :
    toInt ub (.fin n) = BitVec.ofNat 32 n := by
  have hrange : -2 ^ 31 ≤ trunc (n : ℚ) ∧ trunc (n : ℚ) < 2 ^ 31 := by
    rw [trunc_natCast]
    omega
  rw [toInt_fin ub hrange, trunc_natCast]
  exact BitVec.ofInt_natCast 32 n

theorem toUInt_fin (ub : FVal → BitVec 32) {q : ℚ}
    (h : 0 ≤ trunc q ∧ trunc q < 2 ^ 32) :
    toUInt ub (.fin q) = BitVec.ofInt 32 (trunc q) := if_pos h

theorem toUInt_natCast (ub : FVal → BitVec 32) {n : ℕ} (hn : n < 2 ^ 32) :
    toUInt ub (.fin n) = BitVec.ofNat 32 n := by
  have hrange : 0 ≤ trunc (n : ℚ) ∧ trunc (n : ℚ) < 2 ^ 32 := by
    rw [trunc_natCast]
    omega
  rw [toUInt_fin ub hrange, trunc_natCast]
  exact BitVec.ofInt_natCast 32 n

@[simp] theorem toInt_posInf (ub : FVal → BitVec 32) : toInt ub .posInf = ub .posInf := rfl

end FpgaCnc
