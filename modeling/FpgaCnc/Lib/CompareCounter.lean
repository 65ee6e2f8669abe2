import Mathlib.Data.Nat.Count
import Mathlib.Tactic.Ring
import FpgaCnc.Lib.Clocked

/-!
# Compare-and-reset counters

The counter `if count > top then 0 else count + 1` of `w` bits, on its own and
driving a toggle. The comparison is strict, so the counter takes the values
`0 .. top + 1` and its cycle is `top + 2` clocks long: every statement about a
period below is a statement about `top + 2`.
-/

namespace FpgaCnc.CompareCounter

open FpgaCnc.Clocked

variable {w : ℕ}

/-- One clock of the counter. -/
def next (top count : BitVec w) : BitVec w :=
  if count > top then 0 else count + 1

theorem next_of_lt {top count : BitVec w} (h : top.toNat < count.toNat) :
    next top count = 0 :=
  if_pos (BitVec.lt_def.mpr h)

theorem next_of_le {top count : BitVec w} (h : count.toNat ≤ top.toNat) :
    next top count = count + 1 :=
  if_neg fun hlt => absurd (BitVec.lt_def.mp hlt) (Nat.not_lt.mpr h)

/-- Below the top, and with room for `top + 1`, a clock adds one. -/
theorem next_toNat_of_le {top count : BitVec w} (htop : top.toNat + 1 < 2 ^ w)
    (h : count.toNat ≤ top.toNat) : (next top count).toNat = count.toNat + 1 := by
  have hone : (1#w).toNat = 1 := by
    rw [BitVec.toNat_ofNat]
    exact Nat.mod_eq_of_lt (by omega)
  rw [next_of_le h, BitVec.toNat_add, BitVec.ofNat_eq_ofNat, hone]
  exact Nat.mod_eq_of_lt (by omega)

/-- After any clock the counter is within its cycle, wherever it was before. -/
theorem next_toNat_le {top : BitVec w} (htop : top.toNat + 1 < 2 ^ w)
    (count : BitVec w) : (next top count).toNat ≤ top.toNat + 1 := by
  rcases Nat.lt_or_ge top.toNat count.toNat with h | h
  · rw [next_of_lt h]; simp
  · rw [next_toNat_of_le htop h]; omega

/-! ## Sequences of counts -/

section Sequence

variable {top : BitVec w} {count : ℕ → BitVec w}

/-- Up to its last value the counter counts clocks. -/
theorem ramp (htop : top.toNat + 1 < 2 ^ w)
    (hstep : ∀ t, count (t + 1) = next top (count t)) :
    ∀ t, (count 0).toNat + t ≤ top.toNat + 1 →
      (count t).toNat = (count 0).toNat + t := by
  intro t
  induction t with
  | zero => intro _; rfl
  | succ t ih =>
      intro hle
      have ht := ih (by omega)
      rw [hstep, next_toNat_of_le htop (by omega), ht, Nat.add_assoc]

/-- From zero, the counter is the clock count modulo `top + 2`. -/
theorem cycle (htop : top.toNat + 1 < 2 ^ w)
    (hstep : ∀ t, count (t + 1) = next top (count t)) (h0 : (count 0).toNat = 0) :
    ∀ t, (count t).toNat = t % (top.toNat + 2) := by
  intro t
  induction t with
  | zero => simp [h0]
  | succ t ih =>
      have hlt : t % (top.toNat + 2) < top.toNat + 2 := Nat.mod_lt _ (by omega)
      rw [hstep, Nat.add_mod]
      rcases Nat.lt_or_ge top.toNat (count t).toNat with h | h
      · have : t % (top.toNat + 2) = top.toNat + 1 := by omega
        rw [next_of_lt h, this, Nat.mod_eq_of_lt (show 1 < top.toNat + 2 by omega),
          Nat.mod_self]
        simp
      · rw [next_toNat_of_le htop h, ih,
          Nat.mod_eq_of_lt (show 1 < top.toNat + 2 by omega),
          Nat.mod_eq_of_lt (show t % (top.toNat + 2) + 1 < top.toNat + 2 by omega)]

/-- With all ones as its top the counter is never past it, and wraps. -/
theorem wraps (htop : top.toNat + 1 = 2 ^ w)
    (hstep : ∀ t, count (t + 1) = next top (count t)) :
    ∀ t, (count t).toNat = ((count 0).toNat + t) % 2 ^ w := by
  intro t
  induction t with
  | zero => exact (Nat.mod_eq_of_lt (count 0).isLt).symm
  | succ t ih =>
      have hlt := (count t).isLt
      rw [hstep, next_of_le (by omega), BitVec.toNat_add, ih, BitVec.ofNat_eq_ofNat,
        BitVec.toNat_ofNat, ← Nat.add_assoc, Nat.mod_add_mod, Nat.add_mod_mod]

/-- It comes to zero within one round. -/
theorem wraps_to_zero (htop : top.toNat + 1 = 2 ^ w)
    (hstep : ∀ t, count (t + 1) = next top (count t)) :
    (count (2 ^ w - (count 0).toNat)).toNat = 0 := by
  have hlt := (count 0).isLt
  rw [wraps htop hstep, Nat.add_sub_cancel' hlt.le, Nat.mod_self]

end Sequence

/-! ## A counter driving a toggle

The output `out` is inverted on exactly the clocks on which the counter is
reset. -/

/-- Clocks until the output has toggled, from count `c`: the counter still has
to run through the values up to `top + 1`; above the top it is reset at once. -/
def clocksToToggle (top c : ℕ) : ℕ := top + 1 - c + 1

theorem clocksToToggle_le (top c : ℕ) : clocksToToggle top c ≤ top + 2 :=
  Nat.succ_le_succ (Nat.sub_le (top + 1) c)

section Sequence

variable {top : BitVec w} {count : ℕ → BitVec w}

/-- The clock before is the one that finds the counter past its top. -/
theorem runs_out (htop : top.toNat + 1 < 2 ^ w)
    (hstep : ∀ t, count (t + 1) = next top (count t)) :
    top.toNat < (count (top.toNat + 1 - (count 0).toNat)).toNat := by
  rcases Nat.lt_or_ge (top.toNat + 1) (count 0).toNat with hbig | hsmall
  · rw [Nat.sub_eq_zero_of_le (Nat.le_of_lt hbig)]
    omega
  · rw [ramp htop hstep _ (by omega)]
    omega

/-- From any count, the counter is at zero `clocksToToggle` clocks later. -/
theorem restarts (htop : top.toNat + 1 < 2 ^ w)
    (hstep : ∀ t, count (t + 1) = next top (count t)) :
    (count (clocksToToggle top.toNat (count 0).toNat)).toNat = 0 := by
  rw [clocksToToggle, hstep, next_of_lt (runs_out htop hstep)]
  simp

end Sequence

/-- The counter and the output it toggles, clock by clock. -/
structure Toggles (top : BitVec w) (count : ℕ → BitVec w) (out : ℕ → Bool) : Prop where
  room : top.toNat + 1 < 2 ^ w
  count_succ : ∀ t, count (t + 1) = next top (count t)
  out_succ : ∀ t, out (t + 1) = if count t > top then !out t else out t

namespace Toggles

variable {top : BitVec w} {count : ℕ → BitVec w} {out : ℕ → Bool}

theorem shift (h : Toggles top count out) (a : ℕ) :
    Toggles top (fun t => count (a + t)) (fun t => out (a + t)) where
  room := h.room
  count_succ t := h.count_succ (a + t)
  out_succ t := h.out_succ (a + t)

theorem out_succ_of_lt (h : Toggles top count out) {t : ℕ}
    (ht : top.toNat < (count t).toNat) : out (t + 1) = !out t := by
  rw [h.out_succ, if_pos (BitVec.lt_def.mpr ht)]

theorem out_succ_of_le (h : Toggles top count out) {t : ℕ}
    (ht : (count t).toNat ≤ top.toNat) : out (t + 1) = out t := by
  rw [h.out_succ, if_neg fun hlt => absurd (BitVec.lt_def.mp hlt) (Nat.not_lt.mpr ht)]

/-- Until the counter runs out, the output holds. -/
theorem out_before (h : Toggles top count out) :
    ∀ t, t < clocksToToggle top.toNat (count 0).toNat → out t = out 0 := by
  intro t
  induction t with
  | zero => intro _; rfl
  | succ t ih =>
      intro hlt
      have hlt' : t + 1 < top.toNat + 1 - (count 0).toNat + 1 := hlt
      have hcount := ramp h.room h.count_succ t (by omega)
      rw [h.out_succ_of_le (by omega), ih (Nat.lt_of_succ_lt hlt)]

/-- When it has run out, the counter restarts and the output is inverted. -/
theorem at_toggle (h : Toggles top count out) :
    (count (clocksToToggle top.toNat (count 0).toNat)).toNat = 0 ∧
      out (clocksToToggle top.toNat (count 0).toNat) = !out 0 := by
  have hbefore := h.out_before (top.toNat + 1 - (count 0).toNat)
    (Nat.lt_succ_self _)
  have hlast := runs_out h.room h.count_succ
  refine ⟨restarts h.room h.count_succ, ?_⟩
  rw [clocksToToggle, h.out_succ_of_lt hlast, hbefore]

/-- **Square wave.** From a high output with the counter at zero, the output is
high and low in turns of `top + 2` clocks each. -/
theorem square (h : Toggles top count out) (h0 : (count 0).toNat = 0)
    (hout : out 0 = true) : SquareFrom out 0 (top.toNat + 2) := by
  intro t
  rw [Nat.zero_add]
  induction t with
  | zero => simp [hout]
  | succ t ih =>
      have hcount := cycle h.room h.count_succ h0 t
      have hdvd : top.toNat + 2 ∣ t + 1 ↔ t % (top.toNat + 2) = top.toNat + 1 := by
        rw [Nat.dvd_iff_mod_eq_zero, Nat.add_mod,
          Nat.mod_eq_of_lt (show 1 < top.toNat + 2 by omega)]
        have hlt : t % (top.toNat + 2) < top.toNat + 2 := Nat.mod_lt _ (by omega)
        rcases Nat.lt_or_ge (t % (top.toNat + 2)) (top.toNat + 1) with hs | hs
        · rw [Nat.mod_eq_of_lt (by omega)]; omega
        · rw [show t % (top.toNat + 2) = top.toNat + 1 by omega]; simp
      rw [Nat.succ_div]
      rcases Nat.lt_or_ge top.toNat (count t).toNat with hlt | hle
      · have hmod : t % (top.toNat + 2) < top.toNat + 2 := Nat.mod_lt _ (by omega)
        rw [h.out_succ_of_lt hlt, ih, if_pos (hdvd.mpr (by omega)), ← decide_not]
        congr 1
        apply propext
        omega
      · have hndvd : ¬ top.toNat + 2 ∣ t + 1 := fun hd => by
          have := hdvd.mp hd
          omega
        rw [h.out_succ_of_le hle, ih, if_neg hndvd]
        rfl

/-- A rising edge is where the counter has just restarted. -/
theorem count_of_rises (h : Toggles top count out) {t : ℕ} (ht : Rises out t) :
    (count t).toNat = 0 := by
  cases t with
  | zero => exact absurd ht (not_rises_zero out)
  | succ t =>
      obtain ⟨hlow, hhigh⟩ := ht
      rcases Nat.lt_or_ge top.toNat (count t).toNat with hlt | hle
      · rw [h.count_succ, next_of_lt hlt]; simp
      · rw [h.out_succ_of_le hle, hlow] at hhigh
        exact absurd hhigh (by simp)

/-- A rising edge starts a square wave of half period `top + 2`. -/
theorem square_of_rises (h : Toggles top count out) {t : ℕ} (ht : Rises out t) :
    SquareFrom out t (top.toNat + 2) := by
  have hhigh : out t = true := by
    cases t with
    | zero => exact absurd ht (not_rises_zero out)
    | succ t => exact ht.2
  have hsq := (h.shift t).square (h.count_of_rises ht) hhigh
  intro u
  simpa using hsq u

/-- Consecutive rising edges are `2 * (top + 2)` clocks apart. -/
theorem consecutive (h : Toggles top count out) {t₁ t₂ : ℕ}
    (h12 : ConsecutiveRises out t₁ t₂) : t₂ = t₁ + 2 * (top.toNat + 2) :=
  (h.square_of_rises h12.first).consecutive (by omega) h12

end Toggles

/-! ## The first rising edge -/

/-- Clocks until the first rising edge: one toggle from a low output, a whole
half period more from a high one. -/
def clocksToRise (top c : ℕ) (out : Bool) : ℕ :=
  if out then clocksToToggle top c + (top + 2) else clocksToToggle top c

namespace Toggles

variable {top : BitVec w} {count : ℕ → BitVec w} {out : ℕ → Bool}

theorem rises_of_low (h : Toggles top count out) (hout : out 0 = false) :
    Rises out (clocksToToggle top.toNat (count 0).toNat) ∧
      ∀ t, t < clocksToToggle top.toNat (count 0).toNat → ¬ Rises out t := by
  have hbefore := h.out_before
  have hat := h.at_toggle.2
  refine ⟨?_, ?_⟩
  · rw [hout, Bool.not_false] at hat
    exact (rises_succ out _).mpr ⟨by rw [hbefore _ (Nat.lt_succ_self _), hout], hat⟩
  · intro t ht hrise
    cases t with
    | zero => exact hrise
    | succ t =>
        have := hrise.2
        rw [hbefore _ ht, hout] at this
        exact absurd this (by simp)

/-- **First rising edge.** There is none before `clocksToRise`, and one then. -/
theorem first_rise (h : Toggles top count out) :
    Rises out (clocksToRise top.toNat (count 0).toNat (out 0)) ∧
      ∀ t, t < clocksToRise top.toNat (count 0).toNat (out 0) → ¬ Rises out t := by
  cases hout : out 0 with
  | false => simpa [clocksToRise] using h.rises_of_low hout
  | true =>
      -- the high output falls first; from there the low case applies
      obtain ⟨hzero, hlow⟩ := h.at_toggle
      rw [hout, Bool.not_true] at hlow
      have hshift := h.shift (clocksToToggle top.toNat (count 0).toNat)
      obtain ⟨hrise, hnone⟩ := hshift.rises_of_low hlow
      have hlen : clocksToToggle top.toNat 0 = top.toNat + 2 := by
        simp [clocksToToggle]
      rw [Nat.add_zero, hzero, hlen] at hrise hnone
      refine ⟨?_, ?_⟩
      · rw [clocksToRise, if_pos rfl, ← Nat.add_assoc, rises_succ]
        exact hrise
      · intro t ht hr
        rw [clocksToRise, if_pos rfl] at ht
        rcases Nat.lt_or_ge t (clocksToToggle top.toNat (count 0).toNat + 1) with hlt | hge
        · cases t with
          | zero => exact hr
          | succ t =>
              have := hr.1
              rw [h.out_before t (by omega), hout] at this
              exact absurd this (by simp)
        · obtain ⟨u, rfl⟩ : ∃ u, t = clocksToToggle top.toNat (count 0).toNat + (u + 1) :=
            ⟨t - clocksToToggle top.toNat (count 0).toNat - 1, by omega⟩
          exact hnone (u + 1) (by omega) hr

/-- Exactly the runs of fewer than `clocksToRise` clocks have no rising edge. -/
theorem no_rise_iff (h : Toggles top count out) (n : ℕ) :
    (∀ t, t ≤ n → ¬ Rises out t) ↔
      n < clocksToRise top.toNat (count 0).toNat (out 0) := by
  obtain ⟨hrise, hnone⟩ := h.first_rise
  refine ⟨?_, fun hn t ht => hnone t (by omega)⟩
  intro hall
  by_contra hge
  exact hall _ (Nat.not_lt.mp hge) hrise

end Toggles

end FpgaCnc.CompareCounter
