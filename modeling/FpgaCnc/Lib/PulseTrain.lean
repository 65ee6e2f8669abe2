import Mathlib.Data.Nat.Count
import FpgaCnc.Lib.CompareCounter

/-!
# Pulse trains

A one-bit output that is high on the first `c` clocks of every `p`: what a
free-running counter and a comparator produce. The window on which the pattern
is known has a length, so that a train that holds only as long as something
else does can be spoken about too.

§1 levels · §2 edges · §3 clocks high in a window · §4 counter and comparator.
-/

namespace FpgaCnc.Clocked

/-- On the `n` clocks from `a` on, `x` is high for `c` clocks out of every
`p`. -/
def PulseTrain (x : ℕ → Bool) (a p c n : ℕ) : Prop :=
  ∀ t < n, x (a + t) = decide (t % p < c)

namespace PulseTrain

variable {x : ℕ → Bool} {a p c n : ℕ}

theorem high_iff (h : PulseTrain x a p c n) {t : ℕ} (ht : t < n) :
    x (a + t) = true ↔ t % p < c := by
  rw [h t ht, decide_eq_true_eq]

theorem low_iff (h : PulseTrain x a p c n) {t : ℕ} (ht : t < n) :
    x (a + t) = false ↔ c ≤ t % p := by
  rw [h t ht, decide_eq_false_iff_not, Nat.not_lt]

/-- More high clocks than the period has are all of them. -/
theorem cap (h : PulseTrain x a p c n) (hp : 0 < p) : PulseTrain x a p (min c p) n := by
  intro t ht
  have hmod := Nat.mod_lt t hp
  rw [h t ht]
  exact decide_eq_decide.mpr (by omega)

/-! ## §1  Levels -/

/-- No `c + 1` clocks in a row are high. -/
theorem exists_low (h : PulseTrain x a p c n) (hcp : c < p) {u : ℕ} (hu : u + (c + 1) ≤ n) :
    ∃ k < c + 1, x (a + (u + k)) = false := by
  have hmod : u % p < p := Nat.mod_lt u (by omega)
  rcases Nat.lt_or_ge (u % p) c with hlt | hge
  · -- the high part of this period ends `c - u % p` clocks later
    refine ⟨c - u % p, by omega, (h.low_iff (by omega)).mpr ?_⟩
    rw [Nat.add_mod, Nat.mod_eq_of_lt (show c - u % p < p by omega),
      Nat.mod_eq_of_lt (by omega)]
    omega
  · exact ⟨0, Nat.succ_pos c, (h.low_iff (by omega)).mpr hge⟩

/-- No `p - c + 1` clocks in a row are low. -/
theorem exists_high (h : PulseTrain x a p c n) (hc : 0 < c) (hcp : c < p) {u : ℕ}
    (hu : u + (p - c + 1) ≤ n) : ∃ k < p - c + 1, x (a + (u + k)) = true := by
  have hmod : u % p < p := Nat.mod_lt u (by omega)
  rcases Nat.lt_or_ge (u % p) c with hlt | hge
  · exact ⟨0, Nat.succ_pos _, (h.high_iff (by omega)).mpr hlt⟩
  · -- the next period starts `p - u % p` clocks later
    refine ⟨p - u % p, by omega, (h.high_iff (by omega)).mpr ?_⟩
    have hstart : (u + (p - u % p)) % p = 0 := by
      rw [Nat.add_mod]
      rcases Nat.eq_zero_or_pos (u % p) with hz | hpos
      · omega
      · rw [Nat.mod_eq_of_lt (show p - u % p < p by omega), Nat.add_sub_cancel' hmod.le,
          Nat.mod_self]
    omega

/-! ## §2  Edges -/

theorem rises_iff (h : PulseTrain x a p c n) (hc : 0 < c) (hcp : c < p) {t : ℕ}
    (ht : t + 1 < n) : Rises x (a + (t + 1)) ↔ p ∣ t + 1 := by
  have hmod : t % p < p := Nat.mod_lt t (by omega)
  have hsucc : (t + 1) % p = if t % p + 1 = p then 0 else t % p + 1 := by
    rw [Nat.add_mod, Nat.mod_eq_of_lt (show 1 < p by omega)]
    split_ifs with hlast
    · rw [hlast, Nat.mod_self]
    · exact Nat.mod_eq_of_lt (by omega)
  rw [← Nat.add_assoc, rises_succ, Nat.add_assoc, h.low_iff (by omega), h.high_iff ht,
    Nat.dvd_iff_mod_eq_zero, hsucc]
  split_ifs with hlast
  · exact ⟨fun _ => rfl, fun _ => ⟨by omega, hc⟩⟩
  · exact ⟨fun hedge => absurd hedge.2 (by omega), False.elim⟩

/-- **Consecutive rising edges of a pulse train** are one period apart. -/
theorem consecutive (h : PulseTrain x a p c n) (hc : 0 < c) (hcp : c < p) {t₁ t₂ : ℕ}
    (h1 : a ≤ t₁) (h2 : t₂ < a + n) (h12 : ConsecutiveRises x t₁ t₂) : t₂ = t₁ + p := by
  obtain ⟨hr1, hr2, hlt, hnone⟩ := h12
  obtain ⟨u, rfl⟩ : ∃ u, t₁ = a + u := ⟨t₁ - a, by omega⟩
  obtain ⟨v, rfl⟩ : ∃ v, t₂ = a + (v + 1) := ⟨t₂ - a - 1, by omega⟩
  -- the window may start at an edge that is none of the pattern's own
  have hd1 : p ∣ u := by
    cases u with
    | zero => exact dvd_zero p
    | succ u => exact (h.rises_iff hc hcp (by omega)).mp hr1
  have hd2 : p ∣ v + 1 := (h.rises_iff hc hcp (by omega)).mp hr2
  have hle : p ≤ v + 1 - u := Nat.le_of_dvd (by omega) (Nat.dvd_sub hd2 hd1)
  by_contra hne
  -- otherwise the edge one period after the first lies strictly in between
  have hrise : Rises x (a + (u + p - 1 + 1)) := by
    refine (h.rises_iff hc hcp (by omega)).mpr ?_
    rw [Nat.sub_add_cancel (by omega)]
    exact Nat.dvd_add hd1 dvd_rfl
  exact hnone _ (by omega) (by omega) hrise

end PulseTrain

/-! ## §3  Clocks high in a window -/

/-- How many of the `n` clocks from `t` on are high. -/
def highs (x : ℕ → Bool) (t n : ℕ) : ℕ := Nat.count (fun k => x (t + k) = true) n

theorem highs_succ (x : ℕ → Bool) (t n : ℕ) :
    highs x t (n + 1) = highs x t n + if x (t + n) = true then 1 else 0 :=
  Nat.count_succ _ n

/-- A window may slide by one clock if it loses the level it gains. -/
theorem highs_slide {x : ℕ → Bool} {t p : ℕ} (h : x (t + p) = x t) :
    highs x (t + 1) p = highs x t p := by
  have hlast := highs_succ x t p
  have hfirst : highs x t (p + 1) = highs x (t + 1) p + if x t = true then 1 else 0 := by
    simp only [highs, Nat.count_succ', Nat.add_zero, Nat.add_assoc, Nat.add_comm 1]
  rw [h] at hlast
  omega

namespace PulseTrain

variable {x : ℕ → Bool} {a p c : ℕ}

theorem periodic (h : ∀ n, PulseTrain x a p c n) {t : ℕ} (ht : a ≤ t) : x (t + p) = x t := by
  obtain ⟨u, rfl⟩ := Nat.exists_eq_add_of_le ht
  rw [Nat.add_assoc, h (u + p + 1) _ (Nat.lt_succ_self _), h (u + 1) _ (Nat.lt_succ_self _),
    Nat.add_mod_right]

/-- Inside one period, a window that starts at offset `r` has lost the first
`r` of the `c` high clocks. -/
theorem highs_within (h : ∀ n, PulseTrain x a p c n) (m : ℕ) {r : ℕ} :
    ∀ n, r + n ≤ p → highs x (a + (p * m + r)) n = min n (c - r) := by
  intro n
  induction n with
  | zero => intro _; simp [highs]
  | succ n ih =>
      intro hle
      have hoff : (p * m + (r + n)) % p = r + n := by
        rw [Nat.mul_add_mod]
        exact Nat.mod_eq_of_lt (by omega)
      have hiff := (h _).high_iff (Nat.lt_succ_self (p * m + (r + n)))
      rw [hoff, ← Nat.add_assoc (p * m), ← Nat.add_assoc a] at hiff
      rw [highs_succ, ih (by omega)]
      by_cases hc : r + n < c
      · rw [if_pos (hiff.mpr hc)]
        omega
      · rw [if_neg fun hx => hc (hiff.mp hx)]
        omega

/-- **Every window of one period** has exactly `c` high clocks. -/
theorem highs_period (h : ∀ n, PulseTrain x a p c n) (hcp : c ≤ p) :
    ∀ t, highs x (a + t) p = c := by
  intro t
  induction t with
  | zero =>
      have h0 := highs_within h 0 (r := 0) p (by omega)
      rw [Nat.mul_zero, Nat.sub_zero, Nat.min_eq_right hcp] at h0
      exact h0
  | succ t ih => rw [← Nat.add_assoc, highs_slide (periodic h (Nat.le_add_right a t)), ih]

end PulseTrain

end FpgaCnc.Clocked

/-! ## §4  Counter and comparator -/

namespace FpgaCnc.CompareCounter

open FpgaCnc.Clocked

variable {w : ℕ} {top : BitVec w} {count : ℕ → BitVec w}

/-- A comparator behind a counter that stands at zero at clock `a`: a pulse
train for as long as the compare value stays what it is. -/
theorem pulseTrain (htop : top.toNat + 1 < 2 ^ w)
    (hstep : ∀ t, count (t + 1) = next top (count t)) {a c n : ℕ} {out : ℕ → Bool}
    (ha : (count a).toNat = 0) (hout : ∀ t < n, out (a + t) = decide ((count (a + t)).toNat < c)) :
    PulseTrain out a (top.toNat + 2) c n := by
  intro t ht
  have hcycle : (count (a + t)).toNat = t % (top.toNat + 2) :=
    @cycle w top (fun k => count (a + k)) htop (fun k => hstep (a + k)) ha t
  rw [hout t ht, hcycle]

/-- The same behind a counter whose top is all ones. -/
theorem pulseTrain_of_wraps (htop : top.toNat + 1 = 2 ^ w)
    (hstep : ∀ t, count (t + 1) = next top (count t)) {a c n : ℕ} {out : ℕ → Bool}
    (ha : (count a).toNat = 0) (hout : ∀ t < n, out (a + t) = decide ((count (a + t)).toNat < c)) :
    PulseTrain out a (2 ^ w) c n := by
  intro t ht
  have hcycle : (count (a + t)).toNat = ((count a).toNat + t) % 2 ^ w :=
    @wraps w top (fun k => count (a + k)) htop (fun k => hstep (a + k)) t
  rw [hout t ht, hcycle, ha, Nat.zero_add]

end FpgaCnc.CompareCounter
