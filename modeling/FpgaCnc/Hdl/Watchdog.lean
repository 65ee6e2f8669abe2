import FpgaCnc.Hdl.CncModule

/-!
# Watchdog and charge pump

`wd_counter` counts idle clocks and only a register read clears it; once it
has passed 50 million, `cp_capture` makes the charge pump output stay high.
The counter has 32 bits and goes on counting after it has bitten, so after
2^32 idle clocks it is back at zero and the pump starts again.

§1 silence and the counter · §2 the pump while the watchdog bites · §3 the
pump after the counter has wrapped · §4 how long the latch holds.
-/

namespace FpgaCnc.CncModule

open Clocked

/-! ## §1  Silence and the counter -/

/-- No register read is asserted on the first `T` clocks. -/
def Silent (sched : ℕ → CncIn) (T : ℕ) : Prop :=
  ∀ t < T, ¬ ((sched t).chipselect = true ∧ (sched t).read = true)

/-- Idle clocks among the first `T`. -/
def idleBefore (sched : ℕ → CncIn) (T : ℕ) : ℕ :=
  Nat.count (fun t => (sched t).strobe = .idle) T

theorem Silent.mono {sched : ℕ → CncIn} {T U : ℕ} (h : Silent sched U) (hTU : T ≤ U) :
    Silent sched T := fun t ht => h t (Nat.lt_of_lt_of_le ht hTU)

theorem Silent.shift {sched : ℕ → CncIn} {a T : ℕ} (h : Silent sched (a + T)) :
    Silent (fun t => sched (a + t)) T := fun t ht => h (a + t) (by omega)

theorem strobe_ne_read {b : CncIn} (h : ¬ (b.chipselect = true ∧ b.read = true)) :
    b.strobe ≠ .read := by
  intro hs
  cases hc : b.chipselect <;> cases hr : b.read <;> cases hw : b.write <;>
    simp_all [CncIn.strobe]

theorem idleBefore_le (sched : ℕ → CncIn) (T : ℕ) : idleBefore sched T ≤ T :=
  Nat.count_le _

theorem silent_idle (T : ℕ) : Silent (fun _ => CncIn.idle) T := by
  intro t _
  simp [CncIn.idle]

theorem idleBefore_idle (T : ℕ) : idleBefore (fun _ => CncIn.idle) T = T := by
  simp [idleBefore]

/-- A silent clock adds one to the counter if it is idle and leaves it alone
otherwise. -/
theorem wdCounter_posedge {b : CncIn} (h : b.strobe ≠ .read) (s : CncModule) :
    (s.posedge b).wdCounter =
      if b.strobe = .idle then s.wdCounter + 1 else s.wdCounter := by
  cases hs : b.strobe with
  | write => simp [posedge, hs]
  | read => exact absurd hs h
  | idle => simp [posedge, hs]

/-- **While it does not wrap, the counter counts the idle clocks of a
silence.** -/
theorem wdCounter_of_silent {s : CncModule} {sched : ℕ → CncIn} :
    ∀ {T : ℕ}, Silent sched T → s.wdCounter.toNat + idleBefore sched T < 2 ^ 32 →
      (stateAt posedge s sched T).wdCounter.toNat =
        s.wdCounter.toNat + idleBefore sched T := by
  intro T
  induction T with
  | zero => intro _ _; simp [idleBefore]
  | succ T ih =>
      intro hsilent hlt
      have hT := hsilent.mono (Nat.le_succ T)
      have hread := strobe_ne_read (hsilent T (Nat.lt_succ_self T))
      rw [idleBefore, Nat.count_succ, ← idleBefore] at hlt ⊢
      rw [stateAt_succ, wdCounter_posedge hread]
      split_ifs at hlt ⊢ with hidle
      · have hprev := ih hT (by omega)
        rw [BitVec.toNat_add, hprev]
        simp
        omega
      · rw [ih hT (by omega), Nat.add_zero]

/-! ## §2  The pump while the watchdog bites -/

/-- The charge pump counter stays within its cycle. -/
theorem cp1_count_posedge_le (b : CncIn) (s : CncModule) :
    (s.posedge b).cp1.count.toNat ≤ 5001 := by
  have htop : (5000#32).toNat + 1 < 2 ^ 32 := by decide
  exact CompareCounter.next_toNat_le htop s.cp1.count

theorem bitten_iff (c : BitVec 32) : c > 50000000#32 ↔ 50000000 < c.toNat :=
  BitVec.lt_def

/-- After a clock on which the watchdog has bitten the output is high. -/
theorem cp_posedge_of_bitten (b : CncIn) {s : CncModule}
    (h : 50000000 < s.wdCounter.toNat) : (s.posedge b).cp = true := by
  have hcap : (s.posedge b).cpCapture = 0xFFFFFFFF#32 :=
    if_pos ((bitten_iff _).mpr h)
  have hcount := cp1_count_posedge_le b s
  rw [cp, PwmGen.pwmOut_iff, cpIn, hcap]
  exact Nat.lt_of_le_of_lt hcount (by decide)

/-! ## §3  The pump after the counter has wrapped -/

theorem cpCapture_posedge_of_happy (b : CncIn) {s : CncModule}
    (h : s.wdCounter.toNat ≤ 50000000) : (s.posedge b).cpCapture = 2500#32 :=
  if_neg fun hlt => absurd ((bitten_iff _).mp hlt) (Nat.not_lt.mpr h)

/-- From a cleared counter, a silent schedule drives the output low within one
cycle of the pump: the capture value is back at 2500 and the pump counter
passes it. -/
theorem cp_low_of_cleared {s : CncModule} {sched : ℕ → CncIn}
    (hsilent : ∀ T, Silent sched T) (hwd : s.wdCounter.toNat = 0) :
    ∃ t, (stateAt posedge s sched (t + 1)).cp = false := by
  have hc := cp1_count_posedge_le (sched 0) s
  have htop : (5000#32).toNat + 1 < 2 ^ 32 := by decide
  have hcount : ∀ t, (stateAt posedge s sched (1 + (t + 1))).cp1.count =
      CompareCounter.next 5000#32 (stateAt posedge s sched (1 + t)).cp1.count := by
    intro t
    rw [← Nat.add_assoc, stateAt_succ]
    exact PwmGen.posedge_count _ _
  have hramp : ∀ k, (stateAt posedge s sched 1).cp1.count.toNat + k ≤ 5001 →
      (stateAt posedge s sched (1 + k)).cp1.count.toNat =
        (stateAt posedge s sched 1).cp1.count.toNat + k :=
    @CompareCounter.ramp 32 5000#32 (fun t => (stateAt posedge s sched (1 + t)).cp1.count)
      htop hcount
  specialize hramp (5001 - (stateAt posedge s sched 1).cp1.count.toNat)
    (by rw [stateAt_succ, stateAt_zero]; omega)
  -- the clock at which the pump counter stands at its last value
  refine ⟨5001 - (stateAt posedge s sched 1).cp1.count.toNat, ?_⟩
  generalize hk : 5001 - (stateAt posedge s sched 1).cp1.count.toNat = k at hramp ⊢
  have hlast : (stateAt posedge s sched (k + 1)).cp1.count.toNat = 5001 := by
    rw [Nat.add_comm k 1, hramp]
    rw [stateAt_succ, stateAt_zero] at hk ⊢
    omega
  have hsmall : idleBefore sched k ≤ 5001 := Nat.le_trans (idleBefore_le sched k) (by omega)
  have hhappy := wdCounter_of_silent (s := s) (hsilent k) (by omega)
  have hcap := cpCapture_posedge_of_happy (sched k)
    (s := stateAt posedge s sched k) (by omega)
  rw [← Bool.not_eq_true, cp, PwmGen.pwmOut_iff, cpIn, hlast, stateAt_succ, hcap]
  decide

/-- A silence with too many idle clocks passes a clock at which the counter is
zero again. -/
theorem cleared_of_wrap {s : CncModule} {sched : ℕ → CncIn}
    (hsilent : ∀ T, Silent sched T)
    (hwrap : ∃ t, 2 ^ 32 ≤ s.wdCounter.toNat + idleBefore sched t) :
    ∃ t, (stateAt posedge s sched t).wdCounter.toNat = 0 := by
  classical
  -- the first clock by which the count has reached `2 ^ 32`: the one before it
  -- is idle and steps the counter from all ones to zero
  refine ⟨Nat.find hwrap, ?_⟩
  have hspec := Nat.find_spec hwrap
  have hmin := fun m => Nat.find_min (m := m) hwrap
  generalize Nat.find hwrap = n at hspec hmin ⊢
  cases n with
  | zero =>
      have := s.wdCounter.isLt
      simp [idleBefore] at hspec
      omega
  | succ u =>
      have hlt := Nat.not_le.mp (hmin u (Nat.lt_succ_self u))
      have hu := wdCounter_of_silent (s := s) (hsilent u) hlt
      have hread := strobe_ne_read (hsilent (u + 1) u (Nat.lt_succ_self u))
      rw [idleBefore, Nat.count_succ, ← idleBefore] at hspec
      rw [stateAt_succ, wdCounter_posedge hread]
      split_ifs at hspec ⊢ with hidle
      · rw [BitVec.toNat_add, hu]
        simp
        omega
      · omega

/-- **The pump starts again** in every silence long enough to wrap the
counter. -/
theorem cp_low_of_wrap {s : CncModule} {sched : ℕ → CncIn}
    (hsilent : ∀ T, Silent sched T)
    (hwrap : ∃ t, 2 ^ 32 ≤ s.wdCounter.toNat + idleBefore sched t) :
    ∃ t, (stateAt posedge s sched (t + 1)).cp = false := by
  obtain ⟨a, ha⟩ := cleared_of_wrap hsilent hwrap
  have hshift : ∀ T, Silent (fun t => sched (a + t)) T := fun T => (hsilent (a + T)).shift
  obtain ⟨k, hk⟩ := cp_low_of_cleared hshift ha
  exact ⟨a + k, by rw [Nat.add_assoc, stateAt_add]; exact hk⟩

/-- A module whose unreset registers are all zero. -/
def powerUp : CncModule where
  ctl := ⟨0, 0, 0, 0, 0, 0, 0, false, 0, 0, 0, 0⟩
  readdata := 0
  wdCounter := 0
  cpCapture := 0
  sg0 := ⟨0, false, false, 0⟩
  sg1 := ⟨0, false, false, 0⟩
  sg2 := ⟨0, false, false, 0⟩
  sg3 := ⟨0, false, false, 0⟩
  sg4 := ⟨0, false, false, 0⟩
  pwm1 := ⟨0⟩
  cp1 := ⟨0⟩
  enc0 := ⟨false, false, false, false, false, false, 0⟩
  enc1 := ⟨false, false, false, false, false, false, 0⟩

/-- After reset, with no access at all, the counter is the clock count. -/
theorem wdCounter_idle {t : ℕ} (ht : t < 2 ^ 32) :
    (stateAt posedge powerUp.reset (fun _ => CncIn.idle) t).wdCounter.toNat = t := by
  have h := wdCounter_of_silent (s := powerUp.reset) (silent_idle t)
    (by rw [idleBefore_idle]; simpa [reset] using ht)
  rw [h, idleBefore_idle]
  simp [reset]

/-! ## §4  How long the latch holds -/

/-- **The latch holds exactly as long as the counter does not wrap.** Once the
watchdog has bitten: on every silence the charge pump output is high from the
next clock on, up to and including the state the closing clock leads to,
provided the silence has fewer than `2 ^ 32 - wd_counter` idle clocks; and if
the host stays silent for ever, the output stays high for ever exactly if that
bound is never reached. -/
theorem cp_latched_iff_no_wrap (s : CncModule) (hbite : 50000000 < s.wdCounter.toNat)
    (sched : ℕ → CncIn) :
    (∀ T, Silent sched T → s.wdCounter.toNat + idleBefore sched T < 2 ^ 32 →
      ∀ t ≤ T, (stateAt posedge s sched (t + 1)).cp = true) ∧
    ((∀ T, Silent sched T) →
      ((∀ t, (stateAt posedge s sched (t + 1)).cp = true) ↔
        ∀ t, s.wdCounter.toNat + idleBefore sched t < 2 ^ 32)) := by
  have hlatch : ∀ T, Silent sched T → s.wdCounter.toNat + idleBefore sched T < 2 ^ 32 →
      ∀ t ≤ T, (stateAt posedge s sched (t + 1)).cp = true := by
    intro T hsilent hlt t ht
    have hmono : idleBefore sched t ≤ idleBefore sched T := Nat.count_monotone _ ht
    have hwd := wdCounter_of_silent (s := s) (hsilent.mono ht) (by omega)
    rw [stateAt_succ]
    exact cp_posedge_of_bitten _ (by omega)
  refine ⟨hlatch, fun hsilent => ⟨?_, fun hlt t => hlatch t (hsilent t) (hlt t) t le_rfl⟩⟩
  intro hhigh t
  by_contra hge
  obtain ⟨u, hu⟩ := cp_low_of_wrap hsilent ⟨t, Nat.not_lt.mp hge⟩
  rw [hhigh u] at hu
  exact absurd hu (by simp)

/-- A second of silence, and the pump still high 4e9 clocks later. -/
theorem cp_latched_of_second :
    (stateAt posedge { powerUp.reset with wdCounter := 50000001 }
      (fun _ => CncIn.idle) (4000000000 + 1)).cp = true := by
  have hbite : 50000000 < { powerUp.reset with wdCounter := 50000001 : CncModule}.wdCounter.toNat := by
    decide
  refine (cp_latched_iff_no_wrap _ hbite _).1 4000000000 (silent_idle _) ?_ _ le_rfl
  rw [idleBefore_idle]
  decide

/-- **The latch opens.** From reset, with no access ever: the counter passes 50
million, the output is high on the clock after, and low on a later one. -/
theorem cp_restarts_from_reset :
    50000000 < (stateAt posedge powerUp.reset (fun _ => CncIn.idle) 50000001).wdCounter.toNat ∧
      (stateAt posedge powerUp.reset (fun _ => CncIn.idle) 50000002).cp = true ∧
      ∃ t > 50000002,
        (stateAt posedge powerUp.reset (fun _ => CncIn.idle) t).cp = false := by
  have hbite : 50000000 <
      (stateAt posedge powerUp.reset (fun _ => CncIn.idle) 50000001).wdCounter.toNat := by
    rw [wdCounter_idle (by decide)]
    decide
  refine ⟨hbite, cp_posedge_of_bitten CncIn.idle hbite, ?_⟩
  have hwrap : ∃ t, 2 ^ 32 ≤
      (stateAt posedge powerUp.reset (fun _ => CncIn.idle) 50000002).wdCounter.toNat +
        idleBefore (fun _ => CncIn.idle) t :=
    ⟨2 ^ 32, by rw [idleBefore_idle]; exact Nat.le_add_left _ _⟩
  obtain ⟨t, ht⟩ := cp_low_of_wrap silent_idle hwrap
  refine ⟨50000002 + (t + 1), by omega, ?_⟩
  rw [stateAt_add]
  exact ht

end FpgaCnc.CncModule
