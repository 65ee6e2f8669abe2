import FpgaCnc.Hdl.Watchdog

/-!
# The charge pump of a fed watchdog

As long as no stretch of clocks without a read has more than 50 million idle
ones in it, `cp_capture` is 2500 from the first clock on and the charge pump
counter, which the reset leaves far above its top, has started its cycle one
clock after reset: the output is a square wave without a single irregular
pulse.

§1 fed schedules · §2 the counter does not bite · §3 the output.
-/

namespace FpgaCnc.CncModule

open Clocked

/-! ## §1  Fed schedules -/

/-- Every stretch of the first `T` clocks without a read has at most 50 million
idle clocks. Write clocks are not idle and do not end a stretch; the first one
starts at reset. -/
def Fed (sched : ℕ → CncIn) (T : ℕ) : Prop :=
  ∀ a n, a + n ≤ T → (∀ k < n, (sched (a + k)).strobe ≠ .read) →
    idleBefore (fun k => sched (a + k)) n ≤ 50000000

theorem Fed.mono {sched : ℕ → CncIn} {T U : ℕ} (h : Fed sched U) (hTU : T ≤ U) :
    Fed sched T := fun a n hle => h a n (Nat.le_trans hle hTU)

/-- Reads that are never more than 50 million clocks apart feed the watchdog,
whatever happens on the other clocks. -/
theorem fed_of_reads {sched : ℕ → CncIn}
    (h : ∀ a, ∃ k ≤ 50000000, (sched (a + k)).strobe = .read) (T : ℕ) : Fed sched T := by
  intro a n _ hnone
  obtain ⟨k, hk, hread⟩ := h a
  have hnk : n ≤ k := by
    by_contra hlt
    exact hnone k (Nat.not_le.mp hlt) hread
  exact Nat.le_trans (idleBefore_le _ n) (Nat.le_trans hnk hk)

/-! ## §2  The counter does not bite -/

/-- What the counter holds: the idle clocks of a stretch without a read that
ends now. -/
def CountsStretch (sched : ℕ → CncIn) (t : ℕ) (s : CncModule) : Prop :=
  ∃ a n, a + n = t ∧ (∀ k < n, (sched (a + k)).strobe ≠ .read) ∧
    s.wdCounter.toNat = idleBefore (fun k => sched (a + k)) n

/-- One clock of a fed schedule: a read starts a stretch, any other clock goes
on with it. -/
theorem CountsStretch.posedge {sched : ℕ → CncIn} {t : ℕ} {s : CncModule}
    (hfed : Fed sched t) (h : CountsStretch sched t s) :
    CountsStretch sched (t + 1) (s.posedge (sched t)) := by
  obtain ⟨a, n, rfl, hnone, hwd⟩ := h
  by_cases hread : (sched (a + n)).strobe = .read
  · refine ⟨a + n + 1, 0, rfl, fun k hk => absurd hk (Nat.not_lt_zero k), ?_⟩
    simp [CncModule.posedge, hread, idleBefore]
  · refine ⟨a, n + 1, rfl, ?_, ?_⟩
    · intro k hk
      rcases Nat.lt_succ_iff_lt_or_eq.mp hk with hlt | rfl
      · exact hnone k hlt
      · exact hread
    · have hle := hfed a n le_rfl hnone
      rw [wdCounter_posedge hread, idleBefore, Nat.count_succ, ← idleBefore]
      split_ifs with hidle
      · rw [BitVec.toNat_add, hwd]
        exact Nat.mod_eq_of_lt (Nat.lt_of_le_of_lt (Nat.add_le_add_right hle 1) (by decide))
      · exact hwd

theorem countsStretch_of_fed (s : CncModule) {sched : ℕ → CncIn} :
    ∀ {t : ℕ}, Fed sched t → CountsStretch sched t (stateAt posedge s.reset sched t) := by
  intro t
  induction t with
  | zero => exact fun _ => ⟨0, 0, rfl, fun k hk => absurd hk (Nat.not_lt_zero k), rfl⟩
  | succ t ih =>
      intro hfed
      have ht := hfed.mono (Nat.le_succ t)
      exact (ih ht).posedge ht

/-- **A fed watchdog does not bite.** -/
theorem wdCounter_le_of_fed (s : CncModule) {sched : ℕ → CncIn} {t : ℕ} (hfed : Fed sched t) :
    (stateAt posedge s.reset sched t).wdCounter.toNat ≤ 50000000 := by
  obtain ⟨a, n, rfl, hnone, hwd⟩ := countsStretch_of_fed s hfed
  rw [hwd]
  exact hfed a n le_rfl hnone

/-! ## §3  The output -/

/-- The charge pump output over time. -/
def cpSignal (s : CncModule) (sched : ℕ → CncIn) (t : ℕ) : Bool :=
  (stateAt posedge s sched t).cp

/-- Before the first clock the counter is above every compare value. -/
theorem cpSignal_reset (s : CncModule) (sched : ℕ → CncIn) :
    cpSignal s.reset sched 0 = false := by
  have hcap := s.reset.cpIn.pwmCapture.isLt
  have hcount : s.reset.cp1.count = 0xFFFFFFFF#32 := rfl
  rw [cpSignal, stateAt_zero, cp, ← Bool.not_eq_true, PwmGen.pwmOut_iff, hcount,
    BitVec.toNat_ofNat]
  omega

theorem cp_pulseTrain (s : CncModule) {sched : ℕ → CncIn} {T : ℕ} (hfed : Fed sched T) :
    PulseTrain (cpSignal s.reset sched) 1 5002 2500 (T + 1) := by
  have hstep : ∀ t, (stateAt posedge s.reset sched (t + 1)).cp1.count =
      CompareCounter.next 5000#32 (stateAt posedge s.reset sched t).cp1.count := by
    intro t
    rw [stateAt_succ]
    exact PwmGen.posedge_count _ _
  -- the reset value is above the top, so the first clock clears the counter
  have hfirst : (stateAt posedge s.reset sched 1).cp1.count.toNat = 0 := by
    have htop : (5000#32).toNat < (stateAt posedge s.reset sched 0).cp1.count.toNat :=
      show (5000#32).toNat < (0xFFFFFFFF#32).toNat by decide
    rw [hstep, CompareCounter.next_of_lt htop]
    rfl
  refine @CompareCounter.pulseTrain 32 5000#32
    (fun t => (stateAt posedge s.reset sched t).cp1.count) (by decide) hstep _ _ _ _ hfirst ?_
  intro t ht
  have hhappy := wdCounter_le_of_fed s (hfed.mono (Nat.lt_succ_iff.mp ht))
  have hcap : (stateAt posedge s.reset sched (1 + t)).cpCapture = 2500#32 := by
    rw [Nat.add_comm, stateAt_succ]
    exact cpCapture_posedge_of_happy _ hhappy
  rw [cpSignal, cp, PwmGen.pwmOut, cpIn, hcap]
  exact decide_eq_decide.mpr BitVec.lt_def

/-- **No false trip.** On the first `T` clocks of a fed schedule the charge
pump output is high on 2500 clocks of every 5002, from the first clock after
reset on: never high for more than 2500 clocks in a row, never low for more
than 2502, and its rising edges are 5002 clocks apart. -/
theorem cp_steady_of_fed (s : CncModule) (sched : ℕ → CncIn) (T : ℕ) (hfed : Fed sched T) :
    (∀ t ≤ T, cpSignal s.reset sched (1 + t) = decide (t % 5002 < 2500)) ∧
      (∀ t, t + 2501 ≤ T + 2 → ∃ k ≤ 2500, cpSignal s.reset sched (t + k) = false) ∧
      (∀ t, t + 2503 ≤ T + 2 → ∃ k ≤ 2502, cpSignal s.reset sched (t + k) = true) ∧
      (∀ t₁ t₂, t₂ ≤ T + 1 → ConsecutiveRises (cpSignal s.reset sched) t₁ t₂ →
        t₂ = t₁ + 5002) := by
  have htrain := cp_pulseTrain s hfed
  refine ⟨fun t ht => htrain t (Nat.lt_succ_of_le ht), ?_, ?_, ?_⟩
  · rintro (_ | t) ht
    · exact ⟨0, Nat.zero_le _, cpSignal_reset s sched⟩
    · obtain ⟨k, hk, hlow⟩ := htrain.exists_low (by decide) (u := t) (by omega)
      exact ⟨k, Nat.lt_succ_iff.mp hk, by rwa [Nat.add_comm t 1, Nat.add_assoc]⟩
  · rintro (_ | t) ht
    · exact ⟨1, by decide, htrain 0 (Nat.succ_pos T)⟩
    · obtain ⟨k, hk, hhigh⟩ :=
        htrain.exists_high (by decide) (by decide) (u := t) (by omega)
      exact ⟨k, Nat.lt_succ_iff.mp hk, by rwa [Nat.add_comm t 1, Nat.add_assoc]⟩
  · intro t₁ t₂ ht h12
    have hpos : 1 ≤ t₁ := by
      by_contra hzero
      rw [Nat.lt_one_iff.mp (Nat.not_le.mp hzero)] at h12
      exact h12.first
    exact htrain.consecutive (by decide) (by decide) hpos (by omega) h12

/-- Reads as far apart as a fed schedule allows. -/
def rareReads (t : ℕ) : CncIn :=
  if t % 50000001 = 50000000 then ⟨true, true, false, 0, 0, 0⟩ else CncIn.idle

theorem fed_rareReads (T : ℕ) : Fed rareReads T := by
  refine fed_of_reads (fun a => ?_) T
  have hmod : a % 50000001 < 50000001 := Nat.mod_lt a (by decide)
  refine ⟨50000000 - a % 50000001, by omega, ?_⟩
  have hread : (a + (50000000 - a % 50000001)) % 50000001 = 50000000 := by omega
  rw [rareReads, if_pos hread]
  rfl

/-- A minute of it. -/
theorem cp_steady_of_rareReads :
    (∀ t ≤ 3000000000,
        cpSignal powerUp.reset rareReads (1 + t) = decide (t % 5002 < 2500)) ∧
      (∀ t, t + 2501 ≤ 3000000000 + 2 →
        ∃ k ≤ 2500, cpSignal powerUp.reset rareReads (t + k) = false) ∧
      (∀ t, t + 2503 ≤ 3000000000 + 2 →
        ∃ k ≤ 2502, cpSignal powerUp.reset rareReads (t + k) = true) ∧
      (∀ t₁ t₂, t₂ ≤ 3000000000 + 1 → ConsecutiveRises (cpSignal powerUp.reset rareReads) t₁ t₂ →
        t₂ = t₁ + 5002) :=
  cp_steady_of_fed powerUp rareReads 3000000000 (fed_rareReads 3000000000)

end FpgaCnc.CncModule
