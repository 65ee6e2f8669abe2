import Mathlib.Data.Nat.Count
import Mathlib.Tactic.Ring

/-!
# Runs of clocked machines

A synchronous design is a step function `ι → σ → σ`: one application is one
clock edge, taking the inputs sampled at that edge and the state before it to
the state after it. This file has the two ways the development speaks about
runs (`run` over a finite list of clocks, `stateAt` over an endless schedule),
the induction rules for them, and the vocabulary of edges of a one-bit output.
-/

namespace FpgaCnc.Clocked

variable {σ τ ι κ : Type*}

/-! ## Finite runs -/

/-- The state after the clocks of a list. -/
def run (step : ι → σ → σ) (s : σ) (ins : List ι) : σ :=
  ins.foldl (fun s i => step i s) s

section Run

variable {step : ι → σ → σ}

@[simp] theorem run_nil (s : σ) : run step s [] = s := rfl

@[simp] theorem run_cons (s : σ) (i : ι) (ins : List ι) :
    run step s (i :: ins) = run step (step i s) ins := rfl

theorem run_append (s : σ) (l₁ l₂ : List ι) :
    run step s (l₁ ++ l₂) = run step (run step s l₁) l₂ :=
  List.foldl_append

theorem run_snoc (s : σ) (ins : List ι) (i : ι) :
    run step s (ins ++ [i]) = step i (run step s ins) := by
  rw [run_append, run_cons, run_nil]

/-- **Invariant rule.** What every clock satisfying `ok` preserves, a run of
such clocks preserves. -/
theorem run_induction {P : σ → Prop} {ok : ι → Prop}
    (hstep : ∀ i s, ok i → P s → P (step i s)) :
    ∀ {ins : List ι} {s : σ}, (∀ i ∈ ins, ok i) → P s → P (run step s ins)
  | [], _, _, hs => hs
  | i :: ins, s, hok, hs => by
      rw [run_cons]
      refine run_induction hstep (fun j hj => hok j (List.mem_cons_of_mem _ hj)) ?_
      exact hstep i s (hok i List.mem_cons_self) hs

end Run

/-! ## Endless schedules -/

/-- The state before clock `t` of an endless schedule. -/
def stateAt (step : ι → σ → σ) (s : σ) (sched : ℕ → ι) : ℕ → σ
  | 0 => s
  | t + 1 => step (sched t) (stateAt step s sched t)

section StateAt

variable {step : ι → σ → σ}

@[simp] theorem stateAt_zero (s : σ) (sched : ℕ → ι) :
    stateAt step s sched 0 = s := rfl

theorem stateAt_succ (s : σ) (sched : ℕ → ι) (t : ℕ) :
    stateAt step s sched (t + 1) = step (sched t) (stateAt step s sched t) := rfl

/-- The state before clock `t` is the run over the first `t` clocks. -/
theorem stateAt_eq_run (s : σ) (sched : ℕ → ι) (t : ℕ) :
    stateAt step s sched t = run step s ((List.range t).map sched) := by
  induction t with
  | zero => rfl
  | succ t ih =>
      rw [stateAt_succ, ih, List.range_succ, List.map_append, List.map_singleton,
        run_snoc]

/-- **Invariant rule**, for the first `T` clocks of a schedule. -/
theorem stateAt_induction {P : σ → Prop} {s : σ} {sched : ℕ → ι} {T : ℕ} (h0 : P s)
    (hstep : ∀ t < T, ∀ s, P s → P (step (sched t) s)) :
    ∀ t ≤ T, P (stateAt step s sched t) := by
  intro t
  induction t with
  | zero => exact fun _ => h0
  | succ t ih => exact fun ht => hstep t ht _ (ih (Nat.le_of_succ_le ht))

/-- **Two-run rule**: a relation that every pair of clocks keeps, holds between
two runs clock by clock. -/
theorem stateAt_related {R : σ → σ → Prop} {s s' : σ} {sched sched' : ℕ → ι} {T : ℕ}
    (h0 : R s s')
    (hstep : ∀ t < T, ∀ s s', R s s' → R (step (sched t) s) (step (sched' t) s')) :
    ∀ t ≤ T, R (stateAt step s sched t) (stateAt step s' sched' t) := by
  intro t
  induction t with
  | zero => exact fun _ => h0
  | succ t ih => exact fun ht => hstep t ht _ _ (ih (Nat.le_of_succ_le ht))

/-- A clock later, the schedule goes on from the state reached. -/
theorem stateAt_add (s : σ) (sched : ℕ → ι) (a t : ℕ) :
    stateAt step s sched (a + t) =
      stateAt step (stateAt step s sched a) (fun k => sched (a + k)) t := by
  induction t with
  | zero => rfl
  | succ t ih => rw [← Nat.add_assoc, stateAt_succ, stateAt_succ, ih]

/-- **Projection rule.** If one clock of a machine is one clock of a component
whose inputs are wired from the machine's inputs and state, the component's
part of a run is the component's own run over the wired schedule. -/
theorem stateAt_proj {step' : κ → τ → τ} (part : σ → τ) (wire : ι → σ → κ)
    (h : ∀ i s, part (step i s) = step' (wire i s) (part s))
    (s : σ) (sched : ℕ → ι) (t : ℕ) :
    part (stateAt step s sched t) =
      stateAt step' (part s) (fun k => wire (sched k) (stateAt step s sched k)) t := by
  induction t with
  | zero => rfl
  | succ t ih => rw [stateAt_succ, stateAt_succ, h, ih]

end StateAt

/-! ## Edges of a one-bit output -/

/-- `x` has a rising edge at `t`: it is high there and was low one clock
earlier. -/
def Rises (x : ℕ → Bool) : ℕ → Prop
  | 0 => False
  | t + 1 => x t = false ∧ x (t + 1) = true

instance (x : ℕ → Bool) : DecidablePred (Rises x)
  | 0 => inferInstanceAs (Decidable False)
  | t + 1 => inferInstanceAs (Decidable (x t = false ∧ x (t + 1) = true))

@[simp] theorem not_rises_zero (x : ℕ → Bool) : ¬ Rises x 0 := fun h => h

theorem rises_succ (x : ℕ → Bool) (t : ℕ) :
    Rises x (t + 1) ↔ x t = false ∧ x (t + 1) = true := Iff.rfl

/-- Two rising edges with none in between. -/
structure ConsecutiveRises (x : ℕ → Bool) (t₁ t₂ : ℕ) : Prop where
  first : Rises x t₁
  second : Rises x t₂
  lt : t₁ < t₂
  between : ∀ t, t₁ < t → t < t₂ → ¬ Rises x t

/-- `x` has an edge at `t`, in either direction. -/
def Changes (x : ℕ → Bool) : ℕ → Prop
  | 0 => False
  | t + 1 => x (t + 1) ≠ x t

theorem changes_succ (x : ℕ → Bool) (t : ℕ) : Changes x (t + 1) ↔ x (t + 1) ≠ x t := Iff.rfl

/-- Two edges with none in between. -/
structure ConsecutiveChanges (x : ℕ → Bool) (t₁ t₂ : ℕ) : Prop where
  first : Changes x t₁
  second : Changes x t₂
  lt : t₁ < t₂
  between : ∀ t, t₁ < t → t < t₂ → ¬ Changes x t

/-- The level of `x` at `t` has lasted for `n` clocks, `t` included. -/
def SteadyFor (x : ℕ → Bool) (t n : ℕ) : Prop := ∀ k < n, k ≤ t ∧ x (t - k) = x t

theorem SteadyFor.mono {x : ℕ → Bool} {t m n : ℕ} (h : SteadyFor x t n) (hmn : m ≤ n) :
    SteadyFor x t m := fun k hk => h k (Nat.lt_of_lt_of_le hk hmn)

theorem steadyFor_one (x : ℕ → Bool) (t : ℕ) : SteadyFor x t 1 := by
  intro k hk
  obtain rfl := Nat.lt_one_iff.mp hk
  exact ⟨Nat.zero_le t, rfl⟩

theorem SteadyFor.succ {x : ℕ → Bool} {t n : ℕ} (h : SteadyFor x t n) (hx : x (t + 1) = x t) :
    SteadyFor x (t + 1) (n + 1) := by
  rintro (_ | k) hk
  · exact ⟨Nat.zero_le _, rfl⟩
  · obtain ⟨hkt, hlevel⟩ := h k (Nat.lt_of_succ_lt_succ hk)
    rw [Nat.succ_sub_succ, hx]
    exact ⟨Nat.succ_le_succ hkt, hlevel⟩

/-- From clock `a` on, `x` is high for `d` clocks, low for `d` clocks, and so
on. -/
def SquareFrom (x : ℕ → Bool) (a d : ℕ) : Prop :=
  ∀ t, x (a + t) = decide (t / d % 2 = 0)

theorem SquareFrom.rises_iff {x : ℕ → Bool} {a d : ℕ} (hd : 0 < d)
    (h : SquareFrom x a d) (t : ℕ) :
    Rises x (a + (t + 1)) ↔ 2 * d ∣ t + 1 := by
  rw [← Nat.add_assoc, rises_succ, Nat.add_assoc a t 1, h t, h (t + 1),
    Nat.succ_div]
  simp only [decide_eq_false_iff_not, decide_eq_true_eq]
  by_cases hdvd : d ∣ t + 1
  · obtain ⟨m, hm⟩ := hdvd
    have hq : t / d + 1 = m := by
      have := Nat.succ_div_of_dvd (a := t) (b := d) ⟨m, hm⟩
      rw [← this, hm, Nat.mul_div_cancel_left m hd]
    have h2 : 2 * d ∣ t + 1 ↔ 2 ∣ m := by
      rw [hm, Nat.mul_comm 2 d]
      exact Nat.mul_dvd_mul_iff_left hd
    rw [if_pos ⟨m, hm⟩, h2]
    omega
  · have h2 : ¬ 2 * d ∣ t + 1 := fun h => hdvd (dvd_trans (Dvd.intro_left 2 rfl) h)
    rw [if_neg hdvd, Nat.add_zero]
    tauto

/-- **The rising edges of a square wave** of half period `d` are `2 * d`
clocks apart. -/
theorem SquareFrom.consecutive {x : ℕ → Bool} {a b d : ℕ} (hd : 0 < d)
    (h : SquareFrom x a d) (hab : ConsecutiveRises x a b) : b = a + 2 * d := by
  obtain ⟨t, rfl⟩ : ∃ t, b = a + (t + 1) := ⟨b - a - 1, by have := hab.lt; omega⟩
  have hdvd : 2 * d ∣ t + 1 := (h.rises_iff hd t).mp hab.second
  have hle : 2 * d ≤ t + 1 := Nat.le_of_dvd (Nat.succ_pos t) hdvd
  by_contra hne
  have hlt : 2 * d - 1 < t := by omega
  have hrise : Rises x (a + (2 * d - 1 + 1)) :=
    (h.rises_iff hd _).mpr (by rw [Nat.sub_add_cancel (by omega)])
  exact hab.between _ (by omega) (by omega) hrise

/-- The first rising edge after the start of a square wave. -/
theorem SquareFrom.next {x : ℕ → Bool} {a d : ℕ} (hd : 0 < d)
    (h : SquareFrom x a d) (ha : Rises x a) : ConsecutiveRises x a (a + 2 * d) where
  first := ha
  second := by
    have := (h.rises_iff hd (2 * d - 1)).mpr (by rw [Nat.sub_add_cancel (by omega)])
    rwa [Nat.sub_add_cancel (by omega)] at this
  lt := by omega
  between := by
    intro t hat htb hrise
    obtain ⟨u, rfl⟩ : ∃ u, t = a + (u + 1) := ⟨t - a - 1, by omega⟩
    have := Nat.le_of_dvd (Nat.succ_pos u) ((h.rises_iff hd u).mp hrise)
    omega

end FpgaCnc.Clocked
