import Mathlib.Data.List.Basic

/-!
# Runs of event systems

A system that takes one of several kinds of step at a time, in any order, is a
relation labelled with events. A run carries the list of its events, latest
first, so that what a state should be can be stated as a function of what has
happened.
-/

namespace FpgaCnc

variable {σ ε : Type}

/-- From `s`, the events `es` lead to a state. -/
inductive Runs (step : σ → ε → σ → Prop) (s : σ) : List ε → σ → Prop where
  | start : Runs step s [] s
  | next {es : List ε} {m m' : σ} {e : ε} :
      Runs step s es m → step m e m' → Runs step s (e :: es) m'

namespace Runs

variable {step : σ → ε → σ → Prop} {s : σ}

/-- **Invariant rule**, for assertions about the events and the state. -/
theorem invariant {P : List ε → σ → Prop} (hstart : P [] s)
    (hnext : ∀ es m e m', P es m → step m e m' → P (e :: es) m') :
    ∀ {es m}, Runs step s es m → P es m := by
  intro es m h
  induction h with
  | start => exact hstart
  | next _ hstep ih => exact hnext _ _ _ _ ih hstep

/-- Every event of the list passes a check on the state it finds. -/
def checked (f : ε → σ → σ) (ok : ε → σ → Bool) : List ε → σ → Bool
  | [], _ => true
  | e :: es, s => checked f ok es s && ok e (es.foldr f s)

/-- Where the check says that a step is a function of the event, a list that
passes it is a run. -/
theorem of_checked (f : ε → σ → σ) (ok : ε → σ → Bool)
    (h : ∀ e m, ok e m = true → step m e (f e m)) {es : List ε}
    (hok : checked f ok es s = true) : Runs step s es (es.foldr f s) := by
  induction es with
  | nil => exact .start
  | cons e es ih =>
      obtain ⟨hrest, he⟩ := Bool.and_eq_true_iff.mp hok
      exact .next (ih hrest) (h e _ he)

end Runs

end FpgaCnc
