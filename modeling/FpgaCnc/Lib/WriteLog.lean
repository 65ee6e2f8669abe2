import Mathlib.Data.List.Induction

/-!
# Logs of writes

What a memory holds, as a function of the writes made to it: the value last
written to an address, or what it held before. A register file that answers a
read after a write like a memory, on the addresses it has, holds after any
number of writes what the log says.
-/

namespace FpgaCnc

variable {A W σ : Type} [DecidableEq A]

/-- The value last written to `a`; the oldest write comes first. -/
def lastWrite (ws : List (A × W)) (a : A) : Option W :=
  ws.foldl (fun v x => if x.1 = a then some x.2 else v) none

@[simp] theorem lastWrite_nil (a : A) : lastWrite ([] : List (A × W)) a = none := rfl

theorem lastWrite_snoc (ws : List (A × W)) (x : A × W) (a : A) :
    lastWrite (ws ++ [x]) a = if x.1 = a then some x.2 else lastWrite ws a := by
  rw [lastWrite, List.foldl_append]
  rfl

/-- **Read over a log of writes**, from read over one write. -/
theorem read_writes {get : σ → A → W} {put : σ → A → W → σ} {has : A → Prop}
    (h : ∀ s a w k, has k → get (put s a w) k = if a = k then w else get s k) (s : σ)
    (ws : List (A × W)) {k : A} (hk : has k) :
    get (ws.foldl (fun s x => put s x.1 x.2) s) k = (lastWrite ws k).getD (get s k) := by
  induction ws using List.reverseRecOn with
  | nil => rfl
  | append_singleton ws x ih =>
      rw [List.foldl_append, lastWrite_snoc]
      show get (put _ x.1 x.2) k = _
      rw [h _ _ _ _ hk, ih]
      split_ifs <;> rfl

end FpgaCnc
