import FpgaCnc.Lib.IoProg

/-!
# Traces of interleaved runs

A program of register accesses runs against a device that answers them and that
also moves on its own, between any two accesses. A trace has the accesses of the
program, as the device takes them, with the device's own moves anywhere in
between; an assertion in a rule about traces has to be stable, that is, kept by
whatever the device does on its own. What a program does is known from its
complete runs; a run that is still under way has to be completed first, which is
possible as long as every poll can end.

§1 devices and traces · §2 rules · §3 programs that can return.
-/

namespace FpgaCnc.IoProg

/-! ## §1  Devices and traces -/

/-- How a device takes an access, and what it does on its own. -/
structure Device (A W D : Type) where
  access : D → Access A W → D → Prop
  env : D → D → Prop

variable {A W D α β : Type} {dev : Device A W D}

/-- The device keeps `P` on its own. -/
def Stable (dev : Device A W D) (P : D → Prop) : Prop :=
  ∀ d d', P d → dev.env d d' → P d'

/-- The device takes the accesses in order, moving on its own in between. -/
inductive Trace (dev : Device A W D) : D → List (Access A W) → D → Prop where
  | nil (d : D) : Trace dev d [] d
  | env {d d' e : D} {tr : List (Access A W)} :
      dev.env d d' → Trace dev d' tr e → Trace dev d tr e
  | access {d d' e : D} {x : Access A W} {tr : List (Access A W)} :
      dev.access d x d' → Trace dev d' tr e → Trace dev d (x :: tr) e

variable {d e f : D} {t₁ t₂ tr : List (Access A W)} {x : Access A W}

theorem Trace.append (h₁ : Trace dev d t₁ e) (h₂ : Trace dev e t₂ f) :
    Trace dev d (t₁ ++ t₂) f := by
  induction h₁ with
  | nil d => exact h₂
  | env hd _ ih => exact .env hd (ih h₂)
  | access hx _ ih => exact .access hx (ih h₂)

theorem Trace.snoc (h : Trace dev d tr e) (hx : dev.access e x f) :
    Trace dev d (tr ++ [x]) f := h.append (.access hx (.nil f))

theorem Trace.moved (h : Trace dev d tr e) (he : dev.env e f) : Trace dev d tr f := by
  rw [← List.append_nil tr]
  exact h.append (.env he (.nil f))

theorem Trace.split (h : Trace dev d (t₁ ++ t₂) f) :
    ∃ e, Trace dev d t₁ e ∧ Trace dev e t₂ f := by
  generalize ht : t₁ ++ t₂ = t at h
  induction h generalizing t₁ with
  | nil d =>
      obtain ⟨rfl, rfl⟩ := List.append_eq_nil_iff.mp ht
      exact ⟨d, .nil d, .nil d⟩
  | env hd _ ih =>
      obtain ⟨e, h₁, h₂⟩ := ih ht
      exact ⟨e, .env hd h₁, h₂⟩
  | @access d d' _ x tr hx hrest ih =>
      cases t₁ with
      | nil =>
          obtain rfl : t₂ = x :: tr := ht
          exact ⟨d, .nil d, .access hx hrest⟩
      | cons y t₁ =>
          obtain ⟨rfl, ht'⟩ := List.cons.inj ht
          obtain ⟨e, h₁, h₂⟩ := ih ht'
          exact ⟨e, .access hx h₁, h₂⟩

/-! ## §2  Rules -/

variable {P Q : D → Prop}

/-- **One access.** A stable assertion still holds when the access comes. -/
theorem Trace.step (h : Trace dev d (x :: tr) e) (hP : Stable dev P) (hd : P d)
    (hacc : ∀ d d', P d → dev.access d x d' → Q d') : ∃ d', Q d' ∧ Trace dev d' tr e := by
  generalize ht : x :: tr = t at h
  induction h with
  | nil d => exact absurd ht (by simp)
  | env hmove _ ih => exact ih (hP _ _ hd hmove) ht
  | access hx hrest _ =>
      obtain ⟨rfl, rfl⟩ := List.cons.inj ht
      exact ⟨_, hacc _ _ hd hx, hrest⟩

/-- **Invariant rule**: kept by the device and by every access of the trace. -/
theorem Trace.keeps (h : Trace dev d tr e) (hP : Stable dev P) (hd : P d)
    (hacc : ∀ x ∈ tr, ∀ d d', P d → dev.access d x d' → P d') : P e := by
  induction h with
  | nil d => exact hd
  | env hmove _ ih => exact ih (hP _ _ hd hmove) hacc
  | access hx _ ih =>
      exact ih (hacc _ List.mem_cons_self _ _ hd hx)
        fun y hy => hacc y (List.mem_cons_of_mem _ hy)

/-! ## §3  Programs that can return -/

/-- Every poll the program can come to can end. -/
inductive CanReturn : IoProg A W α → Prop where
  | ret (x : α) : CanReturn (.ret x)
  | read {a : A} {k : W → IoProg A W α} : (∀ v, CanReturn (k v)) → CanReturn (.read a k)
  | write {a : A} {w : W} {k : IoProg A W α} : CanReturn k → CanReturn (.write a w k)
  | poll {i : A} {w : W} {a : A} {done : W → Bool} {k : IoProg A W α} :
      (∃ v, done v = true) → CanReturn k → CanReturn (.poll i w a done k)

theorem CanReturn.bind {p : IoProg A W α} {f : α → IoProg A W β} (hp : CanReturn p)
    (hf : ∀ x, CanReturn (f x)) : CanReturn (p.bind f) := by
  induction hp with
  | ret x => exact hf x
  | read _ ih => exact .read ih
  | write _ ih => exact .write ih
  | poll hdone _ ih => exact .poll hdone ih

theorem CanReturn.get {a : A} : CanReturn (get a : IoProg A W W) := .read fun v => .ret v

theorem CanReturn.put {a : A} {w : W} : CanReturn (put a w) := .write (.ret ())

variable [DecidableEq A] [DecidableEq W]

theorem exec_append (p : IoProg A W α) (t₁ t₂ : List (Access A W)) :
    exec p (t₁ ++ t₂) = (exec p t₁).bind fun q => exec q t₂ := by
  induction t₁ generalizing p with
  | nil => rfl
  | cons x t₁ ih =>
      rw [List.cons_append, exec_cons, exec_cons, Option.bind_assoc]
      exact congrArg _ (funext ih)

theorem exec_snoc {p p' p'' : IoProg A W α} (h : exec p tr = some p')
    (hx : IoProg.step p' x = some p'') : exec p (tr ++ [x]) = some p'' := by
  rw [exec_append, h, Option.bind_some, exec_cons, hx]
  rfl

theorem CanReturn.step {p p' : IoProg A W α} (hp : CanReturn p)
    (h : IoProg.step p x = some p') : CanReturn p' := by
  cases hp with
  | ret y => exact absurd h (by simp)
  | read hk =>
      obtain ⟨v, -, rfl⟩ := step_read.mp h
      exact hk v
  | write hk =>
      obtain ⟨-, rfl⟩ := step_write.mp h
      exact hk
  | poll hdone hk =>
      obtain ⟨-, rfl⟩ := step_poll.mp h
      refine .read fun v => ?_
      split_ifs
      · exact hk
      · exact .poll hdone hk

theorem CanReturn.exec {p q : IoProg A W α} (hp : CanReturn p)
    (h : IoProg.exec p tr = some q) : CanReturn q := by
  induction tr generalizing p with
  | nil =>
      obtain rfl := Option.some.inj h
      exact hp
  | cons x tr ih =>
      obtain ⟨p', hs, hq⟩ := Option.bind_eq_some_iff.mp h
      exact ih (hp.step hs) hq

theorem CanReturn.exists_completes [Nonempty W] {p : IoProg A W α} (hp : CanReturn p) :
    ∃ tr y, Completes p tr y := by
  induction hp with
  | ret x => exact ⟨[], x, completes_ret.mpr ⟨rfl, rfl⟩⟩
  | @read a k _ ih =>
      obtain ⟨v⟩ := ‹Nonempty W›
      obtain ⟨tr, y, h⟩ := ih v
      exact ⟨_, y, completes_read.mpr ⟨v, tr, rfl, h⟩⟩
  | write _ ih =>
      obtain ⟨tr, y, h⟩ := ih
      exact ⟨_, y, completes_write.mpr ⟨tr, rfl, h⟩⟩
  | poll hdone _ ih =>
      obtain ⟨v, hv⟩ := hdone
      obtain ⟨tr, y, h⟩ := ih
      exact ⟨_, y, completes_poll_of (List.forall_mem_nil _) hv h⟩

/-- **A run under way can be completed.** -/
theorem CanReturn.extend [Nonempty W] {p q : IoProg A W α} (hp : CanReturn p)
    (h : IoProg.exec p tr = some q) : ∃ tr' y, Completes p (tr ++ tr') y := by
  obtain ⟨tr', y, hq⟩ := (hp.exec h).exists_completes
  refine ⟨tr', y, ?_⟩
  rw [Completes, exec_append, h, Option.bind_some]
  exact hq

end FpgaCnc.IoProg
