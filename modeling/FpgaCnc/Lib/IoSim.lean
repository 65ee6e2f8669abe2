import FpgaCnc.Lib.IoTrace

/-!
# Programs in step

Two programs that make the same accesses, except for the values they write to
some registers, and whose results are related. Whatever one of them does the
other can do, as long as the device does not look at what is written there.

§1 accesses · §2 programs · §3 runs.
-/

namespace FpgaCnc.IoProg

variable {A W α β γ δ : Type} {P : A → Prop} {S : α → β → Prop}

/-! ## §1  Accesses -/

/-- The same access, up to what is written to the registers of `P`. -/
inductive Alike (P : A → Prop) : Access A W → Access A W → Prop where
  | same (x : Access A W) : Alike P x x
  | wr {a : A} (w w' : W) : P a → Alike P (.wr a w) (.wr a w')

theorem Alike.of_not {x y : Access A W} (h : Alike P x y) (hx : ¬ P x.addr) : x = y := by
  cases h with
  | same x => rfl
  | wr w w' ha => exact absurd ha hx

/-- The device does not look at what is written to the registers of `P`. -/
def Blind {D : Type} (dev : Device A W D) (P : A → Prop) : Prop :=
  ∀ a w w' d d', P a → dev.access d (.wr a w) d' → dev.access d (.wr a w') d'

theorem Blind.access {D : Type} {dev : Device A W D} (hdev : Blind dev P) {x y : Access A W}
    (h : Alike P x y) {d d' : D} (hx : dev.access d x d') : dev.access d y d' := by
  cases h with
  | same x => exact hx
  | wr w w' ha => exact hdev _ w w' _ _ ha hx

/-! ## §2  Programs -/

/-- Program by program: the same accesses up to `Alike P`, results related by
`S`. -/
inductive InStep (P : A → Prop) (S : α → β → Prop) : IoProg A W α → IoProg A W β → Prop where
  | ret {x : α} {y : β} : S x y → InStep P S (.ret x) (.ret y)
  | read {a : A} {k : W → IoProg A W α} {k' : W → IoProg A W β} :
      (∀ v, InStep P S (k v) (k' v)) → InStep P S (.read a k) (.read a k')
  | write {a : A} {w w' : W} {k : IoProg A W α} {k' : IoProg A W β} :
      Alike P (.wr a w) (.wr a w') → InStep P S k k' → InStep P S (.write a w k) (.write a w' k')
  | poll {i : A} {w : W} {a : A} {done : W → Bool} {k : IoProg A W α} {k' : IoProg A W β} :
      InStep P S k k' → InStep P S (.poll i w a done k) (.poll i w a done k')

theorem InStep.same {S : α → α → Prop} (hS : ∀ x, S x x) (p : IoProg A W α) : InStep P S p p := by
  induction p with
  | ret x => exact .ret (hS x)
  | read a k ih => exact .read ih
  | write a w k ih => exact .write (.same _) ih
  | poll i w a done k ih => exact .poll ih

theorem InStep.bind {S' : γ → δ → Prop} {p : IoProg A W α} {q : IoProg A W β}
    {f : α → IoProg A W γ} {f' : β → IoProg A W δ} (h : InStep P S p q)
    (hf : ∀ x y, S x y → InStep P S' (f x) (f' y)) : InStep P S' (p.bind f) (q.bind f') := by
  induction h with
  | ret hxy => exact hf _ _ hxy
  | read _ ih => exact .read ih
  | write ha _ ih => exact .write ha ih
  | poll _ ih => exact .poll ih

/-- Behind the same program. -/
theorem InStep.bind_same {S' : γ → δ → Prop} (p : IoProg A W α) {f : α → IoProg A W γ}
    {f' : α → IoProg A W δ} (hf : ∀ x, InStep P S' (f x) (f' x)) :
    InStep P S' (p.bind f) (p.bind f') := by
  refine InStep.bind (InStep.same (S := Eq) (fun _ => rfl) p) ?_
  rintro x _ ⟨⟩
  exact hf x

theorem InStep.of_ret {x : α} {q : IoProg A W β} (h : InStep P S (.ret x) q) :
    ∃ y, q = .ret y ∧ S x y := by
  cases h with
  | ret hxy => exact ⟨_, rfl, hxy⟩

/-! ## §3  Runs -/

variable [DecidableEq A] [DecidableEq W]

/-- **One access.** -/
theorem InStep.step {p p' : IoProg A W α} {q : IoProg A W β} {x : Access A W}
    (h : InStep P S p q) (hs : IoProg.step p x = some p') :
    ∃ y q', Alike P x y ∧ IoProg.step q y = some q' ∧ InStep P S p' q' := by
  cases h with
  | ret _ => exact absurd hs (by simp)
  | read hk =>
      obtain ⟨v, rfl, rfl⟩ := step_read.mp hs
      exact ⟨_, _, .same _, step_read.mpr ⟨v, rfl, rfl⟩, hk v⟩
  | write ha hk =>
      obtain ⟨rfl, rfl⟩ := step_write.mp hs
      exact ⟨_, _, ha, step_write.mpr ⟨rfl, rfl⟩, hk⟩
  | poll hk =>
      obtain ⟨rfl, rfl⟩ := step_poll.mp hs
      refine ⟨_, _, .same _, step_poll.mpr ⟨rfl, rfl⟩, .read fun v => ?_⟩
      split_ifs
      · exact hk
      · exact .poll hk

end FpgaCnc.IoProg
