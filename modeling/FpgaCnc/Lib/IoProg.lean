import Mathlib.Data.List.Basic

/-!
# Programs over memory-mapped registers

A driver is a tree of register accesses (`IoProg`): a read continues with the
value the device returns, a write goes on, a polling loop repeats an
index-then-read pair until the value satisfies a test. Nothing is assumed of
the device. A run is a list of accesses with the values that were read or
written (`exec`); quantifying over runs is quantifying over everything the
device may answer, and a run need not be complete.

§1 programs · §2 runs · §3 sequential composition · §4 polling ·
§5 programs confined to some accesses.
-/

namespace FpgaCnc

variable {A W α β : Type}

/-! ## §1  Programs -/

/-- A bus access with its value. -/
inductive Access (A W : Type) where
  | rd (a : A) (w : W)
  | wr (a : A) (w : W)
deriving DecidableEq, Repr

def Access.addr : Access A W → A
  | .rd a _ => a
  | .wr a _ => a

inductive IoProg (A W α : Type) where
  | ret (x : α)
  | read (a : A) (k : W → IoProg A W α)
  | write (a : A) (w : W) (k : IoProg A W α)
  /-- `do { write i w; v = read a } while (!done v)`, then `k`. -/
  | poll (i : A) (w : W) (a : A) (done : W → Bool) (k : IoProg A W α)

namespace IoProg

def bind : IoProg A W α → (α → IoProg A W β) → IoProg A W β
  | ret x, f => f x
  | read a k, f => read a fun v => (k v).bind f
  | write a w k, f => write a w (k.bind f)
  | poll i w a done k, f => poll i w a done (k.bind f)

instance : Monad (IoProg A W) where
  pure := ret
  bind := bind

@[simp] theorem pure_eq (x : α) : (pure x : IoProg A W α) = ret x := rfl
@[simp] theorem bind_eq (p : IoProg A W α) (f : α → IoProg A W β) :
    (p >>= f) = p.bind f := rfl
@[simp] theorem ret_bind (x : α) (f : α → IoProg A W β) : (ret x).bind f = f x := rfl

theorem bind_assoc {γ : Type} (p : IoProg A W α) (f : α → IoProg A W β)
    (g : β → IoProg A W γ) : (p.bind f).bind g = p.bind fun x => (f x).bind g := by
  induction p with
  | ret x => rfl
  | read a k ih => exact congrArg (read a) (funext ih)
  | write a w k ih => exact congrArg (write a w) ih
  | poll i w a done k ih => exact congrArg (poll i w a done) ih

/-- A single read. -/
def get (a : A) : IoProg A W W := read a ret

/-- A single write. -/
def put (a : A) (w : W) : IoProg A W Unit := write a w (ret ())

/-! ## §2  Runs -/

variable [DecidableEq A] [DecidableEq W]

/-- What is left of the program after one access, if it can perform it. -/
def step : IoProg A W α → Access A W → Option (IoProg A W α)
  | read a k, .rd a' v => if a' = a then some (k v) else none
  | write a w k, .wr a' w' => if a' = a ∧ w' = w then some k else none
  | poll i w a done k, .wr a' w' =>
      if a' = i ∧ w' = w then
        some (read a fun v => if done v then k else poll i w a done k)
      else none
  | _, _ => none

@[simp] theorem step_ret (x : α) (e : Access A W) : step (ret x : IoProg A W α) e = none := by
  cases e <;> rfl

theorem step_read {a : A} {k : W → IoProg A W α} {e : Access A W} {p : IoProg A W α} :
    step (read a k) e = some p ↔ ∃ v, e = .rd a v ∧ p = k v := by
  cases e with
  | wr a' v => simp [step]
  | rd a' v =>
      unfold step
      by_cases h : a' = a
      · subst h
        simp [eq_comm]
      · simp [h]

theorem step_write {a : A} {w : W} {k : IoProg A W α} {e : Access A W} {p : IoProg A W α} :
    step (write a w k) e = some p ↔ e = .wr a w ∧ p = k := by
  cases e with
  | rd a' v => simp [step]
  | wr a' v =>
      unfold step
      by_cases h : a' = a ∧ v = w
      · obtain ⟨rfl, rfl⟩ := h
        simp [eq_comm]
      · simp [h]

/-- A poll starts like the write of its register and goes on with the read. -/
theorem step_poll {i : A} {w : W} {a : A} {done : W → Bool} {k : IoProg A W α}
    {e : Access A W} {p : IoProg A W α} :
    step (poll i w a done k) e = some p ↔
      e = .wr i w ∧ p = read a fun v => if done v then k else poll i w a done k := by
  have hwrite : step (poll i w a done k) e =
      step (write i w (read a fun v => if done v then k else poll i w a done k)) e := by
    cases e <;> rfl
  rw [hwrite, step_write]

/-- What is left of the program after a list of accesses. -/
def exec : IoProg A W α → List (Access A W) → Option (IoProg A W α)
  | p, [] => some p
  | p, x :: tr => (step p x).bind fun p' => exec p' tr

/-- A complete run and its result. -/
def Completes (p : IoProg A W α) (tr : List (Access A W)) (x : α) : Prop :=
  exec p tr = some (ret x)

@[simp] theorem exec_nil (p : IoProg A W α) : exec p [] = some p := rfl

theorem exec_cons (p : IoProg A W α) (x : Access A W) (tr : List (Access A W)) :
    exec p (x :: tr) = (step p x).bind fun p' => exec p' tr := rfl

theorem exec_ret {x : α} {tr : List (Access A W)} {q : IoProg A W α} :
    exec (ret x) tr = some q ↔ tr = [] ∧ q = ret x := by
  cases tr with
  | nil => simp [eq_comm]
  | cons y tr => simp [exec_cons]

@[simp] theorem completes_ret {x y : α} {tr : List (Access A W)} :
    Completes (ret x : IoProg A W α) tr y ↔ tr = [] ∧ y = x := by
  rw [Completes, exec_ret]
  simp

theorem completes_cons {p : IoProg A W α} {e : Access A W} {tr : List (Access A W)} {y : α} :
    Completes p (e :: tr) y ↔ ∃ p', step p e = some p' ∧ Completes p' tr y := by
  rw [Completes, exec_cons, Option.bind_eq_some_iff]
  rfl

theorem completes_read {a : A} {k : W → IoProg A W α} {tr : List (Access A W)} {y : α} :
    Completes (read a k) tr y ↔ ∃ v tr', tr = .rd a v :: tr' ∧ Completes (k v) tr' y := by
  cases tr with
  | nil => simp [Completes]
  | cons e tr =>
      rw [completes_cons]
      constructor
      · rintro ⟨p', hs, h⟩
        obtain ⟨v, rfl, rfl⟩ := step_read.mp hs
        exact ⟨v, tr, rfl, h⟩
      · rintro ⟨v, tr', heq, h⟩
        obtain ⟨rfl, rfl⟩ := List.cons.inj heq
        exact ⟨k v, step_read.mpr ⟨v, rfl, rfl⟩, h⟩

theorem completes_write {a : A} {w : W} {k : IoProg A W α} {tr : List (Access A W)} {y : α} :
    Completes (write a w k) tr y ↔ ∃ tr', tr = .wr a w :: tr' ∧ Completes k tr' y := by
  cases tr with
  | nil => simp [Completes]
  | cons e tr =>
      rw [completes_cons]
      constructor
      · rintro ⟨p', hs, h⟩
        obtain ⟨rfl, rfl⟩ := step_write.mp hs
        exact ⟨tr, rfl, h⟩
      · rintro ⟨tr', heq, h⟩
        obtain ⟨rfl, rfl⟩ := List.cons.inj heq
        exact ⟨k, step_write.mpr ⟨rfl, rfl⟩, h⟩

/-! ## §3  Sequential composition -/

theorem step_bind {p : IoProg A W α} (f : α → IoProg A W β) (x : Access A W)
    (hp : ∀ y, p ≠ ret y) : step (p.bind f) x = (step p x).map fun p' => p'.bind f := by
  cases p with
  | ret y => exact absurd rfl (hp y)
  | read a k =>
      cases x with
      | rd a' v => simp only [bind, step]; split_ifs <;> rfl
      | wr a' v => rfl
  | write a w k =>
      cases x with
      | rd a' v => rfl
      | wr a' v => simp only [bind, step]; split_ifs <;> rfl
  | poll i w a done k =>
      cases x with
      | rd a' v => rfl
      | wr a' v =>
          simp only [bind, step]
          split_ifs with h
          · simp only [Option.map_some, bind]
            congr 2
            funext v
            split_ifs <;> rfl
          · rfl

/-- **Composition rule.** A run of `p` followed by `f` is a run of `p` that has
not returned, or a complete run of `p` and then a run of `f` from its
result. -/
theorem exec_bind {p : IoProg A W α} {f : α → IoProg A W β} {tr : List (Access A W)}
    {q : IoProg A W β} (h : exec (p.bind f) tr = some q) :
    (∃ p', exec p tr = some p' ∧ q = p'.bind f) ∨
      ∃ x t₁ t₂, tr = t₁ ++ t₂ ∧ Completes p t₁ x ∧ exec (f x) t₂ = some q := by
  induction tr generalizing p with
  | nil => exact Or.inl ⟨p, rfl, (Option.some.inj h).symm⟩
  | cons a tr ih =>
      by_cases hret : ∃ y, p = ret y
      · obtain ⟨y, rfl⟩ := hret
        exact Or.inr ⟨y, [], a :: tr, rfl, rfl, h⟩
      · rw [exec_cons, step_bind f a (fun y hy => hret ⟨y, hy⟩)] at h
        cases hs : step p a with
        | none => rw [hs] at h; exact absurd h (by simp)
        | some p' =>
            rw [hs] at h
            rcases ih h with ⟨p'', hp'', rfl⟩ | ⟨x, t₁, t₂, rfl, hc, hq⟩
            · exact Or.inl ⟨p'', by rw [exec_cons, hs]; exact hp'', rfl⟩
            · refine Or.inr ⟨x, a :: t₁, t₂, rfl, ?_, hq⟩
              rw [Completes, exec_cons, hs]
              exact hc

theorem exec_bind_of_completes {p : IoProg A W α} {f : α → IoProg A W β}
    {t₁ t₂ : List (Access A W)} {x : α} (h : Completes p t₁ x) :
    exec (p.bind f) (t₁ ++ t₂) = exec (f x) t₂ := by
  induction t₁ generalizing p with
  | nil =>
      obtain rfl : p = ret x := Option.some.inj h
      rfl
  | cons a t₁ ih =>
      have hret : ∀ y, p ≠ ret y := by
        rintro y rfl
        simp [Completes, exec_cons, step] at h
      rw [Completes, exec_cons] at h
      rw [List.cons_append, exec_cons, step_bind f a hret]
      cases hs : step p a with
      | none => rw [hs] at h; exact absurd h (by simp)
      | some p' =>
          rw [hs] at h
          exact ih h

theorem completes_bind {p : IoProg A W α} {f : α → IoProg A W β}
    {tr : List (Access A W)} {y : β} :
    Completes (p.bind f) tr y ↔
      ∃ x t₁ t₂, tr = t₁ ++ t₂ ∧ Completes p t₁ x ∧ Completes (f x) t₂ y := by
  constructor
  · intro h
    rcases exec_bind h with ⟨p', hp', hq⟩ | h'
    · cases p' with
      | ret x => exact ⟨x, tr, [], by simp, hp', congrArg some hq.symm⟩
      | read a k => exact absurd hq (by simp [bind])
      | write a w k => exact absurd hq (by simp [bind])
      | poll i w a done k => exact absurd hq (by simp [bind])
    · exact h'
  · rintro ⟨x, t₁, t₂, rfl, hp, hf⟩
    rw [Completes, exec_bind_of_completes hp]
    exact hf

@[simp] theorem completes_get_bind {a : A} {f : W → IoProg A W β}
    {tr : List (Access A W)} {y : β} :
    Completes ((get a).bind f) tr y ↔
      ∃ v tr', tr = .rd a v :: tr' ∧ Completes (f v) tr' y :=
  completes_read

@[simp] theorem completes_put_bind {a : A} {w : W} {f : Unit → IoProg A W β}
    {tr : List (Access A W)} {y : β} :
    Completes ((put a w).bind f) tr y ↔
      ∃ tr', tr = .wr a w :: tr' ∧ Completes (f ()) tr' y :=
  completes_write

/-- Writes in order. -/
def script : List (A × W) → IoProg A W Unit
  | [] => ret ()
  | x :: xs => write x.1 x.2 (script xs)

theorem completes_script {xs : List (A × W)} {tr : List (Access A W)} {y : Unit} :
    Completes (script xs) tr y ↔ tr = xs.map fun x => .wr x.1 x.2 := by
  induction xs generalizing tr with
  | nil => exact completes_ret.trans (and_iff_left rfl)
  | cons x xs ih =>
      rw [script, completes_write]
      simp only [ih, exists_eq_right, List.map_cons]

/-! ## §4  Polling -/

/-- The accesses of a poll that saw the values `vs`. -/
def pollTrace (i : A) (w : W) (a : A) (vs : List W) : List (Access A W) :=
  vs.flatMap fun v => [.wr i w, .rd a v]

/-- One round of a poll. -/
theorem completes_poll_round {i : A} {w : W} {a : A} {done : W → Bool}
    {k : IoProg A W α} {tr : List (Access A W)} {y : α} :
    Completes (poll i w a done k) tr y ↔
      ∃ v tr', tr = .wr i w :: .rd a v :: tr' ∧
        Completes (if done v then k else poll i w a done k) tr' y := by
  have hround : Completes (poll i w a done k) tr y ↔
      Completes (write i w (read a fun v => if done v then k else poll i w a done k)) tr y := by
    cases tr with
    | nil => simp [Completes]
    | cons x tr => cases x <;> rfl
  rw [hround, completes_write]
  simp only [completes_read]
  constructor
  · rintro ⟨tr₁, rfl, v, tr₂, rfl, hv⟩
    exact ⟨v, tr₂, rfl, hv⟩
  · rintro ⟨v, tr₂, rfl, hv⟩
    exact ⟨_, rfl, v, tr₂, rfl, hv⟩

/-- **Polling rule.** A complete run polls some number of times without
success, once with success, and goes on. -/
theorem completes_poll {i : A} {w : W} {a : A} {done : W → Bool} {k : IoProg A W α}
    {y : α} {tr : List (Access A W)} (h : Completes (poll i w a done k) tr y) :
    ∃ vs v tr', tr = pollTrace i w a (vs ++ [v]) ++ tr' ∧
      (∀ u ∈ vs, done u = false) ∧ done v = true ∧ Completes k tr' y := by
  induction hn : tr.length using Nat.strongRecOn generalizing tr with
  | ind n ih =>
      obtain ⟨v, tr', rfl, hv⟩ := completes_poll_round.mp h
      cases hd : done v with
      | true =>
          rw [if_pos hd] at hv
          exact ⟨[], v, tr', by simp [pollTrace], by simp, hd, hv⟩
      | false =>
          rw [hd] at hv
          simp only [List.length_cons] at hn
          obtain ⟨vs, u, t, rfl, hvs, hu, hk⟩ := ih tr'.length (by omega) hv rfl
          refine ⟨v :: vs, u, t, by simp [pollTrace], ?_, hu, hk⟩
          intro z hz
          rcases List.mem_cons.mp hz with rfl | hz'
          · exact hd
          · exact hvs z hz'

theorem completes_poll_of {i : A} {w : W} {a : A} {done : W → Bool} {k : IoProg A W α}
    {y : α} {vs : List W} {v : W} {tr : List (Access A W)}
    (hvs : ∀ u ∈ vs, done u = false) (hv : done v = true) (hk : Completes k tr y) :
    Completes (poll i w a done k) (pollTrace i w a (vs ++ [v]) ++ tr) y := by
  induction vs with
  | nil => exact completes_poll_round.mpr ⟨v, tr, rfl, by rw [if_pos hv]; exact hk⟩
  | cons u vs ih =>
      refine completes_poll_round.mpr ⟨u, pollTrace i w a (vs ++ [v]) ++ tr, rfl, ?_⟩
      rw [hvs u List.mem_cons_self]
      exact ih fun z hz => hvs z (List.mem_cons_of_mem _ hz)

/-! ## §5  Programs confined to some accesses -/

/-- Every access the program can make is in `S`, whatever the device answers. -/
inductive Only (S : Access A W → Prop) : IoProg A W α → Prop where
  | ret (x : α) : Only S (.ret x)
  | read {a : A} {k : W → IoProg A W α} :
      (∀ v, S (.rd a v)) → (∀ v, Only S (k v)) → Only S (.read a k)
  | write {a : A} {w : W} {k : IoProg A W α} :
      S (.wr a w) → Only S k → Only S (.write a w k)
  | poll {i : A} {w : W} {a : A} {done : W → Bool} {k : IoProg A W α} :
      S (.wr i w) → (∀ v, S (.rd a v)) → Only S k → Only S (.poll i w a done k)

section Only

variable {S : Access A W → Prop}

omit [DecidableEq A] [DecidableEq W] in
theorem Only.bind {p : IoProg A W α} {f : α → IoProg A W β}
    (hp : Only S p) (hf : ∀ x, Only S (f x)) : Only S (p.bind f) := by
  induction hp with
  | ret x => exact hf x
  | read ha _ ih => exact .read ha ih
  | write ha _ ih => exact .write ha ih
  | poll hi ha _ ih => exact .poll hi ha ih

omit [DecidableEq A] [DecidableEq W] in
theorem Only.get {a : A} (h : ∀ v : W, S (.rd a v)) : Only S (get a) :=
  .read h fun v => .ret v

omit [DecidableEq A] [DecidableEq W] in
theorem Only.put {a : A} {w : W} (h : S (.wr a w)) : Only S (put a w) :=
  .write h (.ret ())

omit [DecidableEq A] [DecidableEq W] in
theorem Only.script {xs : List (A × W)} (h : ∀ x ∈ xs, S (.wr x.1 x.2)) :
    Only S (script xs) := by
  induction xs with
  | nil => exact .ret ()
  | cons x xs ih =>
      exact .write (h x List.mem_cons_self) (ih fun y hy => h y (List.mem_cons_of_mem _ hy))

omit [DecidableEq A] [DecidableEq W] in
theorem Only.mono {T : Access A W → Prop} {p : IoProg A W α} (hST : ∀ x, S x → T x)
    (hp : Only S p) : Only T p := by
  induction hp with
  | ret x => exact .ret x
  | read ha _ ih => exact .read (fun v => hST _ (ha v)) ih
  | write ha _ ih => exact .write (hST _ ha) ih
  | poll hi ha _ ih => exact .poll (hST _ hi) (fun v => hST _ (ha v)) ih

theorem Only.step {p p' : IoProg A W α} {x : Access A W}
    (hp : Only S p) (h : step p x = some p') : S x ∧ Only S p' := by
  cases hp with
  | ret y => simp at h
  | @read a k ha hk =>
      obtain ⟨v, rfl, rfl⟩ := step_read.mp h
      exact ⟨ha v, hk v⟩
  | @write a w k ha hk =>
      obtain ⟨rfl, rfl⟩ := step_write.mp h
      exact ⟨ha, hk⟩
  | @poll i w a done k hi ha hk =>
      obtain ⟨rfl, rfl⟩ := step_poll.mp h
      refine ⟨hi, .read ha fun v => ?_⟩
      split_ifs
      · exact hk
      · exact .poll hi ha hk

/-- **Confinement rule.** A confined program makes no other access, in any
run. -/
theorem Only.exec {p q : IoProg A W α} {tr : List (Access A W)}
    (hp : Only S p) (h : exec p tr = some q) : ∀ x ∈ tr, S x := by
  induction tr generalizing p with
  | nil => intro x hx; exact absurd hx (by simp)
  | cons y tr ih =>
      obtain ⟨p', hs, hq⟩ := Option.bind_eq_some_iff.mp h
      obtain ⟨hy, hp'⟩ := hp.step hs
      intro x hx
      rcases List.mem_cons.mp hx with rfl | hx'
      · exact hy
      · exact ih hp' hq x hx'

/-- An access outside `S` in a run of `p` followed by `f`, with `p` confined to
`S`, is made by `f`, after a complete run of `p`. -/
theorem Only.exec_bind_outside {p : IoProg A W α}
    {f : α → IoProg A W β} {tr : List (Access A W)} {q : IoProg A W β}
    (hp : Only S p) (h : IoProg.exec (p.bind f) tr = some q)
    {x : Access A W} (hx : x ∈ tr) (hxS : ¬ S x) :
    ∃ y t₁ t₂, tr = t₁ ++ t₂ ∧ Completes p t₁ y ∧
      IoProg.exec (f y) t₂ = some q ∧ x ∈ t₂ := by
  rcases exec_bind h with ⟨p', hp', -⟩ | ⟨y, t₁, t₂, rfl, hc, hq⟩
  · exact absurd (hp.exec hp' x hx) hxS
  · refine ⟨y, t₁, t₂, rfl, hc, hq, ?_⟩
    rcases List.mem_append.mp hx with h₁ | h₂
    · exact absurd (hp.exec hc x h₁) hxS
    · exact h₂

end Only

end IoProg

end FpgaCnc
