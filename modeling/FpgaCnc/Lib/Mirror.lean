import Mathlib.Logic.Basic
import Mathlib.Logic.Function.Iterate
import Mathlib.Tactic.SplitIfs

/-!
# Passing a value on when it changes

A poller passes a value on whenever it finds it different from the one it
remembers. It reads the source to compare, reads it again to remember it, and
reads it once more to send it; between any two of these reads something else
may be stored. What can be sent, and when the last value sent is the one
remembered, is the subject here, for values of any type.

§1 the poller · §2 what is sent · §3 when it has settled.
-/

namespace FpgaCnc

/-! ## §1  The poller -/

/-- What the poller does next, with what it has read. -/
inductive Mirror.Pc (α : Type) where
  | outside
  | compare (v : α)
  | again
  | remember (v : α)
  | fetch
  | send (v : α)
deriving DecidableEq, Repr

/-- The poller, the source, and what has been sent, latest first. -/
structure Mirror (α : Type) where
  pc : Mirror.Pc α
  source : α
  remembered : α
  sent : List α
deriving DecidableEq, Repr

namespace Mirror

variable {α : Type}

/-- One access of the poller. -/
def poll [DecidableEq α] (s : Mirror α) : Mirror α :=
  match s.pc with
  | .outside => { s with pc := .compare s.source }
  | .compare v =>
      if v ≠ s.remembered then { s with pc := .again } else { s with pc := .outside }
  | .again => { s with pc := .remember s.source }
  | .remember v => { s with remembered := v, pc := .fetch }
  | .fetch => { s with pc := .send s.source }
  | .send v => { s with sent := v :: s.sent, pc := .outside }

/-- A store to the source. -/
def store (s : Mirror α) (x : α) : Mirror α := { s with source := x }

/-! ## §2  What is sent -/

/-- The source, the value about to be sent and those sent are all `ok`. -/
structure From (ok : α → Prop) (s : Mirror α) : Prop where
  source : ok s.source
  inHand : ∀ v, s.pc = .send v → ok v
  sent : ∀ v ∈ s.sent, ok v

theorem From.mono {ok ok' : α → Prop} {s : Mirror α} (h : s.From ok)
    (himp : ∀ v, ok v → ok' v) : s.From ok' where
  source := himp _ h.source
  inHand v hv := himp v (h.inHand v hv)
  sent v hv := himp v (h.sent v hv)

theorem From.store {ok : α → Prop} {s : Mirror α} (h : s.From ok) {x : α} (hx : ok x) :
    (s.store x).From ok where
  source := hx
  inHand := h.inHand
  sent := h.sent

/-- **Nothing is sent that was not in the source.** -/
theorem From.poll [DecidableEq α] {ok : α → Prop} {s : Mirror α} (h : s.From ok) :
    s.poll.From ok := by
  obtain ⟨hsource, hinHand, hsent⟩ := h
  obtain ⟨pc, source, remembered, sent⟩ := s
  cases pc with
  | compare v =>
      unfold Mirror.poll
      dsimp only
      split_ifs
      · exact ⟨hsource, nofun, hsent⟩
      · exact ⟨hsource, nofun, hsent⟩
  | fetch =>
      refine ⟨hsource, ?_, hsent⟩
      rintro v ⟨⟩
      exact hsource
  | send v =>
      refine ⟨hsource, nofun, ?_⟩
      intro w hw
      rcases List.mem_cons.mp hw with rfl | hw'
      · exact hinHand w rfl
      · exact hsent w hw'
  | outside | again | remember => exact ⟨hsource, nofun, hsent⟩

/-- The value remembered, or about to be, is `ok`. -/
structure Remembers (ok : α → Prop) (s : Mirror α) : Prop where
  remembered : ok s.remembered
  inHand : ∀ v, s.pc = .remember v → ok v

theorem Remembers.mono {ok ok' : α → Prop} {s : Mirror α} (h : s.Remembers ok)
    (himp : ∀ v, ok v → ok' v) : s.Remembers ok' where
  remembered := himp _ h.remembered
  inHand v hv := himp v (h.inHand v hv)

theorem Remembers.poll [DecidableEq α] {ok : α → Prop} {s : Mirror α} (h : s.Remembers ok)
    (hsource : ok s.source) : s.poll.Remembers ok := by
  obtain ⟨hremembered, hinHand⟩ := h
  obtain ⟨pc, source, remembered, sent⟩ := s
  cases pc with
  | compare v =>
      unfold Mirror.poll
      dsimp only
      split_ifs
      · exact ⟨hremembered, nofun⟩
      · exact ⟨hremembered, nofun⟩
  | again =>
      refine ⟨hremembered, ?_⟩
      rintro v ⟨⟩
      exact hsource
  | remember v => exact ⟨hinHand v rfl, nofun⟩
  | outside | fetch | send => exact ⟨hremembered, nofun⟩

/-- **A value in the source is sent**, left alone, unless it is like those
remembered. -/
theorem Remembers.exists_sent [DecidableEq α] {ok : α → Prop} {s : Mirror α}
    (h : s.Remembers ok) (hsource : ¬ ok s.source) :
    ∃ n, ∃ v ∈ (Mirror.poll^[n] s).sent, ¬ ok v := by
  have hne : s.source ≠ s.remembered := fun heq => hsource (heq ▸ h.remembered)
  obtain ⟨pc, source, remembered, sent⟩ := s
  -- once the loop is outside it finds the difference, and sends what it finds
  have houtside : ∀ sent', ∃ n, ∃ v ∈ (Mirror.poll^[n] ⟨.outside, source, remembered, sent'⟩).sent,
      ¬ ok v := by
    intro sent'
    have hcompare : Mirror.poll ⟨.compare source, source, remembered, sent'⟩ =
        ⟨.again, source, remembered, sent'⟩ := if_pos hne
    refine ⟨6, source, ?_, hsource⟩
    show source ∈ (Mirror.poll^[4] (Mirror.poll ⟨.compare source, source, remembered, sent'⟩)).sent
    rw [hcompare]
    exact List.mem_cons_self
  cases pc with
  | outside => exact houtside sent
  | compare v =>
      by_cases hv : v = remembered
      · obtain ⟨n, hn⟩ := houtside sent
        have hpoll : Mirror.poll ⟨.compare v, source, remembered, sent⟩ =
            ⟨.outside, source, remembered, sent⟩ := if_neg (not_not.mpr hv)
        exact ⟨n + 1, by rwa [Function.iterate_succ_apply, hpoll]⟩
      · have hpoll : Mirror.poll ⟨.compare v, source, remembered, sent⟩ =
            ⟨.again, source, remembered, sent⟩ := if_pos hv
        refine ⟨5, source, ?_, hsource⟩
        rw [Function.iterate_succ_apply, hpoll]
        exact List.mem_cons_self
  | again => exact ⟨4, source, List.mem_cons_self, hsource⟩
  | remember v => exact ⟨3, source, List.mem_cons_self, hsource⟩
  | fetch => exact ⟨2, source, List.mem_cons_self, hsource⟩
  | send v =>
      obtain ⟨n, hn⟩ := houtside (v :: sent)
      exact ⟨n + 1, hn⟩

/-! ## §3  When it has settled -/

/-- The last value sent, if any, is `v`. -/
def LastSent (s : Mirror α) (v : α) : Prop := ∀ w, s.sent.head? = some w → w = v

/-- When the poller rests on a source equal to what it remembers, the last value
sent is that one. -/
def UpToDate (s : Mirror α) : Prop :=
  s.pc = .outside → s.source = s.remembered → s.LastSent s.remembered

/-- Left alone, the poller stays up to date. -/
def Settled (s : Mirror α) : Prop :=
  match s.pc with
  | .outside => s.source = s.remembered → s.LastSent s.remembered
  | .compare v => v = s.remembered → s.source = s.remembered → s.LastSent s.remembered
  -- the value that is to be sent is still to be read
  | .again | .remember _ | .fetch => True
  | .send v => s.source = s.remembered → v = s.remembered

theorem Settled.poll [DecidableEq α] {s : Mirror α} (h : s.Settled) : s.poll.Settled := by
  obtain ⟨pc, source, remembered, sent⟩ := s
  cases pc with
  | outside => exact fun _ => h
  | compare v =>
      unfold Mirror.poll
      dsimp only
      split_ifs with hv
      · trivial
      · exact h (not_not.mp hv)
  | again => trivial
  | remember v => trivial
  | fetch => exact id
  | send v =>
      intro hsource w hw
      obtain rfl : v = w := Option.some.inj hw
      exact h hsource

theorem settled_iff [DecidableEq α] (s : Mirror α) :
    s.Settled ↔ ∀ n, (Mirror.poll^[n] s).UpToDate := by
  constructor
  · intro h n
    induction n generalizing s with
    | zero =>
        obtain ⟨pc, source, remembered, sent⟩ := s
        rintro ⟨⟩
        exact h
    | succ n ih =>
        rw [Function.iterate_succ_apply]
        exact ih _ h.poll
  · intro h
    obtain ⟨pc, source, remembered, sent⟩ := s
    cases pc with
    | outside => exact h 0 rfl
    | compare v =>
        rintro rfl
        have hpoll : Mirror.poll ⟨.compare v, source, v, sent⟩ = ⟨.outside, source, v, sent⟩ :=
          if_neg (not_not.mpr rfl)
        have hrest := h 1
        rw [Function.iterate_one, hpoll] at hrest
        exact hrest rfl
    | again | remember | fetch => trivial
    | send v => exact fun hsource => h 1 rfl hsource v rfl

/-- When a store does no harm: it leaves the source different from what is
remembered, or the last value sent, or about to be sent, is the one remembered.
Between a comparison that found a difference and the read of the value to be
sent every store is harmless. -/
def Takes (s : Mirror α) (x : α) : Prop :=
  match s.pc with
  | .outside => x ≠ s.remembered ∨ s.LastSent s.remembered
  | .compare v => v ≠ s.remembered ∨ x ≠ s.remembered ∨ s.LastSent s.remembered
  | .again | .remember _ | .fetch => True
  | .send v => x ≠ s.remembered ∨ v = s.remembered

/-- **The condition is exact.** -/
theorem settled_store_iff (s : Mirror α) (x : α) : (s.store x).Settled ↔ s.Takes x := by
  obtain ⟨pc, source, remembered, sent⟩ := s
  cases pc with
  | outside => exact imp_iff_not_or
  | compare v => exact imp_iff_not_or.trans (or_congr_right imp_iff_not_or)
  | again | remember | fetch => exact Iff.rfl
  | send v => exact imp_iff_not_or

end Mirror

end FpgaCnc
