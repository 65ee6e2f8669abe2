import Mathlib.Data.Rat.Floor
import FpgaCnc.Hdl.CncModule

/-!
# Quadrature counting

The encoder's position is a walk on the integers, four positions to a cycle of
the two phases. `encoder_x1` counts at one boundary of the four, in both
directions, so what it holds is a function of the position and not of the way
there: the number of cycle starts passed.

§1 positions and phases · §2 the count at one boundary · §3 the pipeline ·
§4 the encoders of the module.
-/

namespace FpgaCnc.EncoderX1

open Clocked

/-! ## §1  Positions and phases -/

/-- `enc_a` at position `p`. -/
def phaseA (p : ℤ) : Bool := p % 4 = 1 ∨ p % 4 = 2

/-- `enc_b` at position `p`. -/
def phaseB (p : ℤ) : Bool := p % 4 = 2 ∨ p % 4 = 3

/-- At most one position per clock. -/
def IsWalk (p : ℕ → ℤ) : Prop :=
  ∀ t, p (t + 1) = p t - 1 ∨ p (t + 1) = p t ∨ p (t + 1) = p t + 1

/-- The phases of the positions after clock 0, in the order they are sampled. -/
def phases (p : ℕ → ℤ) (t : ℕ) : EncoderX1In := ⟨phaseA (p (t + 1)), phaseB (p (t + 1))⟩

/-- Cycle starts below position `p`, from position 0 on. -/
def turns (p : ℤ) : ℤ := ⌈(p : ℚ) / 4⌉

theorem turns_eq (p : ℤ) : turns p = (p + 3) / 4 := by
  have h : turns p = -(-p / 4) := Rat.ceil_intCast_div_natCast p 4
  rw [h]
  omega

/-- The phases just after a cycle start. -/
theorem phase_after_start (p : ℤ) : (phaseA p = true ∧ phaseB p = false) ↔ p % 4 = 1 := by
  simp only [phaseA, phaseB, decide_eq_true_eq, decide_eq_false_iff_not]
  omega

/-- The phases just before a cycle start. -/
theorem phase_before_start (p : ℤ) : (phaseA p = false ∧ phaseB p = false) ↔ p % 4 = 0 := by
  simp only [phaseA, phaseB, decide_eq_false_iff_not]
  omega

/-! ## §2  The count at one boundary -/

/-- The phases of `p` stand in the last stage of the pipeline. -/
structure LastAt (s : EncoderX1) (p : ℤ) : Prop where
  lastA : s.lastA = phaseA p
  lastB : s.lastB = phaseB p

/-- The phases of `p` stand in the second latch of the synchroniser. -/
structure SyncAt (s : EncoderX1) (p : ℤ) : Prop where
  a : s.a = phaseA p
  b : s.b = phaseB p

/-- The phases of `p` stand in the first latch of the synchroniser. -/
structure LatchedAt (s : EncoderX1) (p : ℤ) : Prop where
  a1 : s.a1 = phaseA p
  b1 : s.b1 = phaseB p

/-- **One clock of the count**: by how many cycle starts the position has
moved between the last two stages. -/
theorem posedge_count_of_adjacent {s : EncoderX1} {x y : ℤ} (i : EncoderX1In)
    (hx : LastAt s x) (hy : SyncAt s y) (hadj : y = x - 1 ∨ y = x ∨ y = x + 1) :
    (s.posedge i).count = s.count + BitVec.ofInt 32 (turns y - turns x) := by
  have hcount : (s.posedge i).count =
      if y % 4 = 1 then if x % 4 = 0 then s.count + 1 else s.count
      else if y % 4 = 0 then if x % 4 = 1 then s.count - 1 else s.count
      else s.count := by
    rw [posedge, hx.lastA, hx.lastB, hy.a, hy.b]
    simp only [phase_after_start, phase_before_start]
  rw [hcount, turns_eq, turns_eq]
  split_ifs with hy1 hx0 hy0 hx1
  · -- up across the start of a cycle
    rw [show (y + 3) / 4 - (x + 3) / 4 = 1 by omega]
    rfl
  · rw [show (y + 3) / 4 - (x + 3) / 4 = 0 by omega]
    simp
  · -- down across it
    rw [show (y + 3) / 4 - (x + 3) / 4 = -1 by omega, BitVec.sub_eq_add_neg]
    rfl
  · rw [show (y + 3) / 4 - (x + 3) / 4 = 0 by omega]
    simp
  · rw [show (y + 3) / 4 - (x + 3) / 4 = 0 by omega]
    simp

/-! ## §3  The pipeline -/

/-- The registers before clock `t`: the last three positions in the pipeline,
and the count of the oldest. -/
structure Tracks (p : ℕ → ℤ) (t : ℕ) (s : EncoderX1) : Prop where
  latched : LatchedAt s (p t)
  sync : SyncAt s (p (t - 1))
  last : LastAt s (p (t - 2))
  count : s.count = 0x7FFFFFFF#32 + BitVec.ofInt 32 (turns (p (t - 2)) - turns (p 0))

/-- The synchroniser settled on position `x`, as it is after some clocks
without movement. -/
structure Settled (s : EncoderX1) (x : ℤ) : Prop where
  latched : LatchedAt s x
  sync : SyncAt s x
  last : LastAt s x

theorem Settled.tracks {s : EncoderX1} {p : ℕ → ℤ} (h : Settled s (p 0)) :
    Tracks p 0 s.reset where
  latched := ⟨h.latched.a1, h.latched.b1⟩
  sync := ⟨h.sync.a, h.sync.b⟩
  last := ⟨h.last.lastA, h.last.lastB⟩
  count := by simp [reset]

theorem Tracks.posedge {p : ℕ → ℤ} (hp : IsWalk p) {t : ℕ} {s : EncoderX1} (h : Tracks p t s) :
    Tracks p (t + 1) (s.posedge (phases p t)) where
  latched := ⟨rfl, rfl⟩
  sync := ⟨h.latched.a1, h.latched.b1⟩
  last := ⟨h.sync.a, h.sync.b⟩
  count := by
    -- the two older positions are equal during the first two clocks
    have hadj : p (t - 1) = p (t - 2) - 1 ∨ p (t - 1) = p (t - 2) ∨
        p (t - 1) = p (t - 2) + 1 := by
      rcases t with _ | _ | t
      · exact .inr (.inl rfl)
      · exact .inr (.inl rfl)
      · exact hp t
    rw [posedge_count_of_adjacent _ h.last h.sync hadj, h.count, BitVec.add_assoc,
      ← BitVec.ofInt_add, sub_add_sub_cancel']
    rfl

theorem tracks_of_walk {s : EncoderX1} {p : ℕ → ℤ} (hp : IsWalk p) (hs : Settled s (p 0))
    (t : ℕ) : Tracks p t (stateAt posedge s.reset (phases p) t) := by
  induction t with
  | zero => exact hs.tracks
  | succ t ih => exact ih.posedge hp

/-- **Counting is exact and free of jitter.** For every walk of the encoder,
two clocks after a position has been latched the count is the reset value plus
the number of cycle starts between it and the initial position; so wherever
the walk returns to a position, the count returns to its value. -/
theorem count_of_walk (s : EncoderX1) (p : ℕ → ℤ) (hp : IsWalk p) (hs : Settled s (p 0)) :
    (∀ t, (stateAt posedge s.reset (phases p) (t + 2)).count =
      0x7FFFFFFF#32 + BitVec.ofInt 32 (⌈(p t : ℚ) / 4⌉ - ⌈(p 0 : ℚ) / 4⌉)) ∧
    ∀ t u, p t = p u → (stateAt posedge s.reset (phases p) (t + 2)).count =
      (stateAt posedge s.reset (phases p) (u + 2)).count := by
  have hcount := fun t => (tracks_of_walk hp hs (t + 2)).count
  simp only [Nat.add_sub_cancel] at hcount
  refine ⟨hcount, ?_⟩
  intro t u htu
  rw [hcount t, hcount u, htu]

/-- A shaft that trembles across a cycle start, beginning in the middle of a
cycle: 2, 1, 0, 1, 0, 1, .. -/
def tremble : ℕ → ℤ
  | 0 => 2
  | t + 1 => if t % 2 = 0 then 1 else 0

theorem isWalk_tremble : IsWalk tremble := by
  rintro (_ | t)
  · exact .inl rfl
  · rcases Nat.mod_two_eq_zero_or_one t with h | h
    · have h' : (t + 1) % 2 ≠ 0 := by omega
      simp [tremble, h, h']
    · have h' : (t + 1) % 2 = 0 := by omega
      simp [tremble, h, h']

theorem count_of_tremble :
    (∀ t, (stateAt posedge (reset ⟨true, true, true, true, true, true, 0⟩) (phases tremble)
        (t + 2)).count =
      0x7FFFFFFF#32 + BitVec.ofInt 32 (⌈(tremble t : ℚ) / 4⌉ - ⌈(tremble 0 : ℚ) / 4⌉)) ∧
    ∀ t u, tremble t = tremble u →
      (stateAt posedge (reset ⟨true, true, true, true, true, true, 0⟩) (phases tremble)
        (t + 2)).count =
      (stateAt posedge (reset ⟨true, true, true, true, true, true, 0⟩) (phases tremble)
        (u + 2)).count :=
  count_of_walk _ tremble isWalk_tremble ⟨⟨rfl, rfl⟩, ⟨rfl, rfl⟩, ⟨rfl, rfl⟩⟩

end FpgaCnc.EncoderX1

/-! ## §4  The encoders of the module -/

namespace FpgaCnc.CncModule

open Clocked

/-- The two encoder instances. -/
def enc (s : CncModule) : Fin 2 → EncoderX1
  | 0 => s.enc0
  | 1 => s.enc1

/-- The pins an encoder instance is connected to. -/
def encIn (b : CncIn) (j : Fin 2) : EncoderX1In :=
  ⟨b.igpio.getLsbD (5 + 2 * j), b.igpio.getLsbD (6 + 2 * j)⟩

theorem enc_posedge (b : CncIn) (s : CncModule) (j : Fin 2) :
    (s.posedge b).enc j = (s.enc j).posedge (encIn b j) := by
  match j with
  | 0 | 1 => rfl

theorem enc_reset (s : CncModule) (j : Fin 2) : s.reset.enc j = (s.enc j).reset := by
  match j with
  | 0 | 1 => rfl

/-- An encoder of the module counts the walk its two pins show, whatever the
bus and the other pins do. -/
theorem enc_count_of_walk (s : CncModule) (sched : ℕ → CncIn) (j : Fin 2) (p : ℕ → ℤ)
    (hp : EncoderX1.IsWalk p) (hs : EncoderX1.Settled (s.enc j) (p 0))
    (hpins : ∀ t, encIn (sched t) j = EncoderX1.phases p t) (t : ℕ) :
    ((stateAt posedge s.reset sched (t + 2)).enc j).count =
      0x7FFFFFFF#32 + BitVec.ofInt 32 (EncoderX1.turns (p t) - EncoderX1.turns (p 0)) := by
  have hproj : (stateAt posedge s.reset sched (t + 2)).enc j =
      stateAt EncoderX1.posedge (s.reset.enc j) (fun k => encIn (sched k) j) (t + 2) :=
    stateAt_proj (fun s => s.enc j) (fun b _ => encIn b j)
      (fun b s => enc_posedge b s j) s.reset sched (t + 2)
  rw [hproj, enc_reset, funext hpins]
  exact (EncoderX1.tracks_of_walk hp hs (t + 2)).count

end FpgaCnc.CncModule
