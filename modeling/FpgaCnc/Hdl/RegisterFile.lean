import Mathlib.Tactic.IntervalCases
import FpgaCnc.Lib.WriteLog
import FpgaCnc.Hdl.CncModule

/-!
# The control registers as a memory

Addresses 0 to 8 of the module read back what was written to them last.
Register 5 is packed from four fields, of which the two upper ones have no
reset: until it is written, its low ten bits are zero and the rest is whatever
power-up left.

§1 the words of the control registers · §2 a write · §3 runs.
-/

namespace FpgaCnc

open Clocked

namespace CtlRegs

/-! ## §1  The words of the control registers -/

/-- What a read of address `k` yields, for the addresses that can be written. -/
def word (r : CtlRegs) (k : BitVec 6) : BitVec 32 :=
  match k.toNat with
  | 0x0 => r.sg0Per
  | 0x1 => r.sg1Per
  | 0x2 => r.sg2Per
  | 0x3 => r.sg3Per
  | 0x4 => r.sg4Per
  | 0x5 => r.dirsEnsWord
  | 0x6 => r.pwmCounter
  | 0x7 => r.pwmCapture
  | 0x8 => r.ogpio
  | _ => 0

/-- The addresses of control registers. -/
def IsControl (k : BitVec 6) : Prop := k.toNat ≤ 8

theorem readCase_of_control (s : CncModule) {b : CncIn} (hk : IsControl b.address) :
    s.readCase b = s.ctl.word b.address := by
  unfold IsControl at hk
  unfold CncModule.readCase word
  interval_cases b.address.toNat <;> rfl

/-- Before any write: zero, apart from the fields of register 5 without a
reset. -/
theorem word_reset (r : CtlRegs) {k : BitVec 6} (hk : IsControl k) (h5 : k ≠ 5) :
    r.reset.word k = 0 := by
  have h5' : k.toNat ≠ 5 := fun h => h5 (BitVec.eq_of_toNat_eq h)
  unfold IsControl at hk
  unfold word
  interval_cases k.toNat <;> first | rfl | exact absurd rfl h5'

/-- Register 5, bit by bit. -/
theorem getLsbD_dirsEnsWord (r : CtlRegs) {j : ℕ} (hj : j < 32) :
    r.dirsEnsWord.getLsbD j =
      if j < 5 then r.sgDirs.getLsbD j else if j < 10 then r.sgEns.getLsbD (j - 5)
      else if j < 11 then r.pwmEn else r.spare.getLsbD (j - 11) := by
  rw [dirsEnsWord, BitVec.getLsbD_setWidth, BitVec.getLsbD_append, BitVec.getLsbD_append,
    BitVec.getLsbD_append, BitVec.getLsbD_ofBool, decide_eq_true hj, Bool.true_and]
  rcases Nat.lt_or_ge j 5 with h5 | h5
  · simp only [h5, if_true]
  · rcases Nat.lt_or_ge j 10 with h10 | h10
    · simp only [h10, show ¬ j < 5 by omega, show j - 5 < 5 by omega, if_true, if_false]
    · simp only [show ¬ j < 5 by omega, show ¬ j < 10 by omega, show ¬ j - 5 < 5 by omega, if_false]
      rcases Nat.lt_or_ge j 11 with h11 | h11
      · obtain rfl : j = 10 := by omega
        rfl
      · simp only [Nat.sub_sub, show ¬ j < 11 by omega, show ¬ j - (5 + 5) < 1 by omega, if_false]

theorem word_reset_dirsEns (r : CtlRegs) : (r.reset.word 5).extractLsb' 0 10 = 0 := by
  apply BitVec.eq_of_getLsbD_eq
  intro j hj
  rw [BitVec.getLsbD_extractLsb', Nat.zero_add]
  show (decide (j < 10) && r.reset.dirsEnsWord.getLsbD j) = _
  rw [getLsbD_dirsEnsWord r.reset (by omega)]
  rcases Nat.lt_or_ge j 5 with h5 | h5
  · simp [h5, reset]
  · simp [hj, reset, show ¬ j < 5 by omega]

/-! ## §2  A write -/

/-- The fields of register 5 put together are the word written. -/
theorem dirsEnsWord_write (r : CtlRegs) (d : BitVec 32) : (r.write 5 d).dirsEnsWord = d := by
  apply BitVec.eq_of_getLsbD_eq
  intro j hj
  rw [getLsbD_dirsEnsWord _ hj]
  show (if j < 5 then (d.extractLsb' 0 5).getLsbD j
    else if j < 10 then (d.extractLsb' 5 5).getLsbD (j - 5)
    else if j < 11 then d.getLsbD 10 else (d.extractLsb' 11 21).getLsbD (j - 11)) = d.getLsbD j
  simp only [BitVec.getLsbD_extractLsb']
  split_ifs with h5 h10 h11
  · rw [decide_eq_true h5, Bool.true_and, Nat.zero_add]
  · rw [decide_eq_true (by omega), Bool.true_and, Nat.add_sub_cancel' (by omega)]
  · rw [show j = 10 by omega]
  · rw [decide_eq_true (by omega), Bool.true_and, Nat.add_sub_cancel' (by omega)]

/-- **Read over write.** -/
theorem word_write (r : CtlRegs) (a : BitVec 6) (d : BitVec 32) (k : BitVec 6)
    (hk : IsControl k) : (r.write a d).word k = if a = k then d else r.word k := by
  unfold IsControl at hk
  split_ifs with hak
  · obtain rfl := hak
    have h5 := dirsEnsWord_write r d
    unfold write word at *
    interval_cases a.toNat <;> first | rfl | exact h5
  · have hne : a.toNat ≠ k.toNat := fun h => hak (BitVec.eq_of_toNat_eq h)
    -- each register's assignment leaves the other words alone
    unfold write
    split <;> rename_i ha
    all_goals
      unfold word
      interval_cases k.toNat <;> first | rfl | exact absurd ha hne

/-- A write to an address above 8 changes nothing. -/
theorem write_of_not_control (r : CtlRegs) {a : BitVec 6} (ha : ¬ IsControl a) (d : BitVec 32) :
    r.write a d = r := by
  unfold IsControl at ha
  unfold write
  split <;> first | rfl | omega

end CtlRegs

/-! ## §3  Runs -/

namespace CncModule

open CtlRegs

/-- The writes on the clocks before `t`, the oldest first. -/
def writesBefore (sched : ℕ → CncIn) (t : ℕ) : List (BitVec 6 × BitVec 32) :=
  writesOf ((List.range t).map sched)

/-- **After any run from reset** a control register holds what was last written
to it, or its reset value. -/
theorem word_stateAt (s : CncModule) (sched : ℕ → CncIn) (t : ℕ) {k : BitVec 6}
    (hk : IsControl k) :
    (stateAt posedge s.reset sched t).ctl.word k =
      (lastWrite (writesBefore sched t) k).getD (s.ctl.reset.word k) := by
  rw [stateAt_eq_run, ctl_run]
  exact read_writes word_write s.ctl.reset (writesBefore sched t) hk

theorem readdata_of_read (s : CncModule) {b : CncIn} (hb : b.strobe = .read)
    (hk : IsControl b.address) : (s.posedge b).readdata = s.ctl.word b.address := by
  rw [← readCase_of_control s hk, posedge, hb]

theorem readdata_of_write (s : CncModule) {b : CncIn} (hb : b.strobe = .write) :
    (s.posedge b).readdata = s.readdata := by
  rw [posedge, hb]

theorem ctl_of_write (s : CncModule) {b : CncIn} (hb : b.strobe = .write) :
    (s.posedge b).ctl = s.ctl.write b.address b.writedata := by
  rw [posedge, hb]

theorem ctl_of_not_write (s : CncModule) {b : CncIn} (hb : b.strobe ≠ .write) :
    (s.posedge b).ctl = s.ctl := by
  rw [ctl_posedge, CncIn.busWrite_eq_none.mpr hb]
  rfl

/-- With both strobes, `read` does not matter. -/
theorem posedge_of_both (s : CncModule) {b : CncIn} (hwrite : b.write = true) :
    s.posedge b = s.posedge { b with read := false } := by
  have hstrobe : b.strobe = CncIn.strobe { b with read := false } := by
    cases hc : b.chipselect <;> simp [CncIn.strobe, hwrite, hc]
  rw [posedge, posedge, hstrobe]
  rfl

/-- What a read of control register `k` should yield, given the value last
written to it: that value, or zero; of register 5, zero in the ten bits that
have a reset. -/
def ReadRight (k : BitVec 6) (last : Option (BitVec 32)) (v : BitVec 32) : Prop :=
  match last with
  | some d => v = d
  | none => if k = 5 then v.extractLsb' 0 10 = 0 else v = 0

/-- **The control registers are a memory.** On every clock of every run from
reset: a read of a control register yields the word last written to it; a write
changes no other control register and not `readdata`, and above address 8 none
at all; a clock that does not write changes no control register; and with both
strobes the clock is a write. -/
theorem registers_are_memory (s : CncModule) (sched : ℕ → CncIn) (t : ℕ) :
    ((sched t).strobe = .read → IsControl (sched t).address →
      ReadRight (sched t).address (lastWrite (writesBefore sched t) (sched t).address)
        (stateAt posedge s.reset sched (t + 1)).readdata) ∧
    ((sched t).strobe = .write →
      (stateAt posedge s.reset sched (t + 1)).readdata =
          (stateAt posedge s.reset sched t).readdata ∧
        (∀ k, IsControl k → k ≠ (sched t).address →
          (stateAt posedge s.reset sched (t + 1)).ctl.word k =
            (stateAt posedge s.reset sched t).ctl.word k) ∧
        (¬ IsControl (sched t).address →
          (stateAt posedge s.reset sched (t + 1)).ctl = (stateAt posedge s.reset sched t).ctl)) ∧
    ((sched t).strobe ≠ .write →
      (stateAt posedge s.reset sched (t + 1)).ctl = (stateAt posedge s.reset sched t).ctl) ∧
    ((sched t).chipselect = true → (sched t).read = true → (sched t).write = true →
      (sched t).strobe = .write ∧
        stateAt posedge s.reset sched (t + 1) =
          posedge { sched t with read := false } (stateAt posedge s.reset sched t)) := by
  rw [stateAt_succ]
  refine ⟨?_, ?_, fun hb => ctl_of_not_write _ hb, ?_⟩
  · intro hb hk
    rw [readdata_of_read _ hb hk, word_stateAt s sched t hk]
    cases lastWrite (writesBefore sched t) (sched t).address with
    | some d => rfl
    | none =>
        show if _ then (s.ctl.reset.word _).extractLsb' 0 10 = 0 else s.ctl.reset.word _ = 0
        split_ifs with h5
        · rw [h5]
          exact word_reset_dirsEns s.ctl
        · exact word_reset s.ctl hk h5
  · intro hb
    refine ⟨readdata_of_write _ hb, ?_, ?_⟩
    · intro k hk hne
      rw [ctl_of_write _ hb, word_write _ _ _ _ hk, if_neg hne.symm]
    · intro hnot
      rw [ctl_of_write _ hb, write_of_not_control _ hnot]
  · intro hc _ hwrite
    refine ⟨?_, posedge_of_both _ hwrite⟩
    rw [CncIn.strobe, hc, hwrite]
    rfl

end CncModule

end FpgaCnc
