import Mathlib.Data.List.Basic
import Mathlib.Data.List.Perm.Basic

/-!
# Increasing numbers with gaps

Numbered things that come in order but not all: the numbers increase, and with
the missing ones they are all numbers below a bound. What stands before a number
are the smaller ones, and the number tells how many of them are missing.

§1 what stands before · §2 what is missing.
-/

namespace FpgaCnc.Gaps

variable {xs ys gone : List ℕ} {k n : ℕ}

/-! ## §1  What stands before -/

theorem filter_lt (h : (xs ++ k :: ys).Pairwise (· < ·)) :
    (xs ++ k :: ys).filter (fun i => i < k) = xs := by
  obtain ⟨-, hys, hxs⟩ := List.pairwise_append.mp h
  have hfront : xs.filter (fun i => i < k) = xs := by
    apply List.filter_eq_self.mpr
    intro i hi
    exact decide_eq_true (hxs i hi k List.mem_cons_self)
  have hback : (k :: ys).filter (fun i => i < k) = [] := by
    apply List.filter_eq_nil_iff.mpr
    intro i hi
    rcases List.mem_cons.mp hi with rfl | hi
    · simp
    · have hlt := (List.pairwise_cons.mp hys).1 i hi
      simp only [decide_eq_true_eq]
      omega
  rw [List.filter_append, hfront, hback, List.append_nil]

/-! ## §2  What is missing -/

theorem countP_lt_range (h : k ≤ n) : (List.range n).countP (fun i => i < k) = k := by
  obtain ⟨m, rfl⟩ := Nat.exists_eq_add_of_le h
  have hfront : (List.range k).countP (fun i => i < k) = k := by
    rw [List.countP_eq_length.mpr fun i hi => decide_eq_true (List.mem_range.mp hi),
      List.length_range]
  have hback : ((List.range m).map (k + ·)).countP (fun i => i < k) = 0 := by
    apply List.countP_eq_zero.mpr
    intro i hi
    obtain ⟨j, -, rfl⟩ := List.mem_map.mp hi
    simp
  rw [List.range_add, List.countP_append, hfront, hback, Nat.add_zero]

/-- **A number is as far beyond its place as smaller ones are missing.** -/
theorem eq_length_add (h : (xs ++ k :: ys).Pairwise (· < ·))
    (hall : (xs ++ k :: ys ++ gone).Perm (List.range n)) :
    k = xs.length + gone.countP (fun i => i < k) := by
  have hlt : k < n := by
    apply List.mem_range.mp
    exact hall.subset (List.mem_append_left _ (List.mem_append_right _ List.mem_cons_self))
  calc k = (List.range n).countP (fun i => i < k) := (countP_lt_range (Nat.le_of_lt hlt)).symm
    _ = (xs ++ k :: ys ++ gone).countP (fun i => i < k) := (hall.countP_eq _).symm
    _ = (xs ++ k :: ys).countP (fun i => i < k) + gone.countP (fun i => i < k) :=
      List.countP_append
    _ = xs.length + gone.countP (fun i => i < k) := by
      rw [List.countP_eq_length_filter, filter_lt h]

/-- What has its place is not missing. -/
theorem not_mem_gone (hall : (xs ++ k :: ys ++ gone).Perm (List.range n)) : k ∉ gone := by
  have hnodup := hall.nodup_iff.mpr List.nodup_range
  intro hk
  exact (List.nodup_append.mp hnodup).2.2 k
    (List.mem_append_right _ List.mem_cons_self) k hk rfl

end FpgaCnc.Gaps
