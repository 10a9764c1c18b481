/-
  SysProg.Lib.Completions — work done one piece after another.

  Pieces of work of given lengths are done in the order of a list, so that each is done when
  it and all before it have been. `total` is the sum of the times at which they are done. It
  is least when the shorter pieces come first (`total_sorted_le`): the first `k` of a
  sorted list are together no longer than any `k` of it (`take_sum_le`).
-/

import Mathlib.Algebra.Order.BigOperators.Group.List
import Mathlib.Data.List.Basic

namespace SysProg.Lib.Completions

section Total

variable {R : Type} [AddCommMonoid R]

def total (l : List R) : R := ((List.range l.length).map fun k => (l.take (k + 1)).sum).sum

@[simp] theorem total_nil : total ([] : List R) = 0 := rfl

/-- The last piece is done when all are. -/
theorem total_append (l : List R) (x : R) : total (l ++ [x]) = total l + (l.sum + x) := by
  have hfront : ∀ k ∈ List.range l.length, ((l ++ [x]).take (k + 1)).sum = (l.take (k + 1)).sum := by
    intro k hk
    rw [List.take_append_of_le_length (Nat.succ_le_of_lt (List.mem_range.mp hk))]
  have hwhole : ((l ++ [x]).take (l.length + 1)).sum = l.sum + x := by
    rw [List.take_of_length_le (by simp), List.sum_append, List.sum_singleton]
  unfold total
  rw [List.length_append, List.length_singleton, List.range_succ, List.map_append, List.sum_append,
    List.map_congr_left hfront, List.map_singleton, List.sum_singleton, hwhole]

end Total

variable {R : Type} [AddCommMonoid R] [LinearOrder R] [IsOrderedAddMonoid R] {l l' m : List R} {x : R}

/-- Without the first of a sorted list the first ones are no shorter. -/
theorem take_cons_sum_le {k : Nat} (h : (x :: l).Pairwise (· ≤ ·)) (hk : k ≤ l.length) :
    ((x :: l).take k).sum ≤ (l.take k).sum := by
  cases k with
  | zero => exact le_refl _
  | succ k =>
    have hx : x ≤ l[k] := (List.pairwise_cons.mp h).1 _ (List.getElem_mem hk)
    rw [List.take_succ_cons, List.sum_cons, List.take_succ_eq_append_getElem hk, List.sum_append,
      List.sum_singleton, add_comm]
    exact add_le_add_right hx _

/-- The first ones of a sorted list are together no longer than any as many of it. -/
theorem take_sum_le (h : l.Pairwise (· ≤ ·)) (hm : m.Sublist l) : (l.take m.length).sum ≤ m.sum := by
  induction hm with
  | slnil => exact le_refl _
  | cons x hm ih =>
    exact le_trans (take_cons_sum_le h hm.length_le) (ih (List.pairwise_cons.mp h).2)
  | cons_cons x hm ih =>
    rw [List.length_cons, List.take_succ_cons, List.sum_cons, List.sum_cons]
    exact add_le_add_right (ih (List.pairwise_cons.mp h).2) x

/-- In the sorted order the pieces are done soonest. -/
theorem total_sorted_le (h : l.Pairwise (· ≤ ·)) (hp : l'.Perm l) : total l ≤ total l' := by
  unfold total
  rw [hp.length_eq]
  apply List.sum_le_sum
  intro k hk
  have hlen : k + 1 ≤ l'.length := by
    rw [hp.length_eq]
    exact Nat.succ_le_of_lt (List.mem_range.mp hk)
  rcases (List.take_sublist (k + 1) l').subperm.trans hp.subperm with ⟨m, hmp, hm⟩
  have hle := take_sum_le h hm
  rw [hmp.length_eq, List.length_take, Nat.min_eq_left hlen, hmp.sum_eq] at hle
  exact hle

end SysProg.Lib.Completions
