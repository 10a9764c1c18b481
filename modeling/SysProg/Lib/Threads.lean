/-
  SysProg.Lib.Threads — sums over the threads of a system.

  When one thread moves, a sum over all of them changes by what that thread's term
  changes (`sum_update`); so a measure that is such a sum gets smaller when the thread's
  part does. A sum of ones and zeros counts threads: it is the number of threads exactly
  when each thread counts (`all_of_sum_eq_card`).
-/

import Mathlib.Algebra.BigOperators.Group.Finset.Piecewise
import Mathlib.Algebra.Order.BigOperators.Group.Finset

namespace SysProg.Threads

open Function (update)

variable {T P A : Type} [Fintype T] [DecidableEq T] [AddCommMonoid A]

/-- The terms may depend on the thread. -/
theorem sum_update_at (f : T → P → A) (pc : T → P) (t : T) (p : P) :
    ∑ u, f u (update pc t p u) + f t (pc t) = ∑ u, f u (pc u) + f t p := by
  have hnew : ∑ u, f u (update pc t p u) = f t p + ∑ u ∈ Finset.univ \ {t}, f u (pc u) := by
    have hcomp : (fun u => f u (update pc t p u)) = update (fun u => f u (pc u)) t (f t p) := by
      funext u
      by_cases hu : u = t
      · subst hu
        simp
      · simp [hu]
    rw [hcomp, Finset.sum_update_of_mem (Finset.mem_univ t)]
  have hold : ∑ u, f u (pc u) = f t (pc t) + ∑ u ∈ Finset.univ \ {t}, f u (pc u) :=
    Finset.sum_eq_add_sum_sdiff_singleton_of_mem (Finset.mem_univ t) _
  rw [hnew, hold, add_comm (f t p), add_comm (f t (pc t)), add_right_comm]

theorem sum_update (f : P → A) (pc : T → P) (t : T) (p : P) :
    ∑ u, f (update pc t p u) + f (pc t) = ∑ u, f (pc u) + f p := sum_update_at (fun _ => f) pc t p

/-- A move that changes no term. -/
theorem sum_update_eq {A : Type} [AddCancelCommMonoid A] (f : P → A) (pc : T → P) {t : T} {p : P} (h : f p = f (pc t)) :
    ∑ u, f (update pc t p u) = ∑ u, f (pc u) := by
  have hsum := sum_update f pc t p
  rw [h] at hsum
  exact add_right_cancel hsum

/-! ## How many threads -/

omit [DecidableEq T] in
/-- One that does not count is missing from the whole. -/
theorem sum_lt_card {f : T → Nat} (h : ∀ u, f u ≤ 1) {t : T} (ht : f t = 0) : ∑ u, f u < Fintype.card T := by
  have hlt : ∑ u, f u < ∑ _u : T, 1 :=
    Finset.sum_lt_sum (fun u _ => h u) ⟨t, Finset.mem_univ t, by omega⟩
  rwa [← Finset.card_eq_sum_ones, Finset.card_univ] at hlt

omit [DecidableEq T] in
theorem all_of_sum_eq_card {f : T → Nat} (h : ∀ u, f u ≤ 1) (hsum : ∑ u, f u = Fintype.card T) (t : T) : f t = 1 := by
  by_contra hne
  have hle := h t
  have hlt := sum_lt_card h (show f t = 0 by omega)
  omega

omit [DecidableEq T] in
theorem sum_of_all {f : T → Nat} (h : ∀ u, f u = 1) : ∑ u, f u = Fintype.card T := by
  rw [Finset.sum_congr rfl fun u _ => h u, ← Finset.card_eq_sum_ones, Finset.card_univ]

end SysProg.Threads
