/-
  SysProg.Lib.Remaining — working on the job with the least left.

  `Ahead r K f` compares what is left of some jobs (`r`) with what is left of as many when they are done
  in another way (`f` on `K`): however many of the latter are set aside, as many of the former can be so that the
  rest of them has no more left. A new job keeps it (`Ahead.cons`), and so does work on one that has
  the least left, whatever the same time does to the others (`Ahead.work`). Then there
  are no more of the former with something left (`Ahead.count`), and what is waited for
  the others is at least the time for as many as are left (`waited_le`).
-/

import Mathlib.Algebra.BigOperators.Group.Finset.Basic
import Mathlib.Algebra.Order.BigOperators.Group.Finset
import Mathlib.Algebra.Order.BigOperators.Group.Multiset
import Mathlib.Tactic.Abel
import Mathlib.Tactic.Linarith

namespace SysProg.Remaining

variable {α ι : Type} [AddCommGroup α] [LinearOrder α] [IsOrderedAddMonoid α] [DecidableEq ι]

/-- Whatever is set aside of the jobs `K`, as much can be of `r`, and no more is left then. -/
def Ahead (r : Multiset α) (K : Finset ι) (f : ι → α) : Prop :=
  ∀ A ⊆ K, ∃ T U, r = T + U ∧ T.card ≤ A.card ∧ U.sum ≤ ∑ k ∈ K \ A, f k

variable {r rest : Multiset α} {K : Finset ι} {f g : ι → α} {m d x : α} {k : ι}

omit [IsOrderedAddMonoid α] in
theorem Ahead.none (f : ι → α) : Ahead 0 ∅ f := by
  intro A hA
  refine ⟨0, 0, rfl, Nat.zero_le _, ?_⟩
  rw [Finset.empty_sdiff, Multiset.sum_zero, Finset.sum_empty]

/-- A job comes. -/
theorem Ahead.cons (h : Ahead r K f) (hk : k ∉ K) : Ahead (f k ::ₘ r) (insert k K) f := by
  intro A hA
  by_cases hmem : k ∈ A
  · obtain ⟨T, U, hr, hcard, hsum⟩ := h (A.erase k) (Finset.subset_insert_iff.mp hA)
    refine ⟨f k ::ₘ T, U, by rw [hr, Multiset.cons_add], ?_, ?_⟩
    · rw [Multiset.card_cons, ← Finset.card_erase_add_one hmem]
      exact Nat.succ_le_succ hcard
    · have hsame : insert k K \ A = K \ A.erase k := by
        ext j
        simp only [Finset.mem_sdiff, Finset.mem_insert, Finset.mem_erase]
        grind
      rw [hsame]
      exact hsum
  · have hsub : A ⊆ K := (Finset.subset_insert_iff_of_notMem hmem).mp hA
    obtain ⟨T, U, hr, hcard, hsum⟩ := h A hsub
    refine ⟨T, f k ::ₘ U, by rw [hr, Multiset.add_cons], hcard, ?_⟩
    rw [Finset.insert_sdiff_of_notMem _ hmem, Finset.sum_insert (fun hmem' => hk (Finset.mem_sdiff.mp hmem').1),
      Multiset.sum_cons]
    exact add_le_add_right hsum _

omit [IsOrderedAddMonoid α] in
/-- A job that has nothing left. -/
theorem Ahead.finish (h : Ahead (0 ::ₘ r) K f) : Ahead r K f := by
  intro A hA
  obtain ⟨T, U, hr, hcard, hsum⟩ := h A hA
  have hmem : (0 : α) ∈ T + U := by
    rw [← hr]
    exact Multiset.mem_cons_self _ _
  rcases Multiset.mem_add.mp hmem with hT | hU
  · obtain ⟨T', rfl⟩ := Multiset.exists_cons_of_mem hT
    rw [Multiset.cons_add] at hr
    rw [Multiset.card_cons] at hcard
    exact ⟨T', U, (Multiset.cons_inj_right _).mp hr, by omega, hsum⟩
  · obtain ⟨U', rfl⟩ := Multiset.exists_cons_of_mem hU
    rw [Multiset.add_cons] at hr
    rw [Multiset.sum_cons, zero_add] at hsum
    exact ⟨T, U', (Multiset.cons_inj_right _).mp hr, hcard, hsum⟩

/-- What is left of the jobs that are not set aside gets less by `d` at most. -/
theorem sum_kept {A : Finset ι} (hf : ∀ k ∈ K, g k ≤ f k) (hd : ∑ k ∈ K, (f k - g k) ≤ d) :
    ∑ k ∈ K \ A, f k - d ≤ ∑ k ∈ K \ A, g k := by
  have hle : ∑ k ∈ K \ A, (f k - g k) ≤ ∑ k ∈ K, (f k - g k) :=
    Finset.sum_le_sum_of_subset_of_nonneg Finset.sdiff_subset fun k hk _ => sub_nonneg.mpr (hf k hk)
  rw [Finset.sum_sub_distrib] at hle
  have hall := hle.trans hd
  rw [sub_le_iff_le_add] at hall ⊢
  rwa [add_comm] at hall

/-- Time `d` is spent on a job with the least left, and on any of the others' side. -/
theorem Ahead.work (h : Ahead (m ::ₘ rest) K f) (hm : ∀ x ∈ rest, m ≤ x) (hf : ∀ k ∈ K, g k ≤ f k)
    (hg : ∀ k ∈ K, 0 ≤ g k) (hd : ∑ k ∈ K, (f k - g k) ≤ d) : Ahead ((m - d) ::ₘ rest) K g := by
  intro A hA
  obtain ⟨T, U, hr, hcard, hsum⟩ := h A hA
  have hkept := sum_kept (A := A) hf hd
  have hmem : m ∈ T + U := by
    rw [← hr]
    exact Multiset.mem_cons_self _ _
  rcases Multiset.mem_add.mp hmem with hT | hU
  · obtain ⟨T', rfl⟩ := Multiset.exists_cons_of_mem hT
    rw [Multiset.cons_add] at hr
    have hrest := (Multiset.cons_inj_right _).mp hr
    rw [Multiset.card_cons] at hcard
    rcases U.empty_or_exists_mem with rfl | ⟨x, hx⟩
    · refine ⟨(m - d) ::ₘ T', 0, ?_, by rwa [Multiset.card_cons], ?_⟩
      · rw [Multiset.cons_add, hrest]
      · rw [Multiset.sum_zero]
        exact Finset.sum_nonneg fun k hk => hg k (Finset.mem_sdiff.mp hk).1
    · -- another one is set aside in its place
      obtain ⟨U', rfl⟩ := Multiset.exists_cons_of_mem hx
      have hle := hm x (by rw [hrest]; exact Multiset.mem_add.mpr (Or.inr hx))
      refine ⟨x ::ₘ T', (m - d) ::ₘ U', ?_, by rwa [Multiset.card_cons], ?_⟩
      · rw [hrest, Multiset.add_cons, Multiset.add_cons, Multiset.cons_add, Multiset.cons_swap]
      · rw [Multiset.sum_cons] at hsum ⊢
        refine le_trans ?_ ((sub_le_sub_right hsum d).trans hkept)
        rw [sub_add_eq_add_sub]
        exact sub_le_sub_right (add_le_add_left hle _) d
  · obtain ⟨U', rfl⟩ := Multiset.exists_cons_of_mem hU
    rw [Multiset.add_cons] at hr
    refine ⟨T, (m - d) ::ₘ U', ?_, hcard, ?_⟩
    · rw [Multiset.add_cons, (Multiset.cons_inj_right _).mp hr]
    · rw [Multiset.sum_cons] at hsum ⊢
      rw [sub_add_eq_add_sub]
      exact (sub_le_sub_right hsum d).trans hkept

/-- Nothing is left, and time passes. -/
theorem Ahead.idle (hg : ∀ k ∈ K, 0 ≤ g k) : Ahead (0 : Multiset α) K g := by
  intro A hA
  refine ⟨0, 0, rfl, Nat.zero_le _, ?_⟩
  rw [Multiset.sum_zero]
  exact Finset.sum_nonneg fun k hk => hg k (Finset.mem_sdiff.mp hk).1

/-- As many of the others have something left. -/
theorem Ahead.count (h : Ahead r K f) (hr : ∀ x ∈ r, 0 ≤ x) {A : Finset ι} (hA : A ⊆ K)
    (hf : ∀ k ∈ K, k ∉ A → f k = 0) : (r.filter fun x => 0 < x).card ≤ A.card := by
  obtain ⟨T, U, rfl, hcard, hsum⟩ := h A hA
  have hzero : ∑ k ∈ K \ A, f k = 0 := by
    apply Finset.sum_eq_zero
    intro k hk
    obtain ⟨hK, hnot⟩ := Finset.mem_sdiff.mp hk
    exact hf k hK hnot
  rw [hzero] at hsum
  have hnil : U.filter (fun x => 0 < x) = 0 := by
    rw [Multiset.filter_eq_nil]
    intro x hx
    have hle := Multiset.single_le_sum (fun y hy => hr y (Multiset.mem_add.mpr (Or.inr hy))) x hx
    exact not_lt.mpr (hle.trans hsum)
  rw [Multiset.filter_add, hnil, add_zero]
  exact (Multiset.card_le_card (Multiset.filter_le _ _)).trans hcard

omit [DecidableEq ι] in
/-- From `t` to `t'` time goes on for as many jobs as are not done before `t'`. -/
theorem waited_le {c : ι → α} {t t' : α} {n : Nat} (ht : t ≤ t') {A : Finset ι} (hA : A ⊆ K) (hc : ∀ k ∈ A, t' ≤ c k)
    (hn : n ≤ A.card) : n • (t' - t) ≤ ∑ k ∈ K, (min (c k) t' - min (c k) t) := by
  have hpos : 0 ≤ t' - t := sub_nonneg.mpr ht
  calc n • (t' - t) ≤ A.card • (t' - t) := nsmul_le_nsmul_left hpos hn
    _ = ∑ k ∈ A, (min (c k) t' - min (c k) t) := by
      rw [← Finset.sum_const]
      apply Finset.sum_congr rfl
      intro k hk
      rw [min_eq_right (hc k hk), min_eq_right (ht.trans (hc k hk))]
    _ ≤ ∑ k ∈ K, (min (c k) t' - min (c k) t) :=
      Finset.sum_le_sum_of_subset_of_nonneg hA fun k _ _ => sub_nonneg.mpr (min_le_min_left (c k) ht)

end SysProg.Remaining
