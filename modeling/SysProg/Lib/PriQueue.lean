/-
  SysProg.Lib.PriQueue — priority queues, seen from outside.

  A queue is the list of what it holds in the order offered, and elements are compared by
  a function that answers with a number below, at or above 0 (`Comparison`). A queue
  polls (`Polls`) when it takes out a minimum, the earliest offered among equals. Where
  keys in a linear order are compared (`compareKeys`), that is an element with a least key
  (`Polls.least`). `pollFirst` is a queue that polls.
-/

import Mathlib.Order.Lattice
import Mathlib.Data.List.Basic

namespace SysProg.Lib.PriQueue

variable {α K : Type}

structure Comparison (cmp : α → α → Int) : Prop where
  swap : ∀ a b, 0 < cmp a b ↔ cmp b a < 0
  trans : ∀ a b c, cmp a b ≤ 0 → cmp b c ≤ 0 → cmp a c ≤ 0

abbrev Poll (α : Type) : Type := (α → α → Int) → List α → Option (α × List α)

def Polls (poll : Poll α) : Prop :=
  ∀ cmp, Comparison cmp → ∀ q, q ≠ [] → ∃ l a l', q = l ++ a :: l' ∧ poll cmp q = some (a, l ++ l') ∧
    (∀ b ∈ l, cmp a b < 0) ∧ ∀ b ∈ l', cmp a b ≤ 0

/-! ## Comparing keys -/

section Keys

variable [LinearOrder K] (key : α → K)

def compareKeys (a b : α) : Int := if key a < key b then -1 else if key b < key a then 1 else 0

variable {key} {a b : α}

theorem compareKeys_nonpos : compareKeys key a b ≤ 0 ↔ key a ≤ key b := by
  unfold compareKeys
  split
  · rename_i h
    exact iff_of_true (by omega) (le_of_lt h)
  · split
    · rename_i h
      exact iff_of_false (by omega) (not_le_of_gt h)
    · rename_i h
      exact iff_of_true (by omega) (le_of_not_gt h)

theorem compareKeys_neg : compareKeys key a b < 0 ↔ key a < key b := by
  unfold compareKeys
  split
  · rename_i h
    exact iff_of_true (by omega) h
  · rename_i h
    split <;> exact iff_of_false (by omega) h

theorem compareKeys_pos : 0 < compareKeys key a b ↔ key b < key a := by
  rw [← Int.not_le, compareKeys_nonpos, not_le]

theorem compareKeys_comparison (key : α → K) : Comparison (compareKeys key) where
  swap a b := by rw [compareKeys_pos, compareKeys_neg]
  trans a b c := by
    rw [compareKeys_nonpos, compareKeys_nonpos, compareKeys_nonpos]
    exact le_trans

end Keys

/-! ## What is polled -/

variable [LinearOrder K] {poll : Poll α} {q : List α}

/-- A least key is polled, and a lesser one than those of all offered before. -/
theorem Polls.least (h : Polls poll) (key : α → K) (hq : q ≠ []) : ∃ l a l', q = l ++ a :: l' ∧
    poll (compareKeys key) q = some (a, l ++ l') ∧ (∀ b ∈ l, key a < key b) ∧ ∀ b ∈ q, key a ≤ key b := by
  rcases h _ (compareKeys_comparison key) q hq with ⟨l, a, l', hl, hpoll, hbefore, hafter⟩
  have hfirst : ∀ b ∈ l, key a < key b := fun b hb => compareKeys_neg.mp (hbefore b hb)
  refine ⟨l, a, l', hl, hpoll, hfirst, ?_⟩
  intro b hb
  rw [hl] at hb
  rcases List.mem_append.mp hb with hb | hb
  · exact le_of_lt (hfirst b hb)
  · rcases List.mem_cons.mp hb with hb | hb
    · exact le_of_eq (by rw [hb])
    · exact compareKeys_nonpos.mp (hafter b hb)

/-! ## A queue that polls -/

def pollFirst (cmp : α → α → Int) : List α → Option (α × List α)
  | [] => none
  | a :: q =>
    match pollFirst cmp q with
    | none => some (a, [])
    | some (b, rest) => if cmp a b ≤ 0 then some (a, q) else some (b, a :: rest)

theorem pollFirst_polls : Polls (pollFirst (α := α)) := by
  intro cmp hcmp q hq
  induction q with
  | nil => exact absurd rfl hq
  | cons a q ih =>
    by_cases hnil : q = []
    · rw [hnil]
      exact ⟨[], a, [], rfl, rfl, by simp, by simp⟩
    · rcases ih hnil with ⟨l, b, l', hl, hpoll, hbefore, hafter⟩
      rw [pollFirst, hpoll]
      dsimp only
      split
      · rename_i hab
        refine ⟨[], a, q, rfl, rfl, by simp, ?_⟩
        intro c hc
        apply hcmp.trans a b c hab
        rw [hl] at hc
        rcases List.mem_append.mp hc with hc | hc
        · exact Int.le_of_lt (hbefore c hc)
        · rcases List.mem_cons.mp hc with hc | hc
          · rw [hc]
            -- an element is not above itself
            have hbb := hcmp.swap b b
            omega
          · exact hafter c hc
      · rename_i hab
        refine ⟨a :: l, b, l', by rw [hl]; rfl, rfl, ?_, hafter⟩
        intro c hc
        rcases List.mem_cons.mp hc with hc | hc
        · rw [hc]
          exact (hcmp.swap a b).mp (Int.not_le.mp hab)
        · exact hbefore c hc

end SysProg.Lib.PriQueue
