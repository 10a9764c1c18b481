/-
  SysProg.Concurrency.SemamoreWakeup — no wakeup of the bounded semaphore is lost
  (see `SysProg.Concurrency.Semamore`).

  Only `semm_wait` ever waits, so a signal cannot go to a thread that has no use for it, unlike
  in the queue (`SysProg.Concurrency.QueueWakeup`). A thread is on its way (`Pc.awake`) when it
  is going to look at the value, or to signal one that does. While somebody waits the threads on
  their way are at least as many as the value (`Covered`), however the signals and the
  spurious wakeups fall: each increment brings one of them, and each takes one off the value or
  goes to sleep at 0.

  Main result: `wakeups_are_kept`, for every initial value and bound.
-/

import SysProg.Concurrency.Semamore
import SysProg.Lib.Threads

namespace SysProg.BoundedSemaphore

open Function (update)

variable {T : Type} [DecidableEq T] [Fintype T] {s s' : St T} {t : T} {p : Pc} {value maxVal : Int}

/-- Going to look at the value and take one off it, or to signal a waiter. -/
def Pc.awake : Pc → Nat
  | .woken | .loop | .decValue | .signal => 1
  | _ => 0

omit [DecidableEq T] in
def awake (s : St T) : Nat := ∑ t, (s.pc t).awake

def Waits (s : St T) : Prop := ∃ t, s.pc t = .waiting

def Covered (s : St T) : Prop := Waits s → s.sem.value ≤ awake s

/-- Every thread in a call is blocked in `pthread_cond_wait`, with the value positive. -/
def LostWakeup (s : St T) : Prop := 0 < s.sem.value ∧ Waits s ∧ ∀ t, s.pc t = .idle ∨ s.pc t = .waiting

/-! ## One thread moves -/

theorem awake_update (pc : T → Pc) (t : T) (p : Pc) :
    ∑ u, (update pc t p u).awake + (pc t).awake = ∑ u, (pc u).awake + p.awake := Threads.sum_update Pc.awake pc t p

omit [Fintype T] in
/-- A thread that waits now and did not move waited before. -/
theorem waits_of_update {pc : T → Pc} (h : ∃ u, update pc t p u = .waiting) (hp : p ≠ .waiting) :
    ∃ u, pc u = .waiting := by
  obtain ⟨u, hu⟩ := h
  by_cases e : u = t
  · subst e
    rw [Function.update_self] at hu
    exact absurd hu hp
  · rw [Function.update_of_ne e] at hu
    exact ⟨u, hu⟩

/-- The value grows by no more than the number of threads on their way. -/
theorem Covered.move {sem : Semamore} {owner : Option T} {waits posts lost : Nat} (h : Covered s) (hp : p ≠ .waiting)
    (hv : sem.value + (s.pc t).awake ≤ s.sem.value + p.awake) :
    Covered { s with sem, owner, waits, posts, lost, pc := update s.pc t p } := by
  intro hw
  have hcount := h (waits_of_update hw hp)
  have hsum := awake_update s.pc t p
  show sem.value ≤ (∑ u, (update s.pc t p u).awake : Nat)
  unfold awake at hcount
  omega

theorem Covered.locks (h : Covered s) (hl : lock s t p = some s') (hp : p ≠ .waiting)
    (hawake : (s.pc t).awake ≤ p.awake) : Covered s' := by
  unfold lock at hl
  split at hl
  · cases hl
    exact h.move hp (by omega)
  · cases hl

theorem runThread_covered (h : Covered s) (hrun : runThread s t = some s') : Covered s' := by
  unfold runThread at hrun
  cases hp : s.pc t with
  | idle | waiting | signal =>
    rw [hp] at hrun
    cases hrun
  | lock c =>
    rw [hp] at hrun
    cases c with
    | wait => exact h.locks hrun (by simp) (by simp [hp, Pc.awake])
    | post => exact h.locks hrun (by simp) (by simp [hp, Pc.awake])
  | woken =>
    rw [hp] at hrun
    exact h.locks hrun (by simp) (by simp [hp, Pc.awake])
  | loop =>
    rw [hp] at hrun
    dsimp only at hrun
    split at hrun
    · rename_i hzero
      cases hrun
      intro _
      show s.sem.value ≤ _
      rw [hzero]
      exact Int.natCast_nonneg _
    · cases hrun
      exact h.move (by simp) (by simp [hp, Pc.awake])
  | decValue =>
    rw [hp] at hrun
    cases hrun
    exact h.move (by simp) (by simp [hp, Pc.awake])
  | test =>
    rw [hp] at hrun
    cases hrun
    refine h.move ?_ ?_
    · split <;> simp
    · rw [hp]
      split <;> simp [Pc.awake]
  | incValue =>
    rw [hp] at hrun
    cases hrun
    exact h.move (by simp) (by simp [hp, Pc.awake])
  | unlock c =>
    rw [hp] at hrun
    cases hrun
    cases c with
    | wait => exact h.move (by simp) (by simp [hp, Pc.awake])
    | post => exact h.move (by simp) (by simp [hp, Pc.awake])

/-- The thread that is woken is on its way in place of the one that signals. -/
theorem Covered.wakes {u : T} (h : Covered s) (hp : s.pc t = .signal) (hu : s.pc u = .waiting) :
    Covered { s with pc := update (update s.pc t (.unlock .post)) u .woken } := by
  intro _
  have hcount := h ⟨u, hu⟩
  have hfirst := awake_update s.pc t (.unlock .post)
  have hne : u ≠ t := by
    intro e
    subst e
    cases hp.symm.trans hu
  have hsecond := awake_update (update s.pc t (.unlock .post)) u .woken
  rw [Function.update_of_ne hne, hu, show Pc.waiting.awake = 0 from rfl, show Pc.woken.awake = 1 from rfl] at hsecond
  rw [hp, show Pc.signal.awake = 1 from rfl, show (Pc.unlock .post).awake = 0 from rfl] at hfirst
  show s.sem.value ≤ (∑ w, (update (update s.pc t (.unlock .post)) u .woken w).awake : Nat)
  unfold awake at hcount
  omega

theorem step_covered {a : Act T} (h : Covered s) (hstep : step s a = some s') : Covered s' := by
  cases a with
  | call t c =>
    simp only [step] at hstep
    split at hstep
    · rename_i hp
      cases hstep
      exact h.move (by simp) (by simp [hp, Pc.awake])
    · cases hstep
  | run t => exact runThread_covered h hstep
  | signal t w =>
    simp only [step] at hstep
    split at hstep
    swap
    · cases hstep
    rename_i hp
    cases w with
    | none =>
      dsimp only at hstep
      split at hstep
      · rename_i hnone
        cases hstep
        intro hw
        obtain ⟨u, hu⟩ := waits_of_update hw (by simp)
        exact absurd hu (hnone u)
      · cases hstep
    | some u =>
      dsimp only at hstep
      split at hstep
      · rename_i hu
        cases hstep
        exact h.wakes hp hu
      · cases hstep
  | spurious w =>
    simp only [step] at hstep
    split at hstep
    · rename_i hp
      cases hstep
      exact h.move (by simp) (by simp [hp, Pc.awake])
    · cases hstep

/-! ## Every run -/

theorem reach_covered (h : (sharing T value maxVal).Reach s) : Covered s := by
  refine Run.Sys.Reach.inv (I := Covered) ?_ ?_ h
  · intro z hz ⟨t, ht⟩
    subst hz
    cases ht
  · exact fun _ _ _ hc hs => step_covered hc hs

/-- In every run: while a thread waits, as many threads are on their way to the value as it
    is, so not everybody in a call is blocked when the value is positive. -/
theorem wakeups_are_kept (h : (sharing T value maxVal).Reach s) :
    (Waits s → s.sem.value ≤ awake s) ∧ ¬ LostWakeup s := by
  have hc := reach_covered h
  refine ⟨hc, ?_⟩
  intro ⟨hpos, hw, hall⟩
  have hnone : awake s = 0 := by
    refine Finset.sum_eq_zero fun t _ => ?_
    rcases hall t with ht | ht <;> rw [ht] <;> rfl
  have hcount := hc hw
  rw [hnone] at hcount
  omega

/-- A post has counted and is about to signal the waiter. -/
theorem wakeups_are_kept_signal : ∃ s : St (Fin 2), (sharing (Fin 2) 0 1).Reach s ∧ s.sem.value = 1 ∧
    List.ofFn s.pc = [.waiting, .signal] ∧ (Waits s → s.sem.value ≤ awake s) ∧ ¬ LostWakeup s := by
  have hrun : (Run.exec step (start (semmInit 0 1))
      [.call 0 .wait, .run 0, .run 0, .call 1 .post, .run 1, .run 1, .run 1] : Option (St (Fin 2))).map
        (fun s => (s.sem.value, List.ofFn s.pc)) = some (1, [.waiting, .signal]) := by decide
  obtain ⟨s, hs, he⟩ := Option.map_eq_some_iff.mp hrun
  obtain ⟨hvalue, hpc⟩ := Prod.mk.inj he
  have hinit : (sharing (Fin 2) 0 1).init (start (semmInit 0 1)) := rfl
  have hr : (sharing (Fin 2) 0 1).Reach s := Run.reach_exec hinit hs
  exact ⟨s, hr, hvalue, hpc, wakeups_are_kept hr⟩

end SysProg.BoundedSemaphore
