/-
  SysProg.Lib.Monitor — a mutex and the program counters of the threads that take it.

  `holds` says at which program points a thread holds the mutex. `Excl` is the one fact
  every monitor keeps: the owner is exactly the thread at such a point. Each rule is
  one kind of step of one thread: it takes the free mutex, gives it up, or moves
  without doing either.
-/

import Mathlib.Logic.Function.Basic

namespace SysProg.Monitor

open Function (update)

variable {T P : Type} [DecidableEq T]

def Excl (holds : P → Bool) (owner : Option T) (pc : T → P) : Prop := ∀ t, owner = some t ↔ holds (pc t) = true

variable {holds : P → Bool} {owner : Option T} {pc : T → P} {t : T} {p : P}

omit [DecidableEq T] in
theorem Excl.owner_of (h : Excl holds owner pc) (ht : holds (pc t) = true) : owner = some t := (h t).mpr ht

omit [DecidableEq T] in
/-- At most one thread is inside. -/
theorem Excl.unique (h : Excl holds owner pc) {u : T} (ht : holds (pc t) = true) (hu : holds (pc u) = true) : t = u :=
  Option.some.inj ((h.owner_of ht).symm.trans (h.owner_of hu))

theorem Excl.acquire (h : Excl holds owner pc) (ho : owner = none) (hp : holds p = true) :
    Excl holds (some t) (update pc t p) := by
  intro u
  by_cases e : u = t
  · subst e; simp [hp]
  · rw [Function.update_of_ne e, ← h u, ho]
    simp [Ne.symm e]

theorem Excl.release (h : Excl holds owner pc) (ht : holds (pc t) = true) (hp : holds p = false) :
    Excl holds none (update pc t p) := by
  intro u
  by_cases e : u = t
  · subst e; simp [hp]
  · rw [Function.update_of_ne e]
    exact ⟨fun hn => (by cases hn), fun hu => absurd (h.unique hu ht) e⟩

theorem Excl.keep (h : Excl holds owner pc) (hp : holds p = holds (pc t)) : Excl holds owner (update pc t p) := by
  intro u
  by_cases e : u = t
  · subst e; rw [Function.update_self, hp]; exact h u
  · rw [Function.update_of_ne e]; exact h u

end SysProg.Monitor
