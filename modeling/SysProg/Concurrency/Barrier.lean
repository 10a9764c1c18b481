/-
  SysProg.Concurrency.Barrier — the reusable barrier of critical_concurrency/barrier.c.

  A barrier counts the threads that have arrived and, in `times_used`, the rounds that are
  over, modulo 2^32. Each of its threads calls `barrier_wait` any number of times, statement
  by statement (`Pc`), so a run interleaves the threads' statements in any order; the mutex
  is taken, given up by `pthread_cond_wait` and retaken as the code does.
  `pthread_cond_broadcast` wakes all that wait, and `Act.spurious` one of them at any time.
  `entered`, `arrived` and `returned` are the calls of each thread that it has made, that have
  counted it, and that are over.

  When `r` rounds are over a thread outside has arrived in all `r` of them, and one that is
  asleep in the round after them has read `r` (`At`); with the mutex free `count` is
  the number of the latter (`Settled`), who are never all. `barrier_separates_rounds` is
  what this gives over a run.
-/

import Mathlib.Data.Fintype.Card
import Mathlib.Data.Fintype.Fin
import SysProg.Lib.Monitor
import SysProg.Lib.Run

namespace SysProg.ReusableBarrier

open Function (update)

/-! ## The code -/

/-- `barrier_t`, without its mutex and condition variable. The three are unsigned ints, of
    which only `times_used` can overflow. -/
structure Barrier where
  nThreads : Nat
  count : Nat
  timesUsed : Nat

def barrierInit (numThreads : Nat) : Option Barrier := if numThreads = 0 then none else some ⟨numThreads, 0, 0⟩

inductive Pc where
  /-- In no call. -/
  | idle
  /-- Before `pthread_mutex_lock`. -/
  | lock
  | incCount
  | readTimesUsed
  /-- At the condition of the `if`. -/
  | test (timesUsed : Nat)
  | incTimesUsed
  | resetCount
  | broadcast
  /-- At the condition of the `while` loop. -/
  | loop (timesUsed : Nat)
  /-- In `pthread_cond_wait`, the mutex given up. -/
  | waiting (timesUsed : Nat)
  /-- Woken in `pthread_cond_wait`, retaking the mutex. -/
  | woken (timesUsed : Nat)
  | unlock

structure St (T : Type) where
  b : Barrier
  owner : Option T
  pc : T → Pc
  entered : T → Nat
  arrived : T → Nat
  returned : T → Nat

inductive Act (T : Type) where
  | run (t : T)
  | spurious (t : T)

def Pc.wake : Pc → Pc
  | .waiting timesUsed => .woken timesUsed
  | p => p

variable {T : Type} [DecidableEq T]

def lock (s : St T) (t : T) (p : Pc) : Option (St T) :=
  if s.owner.isNone then some { s with owner := some t, pc := update s.pc t p } else none

def barrierWait (s : St T) (t : T) : Option (St T) :=
  match s.pc t with
  | .idle => some { s with pc := update s.pc t .lock, entered := update s.entered t (s.entered t + 1) }
  | .lock => lock s t .incCount
  | .incCount => some { s with
      b := { s.b with count := s.b.count + 1 }
      pc := update s.pc t .readTimesUsed
      arrived := update s.arrived t (s.arrived t + 1) }
  | .readTimesUsed => some { s with pc := update s.pc t (.test s.b.timesUsed) }
  | .test timesUsed => some { s with
      pc := update s.pc t (if s.b.count = s.b.nThreads then .incTimesUsed else .loop timesUsed) }
  | .incTimesUsed => some { s with
      b := { s.b with timesUsed := (s.b.timesUsed + 1) % 2 ^ 32 }
      pc := update s.pc t .resetCount }
  | .resetCount => some { s with b := { s.b with count := 0 }, pc := update s.pc t .broadcast }
  | .broadcast => some { s with pc := update (fun u => (s.pc u).wake) t .unlock }
  | .loop timesUsed =>
    if timesUsed = s.b.timesUsed then some { s with owner := none, pc := update s.pc t (.waiting timesUsed) }
    else some { s with pc := update s.pc t .unlock }
  | .waiting _ => none
  | .woken timesUsed => lock s t (.loop timesUsed)
  | .unlock => some { s with
      owner := none
      pc := update s.pc t .idle
      returned := update s.returned t (s.returned t + 1) }

def step (s : St T) : Act T → Option (St T)
  | .run t => barrierWait s t
  | .spurious t =>
    match s.pc t with
    | .waiting timesUsed => some { s with pc := update s.pc t (.woken timesUsed) }
    | _ => none

def start (b : Barrier) : St T := ⟨b, none, fun _ => .idle, fun _ => 0, fun _ => 0, fun _ => 0⟩

variable [Fintype T]

def sharing (T : Type) [DecidableEq T] [Fintype T] : Run.Sys (St T) (Act T) :=
  Run.ofFun (fun s => ∃ b, barrierInit (Fintype.card T) = some b ∧ s = start b) step

/-! ## What holds when `r` rounds are over -/

def Pc.holds : Pc → Bool
  | .idle | .lock | .waiting _ | .woken _ => false
  | _ => true

def At (r entered arrived returned : Nat) : Pc → Prop
  | .idle => entered = arrived ∧ returned = arrived ∧ arrived = r
  | .lock | .incCount => entered = arrived + 1 ∧ returned = arrived ∧ arrived = r
  | .readTimesUsed | .incTimesUsed => entered = arrived ∧ returned + 1 = arrived ∧ arrived = r + 1
  | .test timesUsed => entered = arrived ∧ returned + 1 = arrived ∧ arrived = r + 1 ∧ timesUsed = r % 2 ^ 32
  | .resetCount | .broadcast | .unlock => entered = arrived ∧ returned + 1 = arrived ∧ arrived = r
  | .loop timesUsed | .waiting timesUsed | .woken timesUsed =>
    entered = arrived ∧ returned + 1 = arrived ∧ (arrived = r + 1 ∧ timesUsed = r % 2 ^ 32 ∨ arrived = r)

/-- How many have arrived in the round after the first `r`. -/
def arrivals (arrived : T → Nat) (r : Nat) : Nat := (Finset.univ.filter fun t => arrived t = r + 1).card

def Settled (b : Barrier) (arrived : T → Nat) (r : Nat) : Prop :=
  b.count = arrivals arrived r ∧ b.count < Fintype.card T

def Held (b : Barrier) (arrived : T → Nat) (r : Nat) : Pc → Prop
  | .readTimesUsed | .test _ => b.count = arrivals arrived r
  | .incTimesUsed => arrivals arrived r = Fintype.card T
  | .resetCount => ∀ t, arrived t = r
  | _ => Settled b arrived r

structure Inv (r : Nat) (s : St T) : Prop where
  excl : Monitor.Excl Pc.holds s.owner s.pc
  nThreads : s.b.nThreads = Fintype.card T
  timesUsed : s.b.timesUsed = r % 2 ^ 32
  at_ : ∀ t, At r (s.entered t) (s.arrived t) (s.returned t) (s.pc t)
  free : s.owner = none → Settled s.b s.arrived r
  held : ∀ t, s.owner = some t → Held s.b s.arrived r (s.pc t)

/-! ## One step -/

section
variable {b : Barrier} {arrived : T → Nat} {r : Nat} {t : T}

omit [DecidableEq T] in
theorem arrivals_le : arrivals arrived r ≤ Fintype.card T := Finset.card_le_univ _

omit [DecidableEq T] in
theorem arrivals_zero (h : ∀ t, arrived t = r) : arrivals arrived r = 0 := by
  unfold arrivals
  rw [Finset.card_eq_zero, Finset.filter_eq_empty_iff]
  intro t _ ht
  rw [h t] at ht
  omega

omit [DecidableEq T] in
/-- When as many have arrived as there are, all have. -/
theorem arrivals_all (h : arrivals arrived r = Fintype.card T) (t : T) : arrived t = r + 1 := by
  have huniv := Finset.eq_univ_of_card _ h
  have hmem := Finset.mem_univ t
  rw [← huniv] at hmem
  exact (Finset.mem_filter.mp hmem).2

theorem arrivals_arrive (h : arrived t = r) :
    arrivals (update arrived t (arrived t + 1)) r = arrivals arrived r + 1 := by
  have hset : (Finset.univ.filter fun u => update arrived t (arrived t + 1) u = r + 1) =
      insert t (Finset.univ.filter fun u => arrived u = r + 1) := by
    ext u
    by_cases hu : u = t
    · subst hu
      simp [h]
    · simp [hu]
  unfold arrivals
  rw [hset, Finset.card_insert_of_notMem]
  simp [h]

end

variable {s s' : St T} {r : Nat} {t : T}

omit [Fintype T] in
/-- A thread's new statement, and the others where they were. -/
theorem At.update {e a ret : T → Nat} {pc : T → Pc} {p : Pc} (h : ∀ u, At r (e u) (a u) (ret u) (pc u))
    (hp : At r (e t) (a t) (ret t) p) (u : T) : At r (e u) (a u) (ret u) (update pc t p u) := by
  by_cases hu : u = t
  · subst hu
    rwa [Function.update_self]
  · rw [Function.update_of_ne hu]
    exact h u

/-- One thread goes on and no call is counted: what it and the barrier need then. -/
theorem Inv.goes {owner : Option T} {b : Barrier} {p : Pc} (hi : Inv r s)
    (hexcl : Monitor.Excl Pc.holds owner (update s.pc t p))
    (hn : b.nThreads = s.b.nThreads) (hu : b.timesUsed = s.b.timesUsed)
    (hat : At r (s.entered t) (s.arrived t) (s.returned t) p)
    (hfree : owner = none → Settled b s.arrived r) (hheld : owner = some t → Held b s.arrived r p)
    (hother : ∀ u, u ≠ t → owner = some u → Held b s.arrived r (s.pc u)) :
    Inv r { s with b, owner, pc := update s.pc t p } where
  excl := hexcl
  nThreads := hn.trans hi.nThreads
  timesUsed := hu.trans hi.timesUsed
  at_ := At.update hi.at_ hat
  free := hfree
  held u ho := by
    by_cases hut : u = t
    · subst hut
      show Held b s.arrived r (update s.pc u p u)
      rw [Function.update_self]
      exact hheld ho
    · show Held b s.arrived r (update s.pc t p u)
      rw [Function.update_of_ne hut]
      exact hother u hut ho

/-- A thread outside stays outside. -/
theorem Inv.outside {p : Pc} (hi : Inv r s) (ht : (s.pc t).holds = false) (hp : p.holds = false)
    (hat : At r (s.entered t) (s.arrived t) (s.returned t) p) : Inv r { s with pc := update s.pc t p } := by
  refine hi.goes (hi.excl.keep (by rw [hp, ht])) rfl rfl hat hi.free ?_ fun u _ hu => hi.held u hu
  intro ho
  rw [(hi.excl t).mp ho] at ht
  cases ht

/-- The mutex is taken. -/
theorem Inv.locks {p : Pc} (hi : Inv r s) (hl : lock s t p = some s') (hp : p.holds = true)
    (hheld : Settled s.b s.arrived r → Held s.b s.arrived r p)
    (hat : At r (s.entered t) (s.arrived t) (s.returned t) p) : Inv r s' := by
  unfold lock at hl
  split at hl
  swap
  · cases hl
  rename_i ho
  have ho := Option.isNone_iff_eq_none.mp ho
  cases hl
  apply hi.goes (hi.excl.acquire ho hp) rfl rfl hat (by intro h; cases h) (fun _ => hheld (hi.free ho))
  intro u hu hown
  exact absurd (Option.some.inj hown).symm hu

/-- The thread inside goes on inside. -/
theorem Inv.inside {b : Barrier} {p : Pc} (hi : Inv r s) (ht : (s.pc t).holds = true) (hp : p.holds = true)
    (hn : b.nThreads = s.b.nThreads) (hu : b.timesUsed = s.b.timesUsed)
    (hat : At r (s.entered t) (s.arrived t) (s.returned t) p)
    (hheld : Held s.b s.arrived r (s.pc t) → Held b s.arrived r p) : Inv r { s with b, pc := update s.pc t p } := by
  have ho := hi.excl.owner_of ht
  refine hi.goes (hi.excl.keep (by rw [hp, ht])) hn hu hat ?_ (fun _ => hheld (hi.held t ho)) ?_
  · intro hfree
    rw [ho] at hfree
    cases hfree
  · intro u hne hown
    exact absurd (Option.some.inj (hown.symm.trans ho)) hne

/-- The mutex is given up. -/
theorem Inv.leaves {p : Pc} (hi : Inv r s) (ht : (s.pc t).holds = true) (hp : p.holds = false)
    (hat : At r (s.entered t) (s.arrived t) (s.returned t) p)
    (hheld : Held s.b s.arrived r (s.pc t) → Settled s.b s.arrived r) :
    Inv r { s with owner := none, pc := update s.pc t p } :=
  hi.goes (hi.excl.release ht hp) rfl rfl hat (fun _ => hheld (hi.held t (hi.excl.owner_of ht))) (by intro h; cases h)
    (by intro _ _ h; cases h)

/-- A call is made. -/
theorem Inv.enters (hi : Inv r s) (hp : s.pc t = .idle) :
    Inv r { s with pc := update s.pc t .lock, entered := update s.entered t (s.entered t + 1) } := by
  have hout : (s.pc t).holds = false := by rw [hp]; rfl
  have hat := hi.at_ t
  rw [hp] at hat
  rcases hat with ⟨he, hret, ha⟩
  refine ⟨hi.excl.keep (by rw [hout]; rfl), hi.nThreads, hi.timesUsed, ?_, hi.free, ?_⟩
  · intro u
    by_cases hu : u = t
    · subst hu
      simp only [Function.update_self]
      exact ⟨by rw [he], hret, ha⟩
    · simp only [Function.update_of_ne hu]
      exact hi.at_ u
  · intro u ho
    have hu : u ≠ t := by
      intro heq
      subst heq
      rw [(hi.excl u).mp ho] at hout
      cases hout
    simp only [Function.update_of_ne hu]
    exact hi.held u ho

/-- A call is counted. -/
theorem Inv.arrives (hi : Inv r s) (hp : s.pc t = .incCount) :
    Inv r { s with
      b := { s.b with count := s.b.count + 1 }
      pc := update s.pc t .readTimesUsed
      arrived := update s.arrived t (s.arrived t + 1) } := by
  have hin : (s.pc t).holds = true := by rw [hp]; rfl
  have ho := hi.excl.owner_of hin
  have hat := hi.at_ t
  have hheld := hi.held t ho
  rw [hp] at hat hheld
  rcases hat with ⟨he, hret, ha⟩
  refine ⟨hi.excl.keep (by rw [hin]; rfl), hi.nThreads, hi.timesUsed, ?_, ?_, ?_⟩
  · intro u
    by_cases hu : u = t
    · subst hu
      simp only [Function.update_self]
      exact ⟨he, by rw [hret], by rw [ha]⟩
    · simp only [Function.update_of_ne hu]
      exact hi.at_ u
  · intro hfree
    rw [ho] at hfree
    cases hfree
  · intro u hu
    obtain rfl : u = t := Option.some.inj (hu.symm.trans ho)
    simp only [Function.update_self]
    show s.b.count + 1 = _
    rw [arrivals_arrive ha, hheld.1]

/-- The round is over: every thread has arrived in it, and those asleep have read its number. -/
theorem Inv.turns (hi : Inv r s) (hp : s.pc t = .incTimesUsed) :
    Inv (r + 1) { s with
      b := { s.b with timesUsed := (s.b.timesUsed + 1) % 2 ^ 32 }
      pc := update s.pc t .resetCount } := by
  have hin : (s.pc t).holds = true := by rw [hp]; rfl
  have ho := hi.excl.owner_of hin
  have hheld := hi.held t ho
  rw [hp] at hheld
  have hall : ∀ u, s.arrived u = r + 1 := arrivals_all hheld
  refine ⟨hi.excl.keep (by rw [hin]; rfl), hi.nThreads, ?_, ?_, ?_, ?_⟩
  · show (s.b.timesUsed + 1) % 2 ^ 32 = (r + 1) % 2 ^ 32
    rw [hi.timesUsed]
    omega
  · intro u
    by_cases hu : u = t
    · subst hu
      have hat := hi.at_ u
      rw [hp] at hat
      simp only [Function.update_self]
      exact hat
    · simp only [Function.update_of_ne hu]
      have hat := hi.at_ u
      have hown : (s.pc u).holds = false := by
        by_contra hh
        exact hu (hi.excl.unique (Bool.eq_true_of_not_eq_false hh) hin)
      cases hpu : s.pc u with
      | waiting timesUsed | woken timesUsed =>
        rw [hpu] at hat
        exact ⟨hat.1, hat.2.1, Or.inr (hall u)⟩
      | idle | lock =>
        rw [hpu] at hat
        have hfew := hat.2.2
        rw [hall u] at hfew
        omega
      | _ =>
        rw [hpu] at hown
        cases hown
  · intro hfree
    rw [ho] at hfree
    cases hfree
  · intro u hu
    obtain rfl : u = t := Option.some.inj (hu.symm.trans ho)
    simp only [Function.update_self]
    exact hall

omit [DecidableEq T] [Fintype T] in
theorem At.wake {e a ret : Nat} {p : Pc} (h : At r e a ret p) : At r e a ret p.wake := by
  cases p <;> exact h

theorem Pc.holds_wake (p : Pc) : p.wake.holds = p.holds := by cases p <;> rfl

/-- All that wait are woken. -/
theorem Inv.broadcasts (hi : Inv r s) (hp : s.pc t = .broadcast) :
    Inv r { s with pc := update (fun u => (s.pc u).wake) t .unlock } := by
  have hin : (s.pc t).holds = true := by rw [hp]; rfl
  have hawake : Inv r { s with pc := fun u => (s.pc u).wake } := by
    refine ⟨?_, hi.nThreads, hi.timesUsed, fun u => (hi.at_ u).wake, hi.free, ?_⟩
    · intro u
      rw [Pc.holds_wake]
      exact hi.excl u
    · intro u hu
      have hheld := hi.held u hu
      show Held s.b s.arrived r (s.pc u).wake
      cases hpu : s.pc u <;> rw [hpu] at hheld <;> exact hheld
  have hwake : (s.pc t).wake = .broadcast := by rw [hp]; rfl
  have hat := hawake.at_ t
  refine hawake.inside (t := t) (p := .unlock) ?_ rfl rfl rfl ?_ ?_
  · dsimp only
    rw [hwake]
    rfl
  · dsimp only at hat
    rw [hwake] at hat
    exact hat
  · dsimp only
    rw [hwake]
    exact id

/-- The call returns. -/
theorem Inv.returns (hi : Inv r s) (hp : s.pc t = .unlock) :
    Inv r { s with owner := none, pc := update s.pc t .idle, returned := update s.returned t (s.returned t + 1) } := by
  have hin : (s.pc t).holds = true := by rw [hp]; rfl
  have hat := hi.at_ t
  have hheld := hi.held t (hi.excl.owner_of hin)
  rw [hp] at hat hheld
  refine ⟨hi.excl.release hin rfl, hi.nThreads, hi.timesUsed, ?_, fun _ => hheld, by intro _ h; cases h⟩
  intro u
  by_cases hu : u = t
  · subst hu
    simp only [Function.update_self]
    exact hat
  · simp only [Function.update_of_ne hu]
    exact hi.at_ u

/-- One statement of one thread. -/
theorem wait_inv (hi : Inv r s) (h : barrierWait s t = some s') : ∃ r', Inv r' s' := by
  have hat := hi.at_ t
  unfold barrierWait at h
  cases hp : s.pc t with
  | idle =>
    rw [hp] at h
    cases h
    exact ⟨r, hi.enters hp⟩
  | lock =>
    rw [hp] at h hat
    exact ⟨r, hi.locks h rfl id hat⟩
  | incCount =>
    rw [hp] at h
    cases h
    exact ⟨r, hi.arrives hp⟩
  | readTimesUsed =>
    rw [hp] at h hat
    cases h
    refine ⟨r, hi.inside (by rw [hp]; rfl) rfl rfl rfl ⟨hat.1, hat.2.1, hat.2.2, hi.timesUsed⟩ ?_⟩
    rw [hp]
    exact id
  | test timesUsed =>
    rw [hp] at h hat
    cases h
    by_cases hlast : s.b.count = s.b.nThreads
    · rw [if_pos hlast]
      refine ⟨r, hi.inside (by rw [hp]; rfl) rfl rfl rfl ⟨hat.1, hat.2.1, hat.2.2.1⟩ ?_⟩
      rw [hp]
      intro hcount
      show arrivals s.arrived r = _
      rw [← hcount, hlast, hi.nThreads]
    · rw [if_neg hlast]
      refine ⟨r, hi.inside (by rw [hp]; rfl) rfl rfl rfl ⟨hat.1, hat.2.1, Or.inl hat.2.2⟩ ?_⟩
      rw [hp]
      intro hcount
      refine ⟨hcount, Nat.lt_of_le_of_ne (hcount.trans_le arrivals_le) ?_⟩
      rwa [← hi.nThreads]
  | incTimesUsed =>
    rw [hp] at h
    cases h
    exact ⟨r + 1, hi.turns hp⟩
  | resetCount =>
    rw [hp] at h hat
    cases h
    refine ⟨r, hi.inside (by rw [hp]; rfl) rfl rfl rfl hat ?_⟩
    rw [hp]
    intro hall
    exact ⟨(arrivals_zero hall).symm, Fintype.card_pos_iff.mpr ⟨t⟩⟩
  | broadcast =>
    rw [hp] at h
    cases h
    exact ⟨r, hi.broadcasts hp⟩
  | loop timesUsed =>
    rw [hp] at h hat
    dsimp only at h
    split at h
    · cases h
      refine ⟨r, hi.leaves (by rw [hp]; rfl) rfl hat ?_⟩
      rw [hp]
      exact id
    · rename_i hne
      cases h
      -- had it read the number of a round that is not over, it would go on waiting
      rcases hat with ⟨he, hret, ⟨-, hread⟩ | ha⟩
      · exact absurd (hread.trans hi.timesUsed.symm) hne
      refine ⟨r, hi.inside (by rw [hp]; rfl) rfl rfl rfl ⟨he, hret, ha⟩ ?_⟩
      rw [hp]
      exact id
  | waiting timesUsed =>
    rw [hp] at h
    cases h
  | woken timesUsed =>
    rw [hp] at h hat
    exact ⟨r, hi.locks h rfl id hat⟩
  | unlock =>
    rw [hp] at h
    cases h
    exact ⟨r, hi.returns hp⟩

theorem step_inv {a : Act T} (hi : Inv r s) (h : step s a = some s') : ∃ r', Inv r' s' := by
  cases a with
  | run t => exact wait_inv hi h
  | spurious t =>
    unfold step at h
    dsimp only at h
    split at h
    · rename_i timesUsed hp
      cases h
      have hat := hi.at_ t
      rw [hp] at hat
      exact ⟨r, hi.outside (by rw [hp]; rfl) rfl hat⟩
    · cases h

/-! ## Every run -/

omit [DecidableEq T] in
theorem start_inv {b : Barrier} (h : barrierInit (Fintype.card T) = some b) : Inv 0 (start b : St T) := by
  unfold barrierInit at h
  split at h
  · cases h
  rename_i hpos
  cases h
  have hzero : arrivals (fun _ : T => 0) 0 = 0 := arrivals_zero fun _ => rfl
  refine ⟨?_, rfl, rfl, fun _ => ⟨rfl, rfl, rfl⟩, fun _ => ⟨hzero.symm, Nat.pos_of_ne_zero hpos⟩, by intro _ h; cases h⟩
  intro t
  exact ⟨nofun, nofun⟩

theorem reach_inv (h : (sharing T).Reach s) : ∃ r, Inv r s := by
  refine Run.Sys.Reach.inv (I := fun s => ∃ r, Inv r s) ?_ ?_ h
  · rintro _ ⟨b, hb, rfl⟩
    exact ⟨0, start_inv hb⟩
  · intro _ _ _ ⟨r, hi⟩ hs
    exact step_inv hi hs

/-- Every thread has arrived in that many rounds, and not every one in one more. -/
def RoundsOver (arrived : T → Nat) (r : Nat) : Prop := (∀ t, r ≤ arrived t) ∧ ∃ t, arrived t = r

omit [Fintype T] in
theorem At.near {e a ret : Nat} {p : Pc} (h : At r e a ret p) : ret ≤ r ∧ r ≤ e ∧ (a = r ∨ a = r + 1) := by
  unfold At at h
  split at h <;> omega

/-- Whatever the threads do: none has returned from a call that another has not made, and with the
    mutex free `count` is less than the number of threads, and is the number of them that have arrived
    in the round after those that are over. -/
theorem barrier_separates_rounds (h : (sharing T).Reach s) :
    (∀ t k, k ≤ s.returned t → ∀ u, k ≤ s.entered u) ∧
    (s.owner = none → s.b.count < Fintype.card T ∧ ∃ r, RoundsOver s.arrived r ∧
      s.b.count = (Finset.univ.filter fun t => r < s.arrived t).card) := by
  rcases reach_inv h with ⟨r, hi⟩
  refine ⟨?_, ?_⟩
  · intro t k hk u
    exact hk.trans ((hi.at_ t).near.1.trans (hi.at_ u).near.2.1)
  · intro hfree
    rcases hi.free hfree with ⟨hcount, hlt⟩
    have hsame : ∀ t, r < s.arrived t ↔ s.arrived t = r + 1 := by
      intro t
      have hnear := (hi.at_ t).near.2.2
      omega
    refine ⟨hlt, r, ⟨fun t => ?_, ?_⟩, ?_⟩
    · have hnear := (hi.at_ t).near.2.2
      omega
    · by_contra hnone
      have hall : ∀ t, s.arrived t = r + 1 := by
        intro t
        have hnear := (hi.at_ t).near.2.2
        have hne : s.arrived t ≠ r := fun e => hnone ⟨t, e⟩
        omega
      have hcard : arrivals s.arrived r = Fintype.card T := by
        unfold arrivals
        rw [Finset.filter_true_of_mem fun t _ => hall t]
        rfl
      omega
    · rw [hcount]
      unfold arrivals
      simp only [hsame]

/-- One thread is asleep in the second round when the other has not left the first. -/
theorem barrier_separates_rounds_two :
    ∃ s : St (Fin 2), Run.exec step (start ⟨2, 0, 0⟩) (List.replicate 6 (.run 0) ++ .spurious 0 ::
        List.replicate 15 (.run 1)) = some s ∧
      List.ofFn s.arrived = [1, 2] ∧ List.ofFn s.returned = [0, 1] ∧ s.b.count = 1 ∧
      (∀ t k, k ≤ s.returned t → ∀ u, k ≤ s.entered u) ∧
      ∃ r, RoundsOver s.arrived r ∧ s.b.count = (Finset.univ.filter fun t => r < s.arrived t).card := by
  have hrun : (Run.exec step (start ⟨2, 0, 0⟩) (List.replicate 6 (.run 0) ++ .spurious 0 ::
      List.replicate 15 (.run 1)) : Option (St (Fin 2))).map
        (fun s => (s.owner, List.ofFn s.arrived, List.ofFn s.returned, s.b.count)) =
      some (none, [1, 2], [0, 1], 1) := by decide
  rcases Option.map_eq_some_iff.mp hrun with ⟨s, hs, heq⟩
  have hinit : (sharing (Fin 2)).init (start ⟨2, 0, 0⟩) := ⟨_, rfl, rfl⟩
  have hreach : (sharing (Fin 2)).Reach s := Run.reach_exec hinit hs
  rcases barrier_separates_rounds hreach with ⟨hreturn, hcount⟩
  simp only [Prod.mk.injEq] at heq
  rcases heq with ⟨hfree, harrived, hreturned, hone⟩
  exact ⟨s, hs, harrived, hreturned, hone, hreturn, (hcount hfree).2⟩

end SysProg.ReusableBarrier
