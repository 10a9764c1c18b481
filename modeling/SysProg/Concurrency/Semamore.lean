/-
  SysProg.Concurrency.Semamore — the bounded semaphore of critical_concurrency/semamore.c.

  Threads call `semm_wait` and `semm_post` any number of times, statement by statement
  (`Pc`), in any order; the mutex is taken, given up by `pthread_cond_wait` and retaken as
  the code does. `pthread_cond_signal` wakes one waiter of the scheduler's choice, or none when
  nobody waits, and `Act.spurious` wakes a waiter without a signal. `waits` and `posts` count
  the calls that have returned.

  The value stays between 0 and `max_val` in every run (`value_bounded`). At `max_val` a post is
  to block, but it returns without counting: `post_not_counted` is such a run, and as long as no post
  finds the value there every call counts (`calls_counted`).
-/

import Mathlib.Data.Fintype.Fin
import SysProg.Lib.Monitor
import SysProg.Lib.Run

namespace SysProg.BoundedSemaphore

open Function (update)

/-! ## The code -/

inductive Call where
  | wait
  | post
  deriving DecidableEq

inductive Pc where
  /-- In no call. -/
  | idle
  /-- Before `pthread_mutex_lock`. -/
  | lock (c : Call)
  /-- At the condition of the `while` loop of `semm_wait`. -/
  | loop
  /-- In `pthread_cond_wait`, the mutex given up. -/
  | waiting
  /-- Woken in `pthread_cond_wait`, retaking the mutex. -/
  | woken
  | decValue
  /-- At the condition of the `if` of `semm_post`. -/
  | test
  | incValue
  | signal
  | unlock (c : Call)
  deriving DecidableEq

/-- `Semamore`, without its mutex and condition variable. -/
structure Semamore where
  value : Int
  maxVal : Int

def semmInit (value maxVal : Int) : Semamore := ⟨value, maxVal⟩

structure St (T : Type) where
  sem : Semamore
  owner : Option T
  pc : T → Pc
  waits : Nat
  posts : Nat
  /-- The posts that found the value at its bound. -/
  lost : Nat

inductive Act (T : Type) where
  | call (t : T) (c : Call)
  | run (t : T)
  | signal (t : T) (w : Option T)
  | spurious (w : T)
  deriving DecidableEq

variable {T : Type} [DecidableEq T]

def lock (s : St T) (t : T) (p : Pc) : Option (St T) :=
  if s.owner.isNone then some { s with owner := some t, pc := update s.pc t p } else none

def unlock (s : St T) (t : T) : Call → St T
  | .wait => { s with owner := none, pc := update s.pc t .idle, waits := s.waits + 1 }
  | .post => { s with owner := none, pc := update s.pc t .idle, posts := s.posts + 1 }

def runThread (s : St T) (t : T) : Option (St T) :=
  match s.pc t with
  | .lock .wait => lock s t .loop
  | .lock .post => lock s t .test
  | .woken => lock s t .loop
  | .loop =>
    if s.sem.value = 0 then some { s with owner := none, pc := update s.pc t .waiting }
    else some { s with pc := update s.pc t .decValue }
  | .decValue => some { s with
      sem := { s.sem with value := s.sem.value - 1 }
      pc := update s.pc t (.unlock .wait) }
  | .test => some { s with
      pc := update s.pc t (if s.sem.value < s.sem.maxVal then .incValue else .unlock .post)
      lost := if s.sem.value < s.sem.maxVal then s.lost else s.lost + 1 }
  | .incValue => some { s with
      sem := { s.sem with value := s.sem.value + 1 }
      pc := update s.pc t .signal }
  | .unlock c => some (unlock s t c)
  | .idle | .waiting | .signal => none

variable [Fintype T]

def step (s : St T) : Act T → Option (St T)
  | .call t c => if s.pc t = .idle then some { s with pc := update s.pc t (.lock c) } else none
  | .run t => runThread s t
  | .signal t w =>
    if s.pc t = .signal then
      match w with
      | none => if ∀ u, s.pc u ≠ .waiting then some { s with pc := update s.pc t (.unlock .post) } else none
      | some u =>
        if s.pc u = .waiting then some { s with pc := update (update s.pc t (.unlock .post)) u .woken } else none
    else none
  | .spurious w => if s.pc w = .waiting then some { s with pc := update s.pc w .woken } else none

def start (sem : Semamore) : St T := ⟨sem, none, fun _ => .idle, 0, 0, 0⟩

def sharing (T : Type) [DecidableEq T] [Fintype T] (value maxVal : Int) : Run.Sys (St T) (Act T) :=
  Run.ofFun (fun s => s = start (semmInit value maxVal)) step

/-! ## The value -/

def Pc.holds : Pc → Bool
  | .idle | .lock _ | .waiting | .woken => false
  | _ => true

/-- What a call counts for and has not been counted as, before it returns. -/
def Pc.pending : Pc → Int
  | .signal | .unlock .post => 1
  | .unlock .wait => -1
  | _ => 0

def Room (sem : Semamore) : Pc → Prop
  | .decValue => 0 < sem.value
  | .incValue => sem.value < sem.maxVal
  | _ => True

/-- The calls that have returned account for the value, but for what the call inside has done. -/
structure Inv (value maxVal : Int) (s : St T) : Prop where
  excl : Monitor.Excl Pc.holds s.owner s.pc
  max : s.sem.maxVal = maxVal
  bounds : 0 ≤ s.sem.value ∧ s.sem.value ≤ maxVal
  free : s.owner = none → s.sem.value = value + s.posts - s.waits - s.lost
  held : ∀ t, s.owner = some t → Room s.sem (s.pc t) ∧
    s.sem.value = value + s.posts - s.waits - s.lost + (s.pc t).pending

variable {s s' : St T} {value maxVal : Int} {t : T} {p : Pc}

omit [Fintype T] in
/-- A thread outside stays outside. -/
theorem Inv.outside (hi : Inv value maxVal s) (ht : (s.pc t).holds = false) (hp : p.holds = false) :
    Inv value maxVal { s with pc := update s.pc t p } := by
  refine ⟨hi.excl.keep (by rw [hp, ht]), hi.max, hi.bounds, hi.free, ?_⟩
  intro u ho
  have hu : u ≠ t := by
    intro heq
    subst heq
    rw [(hi.excl u).mp ho] at ht
    cases ht
  simp only [Function.update_of_ne hu]
  exact hi.held u ho

omit [Fintype T] in
/-- The mutex is taken, before anything is done. -/
theorem Inv.locks (hi : Inv value maxVal s) (hl : lock s t p = some s') (hp : p = .loop ∨ p = .test) :
    Inv value maxVal s' := by
  unfold lock at hl
  split at hl
  swap
  · cases hl
  rename_i ho
  have ho := Option.isNone_iff_eq_none.mp ho
  cases hl
  refine ⟨hi.excl.acquire ho (by rcases hp with rfl | rfl <;> rfl), hi.max, hi.bounds, nofun, ?_⟩
  intro u hu
  obtain rfl : t = u := Option.some.inj hu
  have hcount := hi.free ho
  simp only [Function.update_self]
  rcases hp with rfl | rfl
  · exact ⟨trivial, hcount.trans (Int.add_zero _).symm⟩
  · exact ⟨trivial, hcount.trans (Int.add_zero _).symm⟩

omit [Fintype T] in
/-- The thread inside goes on inside, and has counted one more or less, or lost one. -/
theorem Inv.inside {sem : Semamore} {lost : Nat} (hi : Inv value maxVal s) (ht : (s.pc t).holds = true)
    (hp : p.holds = true) (hmax : sem.maxVal = s.sem.maxVal) (hbounds : 0 ≤ sem.value ∧ sem.value ≤ maxVal)
    (hroom : Room sem p)
    (hcount : sem.value + lost - p.pending = s.sem.value + s.lost - (s.pc t).pending) :
    Inv value maxVal { s with sem, lost, pc := update s.pc t p } := by
  have ho := hi.excl.owner_of ht
  refine ⟨hi.excl.keep (by rw [hp, ht]), hmax.trans hi.max, hbounds, ?_, ?_⟩
  · intro hfree
    rw [ho] at hfree
    cases hfree
  · intro u hu
    obtain rfl : u = t := Option.some.inj (hu.symm.trans ho)
    have hbefore := (hi.held u ho).2
    simp only [Function.update_self]
    exact ⟨hroom, by omega⟩

omit [Fintype T] in
/-- The call returns, and is counted. -/
theorem Inv.returns {c : Call} (hi : Inv value maxVal s) (hp : s.pc t = .unlock c) :
    Inv value maxVal (unlock s t c) := by
  have hin : (s.pc t).holds = true := by rw [hp]; rfl
  have hcount := (hi.held t (hi.excl.owner_of hin)).2
  rw [hp] at hcount
  cases c with
  | wait =>
    refine ⟨hi.excl.release hin rfl, hi.max, hi.bounds, fun _ => ?_, by intro _ h; cases h⟩
    simp only [unlock, Pc.pending] at hcount ⊢
    omega
  | post =>
    refine ⟨hi.excl.release hin rfl, hi.max, hi.bounds, fun _ => ?_, by intro _ h; cases h⟩
    simp only [unlock, Pc.pending] at hcount ⊢
    omega

omit [Fintype T] in
/-- One statement of one thread. -/
theorem runThread_inv (hi : Inv value maxVal s) (h : runThread s t = some s') : Inv value maxVal s' := by
  have hbounds := hi.bounds
  have hmax := hi.max
  unfold runThread at h
  cases hp : s.pc t with
  | idle | waiting | signal =>
    rw [hp] at h
    cases h
  | lock c =>
    rw [hp] at h
    cases c with
    | wait => exact hi.locks h (Or.inl rfl)
    | post => exact hi.locks h (Or.inr rfl)
  | woken =>
    rw [hp] at h
    exact hi.locks h (Or.inl rfl)
  | loop =>
    have hin : (s.pc t).holds = true := by rw [hp]; rfl
    rw [hp] at h
    dsimp only at h
    split at h
    · cases h
      refine ⟨hi.excl.release hin rfl, hi.max, hi.bounds, fun _ => ?_, by intro _ h; cases h⟩
      have hcount := (hi.held t (hi.excl.owner_of hin)).2
      rw [hp] at hcount
      exact hcount.trans (Int.add_zero _)
    · cases h
      refine hi.inside hin rfl rfl hi.bounds ?_ (by rw [hp]; rfl)
      show 0 < s.sem.value
      omega
  | decValue =>
    have hin : (s.pc t).holds = true := by rw [hp]; rfl
    have hroom := (hi.held t (hi.excl.owner_of hin)).1
    rw [hp] at h hroom
    cases h
    have hroom : 0 < s.sem.value := hroom
    refine hi.inside hin rfl rfl ?_ trivial ?_
    · dsimp only
      omega
    · rw [hp]
      simp only [Pc.pending]
      omega
  | test =>
    have hin : (s.pc t).holds = true := by rw [hp]; rfl
    rw [hp] at h
    cases h
    by_cases hroom : s.sem.value < s.sem.maxVal
    · simp only [hroom, if_true]
      exact hi.inside hin rfl rfl hi.bounds hroom (by rw [hp]; rfl)
    · simp only [hroom, if_false]
      refine hi.inside hin rfl rfl hi.bounds trivial ?_
      rw [hp]
      simp only [Pc.pending]
      push_cast
      omega
  | incValue =>
    have hin : (s.pc t).holds = true := by rw [hp]; rfl
    have hroom := (hi.held t (hi.excl.owner_of hin)).1
    rw [hp] at h hroom
    cases h
    have hroom : s.sem.value < s.sem.maxVal := hroom
    refine hi.inside hin rfl rfl ?_ trivial ?_
    · dsimp only
      omega
    · rw [hp]
      simp only [Pc.pending]
      omega
  | unlock c =>
    rw [hp] at h
    cases h
    exact hi.returns hp

theorem step_inv {a : Act T} (hi : Inv value maxVal s) (h : step s a = some s') : Inv value maxVal s' := by
  cases a with
  | call t c =>
    simp only [step] at h
    split at h
    · rename_i hp
      cases h
      exact hi.outside (by rw [hp]; rfl) rfl
    · cases h
  | run t => exact runThread_inv hi h
  | signal t w =>
    simp only [step] at h
    split at h
    swap
    · cases h
    rename_i hp
    have hsignalled : Inv value maxVal { s with pc := update s.pc t (.unlock .post) } :=
      hi.inside (by rw [hp]; rfl) rfl rfl hi.bounds trivial (by rw [hp]; rfl)
    cases w with
    | none =>
      dsimp only at h
      split at h
      · cases h
        exact hsignalled
      · cases h
    | some u =>
      dsimp only at h
      split at h
      · rename_i hw
        cases h
        have hne : u ≠ t := by
          intro heq
          subst heq
          cases hp.symm.trans hw
        refine hsignalled.outside (t := u) ?_ rfl
        simp only [Function.update_of_ne hne]
        rw [hw]
        rfl
      · cases h
  | spurious w =>
    simp only [step] at h
    split at h
    · rename_i hw
      cases h
      exact hi.outside (by rw [hw]; rfl) rfl
    · cases h

/-! ## Every run -/

theorem reach_inv (hv : 0 ≤ value) (hm : value ≤ maxVal) (h : (sharing T value maxVal).Reach s) :
    Inv value maxVal s := by
  refine Run.Sys.Reach.inv (I := Inv value maxVal) ?_ ?_ h
  · intro _ heq
    subst heq
    refine ⟨fun t => ⟨nofun, nofun⟩, rfl, ⟨hv, hm⟩, fun _ => ?_, by intro _ h; cases h⟩
    simp [start, semmInit]
  · exact fun _ _ _ hi hs => step_inv hi hs

/-- In every run: the value is within its bounds, and with the mutex free the posts that returned
    without counting are what it lacks. -/
theorem value_bounded (hv : 0 ≤ value) (hm : value ≤ maxVal) (h : (sharing T value maxVal).Reach s) :
    (0 ≤ s.sem.value ∧ s.sem.value ≤ maxVal) ∧
      (s.owner = none → s.sem.value = value + s.posts - s.waits - s.lost) :=
  ⟨(reach_inv hv hm h).bounds, (reach_inv hv hm h).free⟩

def NoneFull (s : St T) (a : Act T) : Prop := ∀ t, a = .run t → s.pc t = .test → s.sem.value < s.sem.maxVal

theorem lost_step {a : Act T} (hc : NoneFull s a) (h : step s a = some s') : s'.lost = s.lost := by
  cases a with
  | run t =>
    have hroom := hc t rfl
    simp only [step, runThread] at h
    cases hp : s.pc t with
    | test =>
      rw [hp] at h
      cases h
      exact if_pos (hroom hp)
    | lock c =>
      rw [hp] at h
      cases c <;> simp only [lock] at h <;> split at h <;> cases h <;> rfl
    | woken =>
      rw [hp] at h
      simp only [lock] at h
      split at h <;> cases h
      rfl
    | loop =>
      rw [hp] at h
      dsimp only at h
      split at h <;> cases h <;> rfl
    | unlock c =>
      rw [hp] at h
      cases h
      cases c <;> rfl
    | decValue | incValue | idle | waiting | signal =>
      rw [hp] at h
      cases h <;> rfl
  | call t c | spurious w =>
    simp only [step] at h
    split at h <;> cases h
    rfl
  | signal t w =>
    simp only [step] at h
    split at h
    swap
    · cases h
    cases w <;> dsimp only at h <;> split at h <;> cases h <;> rfl

/-- As long as no post finds the value at its bound, every call that has returned counts. -/
theorem calls_counted (hv : 0 ≤ value) (hm : value ≤ maxVal) (h : (sharing T value maxVal).Via NoneFull s)
    (hfree : s.owner = none) :
    0 ≤ s.sem.value ∧ s.sem.value ≤ maxVal ∧ s.sem.value = value + s.posts - s.waits := by
  have hlost : s.lost = 0 := by
    refine Run.Sys.Via.inv (I := fun s => s.lost = 0) ?_ ?_ h
    · intro _ heq
      subst heq
      rfl
    · exact fun _ _ _ hi hc hs => (lost_step hc hs).trans hi
  rcases value_bounded hv hm h.reach with ⟨⟨hlow, hhigh⟩, hcount⟩
  have hcount := hcount hfree
  rw [hlost] at hcount
  exact ⟨hlow, hhigh, by simpa using hcount⟩

instance (s : St T) (a : Act T) : Decidable (NoneFull s a) := by
  unfold NoneFull
  infer_instance

/-- A waiter that a post wakes. -/
theorem calls_counted_woken :
    ∃ s : St (Fin 2), (sharing (Fin 2) 0 1).Via NoneFull s ∧ s.waits = 1 ∧ s.posts = 1 ∧
      0 ≤ s.sem.value ∧ s.sem.value ≤ 1 ∧ s.sem.value = 0 + s.posts - s.waits := by
  have hrun : (Run.exec (Run.guard NoneFull step) (start (semmInit 0 1)) [.call 0 .wait, .run 0, .run 0, .call 1 .post,
      .run 1, .run 1, .run 1, .signal 1 (some 0), .run 1, .run 0, .run 0, .run 0, .run 0] : Option (St (Fin 2))).map
        (fun s => (s.owner, s.waits, s.posts)) = some (none, 1, 1) := by decide
  rcases Option.map_eq_some_iff.mp hrun with ⟨s, hs, heq⟩
  simp only [Prod.mk.injEq] at heq
  rcases heq with ⟨hfree, hwaits, hposts⟩
  have hinit : (sharing (Fin 2) 0 1).init (start (semmInit 0 1)) := rfl
  have hvia : (sharing (Fin 2) 0 1).Via NoneFull s := Run.via_guard (.init hinit) hs
  exact ⟨s, hvia, hwaits, hposts, calls_counted (by decide) (by decide) hvia hfree⟩

/-- A post at the bound returns, and is lost. -/
theorem post_not_counted :
    ∃ s : St (Fin 1), (sharing (Fin 1) 1 1).Reach s ∧ s.owner = none ∧ s.posts = 1 ∧ s.waits = 0 ∧
      s.sem.value ≠ 1 + s.posts - s.waits := by
  have hrun : (Run.exec step (start (semmInit 1 1)) [.call 0 .post, .run 0, .run 0, .run 0] : Option (St (Fin 1))).map
      (fun s => (s.owner, s.posts, s.waits, s.sem.value)) = some (none, 1, 0, 1) := by decide
  rcases Option.map_eq_some_iff.mp hrun with ⟨s, hs, heq⟩
  simp only [Prod.mk.injEq] at heq
  rcases heq with ⟨hfree, hposts, hwaits, hvalue⟩
  have hinit : (sharing (Fin 1) 1 1).init (start (semmInit 1 1)) := rfl
  refine ⟨s, Run.reach_exec hinit hs, hfree, hposts, hwaits, ?_⟩
  rw [hvalue, hposts, hwaits]
  decide

end SysProg.BoundedSemaphore
