/-
  SysProg.Scheduler.Averages — the averages are means over the jobs
  (see `SysProg.Scheduler.History`).

  Waiting time is never measured: it is what is left of the turnaround when the running
  time is taken off, and the first dispatch is known by a start time other than -1. By
  `averages_are_means`, where no time is negative and a job finishes when it has run for its
  running time, the number of jobs times an average is the sum over the jobs of what the
  calls say: the time in the ready queue, the time until the first dispatch, the time until
  the finish.

  A job has been either in the queue or running since it arrived (`JobTimes.split`), and
  until its first dispatch in the queue only.
-/

import Mathlib.Algebra.BigOperators.Group.List.Basic
import Mathlib.Tactic.FieldSimp
import SysProg.Scheduler.History

namespace SysProg.Scheduler

open Function (update)
open SysProg.Lib.PriQueue (Poll Polls pollFirst pollFirst_polls)

variable {J : Type} [DecidableEq J]

/-- Moreover no time is negative, and a job finishes when it has run for its running time. -/
def FollowsTimed (x : St J × List (Act J × Option J)) (a : Act J) : Prop :=
  Follows x a ∧ 0 ≤ a.time ∧
    match a with
    | .jobFinished jobDone time =>
      ((account x.2).unfinished jobDone).map Submission.runningTime = some (((account x.2).pass time).executed jobDone)
    | _ => True

instance decidableFollowsTimed (x : St J × List (Act J × Option J)) : (a : Act J) → Decidable (FollowsTimed x a)
  | .newJob newjob n time d => inferInstanceAs (Decidable (Follows x (.newJob newjob n time d) ∧ 0 ≤ time ∧ True))
  | .quantumExpired e time => inferInstanceAs (Decidable (Follows x (.quantumExpired e time) ∧ 0 ≤ time ∧ True))
  | .jobFinished j time =>
    inferInstanceAs (Decidable (Follows x (.jobFinished j time) ∧ 0 ≤ time ∧
      ((account x.2).unfinished j).map Submission.runningTime = some (((account x.2).pass time).executed j)))

/-! ## The times of one job -/

structure JobTimes (x : Submission) (firstStartTime now executed queued : ℚ) (first : Option ℚ) (running : Prop) :
    Prop where
  nonneg : 0 ≤ x.arrival
  arrived : x.arrival ≤ now
  ran : 0 ≤ executed
  split : queued + executed = now - x.arrival
  before : first = none → firstStartTime = -1 ∧ executed = 0 ∧ ¬ running
  after : ∀ d, first = some d → firstStartTime = d ∧ x.arrival ≤ d ∧ d - x.arrival ≤ queued

variable {x : Submission} {start now time executed queued : ℚ} {first : Option ℚ} {running : Prop}

theorem JobTimes.submitted (hn : 0 ≤ now) (p r : ℚ) (hr : ¬ running) :
    JobTimes ⟨now, p, r⟩ (-1) now 0 0 none running where
  nonneg := hn
  arrived := le_refl now
  ran := le_refl 0
  split := by simp
  before _ := ⟨rfl, rfl, hr⟩
  after d hd := by cases hd

theorem JobTimes.runs (h : JobTimes x start now executed queued first running) (ht : now ≤ time) (hr : running) :
    JobTimes x start time (executed + (time - now)) queued first running where
  nonneg := h.nonneg
  arrived := le_trans h.arrived ht
  ran := by
    have he := h.ran
    linarith
  split := by
    have hs := h.split
    linarith
  before hf := absurd hr (h.before hf).2.2
  after := h.after

theorem JobTimes.waits (h : JobTimes x start now executed queued first running) (ht : now ≤ time) :
    JobTimes x start time executed (queued + (time - now)) first running where
  nonneg := h.nonneg
  arrived := le_trans h.arrived ht
  ran := h.ran
  split := by
    have hs := h.split
    linarith
  before := h.before
  after d hd := by
    rcases h.after d hd with ⟨hstart, harr, hle⟩
    exact ⟨hstart, harr, by linarith⟩

/-- The job is returned. -/
theorem JobTimes.dispatched (h : JobTimes x start now executed queued first running) (running' : Prop) :
    JobTimes x (if start = -1 then now else start) now executed queued (some (first.getD now)) running' where
  nonneg := h.nonneg
  arrived := h.arrived
  ran := h.ran
  split := h.split
  before hf := by cases hf
  after d hd := by
    cases hd
    cases hfirst : first with
    | none =>
      rcases h.before hfirst with ⟨hstart, hexec, -⟩
      have hs := h.split
      rw [if_pos hstart, Option.getD_none]
      exact ⟨rfl, h.arrived, by linarith⟩
    | some d =>
      rcases h.after d hfirst with ⟨hstart, harr, hle⟩
      have hne : start ≠ -1 := by
        have hn := h.nonneg
        intro e
        linarith
      rw [if_neg hne, Option.getD_some]
      exact ⟨hstart, harr, hle⟩

/-- A job that does not run and has been dispatched may be set running or not. -/
theorem JobTimes.stops (h : JobTimes x start now executed queued first running) {running' : Prop}
    (hr : running' → running) :
    JobTimes x start now executed queued first running' :=
  { h with before := fun hf => ⟨(h.before hf).1, (h.before hf).2.1, fun hr' => (h.before hf).2.2 (hr hr')⟩ }

/-! ## All jobs -/

structure Timed (s : St J) (h : Account J) : Prop where
  now : 0 ≤ h.now
  jobs : ∀ j x, h.unfinished j = some x → ∃ i, s.metadata j = some i ∧
    JobTimes x i.firstStartTime h.now (h.executed j) (h.queued j) (h.firstDispatch j) (h.running = some j)
  waiting : s.totalWaitingTime = (h.finished.map Finished.waiting).sum
  turnaround : s.totalTurnaroundTime = (h.finished.map Finished.turnaround).sum
  response : s.totalResponseTime = (h.finished.map Finished.response).sum
  ordered : ∀ f ∈ h.finished, 0 ≤ f.response ∧ f.response ≤ f.waiting ∧ f.waiting ≤ f.turnaround
  number : s.numberOfJobs = h.finished.length + s.pqueue.length + h.running.toList.length

variable {s s' : St J} {h : Account J} {j : J}

omit [DecidableEq J] in
theorem start_timed (scheme : Scheme) : Timed (schedulerStartUp scheme) (Account.start : Account J) where
  now := le_refl 0
  jobs j x hx := by cases hx
  waiting := rfl
  turnaround := rfl
  response := rfl
  ordered f hf := by cases hf
  number := rfl

theorem Timed.pass (ht : Timed s h) (hle : h.now ≤ time) : Timed s (h.pass time) where
  now := le_trans ht.now hle
  jobs j x hx := by
    rcases ht.jobs j x hx with ⟨i, hm, hj⟩
    refine ⟨i, hm, ?_⟩
    have hx : h.unfinished j = some x := hx
    by_cases hr : h.running = some j
    · have he : (h.pass time).executed j = h.executed j + (time - h.now) := if_pos hr
      have hq : (h.pass time).queued j = h.queued j := if_neg fun hc => hc.1 hr
      rw [he, hq]
      exact hj.runs hle hr
    · have he : (h.pass time).executed j = h.executed j := if_neg hr
      have hq : (h.pass time).queued j = h.queued j + (time - h.now) := if_pos ⟨hr, by rw [hx]; rfl⟩
      rw [he, hq]
      exact hj.waits hle
  waiting := ht.waiting
  turnaround := ht.turnaround
  response := ht.response
  ordered := ht.ordered
  number := ht.number

theorem Timed.newJob (ht : Timed s h) (hi : Inv s h) (hnew : h.unfinished j = none) (n : Int)
    (schedData : SchedulerInfo) :
    Timed (schedulerNewJob s j n h.now schedData) (h.submit j schedData) where
  now := ht.now
  jobs k x hx := by
    by_cases e : k = j
    · rw [e] at hx ⊢
      simp only [Account.submit, Function.update_self, Option.some.injEq] at hx
      refine ⟨_, Function.update_self .., ?_⟩
      have hrun : h.running ≠ some j := fun hr => hi.running j hr hnew
      simp only [Account.submit, Function.update_self, ← hx]
      exact .submitted ht.now _ _ hrun
    · simp only [Account.submit, Function.update_of_ne e] at hx
      rcases ht.jobs k x hx with ⟨i, hm, hk⟩
      refine ⟨i, (Function.update_of_ne e ..).trans hm, ?_⟩
      simp only [Account.submit, Function.update_of_ne e]
      exact hk
  waiting := ht.waiting
  turnaround := ht.turnaround
  response := ht.response
  ordered := ht.ordered
  number := by
    have hn := ht.number
    simp only [schedulerNewJob, Account.submit, List.length_append, List.length_singleton]
    omega

/-- The running job goes back to the queue. -/
theorem Timed.offerEvicted (ht : Timed s h) (hr : h.running = some j) {info : JobInfo} (hm : s.metadata j = some info) :
    Timed (offerEvicted s j info h.now) { h with running := none } where
  now := ht.now
  jobs k x hx := by
    rcases ht.jobs k x hx with ⟨i, hk, hj⟩
    by_cases e : k = j
    · rw [e] at hk hj ⊢
      rw [hm] at hk
      cases hk
      exact ⟨_, Function.update_self .., hj.stops (by simp)⟩
    · exact ⟨i, (Function.update_of_ne e ..).trans hk, hj.stops (by simp)⟩
  waiting := ht.waiting
  turnaround := ht.turnaround
  response := ht.response
  ordered := ht.ordered
  number := by
    have hn := ht.number
    rw [hr] at hn
    simpa [Scheduler.offerEvicted, Nat.add_assoc] using hn

/-- A polled job is started. -/
theorem Timed.started (ht : Timed s h) (hr : h.running = none) {i : JobInfo} {l l' : List J}
    (hst : Started s h.now s' j i l l') : Timed s' (h.returned (some j)) := by
  rw [hst.state]
  refine ⟨ht.now, ?_, ht.waiting, ht.turnaround, ht.response, ht.ordered, ?_⟩
  · intro k x hx
    rcases ht.jobs k x hx with ⟨i', hk, hj⟩
    by_cases e : k = j
    · rw [e] at hk hj ⊢
      rw [hst.info] at hk
      cases hk
      refine ⟨_, Function.update_self .., ?_⟩
      simp only [Account.returned, if_pos]
      exact hj.dispatched _
    · refine ⟨i', (Function.update_of_ne e ..).trans hk, ?_⟩
      have hjk : some j ≠ some k := fun hjk => e (Option.some.inj hjk).symm
      simp only [Account.returned, if_neg hjk]
      exact hj.stops fun h => absurd h hjk
  · have hn := ht.number
    rw [hst.queue, hr] at hn
    simp only [List.length_append, List.length_cons, Option.toList_none, List.length_nil] at hn
    simp only [Account.returned, List.length_append, Option.toList_some, List.length_singleton]
    omega

/-- The running job goes on. -/
theorem Timed.kept (ht : Timed s h) : Timed s (h.returned h.running) where
  now := ht.now
  jobs k x hx := by
    rcases ht.jobs k x hx with ⟨i, hm, hj⟩
    refine ⟨i, hm, ?_⟩
    by_cases hr : h.running = some k
    · have hfirst : h.firstDispatch k = some ((h.firstDispatch k).getD h.now) := by
        cases hf : h.firstDispatch k with
        | none => exact absurd hr (hj.before hf).2.2
        | some d => rfl
      simp only [Account.returned, if_pos hr, ← hfirst]
      exact hj
    · simp only [Account.returned, if_neg hr]
      exact hj
  waiting := ht.waiting
  turnaround := ht.turnaround
  response := ht.response
  ordered := ht.ordered
  number := ht.number

theorem Timed.expired (ht : Timed s h) {r : Option J} (he : Expired s h s' r) : Timed s' (h.returned r) := by
  cases he with
  | kept _ => exact ht.kept
  | idle hr hst => exact ht.started hr hst
  | evicted hr _ hm _ hst => exact (ht.offerEvicted hr hm).started rfl hst

/-- The running job finishes, having run for its running time. -/
theorem Timed.finish (ht : Timed s h) (hi : Inv s h) (hr : h.running = some j)
    (hdone : (h.unfinished j).map Submission.runningTime = some (h.executed j))
    (hs : schedulerJobFinished s j h.now = some s') : Timed s' (h.finish j) := by
  unfold schedulerJobFinished at hs
  rcases Option.map_eq_some_iff.mp hs with ⟨i, hm, hs⟩
  rcases Option.map_eq_some_iff.mp hdone with ⟨x, hx, hrun⟩
  rcases hi.info j x hx with ⟨i₁, hm₁, hd⟩
  rcases ht.jobs j x hx with ⟨i₂, hm₂, hj⟩
  rw [hm] at hm₁ hm₂
  cases hm₁
  cases hm₂
  cases hf : h.firstDispatch j with
  | none => exact absurd hr (hj.before hf).2.2
  | some d =>
    rcases hj.after d hf with ⟨hstart, harr, hle⟩
    have hsplit := hj.split
    have hran := hj.ran
    have hfin : (h.finish j).finished = h.finished ++ [⟨d - x.arrival, h.queued j, h.now - x.arrival⟩] := by
      unfold Account.finish
      rw [hx, hf]
    rw [← hs]
    refine ⟨ht.now, ?_, ?_, ?_, ?_, ?_, ?_⟩
    · intro k y hy
      by_cases e : k = j
      · rw [e] at hy
        simp [Account.finish] at hy
      · simp only [Account.finish, Function.update_of_ne e] at hy
        rcases ht.jobs k y hy with ⟨i', hk, hj'⟩
        exact ⟨i', (Function.update_of_ne e ..).trans hk, hj'.stops (by simp [Account.finish, hr])⟩
    · rw [hfin, List.map_append, List.sum_append, ← ht.waiting]
      simp only [List.map_cons, List.map_nil, List.sum_cons, List.sum_nil, hd.arrival, hd.runningTime, hrun]
      linarith
    · rw [hfin, List.map_append, List.sum_append, ← ht.turnaround]
      simp only [List.map_cons, List.map_nil, List.sum_cons, List.sum_nil, hd.arrival]
      linarith
    · rw [hfin, List.map_append, List.sum_append, ← ht.response]
      simp only [List.map_cons, List.map_nil, List.sum_cons, List.sum_nil, hd.arrival, hstart]
      linarith
    · intro f hfmem
      rw [hfin] at hfmem
      rcases List.mem_append.mp hfmem with hfmem | hfmem
      · exact ht.ordered f hfmem
      · rw [List.mem_singleton.mp hfmem]
        exact ⟨by linarith, hle, by linarith⟩
    · have hn := ht.number
      have hnone : (h.finish j).running = none := if_pos hr
      rw [hr] at hn
      rw [hfin, hnone, List.length_append]
      exact hn.trans (Nat.add_right_comm ..)

/-! ## Runs -/

variable {poll : Poll (J × JobInfo)} {log : List (Act J × Option J)} {scheme : Scheme}

theorem Timed.step (hp : Polls poll) (ht : Timed s (account log)) (hi : Inv s (account log)) {a : Act J} {r : Option J}
    (hlog : log = [] → (account log).now = 0) (ha : FollowsTimed (s, log) a) (hs : step poll s a = some (s', r)) :
    Timed s' (account (log ++ [(a, r)])) := by
  have hle : (account log).now ≤ a.time := by
    rcases ha.1.1 with hnil | hle
    · rw [hlog hnil]
      exact ha.2.1
    · exact hle
  have hpass := hi.pass a.time
  have htpass := ht.pass hle
  rw [account_append]
  cases a with
  | newJob newjob jobNumber time schedData =>
    cases hs
    exact htpass.newJob hpass ha.1.2 jobNumber schedData
  | quantumExpired jobEvicted time =>
    exact htpass.expired (expired_of_step hp hi ha.1 hs)
  | jobFinished jobDone time =>
    rcases Option.map_eq_some_iff.mp hs with ⟨u, hu, e⟩
    cases e
    exact htpass.finish hpass ha.1.2 ha.2.2 hu

theorem timed_of_via (hp : Polls poll) (hv : (sys poll scheme).Via FollowsTimed (s, log)) :
    Timed s (account log) ∧ Inv s (account log) := by
  refine Run.Sys.Via.inv (M := sys poll scheme) (I := fun x => Timed x.1 (account x.2) ∧ Inv x.1 (account x.2)) ?_ ?_ hv
  · intro x hx
    cases hx
    exact ⟨start_timed scheme, start_inv scheme⟩
  · intro x a x' hi ha hs
    rcases Run.logged_some hs with ⟨r, hstep, hlog⟩
    have h0 : x.2 = [] → (account x.2).now = 0 := by
      intro hnil
      rw [hnil]
      rfl
    rw [hlog]
    exact ⟨hi.1.step hp hi.2 h0 ha hstep, (step_inv hp hi.2 ha.1 hstep).1⟩

/-- A number of jobs times an average over them. -/
theorem number_mul_average {n : Nat} {total : ℚ} (h : n = 0 → total = 0) : (n : ℚ) * (total / n) = total := by
  by_cases hn : n = 0
  · rw [h hn, hn, Nat.cast_zero, zero_mul]
  · exact mul_div_cancel₀ total (Nat.cast_ne_zero.mpr hn)

theorem averages_are_means (hp : Polls poll) (hv : (sys poll scheme).Via FollowsTimed (s, log))
    (hall : ∀ j, (account log).unfinished j = none) :
    s.numberOfJobs = (account log).finished.length ∧
    s.numberOfJobs * schedulerAverageWaitingTime s = ((account log).finished.map Finished.waiting).sum ∧
    s.numberOfJobs * schedulerAverageResponseTime s = ((account log).finished.map Finished.response).sum ∧
    s.numberOfJobs * schedulerAverageTurnaroundTime s = ((account log).finished.map Finished.turnaround).sum ∧
    ∀ f ∈ (account log).finished, 0 ≤ f.response ∧ f.response ≤ f.waiting ∧ f.waiting ≤ f.turnaround := by
  rcases timed_of_via hp hv with ⟨ht, hi⟩
  have hq : s.pqueue = [] := by
    apply List.eq_nil_iff_forall_not_mem.mpr
    intro j hj
    exact ((hi.mem j).mp hj).1 (hall j)
  have hr : (account log).running = none := by
    cases hr : (account log).running with
    | none => rfl
    | some j => exact absurd (hall j) (hi.running j hr)
  have hn := ht.number
  rw [hq, hr] at hn
  have hn : s.numberOfJobs = (account log).finished.length := hn
  -- no jobs, no times
  have hzero : ∀ f : Finished → ℚ, s.numberOfJobs = 0 → ((account log).finished.map f).sum = 0 := by
    intro f h0
    have hnil : (account log).finished = [] := List.eq_nil_of_length_eq_zero (hn.symm.trans h0)
    rw [hnil]
    rfl
  refine ⟨hn, ?_, ?_, ?_, ht.ordered⟩
  · unfold schedulerAverageWaitingTime
    rw [ht.waiting]
    exact number_mul_average (hzero _)
  · unfold schedulerAverageResponseTime
    rw [ht.response]
    exact number_mul_average (hzero _)
  · unfold schedulerAverageTurnaroundTime
    rw [ht.turnaround]
    exact number_mul_average (hzero _)

def twoJobs : List (Act Bool) :=
  [.newJob false 1 1 ⟨2, 1⟩, .newJob true 2 1 ⟨2, 1⟩, .quantumExpired none 1, .quantumExpired (some false) 2,
   .quantumExpired (some true) 3, .jobFinished false 4, .quantumExpired none 4, .jobFinished true 5]

theorem averages_are_means_two : ∃ s log, (sys (J := Bool) pollFirst .rr).Via FollowsTimed (s, log) ∧
    s.numberOfJobs = 2 ∧
    s.numberOfJobs * schedulerAverageWaitingTime s = ((account log).finished.map Finished.waiting).sum := by
  have hrun : (Run.exec (Run.guard FollowsTimed (Run.logged (step (J := Bool) pollFirst))) (schedulerStartUp .rr, [])
      twoJobs).map (fun x => (x.1.numberOfJobs, decide ((account x.2).unfinished false = none),
        decide ((account x.2).unfinished true = none))) = some (2, true, true) := by
    decide +kernel
  rcases Option.map_eq_some_iff.mp hrun with ⟨⟨s, log⟩, hexec, he⟩
  rcases Prod.mk.inj he with ⟨hn, he⟩
  rcases Prod.mk.inj he with ⟨hfalse, htrue⟩
  have h0 : (sys (J := Bool) pollFirst .rr).Via FollowsTimed (schedulerStartUp .rr, []) := .init rfl
  have hv := Run.via_guard h0 hexec
  have hall : ∀ j, (account log).unfinished j = none := by
    intro j
    cases j with
    | false => exact of_decide_eq_true hfalse
    | true => exact of_decide_eq_true htrue
  exact ⟨s, log, hv, hn, (averages_are_means pollFirst_polls hv hall).2.1⟩

end SysProg.Scheduler
