/-
  SysProg.Scheduler.History — what the calls of the scheduler say has happened
  (see `SysProg.Scheduler.Scheduler`).

  `account` is read off the calls and what they returned, and knows nothing of the
  scheduler's state: which jobs are unfinished, which one is running (the one last returned,
  unless it finished), how long each has run and has been in the ready queue, and when it was
  first dispatched. Time passes between the calls.

  `Inv` ties it to the state after calls that follow the protocol (`Follows`): the queue
  holds the unfinished jobs that are not running, once each, and the remaining time of a job
  is its running time less what it has run so far. For the running job, whose remaining
  time is brought up to date only when it is evicted for another, that is so less
  the time since it was started.
-/

import Mathlib.Data.List.Nodup
import Mathlib.Tactic.Ring
import SysProg.Scheduler.Scheduler

namespace SysProg.Scheduler

open Function (update)
open SysProg.Lib.PriQueue (Poll Polls compareKeys)

structure Submission where
  arrival : ℚ
  priority : ℚ
  runningTime : ℚ

structure Finished where
  response : ℚ
  waiting : ℚ
  turnaround : ℚ

structure Account (J : Type) where
  /-- The time of the last call. -/
  now : ℚ
  unfinished : J → Option Submission
  running : Option J
  /-- The time for which a job has been running. -/
  executed : J → ℚ
  /-- The time for which a job has been in the ready queue. -/
  queued : J → ℚ
  firstDispatch : J → Option ℚ
  finished : List Finished

namespace Account

variable {J : Type} [DecidableEq J]

def start : Account J := ⟨0, fun _ => none, none, fun _ => 0, fun _ => 0, fun _ => none, []⟩

/-- The running job runs, the other unfinished ones are in the queue. -/
def pass (h : Account J) (time : ℚ) : Account J :=
  { h with
    now := time
    executed := fun j => if h.running = some j then h.executed j + (time - h.now) else h.executed j
    queued := fun j =>
      if h.running ≠ some j ∧ (h.unfinished j).isSome then h.queued j + (time - h.now) else h.queued j }

def submit (h : Account J) (j : J) (schedData : SchedulerInfo) : Account J :=
  { h with
    unfinished := update h.unfinished j (some ⟨h.now, schedData.priority, schedData.runningTime⟩)
    executed := update h.executed j 0
    queued := update h.queued j 0
    firstDispatch := update h.firstDispatch j none }

def returned (h : Account J) (r : Option J) : Account J :=
  { h with
    running := r
    firstDispatch := fun j => if r = some j then some ((h.firstDispatch j).getD h.now) else h.firstDispatch j }

def finish (h : Account J) (j : J) : Account J :=
  { h with
    unfinished := update h.unfinished j none
    running := if h.running = some j then none else h.running
    finished := h.finished ++
      match h.unfinished j, h.firstDispatch j with
      | some x, some d => [⟨d - x.arrival, h.queued j, h.now - x.arrival⟩]
      | _, _ => [] }

def call (h : Account J) : Act J × Option J → Account J
  | (.newJob newjob _ time schedData, _) => (h.pass time).submit newjob schedData
  | (.quantumExpired _ time, r) => (h.pass time).returned r
  | (.jobFinished jobDone time, _) => (h.pass time).finish jobDone

end Account

variable {J : Type} [DecidableEq J]

def account (log : List (Act J × Option J)) : Account J := log.foldl Account.call .start

theorem account_append (log : List (Act J × Option J)) (x : Act J × Option J) :
    account (log ++ [x]) = (account log).call x := by
  unfold account
  rw [List.foldl_append]
  rfl

theorem account_now (log : List (Act J × Option J)) (a : Act J) (r : Option J) :
    (account (log ++ [(a, r)])).now = a.time := by
  rw [account_append]
  cases a <;> rfl

/-- Times do not go down, a job submitted is a new one, the job evicted is the one running,
    and only the running job finishes. -/
def Follows (x : St J × List (Act J × Option J)) (a : Act J) : Prop :=
  (x.2 = [] ∨ (account x.2).now ≤ a.time) ∧
    match a with
    | .newJob newjob _ _ _ => (account x.2).unfinished newjob = none
    | .quantumExpired jobEvicted _ => jobEvicted = (account x.2).running
    | .jobFinished jobDone _ => (account x.2).running = some jobDone

instance decidableFollows (x : St J × List (Act J × Option J)) : (a : Act J) → Decidable (Follows x a)
  | .newJob newjob _ time _ =>
    inferInstanceAs (Decidable ((x.2 = [] ∨ (account x.2).now ≤ time) ∧ (account x.2).unfinished newjob = none))
  | .quantumExpired jobEvicted time =>
    inferInstanceAs (Decidable ((x.2 = [] ∨ (account x.2).now ≤ time) ∧ jobEvicted = (account x.2).running))
  | .jobFinished jobDone time =>
    inferInstanceAs (Decidable ((x.2 = [] ∨ (account x.2).now ≤ time) ∧ (account x.2).running = some jobDone))

/-! ## The invariant -/

/-- What the metadata says of a job as submitted, `executed` having been run. -/
structure Describes (i : JobInfo) (x : Submission) (remaining : ℚ) : Prop where
  arrival : i.firstArrivalTime = x.arrival
  priority : i.stats.priority = x.priority
  runningTime : i.stats.runningTime = x.runningTime
  remaining : i.remainingTime = remaining

def Account.known (h : Account J) (j : J) (i : JobInfo) (x : Submission) : ℚ :=
  x.runningTime - h.executed j + if h.running = some j then h.now - i.startTime else 0

theorem Account.known_running {h : Account J} {j : J} {i : JobInfo} {x : Submission}
    (hr : h.running = some j) : h.known j i x = x.runningTime - h.executed j + (h.now - i.startTime) := by
  unfold known
  rw [if_pos hr]

theorem Account.known_queued {h : Account J} {j : J} {i : JobInfo} {x : Submission} (hr : h.running ≠ some j) :
    h.known j i x = x.runningTime - h.executed j := by
  unfold known
  rw [if_neg hr, add_zero]

omit [DecidableEq J] in
theorem Account.running_ne {h : Account J} {j k : J} (hr : h.running = some j) (e : k ≠ j) : h.running ≠ some k := by
  rw [hr]
  intro hjk
  exact e (Option.some.inj hjk).symm

structure Inv (s : St J) (h : Account J) : Prop where
  nodup : s.pqueue.Nodup
  mem : ∀ j, j ∈ s.pqueue ↔ h.unfinished j ≠ none ∧ h.running ≠ some j
  running : ∀ j, h.running = some j → h.unfinished j ≠ none
  info : ∀ j x, h.unfinished j = some x → ∃ i, s.metadata j = some i ∧ Describes i x (h.known j i x)

variable {s s' : St J} {h : Account J} {j : J} {time : ℚ}

omit [DecidableEq J] in
theorem start_inv [DecidableEq J] (scheme : Scheme) : Inv (schedulerStartUp scheme) (Account.start : Account J) where
  nodup := List.nodup_nil
  mem j := by simp [schedulerStartUp, Account.start]
  running j hj := by cases hj
  info j x hx := by cases hx

theorem Inv.pass (hi : Inv s h) (time : ℚ) : Inv s (h.pass time) where
  nodup := hi.nodup
  mem := hi.mem
  running := hi.running
  info j x hx := by
    rcases hi.info j x hx with ⟨i, hm, hd⟩
    refine ⟨i, hm, hd.arrival, hd.priority, hd.runningTime, ?_⟩
    rw [hd.remaining]
    by_cases hr : h.running = some j
    · rw [Account.known_running hr, Account.known_running (h := h.pass time) hr]
      simp only [Account.pass, if_pos hr]
      ring
    · rw [Account.known_queued hr, Account.known_queued (h := h.pass time) hr]
      simp only [Account.pass, if_neg hr]

/-- A job is in the queue or running exactly when it is unfinished, and once. -/
theorem Inv.count (hi : Inv s h) (j : J) :
    s.pqueue.count j + (if h.running = some j then 1 else 0) = if h.unfinished j = none then 0 else 1 := by
  by_cases hr : h.running = some j
  · have hnot : j ∉ s.pqueue := fun hj => ((hi.mem j).mp hj).2 hr
    rw [List.count_eq_zero_of_not_mem hnot, if_pos hr, if_neg (hi.running j hr)]
  · rw [if_neg hr]
    by_cases hu : h.unfinished j = none
    · have hnot : j ∉ s.pqueue := fun hj => ((hi.mem j).mp hj).1 hu
      rw [List.count_eq_zero_of_not_mem hnot, if_pos hu]
    · rw [List.count_eq_one_of_mem hi.nodup ((hi.mem j).mpr ⟨hu, hr⟩), if_neg hu]

/-! ## Submitting and finishing -/

theorem Inv.newJob (hi : Inv s h) (hnew : h.unfinished j = none) (n : Int) (schedData : SchedulerInfo) :
    Inv (schedulerNewJob s j n h.now schedData) (h.submit j schedData) := by
  have hrun : h.running ≠ some j := fun hr => hi.running j hr hnew
  have hnot : j ∉ s.pqueue := fun hj => ((hi.mem j).mp hj).1 hnew
  refine ⟨?_, ?_, ?_, ?_⟩
  · show (s.pqueue ++ [j]).Nodup
    rw [← List.concat_eq_append]
    exact hi.nodup.concat hnot
  · intro k
    simp only [schedulerNewJob, Account.submit, List.mem_append, List.mem_singleton]
    by_cases e : k = j
    · rw [e, Function.update_self]
      simp [hrun]
    · rw [Function.update_of_ne e, hi.mem]
      simp [e]
  · intro k hk
    by_cases e : k = j
    · rw [e] at hk
      exact absurd hk hrun
    · simp only [Account.submit, Function.update_of_ne e]
      exact hi.running k hk
  · intro k x hx
    by_cases e : k = j
    · rw [e] at hx ⊢
      simp only [Account.submit, Function.update_self, Option.some.injEq] at hx
      refine ⟨_, Function.update_self .., ?_⟩
      rw [← hx]
      refine ⟨rfl, rfl, rfl, ?_⟩
      simp [Account.known, Account.submit, hrun]
    · simp only [Account.submit, Function.update_of_ne e] at hx
      rcases hi.info k x hx with ⟨i, hm, hd⟩
      refine ⟨i, (Function.update_of_ne e ..).trans hm, hd.arrival, hd.priority, hd.runningTime, ?_⟩
      rw [hd.remaining]
      unfold Account.known Account.submit
      dsimp only
      rw [Function.update_of_ne e]

theorem Inv.finish (hi : Inv s h) (hr : h.running = some j) (hs : schedulerJobFinished s j time = some s') :
    Inv s' (h.finish j) := by
  unfold schedulerJobFinished at hs
  rcases Option.map_eq_some_iff.mp hs with ⟨info, -, hs⟩
  have hnot : j ∉ s.pqueue := fun hj => ((hi.mem j).mp hj).2 hr
  rw [← hs]
  refine ⟨hi.nodup, ?_, ?_, ?_⟩
  · intro k
    simp only [Account.finish, hr, if_pos]
    by_cases e : k = j
    · rw [e, Function.update_self]
      simp [hnot]
    · rw [Function.update_of_ne e, hi.mem, hr]
      simp [Ne.symm e]
  · intro k hk
    simp [Account.finish, hr] at hk
  · intro k x hx
    by_cases e : k = j
    · rw [e] at hx
      simp [Account.finish] at hx
    · simp only [Account.finish, Function.update_of_ne e] at hx
      rcases hi.info k x hx with ⟨i, hm, hd⟩
      refine ⟨i, (Function.update_of_ne e ..).trans hm, hd.arrival, hd.priority, hd.runningTime, ?_⟩
      have hk : h.running ≠ some k := Account.running_ne hr e
      have hk' : (h.finish j).running ≠ some k := by
        simp [Account.finish, hr]
      rw [hd.remaining, Account.known_queued hk, Account.known_queued hk']
      rfl

/-! ## Evicting and starting -/

/-- The running job goes back to the queue; nothing is running for a moment. -/
theorem Inv.offerEvicted (hi : Inv s h) (hr : h.running = some j) {info : JobInfo} (hm : s.metadata j = some info) :
    Inv (offerEvicted s j info h.now) { h with running := none } := by
  have hnot : j ∉ s.pqueue := fun hj => ((hi.mem j).mp hj).2 hr
  refine ⟨?_, ?_, by simp, ?_⟩
  · show (s.pqueue ++ [j]).Nodup
    rw [← List.concat_eq_append]
    exact hi.nodup.concat hnot
  · intro k
    simp only [Scheduler.offerEvicted, List.mem_append, List.mem_singleton, hi.mem, hr]
    by_cases e : k = j
    · rw [e]
      simp [hi.running j hr]
    · simp [e, Ne.symm e]
  · intro k x hx
    rcases hi.info k x hx with ⟨i, hk, hd⟩
    by_cases e : k = j
    · rw [e] at hk hd ⊢
      rw [hm] at hk
      cases hk
      refine ⟨_, Function.update_self .., hd.arrival, hd.priority, hd.runningTime, ?_⟩
      rw [Account.known_queued (by simp)]
      dsimp only
      rw [hd.remaining, Account.known_running hr]
      ring
    · have hk' : h.running ≠ some k := Account.running_ne hr e
      refine ⟨i, (Function.update_of_ne e ..).trans hk, hd.arrival, hd.priority, hd.runningTime, ?_⟩
      rw [hd.remaining, Account.known_queued hk', Account.known_queued (by simp)]

omit [DecidableEq J] in
theorem withMetadata_some {metadata : J → Option JobInfo} {q : List J} (hq : ∀ j ∈ q, ∃ i, metadata j = some i) :
    ∃ e, withMetadata metadata q = some e ∧ e.map Prod.fst = q ∧ ∀ p ∈ e, metadata p.1 = some p.2 := by
  induction q with
  | nil => exact ⟨[], rfl, rfl, by simp⟩
  | cons j q ih =>
    rcases hq j List.mem_cons_self with ⟨i, hi⟩
    rcases ih fun k hk => hq k (List.mem_cons_of_mem _ hk) with ⟨e, he, hfst, hmeta⟩
    refine ⟨(j, i) :: e, by rw [withMetadata, hi, he]; rfl, by rw [List.map_cons, hfst], ?_⟩
    intro p hp
    rcases List.mem_cons.mp hp with hp | hp
    · rw [hp]
      exact hi
    · exact hmeta p hp

variable {poll : Poll (J × JobInfo)}

/-- What `scheduler_quantum_expired` does when it polls a queue that is not empty: the next
    job is a least one of the queue, and the first of those. -/
structure Started (s : St J) (time : ℚ) (s' : St J) (j : J) (i : JobInfo) (l l' : List J) : Prop where
  queue : s.pqueue = l ++ j :: l'
  info : s.metadata j = some i
  state : s' = { s with
    pqueue := l ++ l'
    metadata := update s.metadata j (some { i with
      startTime := time
      firstStartTime := if i.firstStartTime = -1 then time else i.firstStartTime }) }
  least : ∀ k ∈ s.pqueue, ∀ i', s.metadata k = some i' →
    schemeKey s.pqueueScheme i ≤ schemeKey s.pqueueScheme i'
  first : ∀ k ∈ l, ∀ i', s.metadata k = some i' → schemeKey s.pqueueScheme i < schemeKey s.pqueueScheme i'

theorem startNext_spec (time : ℚ) (hp : Polls poll) (hq : s.pqueue ≠ [])
    (hm : ∀ j ∈ s.pqueue, ∃ i, s.metadata j = some i) :
    ∃ s' j i l l', startNext poll s time = some (s', some j) ∧ Started s time s' j i l l' := by
  rcases withMetadata_some hm with ⟨e, he, hfst, hmeta⟩
  have hne : e ≠ [] := by
    intro hnil
    rw [hnil] at hfst
    exact hq hfst.symm
  have hcmp : (fun a b : J × JobInfo => comparisionFunc s.pqueueScheme a.2 b.2) =
      compareKeys fun p : J × JobInfo => schemeKey s.pqueueScheme p.2 := by
    rw [comparisionFunc_eq]
    rfl
  rcases hp.least (fun p : J × JobInfo => schemeKey s.pqueueScheme p.2) hne with
    ⟨l, ⟨j, i⟩, l', hl, hpoll, hfirst, hleast⟩
  have hji : s.metadata j = some i := hmeta (j, i) (by rw [hl]; simp)
  have hqueue : s.pqueue = l.map Prod.fst ++ j :: l'.map Prod.fst := by
    rw [← hfst, hl, List.map_append, List.map_cons]
  have hpolled : priqueuePoll poll s = some (j, l.map Prod.fst ++ l'.map Prod.fst) := by
    unfold priqueuePoll
    rw [he, Option.bind_some, hcmp, hpoll, Option.map_some, List.map_append]
  refine ⟨_, j, i, l.map Prod.fst, l'.map Prod.fst, by rw [startNext, hpolled, Option.bind_some, hji]; rfl,
    hqueue, hji, rfl, ?_, ?_⟩
  · intro k hk i' hi'
    rw [← hfst] at hk
    rcases List.mem_map.mp hk with ⟨p, hp, hpk⟩
    have hpi := hmeta p hp
    rw [hpk, hi'] at hpi
    cases hpi
    exact hleast p hp
  · intro k hk i' hi'
    rcases List.mem_map.mp hk with ⟨p, hp, hpk⟩
    have hpi := hmeta p (by rw [hl]; exact List.mem_append_left _ hp)
    rw [hpk, hi'] at hpi
    cases hpi
    exact hfirst p hp

theorem Inv.started (hi : Inv s h) (hr : h.running = none) {i : JobInfo} {l l' : List J}
    (hs : Started s h.now s' j i l l') : Inv s' (h.returned (some j)) := by
  have hj : j ∈ s.pqueue := by
    rw [hs.queue]
    simp
  have hu := ((hi.mem j).mp hj).1
  have hnodup := hi.nodup
  rw [hs.queue] at hnodup
  have hperm : (l ++ j :: l').Perm (j :: (l ++ l')) := List.perm_middle
  rcases List.nodup_cons.mp (hperm.nodup_iff.mp hnodup) with ⟨hnot, hnodup⟩
  rw [hs.state]
  refine ⟨hnodup, ?_, ?_, ?_⟩
  · intro k
    have hk := hi.mem k
    rw [hs.queue, hperm.mem_iff, List.mem_cons, hr] at hk
    simp only [Account.returned]
    by_cases e : k = j
    · rw [e]
      simp [hnot]
    · rw [or_iff_right e] at hk
      rw [hk]
      simp [Ne.symm e]
  · intro k hk
    cases hk
    exact hu
  · intro k x hx
    rcases hi.info k x hx with ⟨i', hk, hd⟩
    have hnone : h.running ≠ some k := by
      rw [hr]
      simp
    by_cases e : k = j
    · rw [e] at hk hd hnone ⊢
      rw [hs.info] at hk
      cases hk
      refine ⟨_, Function.update_self .., hd.arrival, hd.priority, hd.runningTime, ?_⟩
      rw [Account.known_running rfl]
      dsimp only [Account.returned]
      rw [hd.remaining, Account.known_queued hnone]
      ring
    · refine ⟨i', (Function.update_of_ne e ..).trans hk, hd.arrival, hd.priority, hd.runningTime, ?_⟩
      have hk' : (h.returned (some j)).running ≠ some k := by
        intro hjk
        exact e (Option.some.inj hjk).symm
      rw [hd.remaining, Account.known_queued hnone, Account.known_queued hk']
      rfl

/-! ## Calls -/

/-- A running job is evicted though it has not finished. -/
def Scheme.preemptive : Scheme → Bool
  | .fcfs | .pri | .sjf => false
  | .ppri | .psrtf | .rr => true

theorem preemptive_iff {scheme : Scheme} :
    scheme.preemptive = false ↔ scheme = .fcfs ∨ scheme = .pri ∨ scheme = .sjf := by
  cases scheme <;> simp [Scheme.preemptive]

inductive Expired (s : St J) (h : Account J) : St J → Option J → Prop
  | kept : s.pqueue = [] ∨ h.running ≠ none ∧ s.pqueueScheme.preemptive = false → Expired s h s h.running
  | idle {s' : St J} {j : J} {i : JobInfo} {l l' : List J} : h.running = none → Started s h.now s' j i l l' →
      Expired s h s' (some j)
  | evicted {s' : St J} {e j : J} {info i : JobInfo} {l l' : List J} : h.running = some e → s.pqueue ≠ [] →
      s.metadata e = some info → s.pqueueScheme.preemptive = true →
      Started (offerEvicted s e info h.now) h.now s' j i l l' → Expired s h s' (some j)

theorem Inv.metadata (hi : Inv s h) (hj : j ∈ s.pqueue) : ∃ i, s.metadata j = some i := by
  rcases Option.ne_none_iff_exists'.mp ((hi.mem j).mp hj).1 with ⟨x, hx⟩
  rcases hi.info j x hx with ⟨i, hm, -⟩
  exact ⟨i, hm⟩

theorem quantumExpired_spec (hp : Polls poll) (hi : Inv s h) :
    ∃ s' r, schedulerQuantumExpired poll s h.running h.now = some (s', r) ∧ Expired s h s' r := by
  unfold schedulerQuantumExpired
  by_cases hq : s.pqueue = []
  · rw [if_pos hq]
    exact ⟨s, h.running, rfl, .kept (Or.inl hq)⟩
  · rw [if_neg hq]
    cases hr : h.running with
    | none =>
      rcases startNext_spec h.now hp hq fun j hj => hi.metadata hj with ⟨s', j, i, l, l', hs, hstarted⟩
      exact ⟨s', some j, hs, .idle hr hstarted⟩
    | some e =>
      dsimp only
      by_cases hpre : s.pqueueScheme.preemptive = false
      · rw [if_pos (preemptive_iff.mp hpre)]
        refine ⟨s, some e, rfl, ?_⟩
        rw [← hr]
        exact .kept (Or.inr ⟨by rw [hr]; simp, hpre⟩)
      · rw [if_neg fun hs => hpre (preemptive_iff.mpr hs)]
        rcases Option.ne_none_iff_exists'.mp (hi.running e hr) with ⟨x, hx⟩
        rcases hi.info e x hx with ⟨info, hm, -⟩
        rw [hm, Option.bind_some]
        have hi' := hi.offerEvicted hr hm
        have hne : (offerEvicted s e info h.now).pqueue ≠ [] := List.append_ne_nil_of_right_ne_nil _ (by simp)
        rcases startNext_spec h.now hp hne fun j hj => hi'.metadata hj with ⟨s', j, i, l, l', hs, hstarted⟩
        exact ⟨s', some j, hs, .evicted hr hq hm (by simpa using hpre) hstarted⟩

theorem Inv.kept (hi : Inv s h) : Inv s (h.returned h.running) := ⟨hi.nodup, hi.mem, hi.running, hi.info⟩

theorem Inv.expired (hi : Inv s h) {r : Option J} (he : Expired s h s' r) : Inv s' (h.returned r) := by
  cases he with
  | kept _ => exact hi.kept
  | idle hr hs => exact hi.started hr hs
  | evicted hr _ hm _ hs => exact (hi.offerEvicted hr hm).started rfl hs

theorem Expired.scheme {r : Option J} (he : Expired s h s' r) : s'.pqueueScheme = s.pqueueScheme := by
  cases he with
  | kept _ => rfl
  | idle _ hs => rw [hs.state]
  | evicted _ _ _ _ hs =>
    rw [hs.state]
    rfl

/-- The job evicted is the one running. -/
theorem expired_of_step (hp : Polls poll) {log : List (Act J × Option J)} {e r : Option J} (hi : Inv s (account log))
    (ha : Follows (s, log) (.quantumExpired e time)) (hs : step poll s (.quantumExpired e time) = some (s', r)) :
    Expired s ((account log).pass time) s' r := by
  have he : e = (account log).running := ha.2
  rcases quantumExpired_spec hp (hi.pass time) with ⟨s'', r', hs', hexp⟩
  have hsame : some (s', r) = some (s'', r') := by
    rw [← hs, ← hs']
    unfold step
    rw [he]
    rfl
  cases hsame
  exact hexp

theorem step_inv (hp : Polls poll) {log : List (Act J × Option J)} {a : Act J} {r : Option J} (hi : Inv s (account log))
    (ha : Follows (s, log) a) (hs : step poll s a = some (s', r)) :
    Inv s' (account (log ++ [(a, r)])) ∧ s'.pqueueScheme = s.pqueueScheme := by
  rw [account_append]
  have hpass := hi.pass a.time
  cases a with
  | newJob newjob jobNumber time schedData =>
    cases hs
    exact ⟨hpass.newJob ha.2 jobNumber schedData, rfl⟩
  | quantumExpired jobEvicted time =>
    have hexp := expired_of_step hp hi ha hs
    exact ⟨hpass.expired hexp, hexp.scheme⟩
  | jobFinished jobDone time =>
    rcases Option.map_eq_some_iff.mp hs with ⟨u, hu, e⟩
    cases e
    refine ⟨hpass.finish ha.2 hu, ?_⟩
    unfold schedulerJobFinished at hu
    rcases Option.map_eq_some_iff.mp hu with ⟨info, -, hu⟩
    rw [← hu]

theorem via_inv (hp : Polls poll) {scheme : Scheme} {log : List (Act J × Option J)}
    (hv : (sys poll scheme).Via Follows (s, log)) : Inv s (account log) ∧ s.pqueueScheme = scheme := by
  refine Run.Sys.Via.inv (M := sys poll scheme) (I := fun x => Inv x.1 (account x.2) ∧ x.1.pqueueScheme = scheme)
    ?_ ?_ hv
  · intro x hx
    cases hx
    exact ⟨start_inv scheme, rfl⟩
  · intro x a x' hi ha hs
    rcases Run.logged_some hs with ⟨r, hstep, hlog⟩
    rcases step_inv hp hi.1 ha hstep with ⟨hi', hscheme⟩
    rw [hlog]
    exact ⟨hi', hscheme.trans hi.2⟩

end SysProg.Scheduler
