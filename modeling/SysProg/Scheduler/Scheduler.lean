/-
  SysProg.Scheduler.Scheduler — the scheduler of savvy_scheduler/libscheduler.c.

  A job is known by its pointer; `metadata` says what its `metadata` field points to, and
  nothing once that has been freed. The global variables are the state. Times are exact: a
  `double` is a rational, and a mean over no jobs is 0.

  The priority queue is a library's. It holds the jobs in the order offered and compares
  them by what their metadata says when it is polled (`poll`). Nothing (`none`) comes of a
  call that compares or changes metadata that has been freed.
-/

import Mathlib.Algebra.Order.Field.Rat
import Mathlib.Data.Prod.Lex
import Mathlib.Tactic.Linarith
import SysProg.Lib.PriQueue
import SysProg.Lib.Run

namespace SysProg.Scheduler

open Function (update)
open SysProg.Lib.PriQueue (Poll Polls compareKeys)

inductive Scheme where
  | fcfs
  | pri
  | ppri
  | psrtf
  | rr
  | sjf
  deriving DecidableEq

structure SchedulerInfo where
  runningTime : ℚ
  priority : ℚ
  deriving DecidableEq

structure JobInfo where
  id : Int
  arrivalTime : ℚ
  firstArrivalTime : ℚ
  remainingTime : ℚ
  startTime : ℚ
  /-- `fist_start_time`; -1 until the job is first returned. -/
  firstStartTime : ℚ
  stats : SchedulerInfo

structure St (J : Type) where
  /-- In the order offered. -/
  pqueue : List J
  pqueueScheme : Scheme
  metadata : J → Option JobInfo
  totalWaitingTime : ℚ
  totalTurnaroundTime : ℚ
  totalResponseTime : ℚ
  numberOfJobs : Nat

/-! ## The comparers -/

def comparerFcfs (a b : JobInfo) : Int :=
  if a.firstArrivalTime < b.firstArrivalTime then -1 else if a.firstArrivalTime > b.firstArrivalTime then 1 else 0

def breakTie (a b : JobInfo) : Int := comparerFcfs a b

def comparerPri (a b : JobInfo) : Int :=
  if a.stats.priority < b.stats.priority then -1 else if a.stats.priority > b.stats.priority then 1 else breakTie a b

def comparerPpri (a b : JobInfo) : Int := comparerPri a b

def comparerPsrtf (a b : JobInfo) : Int :=
  if a.remainingTime < b.remainingTime then -1 else if a.remainingTime > b.remainingTime then 1 else breakTie a b

def comparerRr (a b : JobInfo) : Int :=
  if a.arrivalTime < b.arrivalTime then -1 else if a.arrivalTime > b.arrivalTime then 1 else 0

def comparerSjf (a b : JobInfo) : Int :=
  if a.stats.runningTime < b.stats.runningTime then -1
  else if a.stats.runningTime > b.stats.runningTime then 1
  else breakTie a b

/-- The `comparision_func` that `scheduler_start_up` sets. -/
def comparisionFunc : Scheme → JobInfo → JobInfo → Int
  | .fcfs => comparerFcfs
  | .pri => comparerPri
  | .ppri => comparerPpri
  | .psrtf => comparerPsrtf
  | .rr => comparerRr
  | .sjf => comparerSjf

/-! ## The calls -/

variable {J : Type} [DecidableEq J]

def schedulerStartUp (s : Scheme) : St J := ⟨[], s, fun _ => none, 0, 0, 0, 0⟩

def schedulerNewJob (s : St J) (newjob : J) (jobNumber : Int) (time : ℚ) (schedData : SchedulerInfo) : St J :=
  { s with
    metadata := update s.metadata newjob (some
      { id := jobNumber
        arrivalTime := time
        firstArrivalTime := time
        remainingTime := schedData.runningTime
        startTime := -1
        firstStartTime := -1
        stats := schedData })
    numberOfJobs := s.numberOfJobs + 1
    pqueue := s.pqueue ++ [newjob] }

def withMetadata (metadata : J → Option JobInfo) : List J → Option (List (J × JobInfo))
  | [] => some []
  | job :: rest => (metadata job).bind fun info => (withMetadata metadata rest).map ((job, info) :: ·)

variable (poll : Poll (J × JobInfo))

def priqueuePoll (s : St J) : Option (J × List J) :=
  (withMetadata s.metadata s.pqueue).bind fun q =>
    (poll (fun a b => comparisionFunc s.pqueueScheme a.2 b.2) q).map fun r => (r.1.1, r.2.map Prod.fst)

def startNext (s : St J) (time : ℚ) : Option (St J × Option J) :=
  (priqueuePoll poll s).bind fun r =>
    (s.metadata r.1).map fun info =>
      ({ s with
        pqueue := r.2
        metadata := update s.metadata r.1 (some { info with
          startTime := time
          firstStartTime := if info.firstStartTime = -1 then time else info.firstStartTime }) }, some r.1)

def offerEvicted (s : St J) (jobEvicted : J) (info : JobInfo) (time : ℚ) : St J :=
  { s with
    metadata := update s.metadata jobEvicted (some { info with
      remainingTime := info.remainingTime - (time - info.startTime)
      arrivalTime := time })
    pqueue := s.pqueue ++ [jobEvicted] }

def schedulerQuantumExpired (s : St J) (jobEvicted : Option J) (time : ℚ) : Option (St J × Option J) :=
  if s.pqueue = [] then some (s, jobEvicted)
  else match jobEvicted with
    | none => startNext poll s time
    | some job =>
      if s.pqueueScheme = .fcfs ∨ s.pqueueScheme = .pri ∨ s.pqueueScheme = .sjf then some (s, some job)
      else (s.metadata job).bind fun info => startNext poll (offerEvicted s job info time) time

def schedulerJobFinished (s : St J) (jobDone : J) (time : ℚ) : Option (St J) :=
  (s.metadata jobDone).map fun info =>
    { s with
      totalWaitingTime := s.totalWaitingTime + (time - info.firstArrivalTime - info.stats.runningTime)
      totalTurnaroundTime := s.totalTurnaroundTime + (time - info.firstArrivalTime)
      totalResponseTime := s.totalResponseTime + (info.firstStartTime - info.firstArrivalTime)
      metadata := update s.metadata jobDone none }

def schedulerAverageWaitingTime (s : St J) : ℚ := s.totalWaitingTime / s.numberOfJobs

def schedulerAverageTurnaroundTime (s : St J) : ℚ := s.totalTurnaroundTime / s.numberOfJobs

def schedulerAverageResponseTime (s : St J) : ℚ := s.totalResponseTime / s.numberOfJobs

inductive Act (J : Type) where
  | newJob (newjob : J) (jobNumber : Int) (time : ℚ) (schedData : SchedulerInfo)
  | quantumExpired (jobEvicted : Option J) (time : ℚ)
  | jobFinished (jobDone : J) (time : ℚ)
  deriving DecidableEq

def Act.time : Act J → ℚ
  | .newJob _ _ time _ => time
  | .quantumExpired _ time => time
  | .jobFinished _ time => time

/-- Only `scheduler_quantum_expired` returns a job. -/
def step (s : St J) : Act J → Option (St J × Option J)
  | .newJob newjob jobNumber time schedData => some (schedulerNewJob s newjob jobNumber time schedData, none)
  | .quantumExpired jobEvicted time => schedulerQuantumExpired poll s jobEvicted time
  | .jobFinished jobDone time => (schedulerJobFinished s jobDone time).map fun s => (s, none)

def sys (scheme : Scheme) : Run.Sys (St J × List (Act J × Option J)) (Act J) :=
  Run.ofFun (fun s => s = (schedulerStartUp scheme, [])) (Run.logged (step poll))

/-! ## The comparers compare keys -/

def schemeKey : Scheme → JobInfo → ℚ ×ₗ ℚ
  | .fcfs, i => toLex (i.firstArrivalTime, 0)
  | .pri, i => toLex (i.stats.priority, i.firstArrivalTime)
  | .ppri, i => toLex (i.stats.priority, i.firstArrivalTime)
  | .psrtf, i => toLex (i.remainingTime, i.firstArrivalTime)
  | .rr, i => toLex (i.arrivalTime, 0)
  | .sjf, i => toLex (i.stats.runningTime, i.firstArrivalTime)

/-- Comparing first by one number and then by another. -/
theorem compareKeys_lex {α : Type} (f g : α → ℚ) (a b : α) :
    compareKeys (fun x => toLex (f x, g x)) a b =
      if f a < f b then -1 else if f a > f b then 1 else if g a < g b then -1 else if g a > g b then 1 else 0 := by
  unfold compareKeys
  simp only [Prod.Lex.toLex_lt_toLex]
  rcases lt_trichotomy (f a) (f b) with h | h | h
  · simp [h]
  · simp [h]
  · simp [h, not_lt_of_gt h, ne_of_gt h]

theorem comparisionFunc_eq (scheme : Scheme) : comparisionFunc scheme = compareKeys (schemeKey scheme) := by
  funext a b
  cases scheme with
  | fcfs =>
    refine Eq.trans ?_ (compareKeys_lex JobInfo.firstArrivalTime (fun _ => 0) a b).symm
    simp [comparisionFunc, comparerFcfs]
  | pri => exact (compareKeys_lex (fun i => i.stats.priority) JobInfo.firstArrivalTime a b).symm
  | ppri => exact (compareKeys_lex (fun i => i.stats.priority) JobInfo.firstArrivalTime a b).symm
  | psrtf => exact (compareKeys_lex JobInfo.remainingTime JobInfo.firstArrivalTime a b).symm
  | rr =>
    refine Eq.trans ?_ (compareKeys_lex JobInfo.arrivalTime (fun _ => 0) a b).symm
    simp [comparisionFunc, comparerRr]
  | sjf => exact (compareKeys_lex (fun i => i.stats.runningTime) JobInfo.firstArrivalTime a b).symm

end SysProg.Scheduler
