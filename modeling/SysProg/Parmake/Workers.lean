/-
  SysProg.Parmake.Workers — the worker threads of parallel_make/parmake.c.

  A worker pulls a target, looks at the states of its dependencies one by one, runs the
  target's commands, and then, in one section under the lock, records the result and
  passes over all sorted targets: a target whose file exists is done, a target whose
  dependencies are all done is queued. Every worker ends at the first empty name it
  pulls, which it pushes back for the others.

  Each worker has a program counter; one step is one statement group between two uses of
  the lock or the queue, and in the update pass one step for each sorted target, since
  commands of other workers may create files meanwhile. Commands do what they want:
  while one runs it may create any file, and it ends well or not. The job queue is
  first-in first-out and unbounded; a pull from the empty queue blocks.

  `onDisk` and `made` are for stating results: the files before the workers started, and
  the targets all of whose commands a worker has finished successfully.
-/

import Mathlib.Data.Fintype.Basic
import SysProg.Lib.Run
import SysProg.Parmake.TopologicalSort

namespace SysProg.Parmake

open Function (update)
open SysProg.Lib (AdjGraph)

/-- `rule_t.state` -/
inductive RuleState where
  /-- 0: not looked at yet, or waiting for its dependencies. -/
  | waiting
  /-- 1 -/
  | done
  /-- 2: pushed to the job queue. -/
  | queued
  /-- -1 -/
  | failed
  deriving DecidableEq

structure Makefile (V : Type) where
  graph : AdjGraph V
  root : V
  commands : V → List String

inductive Pc (V : Type) where
  | start
  | pull
  /-- Pulled: about to read the target's dependencies. -/
  | fetch (target : V)
  /-- The dependencies still to look at. -/
  | check (target : V) (rest : List V)
  /-- About to read the target's own state; `flag` says that a dependency failed. -/
  | own (target : V) (flag : Bool)
  /-- Inside the first of the commands left. -/
  | running (target : V) (left : List String)
  /-- About to take the lock and record the target's state. -/
  | record (target : V) (state : RuleState)
  /-- In the update pass, the lock held, with the sorted targets still to visit. -/
  | pass (rest : List V)
  /-- Looking at the goals, the lock held. -/
  | goals (rest : List V)
  /-- Pulled the empty name. -/
  | stop
  | exited
  deriving DecidableEq

structure St (T V : Type) where
  state : V → RuleState
  queue : List V
  file : V → Bool
  lock : Option T
  sorted : List V
  pc : T → Pc V
  onDisk : V → Bool
  made : V → Bool

variable {T V : Type}

inductive Scan where
  | ready
  | failed
  | waiting

def scanDependencies (state : V → RuleState) : List V → Scan
  | [] => .ready
  | d :: rest =>
    if state d = .failed then .failed else if state d ≠ .done then .waiting else scanDependencies state rest

variable [DecidableEq V]

/-! ## The workers -/

/-- One round of the update pass. -/
def visitRule (mk : Makefile V) (s : St T V) (neighbor : V) : St T V :=
  let state := if s.file neighbor then update s.state neighbor .done else s.state
  if state neighbor ≠ .waiting then { s with state := state }
  else match scanDependencies state (mk.graph.neighbors neighbor) with
    | .ready => { s with state := update state neighbor .queued, queue := s.queue ++ [neighbor] }
    | .failed => { s with state := update state neighbor .failed }
    | .waiting => { s with state := state }

variable [DecidableEq T]

def St.goto (s : St T V) (t : T) (p : Pc V) : St T V := { s with pc := update s.pc t p }

omit [DecidableEq V] in
theorem goto_self {s : St T V} {t : T} (p : Pc V) : (s.goto t p).pc t = p := Function.update_self ..

omit [DecidableEq V] in
theorem goto_of_ne {s : St T V} {t u : T} (p : Pc V) (h : u ≠ t) : (s.goto t p).pc u = s.pc u :=
  Function.update_of_ne h ..

def runCommands (s : St T V) (t : T) (target : V) : List String → St T V
  | [] => { s with made := update s.made target true, pc := update s.pc t (.record target .done) }
  | command :: rest => s.goto t (.running target (command :: rest))

/-- A statement group between `pthread_mutex_lock` and `pthread_mutex_unlock`. -/
def locked (s : St T V) (s' : St T V) : Option (St T V) := if s.lock = none then some s' else none

def threadMake (mk : Makefile V) (s : St T V) (t : T) : Option (St T V) :=
  match s.pc t with
  | .start => locked s (s.goto t .pull)
  | .pull =>
    match s.queue with
    | [] => none
    | target :: queue => some ({ s with queue := queue }.goto t (if target = mk.root then .stop else .fetch target))
  | .fetch target => locked s (s.goto t (.check target (mk.graph.neighbors target)))
  | .check target [] => some (s.goto t (.own target false))
  | .check target (d :: rest) =>
    locked s (s.goto t (if s.state d = .failed then .own target true else .check target rest))
  | .own target flag =>
    locked s (if s.state target = .done then s.goto t .pull
      else if flag then s.goto t (.record target .failed)
      else runCommands s t target (mk.commands target))
  | .running _ _ => none
  | .record target state =>
    locked s ({ s with lock := some t, state := update s.state target state }.goto t (.pass s.sorted))
  | .pass (neighbor :: rest) => some ((visitRule mk s neighbor).goto t (.pass rest))
  | .pass [] => some (s.goto t (.goals (mk.graph.neighbors mk.root)))
  | .goals (v :: rest) =>
    some (if s.state v = .waiting then { s with lock := none }.goto t .pull else s.goto t (.goals rest))
  | .goals [] => some ({ s with queue := s.queue ++ [mk.root], lock := none }.goto t .pull)
  | .stop => some ({ s with queue := s.queue ++ [mk.root] }.goto t .exited)
  | .exited => none

inductive Act (T V : Type) where
  /-- The worker's next statements. -/
  | run (t : T)
  /-- The command the worker is in creates a file. -/
  | create (t : T) (f : V)
  /-- The command the worker is in ends. -/
  | finish (t : T) (ok : Bool)

def step (mk : Makefile V) (s : St T V) : Act T V → Option (St T V)
  | .run t => threadMake mk s t
  | .create t f =>
    match s.pc t with
    | .running _ _ => some { s with file := update s.file f true }
    | _ => none
  | .finish t ok =>
    match s.pc t with
    | .running target (_ :: rest) =>
      some (if ok then runCommands s t target rest else s.goto t (.record target .failed))
    | _ => none

/-! ## The state the workers start in -/

/-- The loop of `parmake` that marks the targets already on disk. -/
def markExisting (file : V → Bool) : List V → (V → RuleState) → V → RuleState
  | [], state => state
  | v :: rest, state => markExisting file rest (if file v then update state v .done else state)

/-- The loop of `parmake` that queues the targets whose dependencies are on disk. -/
def pushReady (mk : Makefile V) : List V → (V → RuleState) × List V → (V → RuleState) × List V
  | [], r => r
  | v :: rest, (state, queue) =>
    pushReady mk rest
      (if (mk.graph.neighbors v).all (fun d => state d = .done) then (update state v .queued, queue ++ [v])
        else (state, queue))

def parmakeStart (mk : Makefile V) (file : V → Bool) (sorted : List V) : St T V :=
  let r := pushReady mk sorted (markExisting file sorted fun _ => .waiting, [])
  ⟨r.1, if sorted = [] then r.2 ++ [mk.root] else r.2, file, none, sorted, fun _ => .start, file, fun _ => false⟩

def sys (mk : Makefile V) : Run.Sys (St T V) (Act T V) :=
  Run.ofFun (fun s => ∃ file sorted, topologicalSort mk.graph (mk.graph.neighbors mk.root) = some sorted ∧
    s = parmakeStart mk file sorted) (step mk)

/-! ## What a step can do -/

inductive Move (mk : Makefile V) (s : St T V) : Act T V → St T V → Prop
  | start (t : T) : s.pc t = .start → s.lock = none → Move mk s (.run t) (s.goto t .pull)
  | pullStop (t : T) (queue : List V) : s.pc t = .pull → s.queue = mk.root :: queue →
      Move mk s (.run t) ({ s with queue := queue }.goto t .stop)
  | pull (t : T) (target : V) (queue : List V) : s.pc t = .pull → s.queue = target :: queue → target ≠ mk.root →
      Move mk s (.run t) ({ s with queue := queue }.goto t (.fetch target))
  | fetch (t : T) (target : V) : s.pc t = .fetch target → s.lock = none →
      Move mk s (.run t) (s.goto t (.check target (mk.graph.neighbors target)))
  | checked (t : T) (target : V) : s.pc t = .check target [] → Move mk s (.run t) (s.goto t (.own target false))
  | checkFailed (t : T) (target d : V) (rest : List V) : s.pc t = .check target (d :: rest) → s.lock = none →
      s.state d = .failed → Move mk s (.run t) (s.goto t (.own target true))
  | check (t : T) (target d : V) (rest : List V) : s.pc t = .check target (d :: rest) → s.lock = none →
      s.state d ≠ .failed → Move mk s (.run t) (s.goto t (.check target rest))
  | skip (t : T) (target : V) (flag : Bool) : s.pc t = .own target flag → s.lock = none → s.state target = .done →
      Move mk s (.run t) (s.goto t .pull)
  | giveUp (t : T) (target : V) : s.pc t = .own target true → s.lock = none → s.state target ≠ .done →
      Move mk s (.run t) (s.goto t (.record target .failed))
  | begin (t : T) (target : V) : s.pc t = .own target false → s.lock = none → s.state target ≠ .done →
      Move mk s (.run t) (runCommands s t target (mk.commands target))
  | record (t : T) (target : V) (state : RuleState) : s.pc t = .record target state → s.lock = none →
      Move mk s (.run t) ({ s with lock := some t, state := update s.state target state }.goto t (.pass s.sorted))
  | visit (t : T) (neighbor : V) (rest : List V) : s.pc t = .pass (neighbor :: rest) →
      Move mk s (.run t) ((visitRule mk s neighbor).goto t (.pass rest))
  | passed (t : T) : s.pc t = .pass [] → Move mk s (.run t) (s.goto t (.goals (mk.graph.neighbors mk.root)))
  | goalOpen (t : T) (v : V) (rest : List V) : s.pc t = .goals (v :: rest) → s.state v = .waiting →
      Move mk s (.run t) ({ s with lock := none }.goto t .pull)
  | goal (t : T) (v : V) (rest : List V) : s.pc t = .goals (v :: rest) → s.state v ≠ .waiting →
      Move mk s (.run t) (s.goto t (.goals rest))
  | goalsOver (t : T) : s.pc t = .goals [] →
      Move mk s (.run t) ({ s with queue := s.queue ++ [mk.root], lock := none }.goto t .pull)
  | stop (t : T) : s.pc t = .stop → Move mk s (.run t) ({ s with queue := s.queue ++ [mk.root] }.goto t .exited)
  | create (t : T) (target f : V) (left : List String) : s.pc t = .running target left →
      Move mk s (.create t f) { s with file := update s.file f true }
  | finish (t : T) (target : V) (command : String) (rest : List String) : s.pc t = .running target (command :: rest) →
      Move mk s (.finish t true) (runCommands s t target rest)
  | fail (t : T) (target : V) (command : String) (rest : List String) : s.pc t = .running target (command :: rest) →
      Move mk s (.finish t false) (s.goto t (.record target .failed))

omit [DecidableEq V] [DecidableEq T] in
theorem locked_some {s s' u : St T V} (h : locked s s' = some u) : s.lock = none ∧ u = s' := by
  unfold locked at h
  split at h
  · cases h; exact ⟨‹_›, rfl⟩
  · cases h

variable {mk : Makefile V} {s s' : St T V}

theorem threadMake_move {t : T} (h : threadMake mk s t = some s') : Move mk s (.run t) s' := by
  unfold threadMake at h
  split at h
  · rename_i hp; obtain ⟨hl, rfl⟩ := locked_some h; exact .start t hp hl
  · rename_i hp
    split at h
    · cases h
    · rename_i target queue hq
      cases h
      split
      · rename_i hroot; exact .pullStop t queue hp (hroot ▸ hq)
      · rename_i hroot; exact .pull t target queue hp hq hroot
  · rename_i target hp; obtain ⟨hl, rfl⟩ := locked_some h; exact .fetch t target hp hl
  · rename_i target hp; cases h; exact .checked t target hp
  · rename_i target d rest hp
    obtain ⟨hl, rfl⟩ := locked_some h
    split
    · rename_i hd; exact .checkFailed t target d rest hp hl hd
    · rename_i hd; exact .check t target d rest hp hl hd
  · rename_i target flag hp
    obtain ⟨hl, rfl⟩ := locked_some h
    split
    · rename_i hd; exact .skip t target flag hp hl hd
    · rename_i hd
      cases flag with
      | true => exact .giveUp t target hp hl hd
      | false => exact .begin t target hp hl hd
  · cases h
  · rename_i target state hp; obtain ⟨hl, rfl⟩ := locked_some h; exact .record t target state hp hl
  · rename_i neighbor rest hp; cases h; exact .visit t neighbor rest hp
  · rename_i hp; cases h; exact .passed t hp
  · rename_i v rest hp
    cases h
    split
    · rename_i hv; exact .goalOpen t v rest hp hv
    · rename_i hv; exact .goal t v rest hp hv
  · rename_i hp; cases h; exact .goalsOver t hp
  · rename_i hp; cases h; exact .stop t hp
  · cases h

/-- The inversion lemma: whatever the step function computes is one of the moves. -/
theorem step_move {a : Act T V} (h : step mk s a = some s') : Move mk s a s' := by
  cases a with
  | run t => exact threadMake_move h
  | create t f =>
    simp only [step] at h
    split at h
    · rename_i target left hp; cases h; exact .create t target f left hp
    · cases h
  | finish t ok =>
    simp only [step] at h
    split at h
    · rename_i target command rest hp
      cases ok with
      | true => cases h; exact .finish t target command rest hp
      | false => cases h; exact .fail t target command rest hp
    · cases h

/-! ## What a round of the update pass can do -/

inductive Visit (mk : Makefile V) (s : St T V) (n : V) : St T V → Prop
  | settled (r : RuleState) : r ≠ .waiting → r ≠ .queued → Visit mk s n { s with state := update s.state n r }
  /-- A target that waits has a dependency that is not finished. -/
  | kept : (s.state n = .waiting → ∃ d ∈ mk.graph.neighbors n, s.state d = .waiting ∨ s.state d = .queued) →
      Visit mk s n s
  | pushed : s.state n = .waiting →
      Visit mk s n { s with state := update s.state n .queued, queue := s.queue ++ [n] }

omit [DecidableEq T] in
/-- No worker moves in it. -/
theorem Visit.frame {n : V} (h : Visit mk s n s') : s'.pc = s.pc ∧ s'.lock = s.lock ∧ s'.sorted = s.sorted := by
  cases h with
  | settled _ _ _ => exact ⟨rfl, rfl, rfl⟩
  | kept _ => exact ⟨rfl, rfl, rfl⟩
  | pushed _ => exact ⟨rfl, rfl, rfl⟩

omit [DecidableEq V] in
theorem scan_waiting {state : V → RuleState} {l : List V} (h : scanDependencies state l = .waiting) :
    ∃ d ∈ l, state d = .waiting ∨ state d = .queued := by
  induction l with
  | nil => cases h
  | cons d l ih =>
    rw [scanDependencies] at h
    split at h
    · cases h
    · rename_i hfailed
      split at h
      · rename_i hdone
        refine ⟨d, List.mem_cons_self, ?_⟩
        cases hd : state d with
        | waiting => exact Or.inl rfl
        | queued => exact Or.inr rfl
        | done => exact absurd hd hdone
        | failed => exact absurd hd hfailed
      · rcases ih h with ⟨e, he, hs⟩
        exact ⟨e, List.mem_cons_of_mem _ he, hs⟩

omit [DecidableEq T] in
theorem visitRule_visit (n : V) : Visit mk s n (visitRule mk s n) := by
  unfold visitRule
  by_cases hf : s.file n = true
  · rw [if_pos hf]
    dsimp only
    rw [if_pos (by simp)]
    exact .settled .done (by simp) (by simp)
  · rw [if_neg hf]
    dsimp only
    split
    · rename_i hw
      exact .kept fun h => absurd h hw
    · rename_i hw
      split
      · exact .pushed (not_not.mp hw)
      · exact .settled .failed (by simp) (by simp)
      · rename_i hscan
        exact .kept fun _ => scan_waiting hscan

theorem runCommands_goto (t : T) (target : V) (left : List String) :
    ∃ m p, runCommands s t target left = { s with made := m }.goto t p ∧
      (p = .running target left ∨ p = .record target .done) := by
  cases left with
  | nil => exact ⟨update s.made target true, .record target .done, rfl, Or.inr rfl⟩
  | cons command rest => exact ⟨s.made, _, rfl, Or.inl rfl⟩

end SysProg.Parmake
