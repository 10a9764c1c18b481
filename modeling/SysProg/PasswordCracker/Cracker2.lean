/-
  SysProg.PasswordCracker.Cracker2 — the workers of password_cracker/cracker2.c.

  For each user `start` reads the three words, which overruns their blocks when one is
  longer than 255 bytes, and puts one range for each thread on the queue, after all users
  one NULL for each thread, and only then creates the threads. A worker pulls a range and
  tries its candidates until one has the hash, another worker has found one or the range
  is through; it adds its hash count to the shared one and waits at the barrier for the
  others; the first of them that takes the lock then prints the summary and resets the
  flags, and all wait at the barrier again before they go on to the next user.

  A step is a section under the lock, one guess, or the statements between two uses of
  the queue, the lock or the barrier. The queue is first-in first-out and blocks when it
  is empty; the barrier lets threads go when all have come, and is used again
  (`Barrier`). The counters are ints. `started`, `results` and `summaries` are what has
  been printed by `v2_print_start_user`, `v2_print_thread_result` and `v2_print_summary`.
-/

import Mathlib.Data.BitVec
import Mathlib.Data.Fintype.BigOperators
import SysProg.Lib.Run
import SysProg.Lib.Threads
import SysProg.PasswordCracker.Utils

namespace SysProg.PasswordCracker.Cracker2

open Function (update)

/-- `struct data`, with the place of the user in the input. -/
structure Data where
  line : Nat
  user : User
  start : Nat
  count : Nat
  deriving DecidableEq

/-- Where a worker is in `crack`. In the body of the loop `left` is the count without the
    candidate at hand. -/
inductive Pc where
  | pull
  /-- About to look at `complete`. -/
  | begun (d : Data)
  /-- About to set the string to the start of the range. -/
  | ready (d : Data)
  /-- At the condition of the loop. -/
  | loop (d : Data) (tmp : Text) (left : Nat) (hashCount : BitVec 32)
  /-- About to look at `found`. -/
  | look (d : Data) (tmp : Text) (left : Nat) (hashCount : BitVec 32)
  | guess (d : Data) (tmp : Text) (left : Nat) (hashCount : BitVec 32)
  /-- About to set `found`. -/
  | publish (d : Data) (tmp : Text) (hashCount : BitVec 32)
  /-- About to print the result. -/
  | result (d : Data) (hashCount : BitVec 32) (status : Nat)
  /-- About to add to the shared hash count. -/
  | add (d : Data) (hashCount : BitVec 32)
  | arrive (d : Data)
  /-- At the first barrier, with what the barrier counted when the worker came. -/
  | wait (d : Data) (gen : Nat)
  /-- About to look at `complete` again. -/
  | summary (d : Data)
  | arriveAgain
  /-- At the second barrier. -/
  | waitAgain (gen : Nat)
  | stopped
  deriving DecidableEq

/-- The threads that have come, and how often all had come. -/
structure Barrier where
  count : Nat
  gen : Nat
  deriving DecidableEq

def Barrier.arrive (n : Nat) (b : Barrier) : Barrier :=
  if b.count + 1 = n then ⟨0, b.gen + 1⟩ else { b with count := b.count + 1 }

structure Result (n : Nat) where
  thread : Fin n
  line : Nat
  hashCount : BitVec 32
  status : Nat
  deriving DecidableEq

structure Summary where
  username : Text
  password : Text
  hashCount : BitVec 32
  status : Nat
  deriving DecidableEq

structure St (n : Nat) where
  queue : List (Option Data)
  main : Main
  barrier : Barrier
  found : Bool
  complete : Bool
  hashCount : BitVec 32
  password : Text
  pc : Fin n → Pc
  started : List Text
  results : List (Result n)
  summaries : List Summary

variable (U : Utils) {n : Nat}

def St.goto (s : St n) (t : Fin n) (p : Pc) : St n := { s with pc := update s.pc t p }

def guess (d : Data) (tmp : Text) (left : Nat) (hashCount : BitVec 32) : Pc :=
  if U.crypt (d.user.known U ++ tmp) = d.user.hash then .publish d tmp (hashCount + 1)
  else
    let (next, more) := U.incrementString tmp
    if more then .loop d next left (hashCount + 1) else .result d (hashCount + 1) 2

def crack (s : St n) (t : Fin n) : Option (St n) :=
  match s.pc t with
  | .pull =>
    match s.queue with
    | [] => none
    | none :: queue => some { s with queue := queue, pc := update s.pc t .stopped }
    | some d :: queue => some { s with queue := queue, pc := update s.pc t (.begun d) }
  | .begun d =>
    if s.complete then some { s with
      started := s.started ++ [d.user.username]
      complete := false
      pc := update s.pc t (.ready d) }
    else some (s.goto t (.ready d))
  | .ready d => some (s.goto t (.loop d (U.setStringPosition (d.user.unknown U) d.start) d.count 0))
  | .loop d _ 0 hashCount => some (s.goto t (.result d hashCount 2))
  | .loop d tmp (left + 1) hashCount => some (s.goto t (.look d tmp left hashCount))
  | .look d tmp left hashCount =>
    some (s.goto t (if s.found then .result d hashCount 1 else .guess d tmp left hashCount))
  | .guess d tmp left hashCount => some (s.goto t (guess U d tmp left hashCount))
  | .publish d tmp hashCount => some { s with
      password := d.user.known U ++ tmp
      found := true
      pc := update s.pc t (.result d hashCount 0) }
  | .result d hashCount status => some { s with
      results := s.results ++ [⟨t, d.line, hashCount, status⟩]
      pc := update s.pc t (.add d hashCount) }
  | .add d hashCount => some { s with hashCount := s.hashCount + hashCount, pc := update s.pc t (.arrive d) }
  | .arrive d => some { s with
      barrier := s.barrier.arrive n
      pc := update s.pc t (.wait d s.barrier.gen) }
  | .wait d gen => if gen ≠ s.barrier.gen then some (s.goto t (.summary d)) else none
  | .summary d =>
    if s.complete then some (s.goto t .arriveAgain)
    else some { s with
      summaries := s.summaries ++ [⟨d.user.username, s.password, s.hashCount, if s.found then 0 else 1⟩]
      complete := true
      hashCount := 0
      found := false
      pc := update s.pc t .arriveAgain }
  | .arriveAgain => some { s with
      barrier := s.barrier.arrive n
      pc := update s.pc t (.waitAgain s.barrier.gen) }
  | .waitAgain gen => if gen ≠ s.barrier.gen then some (s.goto t .pull) else none
  | .stopped => none

def St.stopped (s : St n) (t : Fin n) : Bool := decide (s.pc t = .stopped)

inductive Act (n : Nat) where
  | main
  | worker (t : Fin n)

def step (s : St n) : Act n → Option (St n)
  | .main => (s.main.step s.stopped).map fun main => { s with main }
  | .worker t => if t.val < s.main.created then crack U s t else none

def dataFor (n line : Nat) (u : User) (i : Nat) : Data :=
  let range := U.getSubrange (u.unknown U).length n (i + 1)
  ⟨line, u, range.1, range.2⟩

def fill (n : Nat) : Nat → List User → List (Option Data)
  | _, [] => List.replicate n none
  | line, u :: users => (List.range n).map (fun i => some (dataFor U n line u i)) ++ fill n (line + 1) users

/-- The ranges and the NULLs are on the queue. The buffer for the password is uninitialised. -/
def filled (n : Nat) (users : List User) (password : Text) : St n :=
  ⟨fill U n 0 users, ⟨0, 0⟩, ⟨0, 0⟩, false, true, 0, password, fun _ => .pull, [], [], []⟩

def start (n : Nat) (users : List User) (password : Text) : Option (St n) :=
  (readUsers users).map fun users => filled U n users password

def sys (n : Nat) (users : List User) : Run.Sys (St n) (Act n) :=
  Run.ofFun (fun s => ∃ password, start U n users password = some s) (step U)

end SysProg.PasswordCracker.Cracker2
