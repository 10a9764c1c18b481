/-
  SysProg.PasswordCracker.Cracker1 — the workers of password_cracker/cracker1.c.

  `start` reads all input, which overruns the blocks it is read into when a word is longer
  than 255 bytes, puts it on the queue and after it one NULL for each thread, and only
  then creates the threads. A worker pulls a record, tries its completions from position
  0 on, prints what it found and counts it, until it pulls NULL. `start` joins the
  workers and adds up their counts.

  A step is one pass of the loop in `crack` or the statements between two uses of the
  queue; the queue is first-in first-out and blocks when it is empty. The counters are
  ints; `tried` is the number of guesses, which `hash_count` has modulo 2^32. `results`
  is what has been printed, and `nulls` how many NULLs each worker has pulled.

  A worker has tried all the completions before the one it is at (`Trying`), so what it
  prints of a record is right (`Right`).
-/

import Mathlib.Data.BitVec
import Mathlib.Data.Fintype.BigOperators
import SysProg.Lib.Run
import SysProg.Lib.Threads
import SysProg.PasswordCracker.Utils

namespace SysProg.PasswordCracker.Cracker1

open Function (update)

/-- `struct data`; `line`, the place of the record in the input, stands for its address. -/
structure Data where
  line : Nat
  user : User
  deriving DecidableEq

inductive Pc where
  | start
  | pull
  /-- In the loop of `crack`, with the string of unknown letters. -/
  | crack (d : Data) (tmp : Text) (tried : Nat)
  /-- Back from `crack`. -/
  | result (d : Data) (result : Option Text) (tried : Nat)
  | stopped
  deriving DecidableEq

structure Result (n : Nat) where
  thread : Fin n
  data : Data
  result : Option Text
  hashCount : BitVec 32
  status : Nat
  deriving DecidableEq

structure St (n : Nat) where
  queue : List (Option Data)
  main : Main
  pc : Fin n → Pc
  numSuccessful : Fin n → BitVec 32
  numFailed : Fin n → BitVec 32
  /-- What `v1_print_summary` printed. -/
  summary : Option (BitVec 32 × BitVec 32)
  results : List (Result n)
  nulls : Fin n → Nat

variable (U : Utils) {n : Nat}

def St.goto (s : St n) (t : Fin n) (p : Pc) : St n := { s with pc := update s.pc t p }

def crack (d : Data) (tmp : Text) (tried : Nat) : Pc :=
  if U.crypt (d.user.known U ++ tmp) = d.user.hash then .result d (some (d.user.known U ++ tmp)) (tried + 1)
  else
    let (next, more) := U.incrementString tmp
    if more then .crack d next (tried + 1) else .result d none (tried + 1)

def report (s : St n) (t : Fin n) (d : Data) (result : Option Text) (tried : Nat) : St n :=
  match result with
  | none => { s with
      results := s.results ++ [⟨t, d, none, BitVec.ofNat 32 tried, 1⟩]
      numFailed := update s.numFailed t (s.numFailed t + 1)
      pc := update s.pc t .pull }
  | some password => { s with
      results := s.results ++ [⟨t, d, some password, BitVec.ofNat 32 tried, 0⟩]
      numSuccessful := update s.numSuccessful t (s.numSuccessful t + 1)
      pc := update s.pc t .pull }

def crackerHelper (s : St n) (t : Fin n) : Option (St n) :=
  match s.pc t with
  | .start => some { s with
      numSuccessful := update s.numSuccessful t 0
      numFailed := update s.numFailed t 0
      pc := update s.pc t .pull }
  | .pull =>
    match s.queue with
    | [] => none
    | none :: queue => some { s with
        queue := queue
        nulls := update s.nulls t (s.nulls t + 1)
        pc := update s.pc t .stopped }
    | some d :: queue => some { s with
        queue := queue
        pc := update s.pc t (.crack d (U.setStringPosition (d.user.unknown U) 0) 0) }
  | .crack d tmp tried => some (s.goto t (crack U d tmp tried))
  | .result d result tried => some (report s t d result tried)
  | .stopped => none

def St.stopped (s : St n) (t : Fin n) : Bool := decide (s.pc t = .stopped)

def startRest (s : St n) : Option (St n) :=
  match s.main.step s.stopped with
  | some main => some { s with main }
  | none =>
    if s.main.joined = n ∧ s.summary = none then
      some { s with summary := some (∑ i, s.numSuccessful i, ∑ i, s.numFailed i) }
    else none

inductive Act (n : Nat) where
  | main
  | worker (t : Fin n)

def step (s : St n) : Act n → Option (St n)
  | .main => startRest s
  | .worker t => if t.val < s.main.created then crackerHelper U s t else none

def dataOf (users : List User) : List Data := users.zipIdx.map fun x => ⟨x.2, x.1⟩

/-- The records and the NULLs are on the queue. The counters are uninitialised. -/
def filled (n : Nat) (users : List User) (successful failed : Fin n → BitVec 32) : St n :=
  ⟨(dataOf users).map some ++ List.replicate n none, ⟨0, 0⟩, fun _ => .start, successful, failed, none, [], fun _ => 0⟩

def start (n : Nat) (users : List User) (successful failed : Fin n → BitVec 32) : Option (St n) :=
  (readUsers users).map fun users => filled n users successful failed

def sys (n : Nat) (users : List User) : Run.Sys (St n) (Act n) :=
  Run.ofFun (fun s => ∃ successful failed, start n users successful failed = some s) (step U)

/-! ## What a step can do -/

inductive Move (s : St n) : St n → Prop
  | start (t : Fin n) : s.pc t = .start → t.val < s.main.created → Move s { s with
      numSuccessful := update s.numSuccessful t 0
      numFailed := update s.numFailed t 0
      pc := update s.pc t .pull }
  | stop (t : Fin n) (queue : List (Option Data)) : s.pc t = .pull → s.queue = none :: queue → Move s { s with
      queue := queue
      nulls := update s.nulls t (s.nulls t + 1)
      pc := update s.pc t .stopped }
  | take (t : Fin n) (d : Data) (queue : List (Option Data)) : s.pc t = .pull → s.queue = some d :: queue →
      Move s { s with
      queue := queue
      pc := update s.pc t (.crack d (U.setStringPosition (d.user.unknown U) 0) 0) }
  | guess (t : Fin n) (d : Data) (tmp : Text) (tried : Nat) : s.pc t = .crack d tmp tried →
      Move s (s.goto t (crack U d tmp tried))
  | report (t : Fin n) (d : Data) (result : Option Text) (tried : Nat) : s.pc t = .result d result tried →
      Move s (report s t d result tried)
  | main (main : Main) : s.main.step s.stopped = some main → Move s { s with main }
  | summary : s.main.joined = n → s.summary = none →
      Move s { s with summary := some (∑ i, s.numSuccessful i, ∑ i, s.numFailed i) }

variable {U} {s s' : St n} {a : Act n}

theorem step_move (h : step U s a = some s') : Move U s s' := by
  cases a with
  | main =>
    change startRest s = some s' at h
    unfold startRest at h
    split at h
    · rename_i main hm
      cases h
      exact .main main hm
    · rw [Option.ite_none_right_eq_some] at h
      rcases h with ⟨⟨hj, hnone⟩, e⟩
      cases e
      exact .summary hj hnone
  | worker t =>
    change (if t.val < s.main.created then crackerHelper U s t else none) = some s' at h
    rw [Option.ite_none_right_eq_some] at h
    rcases h with ⟨hcreated, h⟩
    unfold crackerHelper at h
    split at h
    · rename_i hpc
      cases h
      exact .start t hpc hcreated
    · rename_i hpc
      split at h
      · cases h
      · rename_i queue hq
        cases h
        exact .stop t queue hpc hq
      · rename_i d queue hq
        cases h
        exact .take t d queue hpc hq
    · rename_i d tmp tried hpc
      cases h
      exact .guess t d tmp tried hpc
    · rename_i d result tried hpc
      cases h
      exact .report t d result tried hpc
    · cases h

section
variable (s : St n) (t : Fin n) (d : Data) (result : Option Text) (tried : Nat)

theorem report_pc : (report s t d result tried).pc = update s.pc t .pull := by cases result <;> rfl

theorem report_results : (report s t d result tried).results =
    s.results ++ [⟨t, d, result, BitVec.ofNat 32 tried, if result = none then 1 else 0⟩] := by
  cases result <;> rfl

theorem report_numSuccessful : (report s t d result tried).numSuccessful =
    update s.numSuccessful t (s.numSuccessful t + if result = none then 0 else 1) := by
  cases result <;> simp [report]

theorem report_numFailed : (report s t d result tried).numFailed =
    update s.numFailed t (s.numFailed t + if result = none then 1 else 0) := by
  cases result <;> simp [report]

theorem report_queue : (report s t d result tried).queue = s.queue := by cases result <;> rfl

theorem report_main : (report s t d result tried).main = s.main := by cases result <;> rfl

theorem report_nulls : (report s t d result tried).nulls = s.nulls := by cases result <;> rfl

theorem report_summary : (report s t d result tried).summary = s.summary := by cases result <;> rfl

end

/-! ## What is printed of a record is right -/

variable (U) (completions : Nat → List Text)

def completionsOf (d : Data) : List Text := completions (d.user.unknown U).length

structure Trying (d : Data) (tmp : Text) (tried : Nat) : Prop where
  here : (completionsOf U completions d)[tried]? = some tmp
  before : ∀ k < tried, ∀ c, (completionsOf U completions d)[k]? = some c → U.crypt (d.user.known U ++ c) ≠ d.user.hash

def Answers (d : Data) : Option Text → Prop
  | some password =>
    ∃ c ∈ completionsOf U completions d, password = d.user.known U ++ c ∧ U.crypt password = d.user.hash
  | none => ¬ d.user.Crackable U completions

def PcOk : Pc → Prop
  | .crack d tmp tried => Trying U completions d tmp tried
  | .result d result _ => Answers U completions d result
  | _ => True

structure Right (s : St n) : Prop where
  worker : ∀ t, PcOk U completions (s.pc t)
  results : ∀ r ∈ s.results, Answers U completions r.data r.result ∧ r.status = if r.result = none then 1 else 0

variable {U completions} {d : Data} {tmp : Text} {tried : Nat} {t : Fin n} {p : Pc}

theorem Trying.start (hU : Enumerates U completions) (d : Data) :
    Trying U completions d (U.setStringPosition (d.user.unknown U) 0) 0 := by
  refine ⟨?_, fun k hk => absurd hk (Nat.not_lt_zero k)⟩
  unfold completionsOf
  rcases List.exists_cons_of_ne_nil (hU.some_ (d.user.unknown U).length) with ⟨c, l, e⟩
  rw [hU.position (d.user.unknown U) 0 c (by rw [e]; rfl), e]
  rfl

/-- A guess finds the password, or there are more completions, or none has the hash. -/
theorem Trying.guess (hU : Enumerates U completions) (h : Trying U completions d tmp tried) :
    PcOk U completions (crack U d tmp tried) := by
  have hmem : tmp ∈ completionsOf U completions d := List.mem_of_getElem? h.here
  unfold crack
  split
  · rename_i hhash
    exact ⟨tmp, hmem, rfl, hhash⟩
  rename_i hhash
  have hbefore : ∀ k < tried + 1, ∀ c, (completionsOf U completions d)[k]? = some c →
      U.crypt (d.user.known U ++ c) ≠ d.user.hash := by
    intro k hk c hc
    rcases Nat.lt_succ_iff_lt_or_eq.mp hk with hk | hk
    · exact h.before k hk c hc
    · subst hk
      cases h.here.symm.trans hc
      exact hhash
  cases hnext : (completionsOf U completions d)[tried + 1]? with
  | some c =>
    rw [hU.next _ tried tmp c h.here hnext]
    exact ⟨hnext, hbefore⟩
  | none =>
    have hlen := List.getElem?_eq_none_iff.mp hnext
    have hlt := (List.getElem?_eq_some_iff.mp h.here).1
    have hlast := hU.last _ tried tmp h.here (Nat.le_antisymm hlt hlen)
    cases hincr : U.incrementString tmp with
    | mk next more =>
    rw [hincr] at hlast
    cases hlast
    intro hc
    rcases hc with ⟨c, hc, hcrypt⟩
    rcases List.getElem?_of_mem hc with ⟨k, hk⟩
    have hklt := (List.getElem?_eq_some_iff.mp hk).1
    exact hbefore k (Nat.lt_of_lt_of_le hklt hlen) c hk hcrypt

theorem PcOk.update {pc : Fin n → Pc} (h : ∀ u, PcOk U completions (pc u)) (hp : PcOk U completions p) (u : Fin n) :
    PcOk U completions (update pc t p u) :=
  (Function.forall_update_iff pc fun _ p => PcOk U completions p).mpr ⟨hp, fun u _ => h u⟩ u

theorem Right.move (hU : Enumerates U completions) (hi : Right U completions s) (hm : Move U s s') :
    Right U completions s' := by
  cases hm with
  | start t _ _ => exact ⟨PcOk.update hi.worker trivial, hi.results⟩
  | stop t queue _ _ => exact ⟨PcOk.update hi.worker trivial, hi.results⟩
  | take t d queue _ _ => exact ⟨PcOk.update hi.worker (Trying.start hU d), hi.results⟩
  | guess t d tmp tried hpc =>
    have htrying : Trying U completions d tmp tried := by
      have hw := hi.worker t
      rwa [hpc] at hw
    exact ⟨PcOk.update hi.worker (htrying.guess hU), hi.results⟩
  | report t d result tried hpc =>
    have hanswer : Answers U completions d result := by
      have hw := hi.worker t
      rwa [hpc] at hw
    refine ⟨?_, ?_⟩
    · rw [report_pc]
      exact PcOk.update hi.worker trivial
    · intro r hr
      rw [report_results] at hr
      rcases List.mem_append.mp hr with hr | hr
      · exact hi.results r hr
      · rw [List.mem_singleton.mp hr]
        exact ⟨hanswer, rfl⟩
  | main main _ => exact ⟨hi.worker, hi.results⟩
  | summary _ _ => exact ⟨hi.worker, hi.results⟩

theorem Right.start (users : List User) (successful failed : Fin n → BitVec 32) :
    Right U completions (filled n users successful failed) := ⟨fun _ => trivial, by simp [filled]⟩

end SysProg.PasswordCracker.Cracker1
