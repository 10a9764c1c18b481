/-
  SysProg.Concurrency.Queue — the bounded blocking queue of critical_concurrency/queue.c.

  A queue is a linked list of nodes with `head`, `tail`, `size` and `max_size` (not
  positive: no bound), one mutex and one condition variable shared by pushers and
  pullers. Every thread makes a list of calls (`queue_push`, `queue_pull`), each run
  statement by statement (`Pc`), so a run interleaves the threads' statements in any
  order; the mutex is taken, given up by `pthread_cond_wait` and retaken as the code
  does. `pthread_cond_signal` wakes one waiter of the scheduler's choice, or none when
  nobody waits; `Act.spurious` wakes a waiter without a signal.

  `malloc` and `free` of nodes are calls to the allocator: a fresh node's address is
  any address not in use. `size` does not overflow: that many nodes do not fit in
  memory. `pushed` and `pulled` record the values of the calls completed so far.
-/

import Mathlib.Logic.Function.Basic
import Mathlib.Data.Fintype.Basic
import Mathlib.Data.Fintype.Pi
import SysProg.Lib.Run
import SysProg.Lib.Chain

namespace SysProg.BlockingQueue

open Function (update)

abbrev Addr := Nat

structure QueueNode (V : Type) where
  data : V
  next : Option Addr

inductive Call (V : Type) where
  | push (data : V)
  | pull

inductive Pc (V : Type) where
  /-- Before `pthread_mutex_lock`, or finished when no call is left. -/
  | idle
  /-- At the condition of the `while` loop. -/
  | loop
  /-- In `pthread_cond_wait`, the mutex given up. -/
  | waiting
  /-- Woken in `pthread_cond_wait`, retaking the mutex. -/
  | woken
  | malloc
  | link (newNode : Addr)
  | setTail (newNode : Addr)
  | takeHead
  | fixTail (temp : Addr) (data : V)
  | free (temp : Addr) (data : V)
  | signal (ret : Option V)
  | unlock (ret : Option V)

/-- `struct queue` and the nodes in memory. -/
structure Queue (V : Type) where
  head : Option Addr
  tail : Option Addr
  size : Int
  maxSize : Int
  node : Addr → Option (QueueNode V)

structure St (T V : Type) where
  q : Queue V
  owner : Option T
  pc : T → Pc V
  /-- The calls still to make, the current one first. -/
  calls : T → List (Call V)
  pushed : List V
  pulled : List V

inductive Act (T : Type) where
  | run (t : T)
  | malloc (t : T) (a : Addr)
  | signal (t : T) (w : Option T)
  | spurious (w : T)

variable {T V : Type} [DecidableEq T]

def Pc.isWaiting : Pc V → Bool
  | .waiting => true
  | _ => false

def mustWait (q : Queue V) : Call V → Bool
  | .push _ => decide (0 < q.maxSize ∧ q.maxSize ≤ q.size)
  | .pull => decide (q.size = 0)

/-- The mutex is taken, before the loop or inside `pthread_cond_wait`. -/
def lock (s : St T V) (t : T) : Option (St T V) :=
  if s.owner.isNone then some { s with owner := some t, pc := update s.pc t .loop } else none

def unlock (s : St T V) (t : T) (ret : Option V) (c : Call V) (rest : List (Call V)) : St T V :=
  { s with
    owner := none
    pc := update s.pc t .idle
    calls := update s.calls t rest
    pushed := match c with | .push v => s.pushed ++ [v] | .pull => s.pushed
    pulled := s.pulled ++ ret.toList }

/-- The statement of the queue code at `pc`, and where it leads. A dereference of a
    null or freed pointer has no result. -/
def statement (q : Queue V) : Pc V → Option (Queue V × Pc V)
  | .link newNode =>
    match q.head with
    | none => some ({ q with head := some newNode }, .setTail newNode)
    | some _ => q.tail.bind fun b => (q.node b).map fun n =>
        ({ q with node := update q.node b (some { n with next := some newNode }) }, .setTail newNode)
  | .setTail newNode => some ({ q with tail := some newNode }, .signal none)
  | .takeHead => q.head.bind fun a => (q.node a).map fun n => ({ q with head := n.next }, .fixTail a n.data)
  | .fixTail temp data => some ({ q with tail := if q.head.isNone then none else q.tail }, .free temp data)
  | .free temp data => some ({ q with node := update q.node temp none }, .signal (some data))
  | _ => none

/-- The loop's exit: `size` changes before anything else. -/
def enter (q : Queue V) : Call V → Queue V × Pc V
  | .push _ => ({ q with size := q.size + 1 }, .malloc)
  | .pull => ({ q with size := q.size - 1 }, .takeHead)

/-- One statement of thread `t` other than `malloc` and `pthread_cond_signal`. -/
def runThread (s : St T V) (t : T) : Option (St T V) :=
  match s.calls t with
  | [] => none
  | c :: rest =>
    match s.pc t with
    | .idle | .woken => lock s t
    | .loop =>
      if mustWait s.q c then some { s with owner := none, pc := update s.pc t .waiting }
      else some { s with q := (enter s.q c).1, pc := update s.pc t (enter s.q c).2 }
    | .unlock ret => some (unlock s t ret c rest)
    | p => (statement s.q p).map fun r => { s with q := r.1, pc := update s.pc t r.2 }

variable [Fintype T]

def step (s : St T V) : Act T → Option (St T V)
  | .run t => runThread s t
  | .malloc t a =>
    match s.pc t, s.calls t with
    | .malloc, .push v :: _ =>
      if (s.q.node a).isNone then
        some { s with q := { s.q with node := update s.q.node a (some ⟨v, none⟩) }, pc := update s.pc t (.link a) }
      else none
    | _, _ => none
  | .signal t w =>
    match s.pc t with
    | .signal ret =>
      match w with
      | none =>
        if ∀ u, (s.pc u).isWaiting = false then some { s with pc := update s.pc t (.unlock ret) } else none
      | some u =>
        if (s.pc u).isWaiting then some { s with pc := update (update s.pc t (.unlock ret)) u .woken } else none
    | _ => none
  | .spurious w => if (s.pc w).isWaiting then some { s with pc := update s.pc w .woken } else none

def queueCreate (maxSize : Int) (calls : T → List (Call V)) : St T V :=
  ⟨⟨none, none, 0, maxSize, fun _ => none⟩, none, fun _ => .idle, calls, [], []⟩

def sys : Run.Sys (St T V) (Act T) := Run.ofFun (fun s => ∃ maxSize calls, s = queueCreate maxSize calls) step

/-! ## What a step can do -/

def Pc.holds : Pc V → Bool
  | .idle | .waiting | .woken => false
  | _ => true

inductive Move (s : St T V) : Act T → St T V → Prop
  | lock (t : T) (c : Call V) (rest : List (Call V)) : s.calls t = c :: rest → s.owner = none →
      (s.pc t = .idle ∨ s.pc t = .woken) → Move s (.run t) { s with owner := some t, pc := update s.pc t .loop }
  | wait (t : T) (c : Call V) (rest : List (Call V)) : s.calls t = c :: rest → s.pc t = .loop → mustWait s.q c = true →
      Move s (.run t) { s with owner := none, pc := update s.pc t .waiting }
  | enter (t : T) (c : Call V) (rest : List (Call V)) : s.calls t = c :: rest → s.pc t = .loop →
      mustWait s.q c = false → Move s (.run t) { s with q := (enter s.q c).1, pc := update s.pc t (enter s.q c).2 }
  | statement (t : T) (c : Call V) (rest : List (Call V)) (q' : Queue V) (p' : Pc V) : s.calls t = c :: rest →
      statement s.q (s.pc t) = some (q', p') → Move s (.run t) { s with q := q', pc := update s.pc t p' }
  | unlock (t : T) (c : Call V) (rest : List (Call V)) (ret : Option V) : s.calls t = c :: rest →
      s.pc t = .unlock ret → Move s (.run t) (unlock s t ret c rest)
  | malloc (t : T) (a : Addr) (v : V) (rest : List (Call V)) : s.calls t = .push v :: rest → s.pc t = .malloc →
      s.q.node a = none → Move s (.malloc t a)
        { s with q := { s.q with node := update s.q.node a (some ⟨v, none⟩) }, pc := update s.pc t (.link a) }
  | signalNone (t : T) (ret : Option V) : s.pc t = .signal ret → (∀ u, (s.pc u).isWaiting = false) →
      Move s (.signal t none) { s with pc := update s.pc t (.unlock ret) }
  | signal (t u : T) (ret : Option V) : s.pc t = .signal ret → (s.pc u).isWaiting = true →
      Move s (.signal t (some u)) { s with pc := update (update s.pc t (.unlock ret)) u .woken }
  | spurious (w : T) : (s.pc w).isWaiting = true → Move s (.spurious w) { s with pc := update s.pc w .woken }

/-- The call has passed its loop and has not signalled yet. -/
def Pc.willSignal : Pc V → Bool
  | .malloc | .link _ | .setTail _ | .takeHead | .fixTail _ _ | .free _ _ | .signal _ => true
  | _ => false

theorem Pc.holds_of_willSignal {p : Pc V} (h : p.willSignal = true) : p.holds = true := by
  cases p <;> first | rfl | cases h

structure StatementSpec (q : Queue V) (p : Pc V) (q' : Queue V) (p' : Pc V) : Prop where
  holds : p.holds = true
  willSignal : p'.willSignal = true
  maxSize : q'.maxSize = q.maxSize

theorem StatementSpec.holds' {q q' : Queue V} {p p' : Pc V} (h : StatementSpec q p q' p') : p'.holds = true :=
  Pc.holds_of_willSignal h.willSignal

theorem statement_spec {q q' : Queue V} {p p' : Pc V} (h : statement q p = some (q', p')) :
    StatementSpec q p q' p' := by
  cases p with
  | link newNode =>
    simp only [statement] at h
    split at h
    · cases h; exact ⟨rfl, rfl, rfl⟩
    · obtain ⟨b, -, hb⟩ := Option.bind_eq_some_iff.mp h
      obtain ⟨n, -, hn⟩ := Option.map_eq_some_iff.mp hb
      cases hn; exact ⟨rfl, rfl, rfl⟩
  | takeHead =>
    obtain ⟨b, -, hb⟩ := Option.bind_eq_some_iff.mp h
    obtain ⟨n, -, hn⟩ := Option.map_eq_some_iff.mp hb
    cases hn; exact ⟨rfl, rfl, rfl⟩
  | setTail newNode => cases h; exact ⟨rfl, rfl, rfl⟩
  | fixTail temp data => cases h; exact ⟨rfl, rfl, rfl⟩
  | free temp data => cases h; exact ⟨rfl, rfl, rfl⟩
  | _ => cases h

omit [Fintype T] in
theorem runThread_move {s s' : St T V} {t : T} (h : runThread s t = some s') : Move s (.run t) s' := by
  unfold runThread at h
  split at h
  · cases h
  rename_i c rest hc
  have hlock : (s.pc t = .idle ∨ s.pc t = .woken) → lock s t = some s' → Move s (.run t) s' := by
    intro hp hl
    unfold lock at hl
    split at hl
    · rename_i ho
      cases hl
      exact .lock t c rest hc (Option.isNone_iff_eq_none.mp ho) hp
    · cases hl
  split at h
  · rename_i hp; exact hlock (Or.inl hp) h
  · rename_i hp; exact hlock (Or.inr hp) h
  · rename_i hp
    split at h
    · rename_i hw; cases h; exact .wait t c rest hc hp hw
    · rename_i hw; cases h; exact .enter t c rest hc hp (by simpa using hw)
  · rename_i ret hp; cases h; exact .unlock t c rest ret hc hp
  · obtain ⟨⟨q', p'⟩, hst, rfl⟩ := Option.map_eq_some_iff.mp h
    exact .statement t c rest q' p' hc hst

/-- The inversion lemma: whatever the step function computes is one of the moves. -/
theorem step_move {s s' : St T V} {a : Act T} (h : step s a = some s') : Move s a s' := by
  cases a with
  | run t => exact runThread_move h
  | malloc t a =>
    simp only [step] at h
    split at h
    · rename_i v rest hp hc
      split at h
      · rename_i ha; cases h; exact .malloc t a v rest hc hp (Option.isNone_iff_eq_none.mp ha)
      · cases h
    · cases h
  | signal t w =>
    simp only [step] at h
    split at h
    · rename_i ret hp
      cases w with
      | none =>
        simp only at h
        split at h
        · rename_i hn; cases h; exact .signalNone t ret hp hn
        · cases h
      | some u =>
        simp only at h
        split at h
        · rename_i hu; cases h; exact .signal t u ret hp hu
        · cases h
    · cases h
  | spurious w =>
    simp only [step] at h
    split at h
    · rename_i hw; cases h; exact .spurious w hw
    · cases h

end SysProg.BlockingQueue
