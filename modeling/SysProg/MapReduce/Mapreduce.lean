/-
  SysProg.MapReduce.Mapreduce — the processes of mapreduce/mapreduce.c.

  `main` makes a pipe to each mapper and one to the reducer, starts the splitters and
  waits for all of them, starts the mappers and waits for all of them, closes its write
  end of the reducer's pipe and starts the reducer. A child has a copy of every
  descriptor that the parent has when it is forked, and closes the two ends of the pipes
  it is given once they are its standard input or output (`fork_process`); the other ends
  it has until it exits.

  A splitter writes its share and exits. A mapper reads its pipe to the end of file and
  writes its output in pieces of its choice, before or after the end of file; while it is
  in a write it does not read. The reducer reads its pipe to the end of file. A read
  blocks while the pipe is empty and some process has a write end, a write while there is
  no room in the pipe; a write to a pipe that no process can read ends the writer. `fork`
  and `exec` succeed.
-/

import Mathlib.Data.Fintype.Fin
import Mathlib.Logic.Function.Basic
import SysProg.Lib.Run

namespace SysProg.MapReduce

open Function (update)

inductive Parent where
  | forkSplitter (i : Nat)
  | waitSplitter (i : Nat)
  | forkMapper (i : Nat)
  /-- About to close both ends of the pipe to mapper `i`. -/
  | closeInput (i : Nat)
  | waitMapper (i : Nat)
  /-- About to close the write end of the reducer's pipe. -/
  | closeReducer
  | forkReducer
  | waitReducer
  | done
  deriving DecidableEq

inductive Splitter where
  | absent
  /-- Forked, with the descriptors of the parent. -/
  | forked
  | writing (left : Nat)
  | exited
  deriving DecidableEq

inductive Mapper where
  | absent
  | forked
  /-- Neither in a write nor at the end of file, with so much output left. -/
  | reading (left : Nat)
  /-- In a write of `size` more bytes, before as much output as `left`. -/
  | writing (size left : Nat)
  /-- Past the end of file. -/
  | finishing (left : Nat)
  | exited
  deriving DecidableEq

inductive Reducer where
  | absent
  | forked
  | reading
  | exited
  deriving DecidableEq

inductive End (n : Nat) where
  | inputRead (i : Fin n)
  | inputWrite (i : Fin n)
  | reducerRead
  | reducerWrite
  deriving DecidableEq

inductive Process (n : Nat) where
  | parent
  | splitter (i : Fin n)
  | mapper (i : Fin n)
  | reducer
  deriving DecidableEq

structure St (n : Nat) where
  parent : Parent
  splitter : Fin n → Splitter
  mapper : Fin n → Mapper
  reducer : Reducer
  /-- The ends each process has a descriptor of. -/
  ends : Process n → End n → Bool
  /-- The bytes in the pipe to each mapper. -/
  input : Fin n → Nat
  /-- The bytes in the reducer's pipe. -/
  output : Nat

variable {n : Nat}

def St.Closed (s : St n) (e : End n) : Prop :=
  s.ends .parent e = false ∧ (∀ i, s.ends (.splitter i) e = false) ∧ (∀ i, s.ends (.mapper i) e = false) ∧
    s.ends .reducer e = false

instance (s : St n) (e : End n) : Decidable (s.Closed e) := inferInstanceAs (Decidable (_ ∧ _ ∧ _ ∧ _))

def fork (s : St n) (p : Process n) : Process n → End n → Bool := update s.ends p (s.ends .parent)

/-- A process closes the ends that are not in the set. -/
def close (s : St n) (p : Process n) (keep : End n → Bool) : Process n → End n → Bool :=
  update s.ends p fun e => s.ends p e && keep e

def exit (s : St n) (p : Process n) : Process n → End n → Bool := update s.ends p fun _ => false

/-- The next statement of `main`; `waitpid` blocks until the child has exited. -/
def main (s : St n) : Option (St n) :=
  match s.parent with
  | .forkSplitter i =>
    if h : i < n then some { s with
      splitter := update s.splitter ⟨i, h⟩ .forked
      ends := fork s (.splitter ⟨i, h⟩)
      parent := .forkSplitter (i + 1) }
    else some { s with parent := .waitSplitter 0 }
  | .waitSplitter i =>
    if h : i < n then
      if s.splitter ⟨i, h⟩ = .exited then some { s with parent := .waitSplitter (i + 1) } else none
    else some { s with parent := .forkMapper 0 }
  | .forkMapper i =>
    if h : i < n then some { s with
      mapper := update s.mapper ⟨i, h⟩ .forked
      ends := fork s (.mapper ⟨i, h⟩)
      parent := .closeInput i }
    else some { s with parent := .waitMapper 0 }
  | .closeInput i =>
    if h : i < n then some { s with
      ends := close s .parent fun e => e ≠ .inputRead ⟨i, h⟩ && e ≠ .inputWrite ⟨i, h⟩
      parent := .forkMapper (i + 1) }
    else none
  | .waitMapper i =>
    if h : i < n then
      if s.mapper ⟨i, h⟩ = .exited then some { s with parent := .waitMapper (i + 1) } else none
    else some { s with parent := .closeReducer }
  | .closeReducer => some { s with
      ends := close s .parent (· ≠ .reducerWrite)
      parent := .forkReducer }
  | .forkReducer => some { s with
      reducer := .forked
      ends := fork s .reducer
      parent := .waitReducer }
  | .waitReducer => if s.reducer = .exited then some { s with parent := .done } else none
  | .done => none

def Fits (cap used size k : Nat) : Prop := 0 < k ∧ k ≤ size ∧ used + k ≤ cap

instance (cap used size k : Nat) : Decidable (Fits cap used size k) := inferInstanceAs (Decidable (_ ∧ _ ∧ _))

variable (cap : Nat) (share out : Fin n → Nat)

def St.splitterExits (s : St n) (i : Fin n) : St n :=
  { s with splitter := update s.splitter i .exited, ends := exit s (.splitter i) }

def splitterRun (s : St n) (i : Fin n) (k : Nat) : Option (St n) :=
  match s.splitter i with
  | .absent => none
  | .forked => some { s with
      splitter := update s.splitter i (.writing (share i))
      ends := close s (.splitter i) (· ≠ .inputRead i) }
  | .writing left =>
    if left = 0 then some (s.splitterExits i)
    else if s.Closed (.inputRead i) then some (s.splitterExits i)
    else if Fits cap (s.input i) left k then some { s with
      splitter := update s.splitter i (.writing (left - k))
      input := update s.input i (s.input i + k) }
    else none
  | .exited => none

def St.mapperExits (s : St n) (i : Fin n) : St n :=
  { s with mapper := update s.mapper i .exited, ends := exit s (.mapper i) }

/-- `k` bytes of a write of `size`, and where the mapper is after them. -/
def mapperWrite (s : St n) (i : Fin n) (size k : Nat) (next : Mapper) : Option (St n) :=
  if s.Closed .reducerRead then some (s.mapperExits i)
  else if Fits cap s.output size k then some { s with
    mapper := update s.mapper i next
    output := s.output + k }
  else none

/-- Mapper `i`; where it can choose it reads or begins to write `k` bytes. -/
def mapperRun (s : St n) (i : Fin n) (writes : Bool) (k : Nat) : Option (St n) :=
  match s.mapper i with
  | .absent => none
  | .forked => some { s with
      mapper := update s.mapper i (.reading (out i))
      ends := close s (.mapper i) fun e => e ≠ .inputWrite i && e ≠ .reducerRead }
  | .reading left =>
    if writes then
      if 0 < k ∧ k ≤ left then some { s with mapper := update s.mapper i (.writing k (left - k)) } else none
    else if s.input i = 0 then
      if s.Closed (.inputWrite i) then some { s with mapper := update s.mapper i (.finishing left) } else none
    else if 0 < k ∧ k ≤ s.input i then some { s with input := update s.input i (s.input i - k) }
    else none
  | .writing size left =>
    mapperWrite cap s i size k (if k = size then .reading left else .writing (size - k) left)
  | .finishing left =>
    if left = 0 then some (s.mapperExits i) else mapperWrite cap s i left k (.finishing (left - k))
  | .exited => none

def reducerRun (s : St n) (k : Nat) : Option (St n) :=
  match s.reducer with
  | .absent => none
  | .forked => some { s with
      reducer := .reading
      ends := close s .reducer (· ≠ .reducerWrite) }
  | .reading =>
    if s.output = 0 then
      if s.Closed .reducerWrite then some { s with reducer := .exited, ends := exit s .reducer } else none
    else if 0 < k ∧ k ≤ s.output then some { s with output := s.output - k }
    else none
  | .exited => none

inductive Act (n : Nat) where
  | parent
  | splitter (i : Fin n) (k : Nat)
  | mapper (i : Fin n) (writes : Bool) (k : Nat)
  | reducer (k : Nat)

def step (s : St n) : Act n → Option (St n)
  | .parent => main s
  | .splitter i k => splitterRun cap share s i k
  | .mapper i writes k => mapperRun cap out s i writes k
  | .reducer k => reducerRun s k

def start (n : Nat) : St n where
  parent := .forkSplitter 0
  splitter _ := .absent
  mapper _ := .absent
  reducer := .absent
  ends p _ := p = .parent
  input _ := 0
  output := 0

def sys : Run.Sys (St n) (Act n) := Run.ofFun (fun s => s = start n) (step cap share out)

end SysProg.MapReduce
