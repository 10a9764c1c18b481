/-
  SysProg.MiniMemcheck.MiniMemcheck — the memory checker of mini_memcheck/mini_memcheck.c.

  Every allocation has a `meta_data` in front of its payload, and these are in a singly
  linked list from `head`, in the order of the allocations. `mini_free` and
  `mini_realloc` look a pointer up in the list and count it as invalid when it is not
  the payload of a listed block. Three counters are kept: the bytes requested, the bytes
  freed, both wrapping at 2^64, and the invalid addresses, which go up by one a call.

  `node` gives the `meta_data` at an address, nothing where no block is allocated. The
  backing allocator is outside: the caller of a step says which address `malloc` and
  `calloc` return, and whether `realloc` keeps the block in place, moves it or fails.
  The size asked for is computed modulo 2^64, and a block of fewer bytes than a
  `meta_data` has none in it. Nothing (`none`) comes of a call that reads or writes
  through NULL, past a block or in one that is not allocated. Addresses are below 2^64,
  so no list is longer than that.
-/

import Mathlib.Algebra.Group.Nat.Defs
import Mathlib.Logic.Function.Basic
import SysProg.Lib.Run

namespace SysProg.MiniMemcheck

open Function (update)

abbrev Addr := Nat

def wordSize : Nat := 2 ^ 64

/-- `sizeof(meta_data)` -/
def metaSize : Nat := 32

/-- `sizeof(meta_data) + request_size`, what the backing allocator is asked for. -/
def allocSize (requestSize : Nat) : Nat := (metaSize + requestSize) % wordSize

structure MetaData where
  requestSize : Nat
  /-- A string, by its address. -/
  filename : Addr
  instruction : Addr
  next : Option Addr
  deriving DecidableEq

structure St where
  head : Option Addr
  node : Addr → Option MetaData
  totalMemoryRequested : Nat
  totalMemoryFreed : Nat
  invalidAddresses : Nat

/-- `current + 1`, the pointer that the program gets. -/
def payload (current : Addr) : Addr := current + metaSize

def lastNode (node : Addr → Option MetaData) : Nat → Addr → Option Addr
  | 0, _ => none
  | fuel + 1, current => (node current).bind fun m =>
    match m.next with
    | none => some current
    | some next => lastNode node fuel next

/-- The loop that looks for the block of a payload: `prev` and `current` at its end. -/
def findNode (node : Addr → Option MetaData) (p : Addr) : Nat → Option Addr → Option Addr →
    Option (Option Addr × Option Addr)
  | 0, _, _ => none
  | _ + 1, prev, none => some (prev, none)
  | fuel + 1, prev, some current =>
    if payload current = p then some (prev, some current)
    else (node current).bind fun m => findNode node p fuel (some current) m.next

def append (s : St) (tmp : Addr) (size requestSize : Nat) (filename instruction : Addr) : Option St :=
  let m : MetaData := ⟨requestSize, filename, instruction, none⟩
  -- the `meta_data` is written past the block
  if size < metaSize then none
  else match s.head with
  | none => some { s with head := some tmp, node := update s.node tmp (some m) }
  | some head => (lastNode s.node wordSize head).bind fun current => (s.node current).map fun n =>
    { s with node := update (update s.node current (some { n with next := some tmp })) tmp (some m) }

def miniMalloc (s : St) (requestSize : Nat) (filename instruction : Addr) (tmp : Addr) : Option (St × Option Addr) :=
  if requestSize = 0 then some (s, none)
  else
    let s := { s with totalMemoryRequested := (s.totalMemoryRequested + requestSize) % wordSize }
    (append s tmp (allocSize requestSize) requestSize filename instruction).map fun s => (s, some (payload tmp))

def miniCalloc (s : St) (numElements elementSize : Nat) (filename instruction : Addr) (tmp : Addr) :
    Option (St × Option Addr) :=
  if numElements = 0 ∨ elementSize = 0 then some (s, none)
  else
    let requestSize := numElements * elementSize % wordSize
    let s := { s with totalMemoryRequested := (s.totalMemoryRequested + requestSize) % wordSize }
    (append s tmp (allocSize requestSize) requestSize filename instruction).map fun s => (s, some (payload tmp))

def miniFree (s : St) (p : Option Addr) : Option St :=
  match p with
  | none => some s
  | some p => (findNode s.node p (wordSize + 1) none s.head).bind fun
    | (_, none) => some { s with invalidAddresses := s.invalidAddresses + 1 }
    | (none, some current) => (s.node current).map fun m =>
      { s with
        head := m.next
        totalMemoryFreed := (s.totalMemoryFreed + m.requestSize) % wordSize
        node := update s.node current none }
    | (some prev, some current) => (s.node current).bind fun m => (s.node prev).map fun n =>
      { s with
        totalMemoryFreed := (s.totalMemoryFreed + m.requestSize) % wordSize
        node := update (update s.node prev (some { n with next := m.next })) current none }

inductive Realloc where
  | kept
  | moved (new : Addr)
  | failed
  deriving DecidableEq

/-- The blocks afterwards, the one at `current` now of `size` bytes, and the pointer
    returned; a block that moves is freed where it was. -/
def realloc (node : Addr → Option MetaData) (current : Addr) (size : Nat) :
    Realloc → (Addr → Option MetaData) × Option Addr
  | .kept => (if size < metaSize then update node current none else node, some current)
  | .moved new => (update (update node current none) new (if size < metaSize then none else node current), some new)
  | .failed => (node, none)

def resize (s : St) (current : Addr) (requestSize : Nat) (backing : Realloc) : Option (St × Option Addr) :=
  let (node, newPayload) := realloc s.node current (allocSize requestSize) backing
  -- the block is read again where it was
  (node current).bind fun m =>
    let s :=
      if requestSize < m.requestSize then
        { s with totalMemoryFreed := (s.totalMemoryFreed + (m.requestSize - requestSize)) % wordSize }
      else { s with totalMemoryRequested := (s.totalMemoryRequested + (requestSize - m.requestSize)) % wordSize }
    newPayload.bind fun new => (node new).map fun n =>
      ({ s with node := update node new (some { n with requestSize := requestSize }) }, some (payload new))

def miniRealloc (s : St) (p : Option Addr) (requestSize : Nat) (filename instruction : Addr) (tmp : Addr)
    (backing : Realloc) : Option (St × Option Addr) :=
  match p with
  | none => miniMalloc s requestSize filename instruction tmp
  | some p =>
    if requestSize = 0 then (miniFree s (some p)).map fun s => (s, none)
    else (findNode s.node p (wordSize + 1) none s.head).bind fun
      | (_, none) => some ({ s with invalidAddresses := s.invalidAddresses + 1 }, none)
      | (_, some current) => (s.node current).bind fun m =>
        if m.requestSize = requestSize then some (s, some p) else resize s current requestSize backing

/-! ## Runs -/

inductive Call where
  | malloc (requestSize : Nat) (filename instruction : Addr) (tmp : Addr)
  | calloc (numElements elementSize : Nat) (filename instruction : Addr) (tmp : Addr)
  | free (p : Option Addr)
  deriving DecidableEq

def exec (s : St) : Call → Option (St × Option Addr)
  | .malloc requestSize filename instruction tmp => miniMalloc s requestSize filename instruction tmp
  | .calloc numElements elementSize filename instruction tmp =>
    miniCalloc s numElements elementSize filename instruction tmp
  | .free p => (miniFree s p).map fun s => (s, none)

def Call.requested : Call → Option Nat
  | .malloc requestSize _ _ _ => if requestSize = 0 then none else some requestSize
  | .calloc numElements elementSize _ _ _ =>
    if numElements = 0 ∨ elementSize = 0 then none else some (numElements * elementSize % wordSize)
  | .free _ => none

/-- The sum with `sizeof(meta_data)` does not wrap. -/
def Call.Fits (c : Call) : Prop := ∀ requestSize ∈ c.requested, metaSize + requestSize < wordSize

instance (c : Call) : Decidable c.Fits := inferInstanceAs (Decidable (∀ requestSize ∈ c.requested, _))

def Call.tmp : Call → Option Addr
  | .malloc requestSize _ _ tmp => if requestSize = 0 then none else some tmp
  | .calloc numElements elementSize _ _ tmp => if numElements = 0 ∨ elementSize = 0 then none else some tmp
  | .free _ => none

def Fresh (s : St) (tmp : Addr) : Prop := s.node tmp = none ∧ tmp < wordSize

instance (s : St) (tmp : Addr) : Decidable (Fresh s tmp) :=
  decidable_of_iff ((s.node tmp).isNone = true ∧ tmp < wordSize) (by rw [Option.isNone_iff_eq_none]; rfl)

def step (s : St) (c : Call) : Option (St × Option Addr) := if ∀ tmp ∈ c.tmp, Fresh s tmp then exec s c else none

def start : St := ⟨none, fun _ => none, 0, 0, 0⟩

def sys : Run.Sys (St × List (Call × Option Addr)) Call := Run.ofFun (fun s => s = (start, [])) (Run.logged step)

end SysProg.MiniMemcheck
