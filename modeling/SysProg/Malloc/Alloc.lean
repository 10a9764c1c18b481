/-
  SysProg.Malloc.Alloc — the allocator of malloc/alloc.c.

  The heap is a doubly linked list of blocks in memory obtained from `sbrk`, each a
  `struct metadata` (`headerSize` bytes) followed by its payload. `malloc` takes the tail
  if it fits, else the first block that fits, splits it when the rest can hold a block,
  and else extends the heap. `free` merges the block with a free predecessor and a free
  successor.

  `block` gives the metadata at an address (nothing: there is no header there, and
  reading one is a fault, `none`); a header stays in memory after its block has been
  merged away. Memory ends at the break: a header written past it is a fault too.
  `data` holds the payload bytes. Request sizes are 64-bit and wrap where the code adds
  to them; the sizes of blocks add up to less than the address space. `sbrk` extends the
  break contiguously or fails, as the caller of a step says; `live` lists the pointers
  handed out and not freed, with the sizes asked for.
-/

import Mathlib.Algebra.Group.Int.Defs
import Mathlib.Data.List.Basic
import SysProg.Lib.Bytes
import SysProg.Lib.Run

namespace SysProg.Malloc

open Function (update)
open SysProg.Bytes (Mem load store)

structure Metadata where
  size : Nat
  next : Option Nat
  prev : Option Nat
  free : Bool
  deriving DecidableEq

structure Heap where
  head : Option Nat
  tail : Option Nat
  block : Nat → Option Metadata
  data : Mem
  /-- `sbrk(0)` -/
  brk : Nat
  totalMemoryUse : Nat

def initialHeapSize : Nat := 256 * 1024 * 1024

def maxHeapSize : Nat := 2500 * 1024 * 1024

/-- `sizeof(struct metadata)` -/
def headerSize : Nat := 32

def alignTo : Nat := 8

def wordSize : Nat := 2 ^ 64

/-- Which of the calls of `sbrk` in one `malloc` succeed. -/
structure Sbrk where
  init : Bool
  grow : Bool

/-- `sbrk` of a 64-bit increment, which it takes as a signed number. -/
def sbrk (h : Heap) (increment : Nat) (ok : Bool) : Option Heap :=
  let brk : Int := h.brk + if increment < 2 ^ 63 then (increment : Int) else increment - 2 ^ 64
  if ok = true ∧ 0 ≤ brk ∧ brk < 2 ^ 64 then some { h with brk := brk.toNat } else none

def Heap.set (h : Heap) (a : Nat) (b : Metadata) : Heap := { h with block := update h.block a (some b) }

/-- A failure of `sbrk` ends the process: there is no heap. -/
def initHead (h : Heap) (ok : Bool) : Option Heap :=
  (sbrk h initialHeapSize ok).map fun h' =>
    { h'.set h.brk ⟨initialHeapSize - headerSize, none, none, true⟩ with
      head := some h.brk, tail := some h.brk, totalMemoryUse := h.totalMemoryUse + initialHeapSize }

def firstFit (h : Heap) (size : Nat) : Nat → Option Nat → Option (Option Nat)
  | 0, _ => none
  | _ + 1, none => some none
  | fuel + 1, some cur =>
    (h.block cur).bind fun b =>
      if b.free = true ∧ size ≤ b.size then some (some cur) else firstFit h size fuel b.next

/-- The block `malloc` serves a rounded request from, if any. A header takes more than
    one byte, so no list of blocks is longer than the break. -/
def bestBlock (h : Heap) (size : Nat) : Option (Option Nat) :=
  h.tail.bind fun tail => (h.block tail).bind fun b =>
    if b.free = true ∧ size ≤ b.size then some (some tail) else firstFit h size (h.brk + 1) h.head

/-- `size + sizeof(struct metadata) + align_to` bytes leave room for another block. -/
def canSplit (b : Metadata) (size : Nat) : Bool :=
  decide (b.size ≠ size ∧ (size + headerSize + alignTo) % wordSize ≤ b.size)

def split (h : Heap) (best size : Nat) (b : Metadata) : Heap :=
  let new := best + headerSize + size
  { (h.set new ⟨b.size - size - headerSize, b.next, some best, true⟩).set best
      { b with next := some new, size := size, free := false } with
    tail := if h.tail = some best then some new else h.tail }

def place (h : Heap) (best size : Nat) : Option Heap :=
  (h.block best).map fun b =>
    if canSplit b size then split h best size b else h.set best { b with size := size, free := false }

def extend (h : Heap) (size : Nat) (ok : Bool) : Option (Heap × Option Nat) :=
  match sbrk h ((size + headerSize) % wordSize) ok with
  | none => some (h, none)
  | some grown =>
    let cur := h.brk
    -- The increment may be less than a header, or negative.
    if grown.brk < cur + headerSize then none
    else
      let grown : Heap := grown.set cur ⟨size, none, h.tail, false⟩
      h.tail.bind fun tail => (grown.block tail).map fun t =>
        ({ grown.set tail { t with next := some cur } with tail := some cur }, some (cur + headerSize))

/-- `size + (align_to - 1) & ~(align_to - 1)` -/
def roundUp (size : Nat) : Nat := (size + 7) % wordSize / alignTo * alignTo

def serve (h : Heap) (size : Nat) (ok : Bool) : Option (Heap × Option Nat) :=
  (bestBlock h size).bind fun
    | some best => (place h best size).map fun h => (h, some (best + headerSize))
    | none => extend h size ok

def malloc (h : Heap) (size : Nat) (ok : Sbrk) : Option (Heap × Option Nat) :=
  (if h.head = none then initHead h ok.init else some h).bind fun h => serve h (roundUp size) ok.grow

def calloc (h : Heap) (num size : Nat) (ok : Sbrk) : Option (Heap × Option Nat) :=
  if num ≠ 0 ∧ (wordSize - 1) / num < size then some (h, none)
  else
    let totalSize := num * size % wordSize
    (malloc h totalSize ok).map fun
      | (h, some ptr) => ({ h with data := store h.data ptr (List.replicate totalSize 0) }, some ptr)
      | (h, none) => (h, none)

/-- `free` merges block `b` into its predecessor `a` on the list, and `a` and its
    successor `b`, in the same statements. -/
def absorb (h : Heap) (a b : Nat) : Option Heap :=
  (h.block a).bind fun x => (h.block b).bind fun y =>
    let h' := h.set a { x with size := x.size + (y.size + headerSize), next := y.next }
    let linked : Option Heap := match y.next with
      | none => some h'
      | some c => (h'.block c).map fun z => h'.set c { z with prev := some a }
    linked.map fun h' => if h'.tail = some b then { h' with tail := some a } else h'

/-- The first merge; the block that `cur` is then. -/
def mergePrev (h : Heap) (cur : Nat) : Option Nat → Option (Heap × Nat)
  | none => some (h, cur)
  | some prev => (h.block prev).bind fun p => if p.free then (absorb h prev cur).map (·, prev) else some (h, cur)

def mergeNext (h : Heap) (cur : Nat) : Option Nat → Option Heap
  | none => some h
  | some next => (h.block next).bind fun n => if n.free then absorb h cur next else some h

def free (h : Heap) : Option Nat → Option Heap
  | none => some h
  | some ptr =>
    let cur := ptr - headerSize
    (h.block cur).bind fun c =>
      (mergePrev (h.set cur { c with free := true }) cur c.prev).bind fun (h, cur) => mergeNext h cur c.next

def realloc (h : Heap) (ptr : Option Nat) (size : Nat) (ok : Sbrk) : Option (Heap × Option Nat) :=
  match ptr with
  | none => malloc h size ok
  | some p =>
    if size = 0 then (free h ptr).map (·, none)
    else (h.block (p - headerSize)).bind fun cur =>
      if size ≤ cur.size then some (h, some p)
      else (malloc h size ok).bind fun
        | (h, none) => some (h, none)
        | (h, some new) =>
          (h.block (p - headerSize)).bind fun cur =>
            (free { h with data := store h.data new (load h.data p cur.size) } ptr).map (·, some new)

/-! ## Runs -/

structure St where
  heap : Heap
  /-- Pointers handed out and not freed, with the sizes asked for. -/
  live : List (Nat × Nat)

inductive Act where
  | malloc (size : Nat) (ok : Sbrk)
  | calloc (num size : Nat) (ok : Sbrk)
  | realloc (ptr : Option Nat) (size : Nat) (ok : Sbrk)
  | free (ptr : Option Nat)

def owned (live : List (Nat × Nat)) (ptr : Option Nat) : Bool := ptr.all fun p => (live.map Prod.fst).contains p

def valid (s : St) : Act → Bool
  | .malloc size _ => size ≤ maxHeapSize
  | .calloc num size _ => num * size ≤ maxHeapSize
  | .realloc ptr size _ => owned s.live ptr && size ≤ maxHeapSize
  | .free ptr => owned s.live ptr

def drop (live : List (Nat × Nat)) (ptr : Option Nat) : List (Nat × Nat) := live.filter fun x => some x.1 ≠ ptr

def grant (live : List (Nat × Nat)) (size : Nat) : Option Nat → List (Nat × Nat)
  | none => live
  | some p => (p, size) :: live

/-- A call; nothing when it faults or ends the process. `realloc` of a pointer takes it
    back unless it fails. -/
def step (s : St) : Act → Option St
  | .malloc size ok => (malloc s.heap size ok).map fun (h, p) => ⟨h, grant s.live size p⟩
  | .calloc num size ok => (calloc s.heap num size ok).map fun (h, p) => ⟨h, grant s.live (num * size) p⟩
  | .realloc ptr size ok => (realloc s.heap ptr size ok).map fun (h, p) =>
      ⟨h, if p = none ∧ size ≠ 0 then s.live else grant (drop s.live ptr) size p⟩
  | .free ptr => (free s.heap ptr).map fun h => ⟨h, drop s.live ptr⟩

def Initial (s : St) : Prop := s.heap.head = none ∧ s.heap.tail = none ∧ 0 < s.heap.brk ∧ s.live = []

def sys : Run.Sys St Act := Run.ofFun Initial step

end SysProg.Malloc
