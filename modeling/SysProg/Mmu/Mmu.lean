/-
  SysProg.Mmu.Mmu — the memory management unit of ideal_indirection/mmu.c.

  A process has a page directory, whose entries point to page tables, whose entries
  point to pages; directories, tables and pages are frames of one physical memory, and
  an entry is a word of its frame. An access finds its page table entry in the TLB or by
  walking the tables, and missing tables and pages are given frames on the way.

  What the code takes from outside is `Platform` (the layout of an entry, the segment
  test, the number of pids) and the choices of each call: the TLB returns an entry it was
  given since its last flush, or nothing; the kernel, asked for a frame, first evicts any
  of the pages whose frames were asked for with their entry, saving each to the swap
  file of that entry, and then hands out a zeroed frame that is not in use. Frames and
  addresses are numbers of 20 and 32 bits; a frame is named by its address over 4096.
-/

import Mathlib.Data.List.FinRange
import SysProg.Lib.Bytes
import SysProg.Lib.Run

namespace SysProg.Mmu

open Function (update)
open SysProg.Bytes (Mem load store)

abbrev Frame := Fin (2 ^ 20)

abbrev Index := Fin 1024

abbrev Addr := Fin (2 ^ 32)

def pageSize : Nat := 4096

structure Entry where
  present : Bool
  readWrite : Bool
  userSupervisor : Bool
  accessed : Bool
  dirty : Bool
  baseAddr : Frame
  deriving DecidableEq

structure Ref where
  frame : Frame
  index : Index
  deriving DecidableEq

inductive Permission where
  | read
  | write
  | exec
  deriving DecidableEq

inductive SegmentKind where
  | stack
  | mmap
  | heap
  | bss
  | data
  | text
  | testing
  deriving DecidableEq

structure Segment where
  start : Nat
  stop : Nat
  permissions : List Permission
  growsDown : Bool

abbrev Segmentations := SegmentKind → Segment

/-- What the code takes from outside. An entry takes a word, the bits that are read back
    are those that were written, and a word of zeros is not present. -/
structure Platform where
  maxProcessId : Nat
  addressInSegmentations : Segmentations → Addr → Bool
  decode : List UInt8 → Entry
  encode : Entry → List UInt8
  length_encode : ∀ e, (encode e).length = 4
  decode_encode : ∀ e, ∃ accessed dirty, decode (encode e) = { e with accessed := accessed, dirty := dirty }
  decode_zero : (decode [0, 0, 0, 0]).present = false

structure St where
  currPid : Nat
  pageDirectories : Nat → Option Frame
  segmentations : Nat → Option Segmentations
  /-- The entries added since the last flush, under their page numbers. -/
  tlb : List (Nat × Ref)
  numTlbMisses : Nat
  numPageFaults : Nat
  numSegmentationFaults : Nat
  /-- Physical memory. -/
  frames : Frame → Mem
  inUse : Frame → Bool
  /-- The pages the kernel may evict, with their entries. -/
  evictable : Frame → Option Ref
  swap : Ref → Option Mem

/-- The kernel's answer to a request: what it evicts first, and the frame. -/
structure Grant where
  evicted : List Frame
  frame : Frame

/-- What the TLB returns for an access, and what the kernel grants it. -/
structure Choices where
  hit : Option Ref
  table : Grant
  page : Grant

def pdeIndex (va : Addr) : Index := ⟨va.val / 2 ^ 22 % 1024, Nat.mod_lt _ (by decide)⟩

def pteIndex (va : Addr) : Index := ⟨va.val / 2 ^ 12 % 1024, Nat.mod_lt _ (by decide)⟩

variable (P : Platform)

def entry (s : St) (r : Ref) : Entry := P.decode (load (s.frames r.frame) (4 * r.index.val) 4)

def setEntry (s : St) (r : Ref) (e : Entry) : St :=
  { s with frames := update s.frames r.frame (store (s.frames r.frame) (4 * r.index.val) (P.encode e)) }

/-! ## The kernel -/

def evict (s : St) (f : Frame) : St :=
  match s.evictable f with
  | none => s
  | some pte =>
    { setEntry P s pte { entry P s pte with present := false } with
      swap := update s.swap pte (some (s.frames f))
      evictable := update s.evictable f none
      inUse := update s.inUse f false }

/-- There is no answer with a frame that is in use. -/
def askKernelForFrame (s : St) (pte : Option Ref) (g : Grant) : Option St :=
  let s := g.evicted.foldl (evict P) s
  if s.inUse g.frame = true then none
  else some
    { s with
      frames := update s.frames g.frame fun _ => 0
      inUse := update s.inUse g.frame true
      evictable := update s.evictable g.frame pte }

def returnFrameToKernel (s : St) (f : Frame) : St :=
  { s with inUse := update s.inUse f false, evictable := update s.evictable f none }

/-- A page that was never evicted has no swap file. -/
def readPageFromDisk (s : St) (pte : Ref) : St :=
  match s.swap pte with
  | none => s
  | some page => { s with frames := update s.frames (entry P s pte).baseAddr page }

def removeSwapFile (s : St) (pte : Ref) : St := { s with swap := update s.swap pte none }

/-! ## Accesses -/

def Entry.pointTo (e : Entry) (f : Frame) : Entry :=
  { e with present := true, readWrite := true, userSupervisor := true, baseAddr := f }

def pageFault (s : St) (r : Ref) (g : Grant) : Option St :=
  (askKernelForFrame P { s with numPageFaults := s.numPageFaults + 1 } none g).map fun s =>
    setEntry P s r ((entry P s r).pointTo g.frame)

def demandTable (s : St) (pde : Ref) (g : Grant) : Option St :=
  if (entry P s pde).present = true then some s else pageFault P s pde g

def demandPage (s : St) (pte : Ref) (g : Grant) : Option St :=
  if (entry P s pte).present = true then some s else (pageFault P s pte g).map fun s => readPageFromDisk P s pte

/-- A TLB miss. -/
def walk (s : St) (va : Addr) (pid : Nat) (g : Grant) : Option (St × Ref) :=
  (s.pageDirectories pid).bind fun pd =>
    (demandTable P { s with numTlbMisses := s.numTlbMisses + 1 } ⟨pd, pdeIndex va⟩ g).map fun s =>
      let pte : Ref := ⟨(entry P s ⟨pd, pdeIndex va⟩).baseAddr, pteIndex va⟩
      ({ s with tlb := (va.val / 2 ^ 12, pte) :: s.tlb }, pte)

/-- The page table entry of an address. There is no answer of the TLB with an entry that
    it was not given. -/
def lookup (s : St) (va : Addr) (pid : Nat) (c : Choices) : Option (St × Ref) :=
  match c.hit with
  | none => walk P s va pid c.table
  | some pte => if (va.val / 2 ^ 12, pte) ∈ s.tlb then some (s, pte) else none

def contextSwitch (s : St) (pid : Nat) : St := if s.currPid ≠ pid then { s with tlb := [], currPid := pid } else s

def raiseSegmentationFault (s : St) : St := { s with numSegmentationFaults := s.numSegmentationFaults + 1 }

/-- The page table entry of an address, its page present, or nothing after a
    segmentation fault. -/
def performCheck (s : St) (va : Addr) (pid : Nat) (c : Choices) : Option (St × Option Ref) :=
  let s := contextSwitch s pid
  (s.segmentations pid).bind fun segs =>
    if P.addressInSegmentations segs va = true then
      (lookup P s va pid c).bind fun (s, pte) => (demandPage P s pte c.page).map fun s =>
        let e := entry P s pte
        if e.userSupervisor = true ∧ e.readWrite = true then (s, some pte) else (raiseSegmentationFault s, none)
    else some (raiseSegmentationFault s, none)

def asserts (va : Addr) (pid n : Nat) : Bool := decide (pid < P.maxProcessId ∧ n + va.val % pageSize ≤ pageSize)

def read (s : St) (va : Addr) (pid n : Nat) (c : Choices) : Option (St × Option (List UInt8)) :=
  if asserts P va pid n = true then
    (performCheck P s va pid c).map fun
      | (s, none) => (s, none)
      | (s, some pte) =>
        let e := entry P s pte
        (setEntry P s pte { e with accessed := true }, some (load (s.frames e.baseAddr) (va.val % pageSize) n))
  else none

def write (s : St) (va : Addr) (pid : Nat) (buffer : List UInt8) (c : Choices) : Option (St × Bool) :=
  if asserts P va pid buffer.length = true then
    (performCheck P s va pid c).map fun
      | (s, none) => (s, false)
      | (s, some pte) =>
        let f := (entry P s pte).baseAddr
        let s := { s with frames := update s.frames f (store (s.frames f) (va.val % pageSize) buffer) }
        (setEntry P s pte { entry P s pte with dirty := true, accessed := true }, true)
  else none

/-! ## Processes -/

def initialSegments : Segmentations
  | .stack => ⟨0xBFFFE000, 0xC07FE000, [.read, .write], true⟩
  | .mmap => ⟨0xC07FE000, 0xC07FE000, [.read, .exec, .write], true⟩
  | .heap => ⟨0x08072000, 0x08072000, [.read, .write], false⟩
  | .bss => ⟨0x0805A000, 0x08072000, [.read, .write], false⟩
  | .data => ⟨0x08052000, 0x0805A000, [.read, .write], false⟩
  | .text => ⟨0x08048000, 0x08052000, [.read, .exec], false⟩
  | .testing => ⟨pageSize, 3 * pageSize, [.read, .write], false⟩

/-- The loop of `mmu_add_process` at entry `i` of the first page table. -/
def addPage (s : St) (pde : Ref) (i : Index) (g : Grant) : Option St :=
  let pte : Ref := ⟨(entry P s pde).baseAddr, i⟩
  (askKernelForFrame P s (some pte) g).map fun s => setEntry P s pte ((entry P s pte).pointTo g.frame)

/-- The four frames are for the directory, the first table and its pages 1 and 2. -/
def addProcess (s : St) (pid : Nat) (g : Fin 4 → Grant) : Option St :=
  if pid < P.maxProcessId then
    (askKernelForFrame P s none (g 0)).bind fun s =>
      let s := { s with
        pageDirectories := update s.pageDirectories pid (some (g 0).frame)
        segmentations := update s.segmentations pid (some initialSegments) }
      let pde : Ref := ⟨(g 0).frame, 0⟩
      (askKernelForFrame P s none (g 1)).bind fun s =>
        let s := setEntry P s pde ((entry P s pde).pointTo (g 1).frame)
        (addPage P s pde 1 (g 2)).bind fun s => addPage P s pde 2 (g 3)
  else none

def removeEntry (pt : Frame) (s : St) (vpn2 : Index) : St :=
  let pte : Ref := ⟨pt, vpn2⟩
  let e := entry P s pte
  removeSwapFile (if e.present = true then returnFrameToKernel s e.baseAddr else s) pte

def removeTable (pd : Frame) (s : St) (vpn1 : Index) : St :=
  let pde := entry P s ⟨pd, vpn1⟩
  if pde.present = true then
    returnFrameToKernel ((List.finRange 1024).foldl (removeEntry P pde.baseAddr) s) pde.baseAddr
  else s

def removeProcess (s : St) (pid : Nat) : Option St :=
  if pid < P.maxProcessId then
    let s := match s.pageDirectories pid with
      | none => s
      | some pd => returnFrameToKernel ((List.finRange 1024).foldl (removeTable P pd) s) pd
    some
      { s with
        pageDirectories := update s.pageDirectories pid none
        segmentations := update s.segmentations pid none
        tlb := if s.currPid = pid then [] else s.tlb }
  else none

end SysProg.Mmu
