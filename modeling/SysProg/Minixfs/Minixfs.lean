/-
  SysProg.Minixfs.Minixfs — reading, writing and creating files in
  finding_filesystems/minixfs.c.

  A file system is a table of inodes and the memory from `data_root` on, in which data
  block `b` is at address `b * sizeof(data_block)`. An inode lists the numbers of its
  direct blocks and of its indirect block, and the indirect block holds further numbers,
  four bytes each; UNASSIGNED_NODE (-1) is `none`. Memory beyond the data blocks is
  memory too: an address is read or written wherever it points.

  minixfs.h and minixfs_utils.h are not in the repository: block size, the helpers that
  resolve paths and those that hand out blocks and inodes are the fields of `Utils`.
  A regular file's contents are its bytes below `size`. Times are not modelled. Sizes
  and offsets are 64-bit: `wrap` is the unsigned sum.
-/

import Mathlib.Logic.Function.Basic
import SysProg.Lib.Bytes

namespace SysProg.Minixfs

open Function (update)
open SysProg.Bytes (Mem store leDecode leEncode)

structure Inode where
  /-- `direct[0..NUM_DIRECT_BLOCKS)` -/
  direct : Nat → Option Nat
  indirect : Option Nat
  size : Nat
  isDirectory : Bool

structure FileSystem where
  /-- The inodes in use. -/
  inodes : Nat → Option Inode
  data : Mem
  /-- `get_data_used` -/
  dataUsed : Nat → Bool
  dblockCount : Nat

def FileSystem.memcpy (s : FileSystem) (a : Nat) (l : List UInt8) : FileSystem := { s with data := store s.data a l }

def numDirectBlocks : Nat := 11

/-- What minixfs.h and minixfs_utils.h provide. -/
structure Utils where
  /-- `sizeof(data_block)` -/
  blockSize : Nat
  blockSize_pos : 0 < blockSize
  /-- FILE_NAME_ENTRY -/
  fileNameEntry : Nat
  /-- DATA_NUMBER -/
  dataNumber : Int
  getInode : FileSystem → String → Option Nat
  isVirtualPath : String → Option String
  /-- `minixfs_min_blockcount` returned 0. -/
  minBlockcount : FileSystem → String → Nat → FileSystem × Bool
  addDataBlockToInode : FileSystem → Nat → FileSystem × Option Nat
  addSingleIndirectBlock : FileSystem → Nat → FileSystem × Option Nat
  /-- Given the number of the indirect block. -/
  addDataBlockToIndirectBlock : FileSystem → Nat → FileSystem × Option Nat
  parentDirectory : FileSystem → String → Option (Nat × String)
  firstUnusedInode : FileSystem → Option Nat
  /-- `init_inode(parent, new_node)` -/
  initInode : FileSystem → Nat → Nat → FileSystem
  makeStringFromDirent : String → Nat → List UInt8

inductive Errno where
  | enospc
  | enoent
  | eisdir
  deriving DecidableEq

inductive Stop where
  | errno (e : Errno)
  /-- An access through an unassigned block number or inode. -/
  | fault
  | diverges
  deriving DecidableEq

variable (u : Utils)

/-- NUM_INDIRECT_BLOCKS: the block numbers in one data block. -/
def Utils.numIndirectBlocks : Nat := u.blockSize / 4

def Utils.addr (b o : Nat) : Nat := b * u.blockSize + o

def wrap (n : Nat) : Nat := n % 2 ^ 64

/-! ## Block numbers -/

def unassigned : Nat := 2 ^ 32 - 1

def toBlockNumber (v : Nat) : Option Nat := if v = unassigned then none else some v

/-- `((data_block_number *)(fs->data_root + indirect))[k]` -/
def entry (data : Mem) (indirect k : Nat) : Option Nat :=
  toBlockNumber (leDecode ((List.range 4).map fun i => data (u.addr indirect (4 * k + i))))

def setEntry (s : FileSystem) (indirect k : Nat) (b : Option Nat) : FileSystem :=
  s.memcpy (u.addr indirect (4 * k)) (leEncode 4 (b.getD unassigned))

def setInode (s : FileSystem) (n : Nat) (f : Inode → Inode) : FileSystem :=
  { s with inodes := update s.inodes n ((s.inodes n).map f) }

def blockOf (s : FileSystem) (n blockNum : Nat) : Option Nat :=
  (s.inodes n).bind fun node =>
    if blockNum < numDirectBlocks then node.direct blockNum
    else node.indirect.bind fun i => entry u s.data i (blockNum - numDirectBlocks)

/-- The block at index `blockNum`, assigned now if it was not (and the indirect block
    before it); what failed is left recorded as UNASSIGNED_NODE. -/
def ensureBlock (s : FileSystem) (n blockNum : Nat) : FileSystem × Option Nat :=
  match s.inodes n with
  | none => (s, none)
  | some node =>
    if blockNum < numDirectBlocks then
      match node.direct blockNum with
      | some b => (s, some b)
      | none =>
        let (s, b) := u.addDataBlockToInode s n
        (setInode s n fun node => { node with direct := update node.direct blockNum b }, b)
    else
      let (s, indirect) := match node.indirect with
        | some i => (s, some i)
        | none =>
          let (s, i) := u.addSingleIndirectBlock s n
          (setInode s n fun node => { node with indirect := i }, i)
      match indirect with
      | none => (s, none)
      | some i =>
        match entry u s.data i (blockNum - numDirectBlocks) with
        | some b => (s, some b)
        | none =>
          let (s, b) := u.addDataBlockToIndirectBlock s i
          (setEntry u s i (blockNum - numDirectBlocks) b, b)

/-! ## Creating a file -/

def minixfsCreateInodeForPath (s : FileSystem) (path : String) : FileSystem × Option Nat :=
  if (u.getInode s path).isSome then (s, none)
  else match u.parentDirectory s path with
    | none => (s, none)
    | some (parent, filename) =>
      match u.firstUnusedInode s with
      | none => (s, none)
      | some new =>
        let s := u.initInode s parent new
        match s.inodes parent with
        | none => (s, none)
        | some node =>
          match ensureBlock u s parent (node.size / u.blockSize) with
          | (s, none) => (s, none)
          | (s, some b) =>
            let s := s.memcpy (u.addr b (node.size % u.blockSize)) (u.makeStringFromDirent filename new)
            (setInode s parent fun node => { node with size := node.size + u.fileNameEntry }, some new)

/-! ## Writing -/

/-- The loop of `minixfs_write`; `cur_pos` is `*off + written`. -/
def writeLoop (n : Nat) (buf : List UInt8) (off : Nat) : Nat → FileSystem → Nat → FileSystem × Except Stop Nat
  | 0, s, _ => (s, .error .diverges)
  | fuel + 1, s, written =>
    if written < buf.length then
      let blockOffset := (off + written) % u.blockSize
      match ensureBlock u s n ((off + written) / u.blockSize) with
      | (s, none) => (s, .error (.errno .enospc))
      | (s, some block) =>
        let toWrite := min (u.blockSize - blockOffset) (buf.length - written)
        -- `fs->data_root + block + block_offset` counts in blocks
        let s := s.memcpy (u.addr (block + blockOffset) 0) ((buf.drop written).take toWrite)
        writeLoop n buf off fuel s (written + toWrite)
    else (s, .ok written)

def maxFileSize : Nat := (u.numIndirectBlocks + numDirectBlocks * numDirectBlocks) * u.blockSize

def blocksNeeded (pos : Nat) : Nat := pos / u.blockSize + if pos % u.blockSize ≠ 0 then 1 else 0

/-- `minixfs_write`: the bytes written, and `*off` afterwards. -/
def minixfsWrite (s : FileSystem) (path : String) (buf : List UInt8) (off : Nat) :
    FileSystem × Except Stop (Nat × Nat) :=
  if maxFileSize u < wrap (off + buf.length) then (s, .error (.errno .enospc))
  else
    let (s, node) := match u.getInode s path with
      | some n => (s, some n)
      | none => minixfsCreateInodeForPath u s path
    match node with
    | none => (s, .error (.errno .enoent))
    | some n =>
      match u.minBlockcount s path (blocksNeeded u (wrap (buf.length + off))) with
      | (s, false) => (s, .error (.errno .enospc))
      | (s, true) =>
        match writeLoop u n buf off (buf.length + 1) s 0 with
        | (s, .error e) => (s, .error e)
        | (s, .ok written) =>
          (setInode s n fun node => { node with size := max node.size (wrap (off + buf.length)) },
            .ok (written, off + written))

/-! ## Reading -/

def blockInfoString (usedBlocks : Nat) : String :=
  "Free blocks: " ++ toString (u.dataNumber - usedBlocks) ++ "\nUsed blocks: " ++ toString usedBlocks ++ "\n"

def minixfsVirtualRead (s : FileSystem) (path : String) (count off : Nat) : Except Stop (List UInt8 × Nat) :=
  if path = "info" then
    let usedBlocks := ((List.range s.dblockCount).filter s.dataUsed).length
    let info := (blockInfoString u usedBlocks).toUTF8.toList
    let read := (info.drop off).take count
    .ok (read, off + read.length)
  else .error (.errno .enoent)

/-- The loop of `minixfs_read`: the bytes still to read from `cur_pos` on. -/
def readLoop (s : FileSystem) (n : Nat) : Nat → Nat → Nat → Except Stop (List UInt8)
  | 0, _, _ => .error .diverges
  | fuel + 1, curPos, left =>
    if 0 < left then
      match blockOf u s n (curPos / u.blockSize) with
      | none => .error .fault
      | some block =>
        let toRead := min (u.blockSize - curPos % u.blockSize) left
        let chunk := (List.range toRead).map fun i => s.data (u.addr block (curPos % u.blockSize) + i)
        (readLoop s n fuel (curPos + toRead) (left - toRead)).map (chunk ++ ·)
    else .ok []

def minixfsRead (s : FileSystem) (path : String) (count off : Nat) : Except Stop (List UInt8 × Nat) :=
  match u.isVirtualPath path with
  | some virtual => minixfsVirtualRead u s virtual count off
  | none =>
    match (u.getInode s path).bind s.inodes, u.getInode s path with
    | some node, some n =>
      if node.size ≤ off then .ok ([], off)
      else if node.isDirectory then .error (.errno .eisdir)
      else
        let toRead := min count (node.size - off)
        (readLoop u s n (toRead + 1) off toRead).map fun bytes => (bytes, off + bytes.length)
    | _, _ => .error (.errno .enoent)

end SysProg.Minixfs
