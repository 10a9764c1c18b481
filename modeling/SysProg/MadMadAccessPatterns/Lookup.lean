/-
  SysProg.MadMadAccessPatterns.Lookup — mad_mad_access_patterns/lookup1.c and lookup2.c.

  The layout of a node (tree.h) is a parameter: a header with the offsets of the children,
  and the word after it. `readNode` counts the bytes of the word in an `int`, up to its
  terminator, and copies header and word. The copy is without the terminator; `search`
  compares words as they are in the file, with theirs, and
  `SysProg.MadMadAccessPatterns.Ends` has the search over the blocks. lookup1 reads the file as a
  stream, with a seek before every read, and never leaves the loop at the end of the
  file; lookup2 reads the mapped file, which has zeros up to the end of its last page.
-/

import Mathlib.Algebra.Group.Nat.Defs
import Mathlib.Data.List.Basic

namespace SysProg.MadMadAccessPatterns

abbrev Text := List UInt8

/-- `struct BinaryTreeNode` and BINTREE_ROOT_NODE_OFFSET. -/
structure Layout where
  size : Nat
  left_child : Text → UInt32
  right_child : Text → UInt32
  root : UInt32
  -- the root comes after the magic number
  root_ne : root ≠ 0

structure Node where
  left_child : UInt32
  right_child : UInt32
  word : Text

def Layout.node (L : Layout) (bytes : Text) : Node where
  left_child := L.left_child (bytes.take L.size)
  right_child := L.right_child (bytes.take L.size)
  word := bytes.drop L.size

def strcmp : Text → Text → Int
  | [], [] => 0
  | [], b :: _ => - (b.toNat : Int)
  | a :: _, [] => a.toNat
  | a :: s, b :: t => if a = b then strcmp s t else a.toNat - b.toNat

/-- The loop of `findWord`, with a bound on its rounds. -/
def search (readNode : UInt32 → Option Node) (word : Text) : Nat → UInt32 → Option UInt32
  | 0, _ => none
  | fuel + 1, cur =>
    if cur = 0 then some 0
    else (readNode cur).bind fun node =>
      let cmp := strcmp word node.word
      if cmp = 0 then some cur
      else if cmp < 0 ∧ node.left_child ≠ 0 then search readNode word fuel node.left_child
      else if node.right_child ≠ 0 then search readNode word fuel node.right_child
      else some 0

variable (L : Layout)

namespace Lookup1

/-- `while (fgetc(fd) != 0) wordLength++;` with these bytes ahead. -/
def wordLength : Nat → Text → Option Nat
  | _, [] => none
  | n, b :: ahead => if b = 0 then some n else if n + 1 < 2 ^ 31 then wordLength (n + 1) ahead else none

def readNode (fd : Text) (offset : UInt32) : Option Node :=
  (wordLength 0 (fd.drop (offset.toNat + L.size))).map fun n => L.node ((fd.drop offset.toNat).take (L.size + n))

def findWord (fd word : Text) (fuel : Nat) : Option UInt32 := search (readNode L fd) word fuel L.root

end Lookup1

/-- A file in memory, up to the end of its last page. -/
def mapped (page : Nat) (file : Text) : Text := file ++ List.replicate ((page - file.length % page) % page) 0

namespace Lookup2

/-- `while (fd[start + wordLength] != 0) wordLength++;` -/
def wordLength (fd : Text) (start n : Nat) : Option Nat :=
  if h : start + n < fd.length then
    if fd[start + n] = 0 then some n else if n + 1 < 2 ^ 31 then wordLength fd start (n + 1) else none
  else none
termination_by fd.length - (start + n)

def readNode (fd : Text) (offset : UInt32) : Option Node :=
  (wordLength fd (offset.toNat + L.size) 0).map fun n => L.node ((fd.drop offset.toNat).take (L.size + n))

def findWord (fd word : Text) (fuel : Nat) : Option UInt32 := search (readNode L fd) word fuel L.root

end Lookup2

end SysProg.MadMadAccessPatterns
