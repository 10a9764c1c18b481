/-
  SysProg.ExtremeEdgeCases.CamelCaser — extreme_edge_cases/camelCaser.c.

  A string is the list of the bytes before its terminator. Reads past the terminator,
  writes past the end of a block or through NULL, the overflow of an `int` and entries
  that are never set have no result. A count of bytes that is made an `int` wraps (`int`);
  the block for a sentence is as large as such an `int` says, and a negative one asks for
  more than there is, so that `malloc` returns NULL. Other blocks are there.
-/

import Mathlib.Algebra.Group.Nat.Defs
import Mathlib.Data.Int.Basic
import SysProg.Lib.Ctype

namespace SysProg.ExtremeEdgeCases

open Ctype

abbrev Text := List UInt8

def int (n : Nat) : Int := Int.bmod n (2 ^ 32)

/-- The text up to the next punctuation character, and where that is. -/
def scan (start : Text) : Text × Text :=
  (start.takeWhile fun c => !ispunct c, start.dropWhile fun c => !ispunct c)

theorem scan_lt {start rest : Text} {c : UInt8} (h : (scan start).2 = c :: rest) : rest.length < start.length := by
  have hle := (List.dropWhile_suffix (l := start) fun c => !ispunct c).length_le
  have hlen := congrArg List.length h
  rw [List.length_cons] at hlen
  exact Nat.lt_of_lt_of_le (Nat.lt_of_lt_of_eq (Nat.lt_succ_self _) hlen.symm) hle

def count (start : Text) (cnt : Nat) : Option Nat :=
  match h : (scan start).2 with
  | [] => some cnt
  | _ :: rest => if cnt + 1 < 2 ^ 31 then count rest (cnt + 1) else none
termination_by start.length
decreasing_by exact scan_lt h

/-- `strncpy` of a text to the block of `size` bytes, and the terminator after it. -/
def copy (size : Int) (text : Text) : Option Text :=
  let length := int text.length
  if 0 ≤ length ∧ length < size then some (text.take length.toNat) else none

/-- The bytes of a sentence from where `k` bytes of the entry are written. -/
def convert : Nat → Bool → Text → Text
  | _, _, [] => []
  | k, Cap, c :: sentence =>
    if isalpha c = true then
      if k = 0 then tolower c :: convert (k + 1) false sentence
      else if Cap = true then toupper c :: convert (k + 1) false sentence
      else tolower c :: convert (k + 1) Cap sentence
    else if isspace c = true then convert k true sentence
    else c :: convert (k + 1) Cap sentence

def entries (size : Int) : Nat → Text → Option (List Text)
  | 0, _ => some []
  | i + 1, start =>
    match scan start with
    -- no punctuation: at the terminator the loop ends early, else `start` goes past it
    | (_, []) => none
    | (text, _ :: rest) => (copy size text).bind fun sentence =>
      (entries size i (rest.dropWhile isspace)).map fun result => convert 0 false sentence :: result

/-- The result; `none` is NULL. -/
def camelCaser : Option Text → Option (Option (List Text))
  | none => some none
  | some input_str => (count input_str 0).bind fun cnt =>
    -- the pointers and the NULL after them
    if cnt + 1 < 2 ^ 31 then (entries (int input_str.length) cnt input_str).map some else none

end SysProg.ExtremeEdgeCases
