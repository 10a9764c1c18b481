/-
  SysProg.Vector.Sstring — the strings of vector/sstring.c.

  An `sstring` is a buffer that holds a C string, and its size. `sstring_append`,
  `sstring_split`, `sstring_substitute` and `sstring_slice` go through the buffer with
  the functions of string.h; an access outside a buffer has no result (`none`). Every
  sstring has a buffer of its own, so two arguments share one only when they are the
  same sstring. `fill` is what a block holds when it is allocated, and `ok` says whether
  the allocation that a call checks succeeds; those of `cstr_to_sstring` and
  `sstring_split`, which are not checked, do. A vector of strings is a list
  (`SysProg.Vector.vector_refines_list`). Sizes stay below 2^64: the strings are in
  memory. The user's `char *` arguments are C strings or NULL.
-/

import Mathlib.Algebra.Group.Nat.Defs
import Mathlib.Data.Int.DivMod
import Mathlib.Logic.Function.Basic
import SysProg.Lib.CString
import SysProg.Lib.Run

namespace SysProg.Sstrings

open Function (update)
open SysProg.CString (Text CStr cstr strlen put strcpy strncpy strcat strcpyWithin strstr malloc realloc)

structure Sstring where
  str : Text
  size : Nat
  deriving DecidableEq

def toInt (n : Int) : Int := n.bmod (2 ^ 32)

def cstrToSstring (input : CStr) : Sstring := ⟨input.buffer, input.1.length⟩

def sstringToCstr (input : Sstring) : Option Text := cstr input.str

def appendOther (this addition : Sstring) (fill : Nat → UInt8) : Option Sstring :=
  let newSize := this.size + addition.size
  (strcat (realloc this.str (newSize + 1) fill) addition.str).map fun str => ⟨str, newSize⟩

/-- Both arguments are one sstring: `strcat` reads the buffer it writes. -/
def appendSelf (this : Sstring) (fill : Nat → UInt8) : Option Sstring :=
  let newSize := this.size + this.size
  let newStr := realloc this.str (newSize + 1) fill
  (strlen newStr).bind fun n => (strcpyWithin (newSize + 2) newStr n 0).map fun str => ⟨str, newSize⟩

/-- The loop of `sstring_split` from `end`, with the vector so far: the buffer and the
    vector at its end. -/
def splitLoop (delimiter : UInt8) : Nat → Text → Nat → Nat → Bool → List Text → Option (Text × List Text)
  | 0, _, _, _, _, _ => none
  | fuel + 1, str, start, stop, f, v => str[stop]?.bind fun b =>
    if b = 0 then
      if f = true ∨ start ≠ stop then (cstr (str.drop start)).map fun s => (str, v ++ [s]) else some (str, v)
    else if b = delimiter then
      (put str stop [0]).bind fun str => (cstr (str.drop start)).bind fun s =>
        splitLoop delimiter fuel str (stop + 1) (stop + 1) true (v ++ [s])
    else splitLoop delimiter fuel str start (stop + 1) false v

def sstringSplit (this : Sstring) (delimiter : UInt8) (ok : Bool) : Option (Sstring × Option (List Text)) :=
  if ok = false then some (this, none)
  else
    (splitLoop delimiter (this.str.length + 1) this.str 0 0 false []).map fun (str, v) =>
      ({ this with str := str }, some v)

def sstringSubstitute (this : Sstring) (offset : Nat) (target substitution : CStr) (ok : Bool) (fill : Nat → UInt8) :
    Option (Sstring × Int) :=
  (cstr (this.str.drop offset)).bind fun rest =>
    match strstr target.1 rest with
    | none => some (this, -1)
    | some i =>
      let pos := offset + i
      let targetLen := target.1.length
      let subLen := substitution.1.length
      let newSize := this.size - targetLen + subLen
      if ok = false then some (this, -1)
      else
        (strncpy (malloc (newSize + 1) fill) 0 this.str pos).bind fun newStr =>
          (strcpy newStr pos substitution.buffer).bind fun newStr =>
            (strcpy newStr (pos + subLen) (this.str.drop (pos + targetLen))).map fun newStr => (⟨newStr, newSize⟩, 0)

/-- The block returned. Its size is computed as an `int`; when that wraps below 0, `malloc`
    is asked for more than there is. -/
def sstringSlice (this : Sstring) (start stop : Int) (ok : Bool) (fill : Nat → UInt8) : Option (Option Text) :=
  if start < 0 ∨ stop < 0 ∨ stop < start ∨ toInt this.size < stop then some none
  else if ok = false ∨ toInt (stop - start + 1) < 0 then some none
  else
    let n := (stop - start).toNat
    (strncpy (malloc (n + 1) fill) 0 (this.str.drop start.toNat) n).bind fun newStr => (put newStr n [0]).map some

/-! ## Runs -/

abbrev Id := Nat

/-- A call; a pointer that may be NULL is an option. -/
inductive Op where
  | create (this : Id) (input : Option CStr)
  | toCstr (this : Option Id) (ok : Bool)
  | append (this addition : Option Id) (ok : Bool) (fill : Nat → UInt8)
  | split (this : Option Id) (delimiter : UInt8) (ok : Bool)
  | substitute (this : Option Id) (offset : Nat) (target substitution : Option CStr) (ok : Bool) (fill : Nat → UInt8)
  | slice (this : Option Id) (start stop : Int) (ok : Bool) (fill : Nat → UInt8)
  | destroy (this : Option Id)

inductive Ret where
  | void
  | int (v : Int)
  | sstring (this : Option Id)
  | text (s : Option Text)
  | vector (v : Option (List Text))

abbrev St := Id → Option Sstring

def exec (s : St) : Op → Option (St × Ret)
  | .create _ none => some (s, .sstring none)
  | .create a (some input) =>
    if (s a).isNone = true then some (update s a (some (cstrToSstring input)), .sstring (some a)) else none
  | .toCstr none _ => some (s, .text none)
  | .toCstr (some a) ok => (s a).bind fun x => (sstringToCstr x).map fun t =>
      (s, .text (if ok = true then some t else none))
  | .append (some a) (some b) ok fill => (s a).bind fun x => (s b).bind fun y =>
    if ok = false then some (s, .int (-1))
    else (if a = b then appendSelf x fill else appendOther x y fill).map fun x =>
      (update s a (some x), .int (toInt x.size))
  | .append _ _ _ _ => some (s, .int (-1))
  | .split none _ _ => some (s, .vector none)
  | .split (some a) delimiter ok => (s a).bind fun x => (sstringSplit x delimiter ok).map fun (x, v) =>
    (update s a (some x), .vector v)
  | .substitute (some a) offset (some target) (some substitution) ok fill => (s a).bind fun x =>
    (sstringSubstitute x offset target substitution ok fill).map fun (x, r) => (update s a (some x), .int r)
  | .substitute _ _ _ _ _ _ => some (s, .int (-1))
  | .slice none _ _ _ _ => some (s, .text none)
  | .slice (some a) start stop ok fill => (s a).bind fun x => (sstringSlice x start stop ok fill).bind fun
    | none => some (s, .text none)
    | some block => (cstr block).map fun t => (s, .text (some t))
  | .destroy none => some (s, .void)
  | .destroy (some a) => (s a).map fun _ => (update s a none, .void)

def present (s : St) : Option Id → Bool
  | none => true
  | some a => (s a).isSome

/-- The sstrings of a call exist, a new one does not yet, and an offset is at most the length. -/
def valid (s : St) : Op → Bool
  | .create a _ => (s a).isNone
  | .append this addition _ _ => present s this && present s addition
  | .substitute none _ _ _ _ _ => true
  | .substitute (some a) offset _ _ _ _ => ((s a).bind fun x => strlen x.str).any fun n => offset ≤ n
  | .toCstr this _ | .split this _ _ | .slice this _ _ _ _ | .destroy this => present s this

def sys : Run.Sys (St × List (Op × Ret)) Op := Run.ofFun (fun s => s = (fun _ => none, [])) (Run.logged exec)

end SysProg.Sstrings
