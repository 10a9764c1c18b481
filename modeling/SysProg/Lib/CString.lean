/-
  SysProg.Lib.CString — C strings in buffers.

  A buffer is the bytes of an allocated block, and an offset into it stands for a
  pointer. `cstr` is the string that starts a buffer: the bytes before the first NUL, or
  nothing when there is none and a reader would leave the block. The functions of
  string.h read and write buffers; a write that does not fit has no result. Each comes
  with the lemma that says what it does to a buffer given as a list (`put_append`,
  `strcpy_append`, `strncpy_append`, `realloc_cstr`), and `cstr_eq_some` says when a
  buffer holds a string.

  `strcpyWithin` copies from a buffer to itself one byte after the other, so that a copy
  of a string onto its own end runs after its terminator (`strcpyWithin_runs_off`).
-/

import Mathlib.Data.List.Basic
import Mathlib.Data.List.Infix

namespace SysProg.CString

abbrev Text := List UInt8

/-- What a `char *` argument points at. -/
abbrev CStr := { s : Text // 0 ∉ s }

def CStr.buffer (s : CStr) : Text := s.1 ++ [0]

def cstr : Text → Option Text
  | [] => none
  | b :: l => if b = 0 then some [] else (cstr l).map fun s => b :: s

def strlen (l : Text) : Option Nat := (cstr l).map List.length

def put (l : Text) (i : Nat) (bytes : Text) : Option Text :=
  if i + bytes.length ≤ l.length then some (l.take i ++ bytes ++ l.drop (i + bytes.length)) else none

def strn : Nat → Text → Option Text
  | 0, _ => some []
  | _ + 1, [] => none
  | n + 1, b :: l => if b = 0 then some [] else (strn n l).map fun s => b :: s

def strcpy (dest : Text) (i : Nat) (src : Text) : Option Text := (cstr src).bind fun s => put dest i (s ++ [0])

def strncpy (dest : Text) (i : Nat) (src : Text) (n : Nat) : Option Text :=
  (strn n src).bind fun s => put dest i (s ++ List.replicate (n - s.length) 0)

def strcat (dest src : Text) : Option Text := (strlen dest).bind fun n => strcpy dest n src

/-- `strcpy` of one part of a buffer onto another, up from the first byte. -/
def strcpyWithin : Nat → Text → Nat → Nat → Option Text
  | 0, _, _, _ => none
  | fuel + 1, l, i, j => l[j]?.bind fun b => (put l i [b]).bind fun l =>
    if b = 0 then some l else strcpyWithin fuel l (i + 1) (j + 1)

def strstr (needle : Text) : Text → Option Nat
  | [] => if needle = [] then some 0 else none
  | b :: l => if needle.isPrefixOf (b :: l) = true then some 0 else (strstr needle l).map (· + 1)

/-- A block of `n` bytes, which holds what `fill` says. -/
def malloc (n : Nat) (fill : Nat → UInt8) : Text := (List.range n).map fill

def realloc (l : Text) (n : Nat) (fill : Nat → UInt8) : Text := l.take n ++ malloc (n - l.length) fill

/-! ## Strings in buffers -/

variable {l s t rest : Text} {n : Nat} {fill : Nat → UInt8}

theorem cstr_append (hs : 0 ∉ s) : cstr (s ++ 0 :: rest) = some s := by
  induction s with
  | nil => exact if_pos rfl
  | cons b s ih =>
    rw [List.mem_cons, not_or] at hs
    rw [List.cons_append, cstr, if_neg (Ne.symm hs.1), ih hs.2]
    rfl

theorem cstr_eq_some : cstr l = some s ↔ ∃ rest, l = s ++ 0 :: rest ∧ 0 ∉ s := by
  constructor
  · intro h
    induction l generalizing s with
    | nil => cases h
    | cons b l ih =>
      unfold cstr at h
      split at h
      · rename_i hb
        cases h
        exact ⟨l, congrArg (· :: l) hb, List.not_mem_nil⟩
      · rename_i hb
        rcases Option.map_eq_some_iff.mp h with ⟨s', hs', e⟩
        rcases ih hs' with ⟨rest, hl, h0⟩
        rw [← e, hl]
        refine ⟨rest, rfl, ?_⟩
        rw [List.mem_cons, not_or]
        exact ⟨Ne.symm hb, h0⟩
  · intro ⟨rest, hl, h0⟩
    rw [hl]
    exact cstr_append h0

theorem CStr.cstr (s : CStr) : CString.cstr s.buffer = some s.1 := cstr_append s.2

/-- A string read from inside another one. -/
theorem cstr_drop (h : cstr l = some s) (hn : n ≤ s.length) : cstr (l.drop n) = some (s.drop n) := by
  rcases cstr_eq_some.mp h with ⟨rest, hl, h0⟩
  rw [hl, List.drop_append_of_le_length hn]
  exact cstr_append fun hm => h0 (List.mem_of_mem_drop hm)

theorem strn_take (h : cstr l = some s) (hn : n ≤ s.length) : strn n l = some (s.take n) := by
  rcases cstr_eq_some.mp h with ⟨rest, hl, h0⟩
  rw [hl]
  clear hl h
  induction s generalizing n with
  | nil =>
    rw [Nat.le_zero.mp hn]
    rfl
  | cons b s ih =>
    cases n with
    | zero => rfl
    | succ n =>
      rw [List.mem_cons, not_or] at h0
      rw [List.cons_append, strn, if_neg (Ne.symm h0.1), ih (Nat.le_of_succ_le_succ hn) h0.2]
      rfl

/-! ## Writes -/

theorem put_append (s : Text) (h : t.length ≤ rest.length) :
    put (s ++ rest) s.length t = some (s ++ (t ++ rest.drop t.length)) := by
  unfold put
  rw [List.length_append, if_pos (Nat.add_le_add_left h _), List.take_left, List.drop_append, List.append_assoc,
    Nat.add_sub_cancel_left, List.drop_of_length_le (Nat.le_add_right _ _), List.nil_append]

theorem strcpy_append {src : Text} (s : Text) (ht : cstr src = some t) (h : t.length < rest.length) :
    strcpy (s ++ rest) s.length src = some (s ++ (t ++ 0 :: rest.drop (t.length + 1))) := by
  unfold strcpy
  have hlen : (t ++ [0]).length ≤ rest.length := by
    rw [List.length_append, List.length_singleton]
    exact h
  rw [ht, Option.bind_some, put_append s hlen, List.length_append, List.length_singleton, List.append_assoc]
  rfl

theorem strncpy_append {src : Text} (s : Text) (ht : cstr src = some t) (hn : n ≤ t.length) (h : n ≤ rest.length) :
    strncpy (s ++ rest) s.length src n = some (s ++ (t.take n ++ rest.drop n)) := by
  unfold strncpy
  have hlen : (t.take n).length = n := List.length_take_of_le hn
  rw [strn_take ht hn, Option.bind_some, hlen, Nat.sub_self, List.replicate_zero, List.append_nil,
    put_append s (by rw [hlen]; exact h), hlen]

theorem strcat_spec {src : Text} (hl : cstr l = some s) (ht : cstr src = some t) (h : s.length + t.length < l.length) :
    ∃ l', strcat l src = some l' ∧ cstr l' = some (s ++ t) := by
  rcases cstr_eq_some.mp hl with ⟨rest, e, hs⟩
  rcases cstr_eq_some.mp ht with ⟨_, _, ht0⟩
  rw [e, List.length_append] at h
  refine ⟨s ++ (t ++ 0 :: (0 :: rest).drop (t.length + 1)), ?_, ?_⟩
  · unfold strcat strlen
    rw [hl, Option.map_some, Option.bind_some, e]
    exact strcpy_append _ ht (by omega)
  · rw [← List.append_assoc]
    apply cstr_append
    rw [List.mem_append, not_or]
    exact ⟨hs, ht0⟩

theorem malloc_length : (malloc n fill).length = n := by rw [malloc, List.length_map, List.length_range]

theorem realloc_length : (realloc l n fill).length = n := by
  rw [realloc, List.length_append, List.length_take, malloc_length]
  omega

/-- The string stays when the block has room for it. -/
theorem realloc_cstr (fill : Nat → UInt8) (h : cstr l = some s) (hn : s.length < n) :
    cstr (realloc l n fill) = some s := by
  rcases cstr_eq_some.mp h with ⟨rest, hl, h0⟩
  have htake : l.take n = s ++ 0 :: rest.take (n - s.length - 1) := by
    rw [hl, List.take_append, List.take_of_length_le (Nat.le_of_lt hn)]
    cases hk : n - s.length with
    | zero => omega
    | succ k => rfl
  rw [realloc, htake, List.append_assoc, List.cons_append]
  exact cstr_append h0

/-! ## A string copied onto its own end -/

theorem put_getElem? {i j : Nat} {b : UInt8} {l' : Text} (h : put l i [b] = some l') :
    l'[j]? = if j = i then some b else l[j]? := by
  unfold put at h
  split at h
  · rename_i hi
    rw [List.length_singleton] at hi h
    have hlen : (l.take i).length = i := List.length_take_of_le (by omega)
    cases h
    rcases Nat.lt_trichotomy j i with hj | hj | hj
    · rw [if_neg (Nat.ne_of_lt hj), List.append_assoc, List.getElem?_append_left (by omega),
        List.getElem?_take_of_lt hj]
    · rw [if_pos hj, List.append_assoc, List.getElem?_append_right (by omega), hlen, hj, Nat.sub_self]
      rfl
    · rw [if_neg (Nat.ne_of_gt hj), List.append_assoc, List.getElem?_append_right (by omega), hlen,
        List.getElem?_append_right (by rw [List.length_singleton]; omega), List.length_singleton, List.getElem?_drop]
      congr 1
      omega
  · cases h

/-- With no NUL before the place written to, the copy reads what it wrote and leaves the block. -/
theorem strcpyWithin_runs_off {fuel i j : Nat} (hj : j < i) (hl : ∀ x, x < i → l[x]? ≠ some 0) :
    strcpyWithin fuel l i j = none := by
  induction fuel generalizing l i j with
  | zero => rfl
  | succ fuel ih =>
    unfold strcpyWithin
    cases hb : l[j]? with
    | none => rfl
    | some b =>
      have hb0 : b ≠ 0 := fun e => hl j hj (e ▸ hb)
      rw [Option.bind_some]
      cases hput : put l i [b] with
      | none => rfl
      | some l' =>
        rw [Option.bind_some, if_neg hb0]
        apply ih (Nat.succ_lt_succ hj)
        intro x hx
        rw [put_getElem? hput]
        split
        · exact fun e => hb0 (Option.some.inj e)
        · exact hl x (by omega)

end SysProg.CString
