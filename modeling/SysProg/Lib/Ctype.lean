/-
  SysProg.Lib.Ctype — the character classes of ctype.h in the C locale.

  A byte from 128 on is in no class. Whitespace is neither a letter nor punctuation
  (`isalpha_of_isspace`, `ispunct_of_isspace`), and the two cases of a letter differ
  (`toupper_ne_tolower`).
-/

import Mathlib.Data.List.Basic

namespace SysProg.Ctype

def isupper (c : UInt8) : Bool := 65 ≤ c && c ≤ 90

def islower (c : UInt8) : Bool := 97 ≤ c && c ≤ 122

def isalpha (c : UInt8) : Bool := isupper c || islower c

def isdigit (c : UInt8) : Bool := 48 ≤ c && c ≤ 57

def ispunct (c : UInt8) : Bool := (33 ≤ c && c ≤ 126) && !(isalpha c || isdigit c)

def isspace (c : UInt8) : Bool := c == 32 || (9 ≤ c && c ≤ 13)

def tolower (c : UInt8) : UInt8 := if isupper c = true then c + 32 else c

def toupper (c : UInt8) : UInt8 := if islower c = true then c - 32 else c

variable {c : UInt8}

theorem isspace_iff : isspace c = true ↔ c.toNat = 32 ∨ 9 ≤ c.toNat ∧ c.toNat ≤ 13 := by
  simp [isspace, UInt8.le_iff_toNat_le, ← UInt8.toNat_inj]

theorem isalpha_iff : isalpha c = true ↔ (65 ≤ c.toNat ∧ c.toNat ≤ 90) ∨ (97 ≤ c.toNat ∧ c.toNat ≤ 122) := by
  simp [isalpha, isupper, islower, UInt8.le_iff_toNat_le]

theorem isalpha_of_isspace (h : isspace c = true) : isalpha c = false := by
  rw [isspace_iff] at h
  rw [← Bool.not_eq_true, isalpha_iff]
  omega

theorem ispunct_of_isspace (h : isspace c = true) : ispunct c = false := by
  rw [isspace_iff] at h
  simp only [ispunct, Bool.and_eq_false_iff, decide_eq_false_iff_not, UInt8.le_iff_toNat_le]
  left
  simp
  omega

theorem isspace_of_isalpha (h : isalpha c = true) : isspace c = false := by
  by_contra hs
  rw [Bool.not_eq_false] at hs
  rw [isalpha_of_isspace hs] at h
  cases h

/-- What is no letter has no case. -/
theorem tolower_of_not_isalpha (h : isalpha c = false) : tolower c = c := by
  unfold isalpha at h
  rw [Bool.or_eq_false_iff] at h
  rw [tolower, h.1]
  rfl

theorem toupper_ne_tolower (h : isalpha c = true) : toupper c ≠ tolower c := by
  unfold isalpha at h
  unfold toupper tolower
  cases hu : isupper c <;> cases hl : islower c
  · rw [hu, hl] at h
    cases h
  · intro e
    have hval : (c - 32).toNat = c.toNat := congrArg UInt8.toNat e
    rw [UInt8.toNat_sub] at hval
    simp at hval
    omega
  · simp
  · simp only [isupper, islower, Bool.and_eq_true, decide_eq_true_eq, UInt8.le_iff_toNat_le] at hu hl
    simp at hu hl
    omega

end SysProg.Ctype
