/-
  SysProg.Lib.Atoi — atoi of stdlib.h.

  Whitespace is skipped, then a sign is read and digits up to the first byte that is none.
  What is returned when the value is no `int` is undefined, so there is no result then.
  `Number` says which texts are the decimal numerals of a number: digits, after a sign or
  not. They are read as that number (`atoi_number`).
-/

import Mathlib.Data.Nat.Digits.Defs
import SysProg.Lib.CString
import SysProg.Lib.Ctype

namespace SysProg.Atoi

open SysProg.CString (Text)
open SysProg.Ctype (isdigit isspace)

def digit (b : UInt8) : Nat := b.toNat - 48

def digits (v : Nat) : Text → Nat
  | [] => v
  | b :: rest => if isdigit b = true then digits (10 * v + digit b) rest else v

def signed : Text → Int
  | [] => 0
  | b :: rest => if b = 45 then -digits 0 rest else if b = 43 then digits 0 rest else digits 0 (b :: rest)

def atoi (s : Text) : Option Int :=
  let n := signed (s.dropWhile isspace)
  if -2 ^ 31 ≤ n ∧ n < 2 ^ 31 then some n else none

/-! ## Numerals -/

/-- What digits mean, the last one counting once. -/
def value (t : Text) : Nat := Nat.ofDigits 10 (t.reverse.map digit)

inductive Number : Text → Int → Prop
  | plain {t : Text} : t ≠ [] → (∀ b ∈ t, isdigit b = true) → Number t (value t)
  | plus {t : Text} : t ≠ [] → (∀ b ∈ t, isdigit b = true) → Number (43 :: t) (value t)
  | minus {t : Text} : t ≠ [] → (∀ b ∈ t, isdigit b = true) → Number (45 :: t) (-value t)

variable {b : UInt8} {t rest : Text} {v : Nat} {n : Int}

theorem value_cons : value (b :: t) = digit b * 10 ^ t.length + value t := by
  unfold value
  rw [List.reverse_cons, List.map_append, Nat.ofDigits_append, List.map_singleton, Nat.ofDigits_singleton,
    List.length_map, List.length_reverse, Nat.add_comm, Nat.mul_comm]

theorem digits_all (h : ∀ b ∈ t, isdigit b = true) : digits v t = v * 10 ^ t.length + value t := by
  induction t generalizing v with
  | nil => exact (Nat.mul_one v).symm
  | cons b t ih =>
    obtain ⟨hb, ht⟩ := List.forall_mem_cons.mp h
    rw [digits, if_pos hb, ih ht, value_cons, List.length_cons, Nat.pow_succ, Nat.add_mul, Nat.mul_comm 10 v,
      Nat.mul_assoc, Nat.mul_comm 10, Nat.add_assoc]

theorem digits_zero (h : ∀ b ∈ t, isdigit b = true) : digits 0 t = value t := by
  rw [digits_all h, Nat.zero_mul, Nat.zero_add]

/-- A digit is no whitespace and no sign. -/
theorem digit_range (h : isdigit b = true) : 48 ≤ b.toNat ∧ b.toNat ≤ 57 := by
  simpa [isdigit, UInt8.le_iff_toNat_le] using h

theorem not_isspace_of_isdigit (h : isdigit b = true) : isspace b = false := by
  have hrange := digit_range h
  by_contra hs
  rw [Bool.not_eq_false, Ctype.isspace_iff] at hs
  omega

theorem Number.bytes (h : Number t n) : t ≠ [] ∧ ∀ b ∈ t, isdigit b = true ∨ b = 43 ∨ b = 45 := by
  cases h with
  | plain hne ht => exact ⟨hne, fun b hb => Or.inl (ht b hb)⟩
  | plus _ ht | minus _ ht =>
    refine ⟨List.cons_ne_nil _ _, List.forall_mem_cons.mpr ⟨?_, fun b hb => Or.inl (ht b hb)⟩⟩
    simp

theorem signed_number (h : Number t n) : signed (t.dropWhile isspace) = n := by
  cases h with
  | plus _ ht => exact congrArg Int.ofNat (digits_zero ht)
  | minus _ ht => exact congrArg (fun v : Nat => -(v : Int)) (digits_zero ht)
  | plain hne ht =>
    cases t with
    | nil => exact absurd rfl hne
    | cons b t =>
      have hb := ht b List.mem_cons_self
      have hrange := digit_range hb
      have hminus : b ≠ 45 := fun e => by subst e; exact absurd hrange.1 (by decide)
      have hplus : b ≠ 43 := fun e => by subst e; exact absurd hrange.1 (by decide)
      rw [List.dropWhile_cons_of_neg (by rw [not_isspace_of_isdigit hb]; exact Bool.false_ne_true), signed,
        if_neg hminus, if_neg hplus, digits_zero ht]

theorem atoi_number (h : Number t n) : atoi t = if -2 ^ 31 ≤ n ∧ n < 2 ^ 31 then some n else none := by
  unfold atoi
  rw [signed_number h]

end SysProg.Atoi
