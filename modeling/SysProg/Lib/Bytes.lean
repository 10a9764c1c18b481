/-
  SysProg.Lib.Bytes — byte-addressed memory and little-endian numbers.

  A memory gives every address its byte. `load` reads and `store` writes bytes from an
  address on: inside it reads back (`store_at`), outside nothing changes (`store_off`). Blocks
  of a fixed size at consecutive addresses do not overlap (`block_addr`).
  `leDecode` reads a list of bytes as a number, least significant byte first, and
  `leEncode` writes one in a given width, which reads back if it fits (`leDecode_leEncode`);
  bytes read as a number are written as they were (`leEncode_leDecode`).
-/

import Mathlib.Algebra.Group.Nat.Defs
import Mathlib.Data.Nat.Basic

namespace SysProg.Bytes

abbrev Mem := Nat → UInt8

def store (m : Mem) (a : Nat) (l : List UInt8) : Mem := fun x => if a ≤ x then (l[x - a]?).getD (m x) else m x

def load (m : Mem) (a n : Nat) : List UInt8 := (List.range n).map fun i => m (a + i)

variable {m : Mem} {a i : Nat} {l : List UInt8}

theorem store_at (hi : i < l.length) : store m a l (a + i) = l[i] := by
  unfold store
  rw [if_pos (Nat.le_add_right a i), Nat.add_sub_cancel_left, List.getElem?_eq_getElem hi, Option.getD_some]

theorem store_off {x : Nat} (hx : ∀ i, i < l.length → x ≠ a + i) : store m a l x = m x := by
  unfold store
  split
  · rename_i hax
    have hlen : l.length ≤ x - a := by
      by_contra hlt
      exact hx (x - a) (by omega) (by omega)
    rw [List.getElem?_eq_none hlen, Option.getD_none]
  · rfl

/-- Bytes that are there already. -/
theorem store_prefix {r : List UInt8} (h : r <+: l) : store (store m a l) a r = store m a l := by
  funext x
  by_cases hx : ∃ i, i < r.length ∧ x = a + i
  · rcases hx with ⟨i, hi, rfl⟩
    rw [store_at hi, store_at (Nat.lt_of_lt_of_le hi h.length_le), h.getElem hi]
  · exact store_off fun i hi e => hx ⟨i, hi, e⟩

theorem load_length {n : Nat} : (load m a n).length = n := by
  unfold load
  rw [List.length_map, List.length_range]

theorem load_take {n k : Nat} : (load m a n).take k = load m a (min k n) := by
  unfold load
  rw [← List.map_take, List.take_range]

theorem load_add {n k : Nat} : load m a (n + k) = load m a n ++ load m (a + n) k := by
  unfold load
  rw [List.range_add, List.map_append, List.map_map]
  congr 1
  refine List.map_congr_left fun i _ => ?_
  exact congrArg m (Nat.add_assoc a n i).symm

theorem mem_load {n : Nat} {b : UInt8} : b ∈ load m a n ↔ ∃ i, i < n ∧ m (a + i) = b := by
  unfold load
  rw [List.mem_map]
  simp only [List.mem_range]

theorem load_congr {m' : Mem} {n : Nat} (h : ∀ i, i < n → m (a + i) = m' (a + i)) : load m a n = load m' a n :=
  List.map_congr_left fun i hi => h i (List.mem_range.mp hi)

/-- What was stored, read back in part. -/
theorem load_store {b n : Nat} (h : b + n ≤ l.length) : load (store m a l) (a + b) n = (l.drop b).take n := by
  apply List.ext_getElem
  · rw [load_length, List.length_take, List.length_drop]
    omega
  · intro k hk hk'
    rw [load_length] at hk
    simp only [load, List.getElem_map, List.getElem_range, List.getElem_take, List.getElem_drop]
    rw [Nat.add_assoc]
    exact store_at (by omega)

/-- What was stored elsewhere is not read. -/
theorem load_store_off {b n : Nat} (h : b + n ≤ a ∨ a + l.length ≤ b) : load (store m a l) b n = load m b n := by
  refine load_congr fun i hi => store_off fun j hj => ?_
  omega

/-- Position `i` of block `b` and position `j` of block `c` have one address only when
    they are one position. -/
theorem block_addr {B b c j : Nat} (hi : i < B) (hj : j < B) (h : b * B + i = c * B + j) : b = c ∧ i = j := by
  have hb : b = c := by
    have hdiv : (b * B + i) / B = (c * B + j) / B := by rw [h]
    rwa [Nat.mul_comm b, Nat.mul_comm c, Nat.mul_add_div (by omega), Nat.mul_add_div (by omega), Nat.div_eq_of_lt hi,
      Nat.div_eq_of_lt hj] at hdiv
  subst hb
  exact ⟨rfl, Nat.add_left_cancel h⟩

/-! ## Little-endian numbers -/

def leDecode : List UInt8 → Nat
  | [] => 0
  | b :: l => b.toNat + 256 * leDecode l

def leEncode : Nat → Nat → List UInt8
  | 0, _ => []
  | w + 1, v => UInt8.ofNat (v % 256) :: leEncode w (v / 256)

theorem leEncode_length {w v : Nat} : (leEncode w v).length = w := by
  induction w generalizing v with
  | zero => rfl
  | succ w ih => exact congrArg (· + 1) ih

theorem leDecode_leEncode {w v : Nat} (h : v < 256 ^ w) : leDecode (leEncode w v) = v := by
  induction w generalizing v with
  | zero =>
    rw [Nat.pow_zero] at h
    exact (Nat.lt_one_iff.mp h).symm
  | succ w ih =>
    rw [Nat.pow_succ] at h
    unfold leEncode leDecode
    rw [ih (by omega), UInt8.toNat_ofNat']
    omega

theorem leDecode_lt {l : List UInt8} : leDecode l < 256 ^ l.length := by
  induction l with
  | nil => exact Nat.one_pos
  | cons b l ih =>
    rw [List.length_cons, Nat.pow_succ, leDecode]
    have hb := b.toNat_lt
    omega

theorem leEncode_leDecode {w : Nat} {l : List UInt8} (h : l.length = w) : leEncode w (leDecode l) = l := by
  subst h
  induction l with
  | nil => rfl
  | cons b l ih =>
    have hb := b.toNat_lt
    have hlow : (b.toNat + 256 * leDecode l) % 256 = b.toNat := by omega
    have hhigh : (b.toNat + 256 * leDecode l) / 256 = leDecode l := by omega
    rw [List.length_cons, leDecode, leEncode, hlow, hhigh, ih, UInt8.ofNat_toNat]

/-- The low bytes of a number do not depend on the width it is written in. -/
theorem leEncode_take {w k v : Nat} (h : k ≤ w) : (leEncode w v).take k = leEncode k v := by
  induction k generalizing w v with
  | zero => rfl
  | succ k ih =>
    obtain ⟨w, rfl⟩ : ∃ n, w = n + 1 := ⟨w - 1, by omega⟩
    rw [leEncode, leEncode, List.take_succ_cons, ih (by omega)]

end SysProg.Bytes
