/-
  SysProg.Lib.Slices — a text read in slices, and a text that is laid out in blocks.

  A reader is given a count and an offset and returns the bytes and the offset after
  them. `ReadsSlices` says of one that it returns the slices of a text; then reading
  with any counts one after another returns one slice (`ReadsSlices.many`), and enough
  of them the whole text (`ReadsSlices.whole`).
  `getElem?_blocks`: place `x` of blocks of equal length, one after another, is place
  `x % B` of block `x / B`.
-/

import Mathlib.Algebra.GroupWithZero.Nat
import Mathlib.Data.List.Basic

namespace SysProg.Slices

variable {α ε : Type}

/-- Reads with the counts of a list one after another, each from the offset the one
    before left. -/
def readMany (read : Nat → Nat → Except ε (List α × Nat)) : List Nat → Nat → Except ε (List α × Nat)
  | [], off => .ok ([], off)
  | count :: counts, off => do
    let (bytes, off) ← read count off
    let (rest, off) ← readMany read counts off
    .ok (bytes ++ rest, off)

def ReadsSlices (read : Nat → Nat → Except ε (List α × Nat)) (text : List α) : Prop :=
  ∀ count off, read count off = .ok ((text.drop off).take count, off + min count (text.length - off))

variable {read : Nat → Nat → Except ε (List α × Nat)} {text : List α}

/-- Two slices that follow each other. -/
theorem slice_append (k l off : Nat) :
    (text.drop off).take k ++ (text.drop (off + min k (text.length - off))).take l =
      (text.drop off).take (k + l) := by
  rcases Nat.le_total k (text.length - off) with hk | hk
  · rw [Nat.min_eq_left hk, List.take_add, List.drop_drop]
  · have hend : text.length ≤ off + (text.length - off) := by omega
    rw [Nat.min_eq_right hk, List.drop_eq_nil_of_le hend, List.take_nil, List.append_nil,
      List.take_of_length_le (by rw [List.length_drop]; exact hk),
      List.take_of_length_le (by rw [List.length_drop]; omega)]

/-- However a request is cut, the bytes are the same. -/
theorem ReadsSlices.many (h : ReadsSlices read text) (counts : List Nat) (off : Nat) :
    readMany read counts off =
      .ok ((text.drop off).take counts.sum, off + min counts.sum (text.length - off)) := by
  induction counts generalizing off with
  | nil => simp [readMany]
  | cons count counts ih =>
    simp only [readMany, h count off, ih, bind, Except.bind, slice_append, List.sum_cons]
    congr 2
    omega

theorem length_le_sum {counts : List Nat} (hpos : ∀ k ∈ counts, 0 < k) : counts.length ≤ counts.sum := by
  induction counts with
  | nil => simp
  | cons k counts ih =>
    have hk := hpos k (by simp)
    have hrest := ih fun l hl => hpos l (by simp [hl])
    simp only [List.length_cons, List.sum_cons]
    omega

/-- As many positive counts as the text is long, or more, return the whole text. -/
theorem ReadsSlices.whole (h : ReadsSlices read text) {counts : List Nat} (hpos : ∀ k ∈ counts, 0 < k)
    (hlen : text.length ≤ counts.length) : readMany read counts 0 = .ok (text, text.length) := by
  have hsum := length_le_sum hpos
  rw [h.many, List.drop_zero, List.take_of_length_le (by omega)]
  congr 2
  omega

/-- A read of something returns nothing only past the end. -/
theorem ReadsSlices.ends (h : ReadsSlices read text) {count off : Nat} (hcount : 0 < count) :
    read count off = .ok ([], off) ↔ text.length ≤ off := by
  rw [h count off]
  constructor
  · intro heq
    have hoff := congrArg Prod.snd (Except.ok.inj heq)
    simp only at hoff
    omega
  · intro hle
    rw [List.drop_eq_nil_of_le hle, List.take_nil, Nat.sub_eq_zero_of_le hle, Nat.min_zero, Nat.add_zero]

/-! ## Blocks -/

variable {B : Nat} {f : Nat → List α}

theorem length_blocks {m : Nat} (hf : ∀ k, k < m → (f k).length = B) :
    ((List.range m).flatMap f).length = m * B := by
  induction m with
  | zero => simp
  | succ m ih =>
    rw [List.range_succ, List.flatMap_append, List.length_append, ih fun k hk => hf k (by omega), Nat.succ_mul]
    simp [hf m (by omega)]

theorem length_blocks_le {m : Nat} (hf : ∀ k, (f k).length ≤ B) : ((List.range m).flatMap f).length ≤ m * B := by
  induction m with
  | zero => simp
  | succ m ih =>
    rw [List.range_succ, List.flatMap_append, List.length_append, Nat.succ_mul]
    have hm := hf m
    simp only [List.flatMap_cons, List.flatMap_nil, List.append_nil]
    omega

theorem getElem?_blocks {m N x : Nat} (hB : 0 < B) (hf : ∀ k, k < m → (f k).length = B) (hm : m ≤ N)
    (hx : x < m * B) : ((List.range N).flatMap f)[x]? = (f (x / B))[x % B]? := by
  have hk : x / B < m := (Nat.div_lt_iff_lt_mul hB).mpr hx
  -- the blocks before the one that holds the place, that one, and the rest
  obtain ⟨r, rfl⟩ : ∃ r, N = x / B + (1 + r) := ⟨N - x / B - 1, by omega⟩
  have hbefore := length_blocks fun k hlt => hf k (Nat.lt_trans hlt hk)
  have hdiv := Nat.div_add_mod x B
  have hmod := Nat.mod_lt x hB
  have hplace : x - x / B * B = x % B := by rw [Nat.mul_comm]; omega
  rw [List.range_add, List.range_add, List.flatMap_append, List.getElem?_append_right, hbefore, hplace,
    List.map_append, List.flatMap_append, List.getElem?_append_left]
  · simp
  · simp only [List.range_one, List.map_cons, List.map_nil, List.flatMap_cons, List.flatMap_nil, List.append_nil]
    rw [Nat.add_zero, hf _ hk]
    exact hmod
  · rw [hbefore, Nat.mul_comm]
    omega

end SysProg.Slices
