/-
  SysProg.Minixfs.Contents — which blocks a file owns and what it contains
  (see `SysProg.Minixfs.Minixfs`).

  A file names blocks at places: its direct blocks, its indirect block and the entries of
  that. In a sound file system every data block is named at one place (`Separate`), so
  bytes of different files, and of different indices of one file, are at different
  addresses. `byteAt` is a file's byte at a position.
  - `readLoop_eq`: the loop of `minixfs_read` returns the bytes at the positions it is
    asked for, whatever the offset in the first block.
  - `Laid`: the blocks of a file that a loop walks, and what a store outside the
    file's indirect block leaves of them.
-/

import Mathlib.Data.List.Basic
import SysProg.Minixfs.Minixfs

namespace SysProg.Minixfs

open SysProg.Bytes (Mem store store_at store_off block_addr)

variable (u : Utils)

inductive Place where
  | direct (k : Nat)
  | indirect
  | entry (k : Nat)
  deriving DecidableEq

def placed (s : FileSystem) (n : Nat) : Place → Option Nat
  | .direct k => if k < numDirectBlocks then (s.inodes n).bind fun node => node.direct k else none
  | .indirect => (s.inodes n).bind fun node => node.indirect
  | .entry k =>
    if k < u.numIndirectBlocks then
      (s.inodes n).bind fun node => node.indirect.bind fun i => entry u s.data i k
    else none

def placeOf (k : Nat) : Place := if k < numDirectBlocks then .direct k else .entry (k - numDirectBlocks)

def Separate (s : FileSystem) : Prop :=
  ∀ i j p q b, placed u s i p = some b → placed u s j q = some b → i = j ∧ p = q

def byteAt (s : FileSystem) (n x : Nat) : Option UInt8 :=
  (placed u s n (placeOf (x / u.blockSize))).map fun b => s.data (u.addr b (x % u.blockSize))

variable {u}

theorem addr_add (b o i : Nat) : u.addr b o + i = u.addr b (o + i) := Nat.add_assoc ..

theorem placeOf_inj {k l : Nat} (h : placeOf k = placeOf l) : k = l := by
  unfold placeOf at h
  split at h <;> split at h <;> simp at h <;> omega

theorem placeOf_ne_indirect (k : Nat) : placeOf k ≠ .indirect := by
  unfold placeOf
  split <;> intro h <;> cases h

/-- Up to the capacity of an inode the code finds the block a file names at an index. -/
theorem blockOf_eq {s : FileSystem} {n k : Nat} (hk : k < numDirectBlocks + u.numIndirectBlocks) :
    blockOf u s n k = placed u s n (placeOf k) := by
  unfold blockOf placeOf
  split
  · rename_i h; simp only [placed, h, if_true]
  · rename_i h
    have hlt : k - numDirectBlocks < u.numIndirectBlocks := by omega
    simp only [placed, hlt, if_true]

/-- Entries lie inside their block. -/
theorem entry_inside {k i : Nat} (hk : k < u.numIndirectBlocks) (hi : i < 4) : 4 * k + i < u.blockSize := by
  unfold Utils.numIndirectBlocks at hk
  omega

theorem entry_congr {d d' : Mem} {i k : Nat} (hk : k < u.numIndirectBlocks)
    (h : ∀ j, j < u.blockSize → d' (u.addr i j) = d (u.addr i j)) : entry u d' i k = entry u d i k := by
  unfold entry
  congr 2
  refine List.map_congr_left fun j hj => h _ (entry_inside hk (List.mem_range.mp hj))

/-- A file whose inode and blocks are as they were names the same blocks. -/
theorem placed_congr {s s' : FileSystem} {n : Nat} (hin : s'.inodes n = s.inodes n)
    (hind : ∀ i, placed u s n .indirect = some i → ∀ j, j < u.blockSize → s'.data (u.addr i j) = s.data (u.addr i j))
    (p : Place) : placed u s' n p = placed u s n p := by
  cases p with
  | direct k => simp only [placed, hin]
  | indirect => simp only [placed, hin]
  | entry k =>
    simp only [placed, hin]
    split
    · rename_i hk
      cases hnode : s.inodes n with
      | none => rfl
      | some node =>
        cases hi : node.indirect with
        | none => simp [hi]
        | some i =>
          simp only [Option.bind_some, hi]
          exact entry_congr hk (hind i (by simp [placed, hnode, hi]))
    · rfl

theorem byteAt_congr {s s' : FileSystem} {n : Nat} (hin : s'.inodes n = s.inodes n)
    (hd : ∀ p b, placed u s n p = some b → ∀ j, j < u.blockSize → s'.data (u.addr b j) = s.data (u.addr b j))
      (x : Nat) :
    byteAt u s' n x = byteAt u s n x := by
  unfold byteAt
  rw [placed_congr hin (fun i hi => hd _ i hi)]
  cases hb : placed u s n (placeOf (x / u.blockSize)) with
  | none => rfl
  | some b => exact congrArg some (hd _ b hb _ (Nat.mod_lt _ u.blockSize_pos))

/-! ## Reading -/

/-- Positions up to the end of the block that `cur` is in. -/
theorem same_block {cur i : Nat} (hi : cur % u.blockSize + i < u.blockSize) :
    (cur + i) / u.blockSize = cur / u.blockSize ∧ (cur + i) % u.blockSize = cur % u.blockSize + i := by
  have hsum : cur + i = u.blockSize * (cur / u.blockSize) + (cur % u.blockSize + i) := by
    rw [← Nat.add_assoc, Nat.div_add_mod]
  rw [hsum, Nat.mul_add_div u.blockSize_pos, Nat.div_eq_of_lt hi, Nat.mul_add_mod, Nat.mod_eq_of_lt hi]
  exact ⟨Nat.add_zero _, rfl⟩

/-- The loop of `minixfs_read` returns the bytes at the positions from `cur` on. -/
theorem readLoop_eq {s : FileSystem} {n : Nat} {f : Nat → UInt8} {fuel cur left : Nat} (hfuel : left < fuel)
    (hf : ∀ p, cur ≤ p → p < cur + left →
      (blockOf u s n (p / u.blockSize)).map (fun b => s.data (u.addr b (p % u.blockSize))) = some (f p)) :
    readLoop u s n fuel cur left = .ok ((List.range left).map fun i => f (cur + i)) := by
  have hB := u.blockSize_pos
  induction fuel generalizing cur left with
  | zero => omega
  | succ fuel ih =>
    unfold readLoop
    by_cases hleft : 0 < left
    · rw [if_pos hleft]
      have hmod := Nat.mod_lt cur hB
      obtain ⟨b, hb, hfirst⟩ := Option.map_eq_some_iff.mp (hf cur (Nat.le_refl _) (by omega))
      rw [hb]
      simp only
      generalize htw : min (u.blockSize - cur % u.blockSize) left = tw
      rw [ih (by omega) fun p hp hlt => hf p (by omega) (by omega)]
      simp only [Except.map]
      congr 1
      have hbytes : (List.range tw).map (fun i => s.data (u.addr b (cur % u.blockSize) + i)) =
          (List.range tw).map fun i => f (cur + i) := by
        refine List.map_congr_left fun i hi => ?_
        have hitw := List.mem_range.mp hi
        obtain ⟨hdiv, hmod'⟩ := same_block (show cur % u.blockSize + i < u.blockSize by omega)
        have hfi := hf (cur + i) (by omega) (by omega)
        rw [hdiv, hb, hmod'] at hfi
        rw [addr_add]
        exact Option.some.inj hfi
      rw [hbytes]
      have hsplit : left = tw + (left - tw) := by omega
      conv_rhs => rw [hsplit, List.range_add, List.map_append, List.map_map]
      congr 1
      refine List.map_congr_left fun i _ => ?_
      rw [Function.comp_apply, Nat.add_assoc]
    · have hzero : left = 0 := by omega
      subst hzero
      rfl

/-- The first byte read is the one at `cur`. -/
theorem readLoop_head {s : FileSystem} {n b fuel cur left : Nat} {l : List UInt8} (hleft : 0 < left)
    (hb : blockOf u s n (cur / u.blockSize) = some b) (h : readLoop u s n fuel cur left = .ok l) :
    l[0]? = some (s.data (u.addr b (cur % u.blockSize))) := by
  cases fuel with
  | zero => cases h
  | succ fuel =>
    unfold readLoop at h
    rw [if_pos hleft, hb] at h
    simp only at h
    have hmod := Nat.mod_lt cur u.blockSize_pos
    generalize htw : min (u.blockSize - cur % u.blockSize) left = tw at h
    obtain ⟨k, rfl⟩ : ∃ k, tw = k + 1 := ⟨tw - 1, by omega⟩
    cases hrest : readLoop u s n fuel (cur + (k + 1)) (left - (k + 1)) with
    | error e => rw [hrest] at h; cases h
    | ok rest =>
      rw [hrest] at h
      cases h
      simp [List.range_succ_eq_map]

end SysProg.Minixfs
