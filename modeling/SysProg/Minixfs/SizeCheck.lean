/-
  SysProg.Minixfs.SizeCheck — the size check at the start of `minixfs_write`, and the
  block indices its loop computes (see `SysProg.Minixfs.Minixfs`).

  An inode has NUM_DIRECT_BLOCKS direct blocks and an indirect block with
  NUM_INDIRECT_BLOCKS numbers: `capacity` bytes. The check compares with
  `(NUM_INDIRECT_BLOCKS + NUM_DIRECT_BLOCKS * NUM_DIRECT_BLOCKS) * sizeof(data_block)`,
  110 blocks more, and the sum it compares is taken modulo 2^64. `tracedLoop` is the loop
  with the indices it computes.
  - `size_check_iff`: the check is enough exactly for the requests that do not end between
    the two limits and whose sum does not wrap to something below the limit.
  - `a_block_past_the_indirect_block`: one byte at the capacity is let through and is
    written through the number after the last one of the indirect block.
-/

import SysProg.Minixfs.WriteRead

namespace SysProg.Minixfs

open Function (update)

variable (u : Utils)

def capacity : Nat := (numDirectBlocks + u.numIndirectBlocks) * u.blockSize

def tracedLoop (n : Nat) (buf : List UInt8) (off : Nat) :
    Nat → FileSystem → Nat → (FileSystem × Except Stop Nat) × List Nat
  | 0, s, _ => ((s, .error .diverges), [])
  | fuel + 1, s, written =>
    if written < buf.length then
      let blockNum := (off + written) / u.blockSize
      let blockOffset := (off + written) % u.blockSize
      match ensureBlock u s n blockNum with
      | (s, none) => ((s, .error (.errno .enospc)), [blockNum])
      | (s, some block) =>
        let toWrite := min (u.blockSize - blockOffset) (buf.length - written)
        let s := s.memcpy (u.addr (block + blockOffset) 0) ((buf.drop written).take toWrite)
        let (r, indices) := tracedLoop n buf off fuel s (written + toWrite)
        (r, blockNum :: indices)
    else ((s, .ok written), [])

/-- A block index that a direct entry or an entry of the indirect block stands for. -/
def InRange (k : Nat) : Prop := k < numDirectBlocks ∨ numDirectBlocks ≤ k ∧ k - numDirectBlocks < u.numIndirectBlocks

/-- What the check should establish, whatever the file system and the helpers do. -/
def SizeCheckSuffices (off count : Nat) : Prop :=
  ¬ maxFileSize u < wrap (off + count) → off + count < 2 ^ 64 ∧
    ∀ (v : Utils), v.blockSize = u.blockSize → ∀ (s : FileSystem) (n : Nat) (buf : List UInt8), buf.length = count →
      ∀ k ∈ (tracedLoop v n buf off (count + 1) s 0).2, InRange u k

variable {u} {s : FileSystem} {n off : Nat} {buf : List UInt8}

theorem tracedLoop_fst (fuel written : Nat) :
    (tracedLoop u n buf off fuel s written).1 = writeLoop u n buf off fuel s written := by
  induction fuel generalizing s written with
  | zero => rfl
  | succ fuel ih =>
    unfold tracedLoop writeLoop
    split
    · dsimp only
      rcases ensureBlock u s n ((off + written) / u.blockSize) with ⟨s', _ | b⟩
      · rfl
      · exact ih _
    · rfl

/-- Every index is that of a position in the request. -/
theorem tracedLoop_mem {fuel written k : Nat} (h : k ∈ (tracedLoop u n buf off fuel s written).2) :
    k * u.blockSize < off + buf.length := by
  have hB := u.blockSize_pos
  induction fuel generalizing s written with
  | zero => simp [tracedLoop] at h
  | succ fuel ih =>
    unfold tracedLoop at h
    split at h
    · rename_i hlt
      have hfirst := Nat.div_mul_le_self (off + written) u.blockSize
      dsimp only at h
      rcases hb : ensureBlock u s n ((off + written) / u.blockSize) with ⟨s', _ | b⟩
      · simp only [hb, List.mem_singleton] at h
        subst h
        omega
      · simp only [hb, List.mem_cons] at h
        rcases h with rfl | h
        · omega
        · exact ih h
    · simp at h

/-- The index of the last position below the capacity is in range, and only then. -/
theorem inRange_iff {k : Nat} : InRange u k ↔ k * u.blockSize < capacity u := by
  have hB := u.blockSize_pos
  unfold InRange capacity
  rw [Nat.mul_lt_mul_right hB]
  omega

/-! ## Helpers that always have a block -/

variable (u) in
def Utils.granting : Utils :=
  { u with
    addDataBlockToInode := fun s _ => (s, some 0)
    addSingleIndirectBlock := fun s _ => (s, some 0)
    addDataBlockToIndirectBlock := fun s _ => (s, some 0) }

theorem setInode_isSome {f : Inode → Inode} (h : (s.inodes n).isSome = true) :
    ((setInode s n f).inodes n).isSome = true := by
  simp [setInode, h]

theorem ensureBlock_granting (k : Nat) (h : (s.inodes n).isSome = true) :
    ∃ s' b, ensureBlock u.granting s n k = (s', some b) ∧ (s'.inodes n).isSome = true := by
  obtain ⟨node, hnode⟩ := Option.isSome_iff_exists.mp h
  unfold ensureBlock
  rw [hnode]
  dsimp only
  split
  · cases node.direct k with
    | some b => exact ⟨s, b, rfl, h⟩
    | none => exact ⟨_, 0, rfl, setInode_isSome h⟩
  · cases node.indirect with
    | some i =>
      dsimp only
      cases entry u.granting s.data i (k - numDirectBlocks) with
      | some b => exact ⟨s, b, rfl, h⟩
      | none => exact ⟨_, 0, rfl, h⟩
    | none =>
      dsimp only [Utils.granting]
      split
      · exact ⟨_, _, rfl, setInode_isSome h⟩
      · exact ⟨_, 0, rfl, setInode_isSome h⟩

/-- With blocks always to be had, the index of the last byte is computed. -/
theorem tracedLoop_last (off : Nat) (buf : List UInt8) {fuel written : Nat} (h : (s.inodes n).isSome = true)
    (hw : written < buf.length) (hfuel : buf.length - written < fuel) :
    (off + buf.length - 1) / u.blockSize ∈ (tracedLoop u.granting n buf off fuel s written).2 := by
  have hB := u.blockSize_pos
  induction fuel generalizing s written with
  | zero => omega
  | succ fuel ih =>
    have hmod := Nat.mod_lt (off + written) hB
    obtain ⟨s', b, hb, hs'⟩ := ensureBlock_granting (u := u) ((off + written) / u.blockSize) h
    unfold tracedLoop
    rw [if_pos hw]
    have hsize : u.granting.blockSize = u.blockSize := rfl
    simp only [hsize, hb, List.mem_cons]
    by_cases hlast : buf.length - written ≤ u.blockSize - (off + written) % u.blockSize
    · -- the request ends in this block
      left
      obtain ⟨i, hi⟩ : ∃ i, off + buf.length - 1 = off + written + i := ⟨buf.length - 1 - written, by omega⟩
      rw [hi]
      exact (same_block (by omega)).1
    · right
      exact ih hs' (by omega) (by omega)

/-! ## When the check is enough -/

def blankInode : Inode := ⟨fun _ => none, none, 0, false⟩

def blank : FileSystem := ⟨fun _ => some blankInode, fun _ => 0, fun _ => false, 0⟩

/-- The loop stays in range whatever happens exactly when the request ends within the
    capacity, or is empty. -/
theorem loop_inRange_iff {count : Nat} :
    (∀ (v : Utils), v.blockSize = u.blockSize → ∀ (s : FileSystem) (n : Nat) (buf : List UInt8), buf.length = count →
      ∀ k ∈ (tracedLoop v n buf off (count + 1) s 0).2, InRange u k) ↔ count = 0 ∨ off + count ≤ capacity u := by
  have hB := u.blockSize_pos
  constructor
  · intro h
    rcases Nat.eq_zero_or_pos count with hzero | hpos
    · exact Or.inl hzero
    · right
      have hlen : (List.replicate count (0 : UInt8)).length = count := List.length_replicate
      have hmem := tracedLoop_last (u := u) (s := blank) (n := 0) off (List.replicate count 0) rfl
        (show 0 < (List.replicate count (0 : UInt8)).length by omega)
        (show (List.replicate count (0 : UInt8)).length - 0 < count + 1 by omega)
      have hr := inRange_iff.mp (h u.granting rfl blank 0 _ hlen _ hmem)
      rw [hlen] at hr
      unfold capacity at hr ⊢
      rw [Nat.mul_lt_mul_right hB, Nat.div_lt_iff_lt_mul hB] at hr
      omega
  · intro h v hv s n buf hlen k hk
    have hlt := tracedLoop_mem hk
    rw [hv, hlen] at hlt
    rw [inRange_iff]
    rcases h with rfl | h
    · obtain rfl := List.eq_nil_of_length_eq_zero hlen
      simp [tracedLoop] at hk
    · omega

/-- The check is enough unless the request ends above the capacity and not above the limit
    the check compares with, or its end wraps to something not above that limit. -/
theorem size_check_iff {count : Nat} (hoff : off < 2 ^ 63) (hcount : count < 2 ^ 64) :
    SizeCheckSuffices u off count ↔
      ¬ (0 < count ∧ capacity u < off + count ∧ off + count ≤ maxFileSize u) ∧
      ¬ (2 ^ 64 ≤ off + count ∧ off + count ≤ 2 ^ 64 + maxFileSize u) := by
  unfold SizeCheckSuffices
  rw [loop_inRange_iff]
  by_cases hwrap : off + count < 2 ^ 64
  · rw [show wrap (off + count) = off + count from Nat.mod_eq_of_lt hwrap]
    omega
  · have hw : wrap (off + count) = off + count - 2 ^ 64 := by
      unfold wrap
      omega
    rw [hw]
    omega

theorem size_check_small_files : SizeCheckSuffices twoFilesUtils 16384 2 :=
  (size_check_iff (by decide) (by decide)).mpr (by decide)

/-- With blocks of 16 KiB a byte at the capacity passes the check, and the loop takes
    number 4096 of the 4096 in the indirect block; 2^64 - 1 bytes at offset 1 pass too. -/
theorem a_block_past_the_indirect_block :
    ¬ maxFileSize twoFilesUtils < wrap (67289088 + 1) ∧
    (tracedLoop twoFilesUtils 1 [120] 67289088 2 twoFiles 0).2 = [4107] ∧ twoFilesUtils.numIndirectBlocks = 4096 ∧
    ¬ SizeCheckSuffices twoFilesUtils 67289088 1 ∧ ¬ SizeCheckSuffices twoFilesUtils 1 (2 ^ 64 - 1) := by
  have hindices : (tracedLoop twoFilesUtils 1 [120] 67289088 2 twoFiles 0).2 = [4107] := by decide
  have hni : twoFilesUtils.numIndirectBlocks = 4096 := rfl
  refine ⟨by decide, hindices, hni, fun h => ?_, fun h => ?_⟩
  · obtain ⟨-, hrange⟩ := h (by decide)
    have hk := hrange twoFilesUtils rfl twoFiles 1 [120] rfl 4107 (by rw [hindices]; simp)
    simp [InRange, hni, numDirectBlocks] at hk
  · obtain ⟨hwrap, -⟩ := h (by decide)
    exact absurd hwrap (by decide)

end SysProg.Minixfs
