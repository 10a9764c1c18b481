/-
  SysProg.Minixfs.ReadSlices — what `minixfs_read` returns is a slice of the file
  (see `SysProg.Minixfs.Contents`, `SysProg.Lib.Slices`).

  A file is its direct blocks and then the blocks of its indirect block, one after
  another, up to its size (`content`). The loop of `minixfs_read` cuts a request at the
  block boundaries and looks the blocks up in two places.
  - `read_slices`: where the blocks below the size are assigned, every read returns the
    slice of the file it asks for and moves the offset by its length, so a file read in
    any pieces is read in order; the virtual file "info" is read by the same law.
-/

import SysProg.Lib.Slices
import SysProg.Minixfs.Contents

namespace SysProg.Minixfs

open SysProg.Slices (ReadsSlices readMany)

variable (u : Utils)

def placeBytes (s : FileSystem) (n : Nat) (p : Place) : List UInt8 :=
  ((placed u s n p).map fun b => (List.range u.blockSize).map fun o => s.data (u.addr b o)).getD []

def fileBlocks (s : FileSystem) (n : Nat) : List UInt8 :=
  ((List.range numDirectBlocks).flatMap fun k => placeBytes u s n (.direct k)) ++
    (List.range u.numIndirectBlocks).flatMap fun k => placeBytes u s n (.entry k)

def content (s : FileSystem) (n size : Nat) : List UInt8 := (fileBlocks u s n).take size

def info (s : FileSystem) : List UInt8 :=
  (blockInfoString u ((List.range s.dblockCount).filter s.dataUsed).length).toUTF8.toList

variable {u}

variable {s : FileSystem} {n size : Nat} {path : String} {node : Inode}

theorem fileBlocks_eq :
    fileBlocks u s n = (List.range (numDirectBlocks + u.numIndirectBlocks)).flatMap fun k =>
      placeBytes u s n (placeOf k) := by
  unfold fileBlocks
  rw [List.range_add, List.flatMap_append, List.flatMap_map]
  refine congrArg₂ HAppend.hAppend ?_ ?_
  · refine List.flatMap_congr fun k hk => ?_
    rw [placeOf, if_pos (List.mem_range.mp hk)]
  · refine List.flatMap_congr fun k _ => ?_
    rw [placeOf, if_neg (by omega), Nat.add_sub_cancel_left]

def Covered (u : Utils) (s : FileSystem) (n size : Nat) : Prop :=
  ∀ k, k * u.blockSize < size → (placed u s n (placeOf k)).isSome = true

theorem placeOf_lt {k : Nat} (h : (placed u s n (placeOf k)).isSome = true) :
    k < numDirectBlocks + u.numIndirectBlocks := by
  unfold placeOf at h
  split at h
  · omega
  · simp only [placed] at h
    split at h
    · omega
    · cases h

theorem length_placeBytes {p : Place} (h : (placed u s n p).isSome = true) :
    (placeBytes u s n p).length = u.blockSize := by
  obtain ⟨b, hb⟩ := Option.isSome_iff_exists.mp h
  simp [placeBytes, hb]

theorem getElem?_placeBytes {p : Place} {o : Nat} (ho : o < u.blockSize) :
    (placeBytes u s n p)[o]? = (placed u s n p).map fun b => s.data (u.addr b o) := by
  unfold placeBytes
  cases placed u s n p with
  | none => rfl
  | some b => simp [ho]

/-- A byte of the concatenated blocks is the one `minixfs_read` looks up. -/
theorem fileBlocks_byteAt (h : Covered u s n size) {x : Nat} (hx : x < size) :
    (fileBlocks u s n)[x]? = byteAt u s n x := by
  have hB := u.blockSize_pos
  have hdiv := Nat.div_mul_le_self x u.blockSize
  have hcov := h (x / u.blockSize) (by omega)
  have hassigned : ∀ k, k < x / u.blockSize + 1 → (placeBytes u s n (placeOf k)).length = u.blockSize := by
    intro k hk
    have hle := Nat.mul_le_mul_right u.blockSize (show k ≤ x / u.blockSize by omega)
    exact length_placeBytes (h k (by omega))
  have hlt := Nat.lt_div_mul_add (a := x) hB
  rw [fileBlocks_eq, Slices.getElem?_blocks hB hassigned (placeOf_lt hcov) (by rw [Nat.succ_mul]; exact hlt),
    getElem?_placeBytes (Nat.mod_lt x hB)]
  rfl

theorem byteAt_isSome (h : Covered u s n size) {x : Nat} (hx : x < size) : (byteAt u s n x).isSome = true := by
  have hdiv := Nat.div_mul_le_self x u.blockSize
  rw [byteAt, Option.isSome_map]
  exact h _ (by omega)

theorem length_content (h : Covered u s n size) : (content u s n size).length = size := by
  rw [content, List.length_take, Nat.min_eq_left]
  cases size with
  | zero => exact Nat.zero_le _
  | succ x =>
    have hsome := byteAt_isSome h (Nat.lt_succ_self x)
    rw [← fileBlocks_byteAt h (Nat.lt_succ_self x), isSome_getElem?] at hsome
    exact hsome

theorem content_at (h : Covered u s n size) {x : Nat} (hx : x < size) :
    (content u s n size)[x]? = byteAt u s n x := by
  rw [content, List.getElem?_take_of_lt hx, fileBlocks_byteAt h hx]

/-- The loop returns a slice, wherever it starts and ends. -/
theorem readLoop_content (h : Covered u s n size) {fuel off left : Nat} (hfuel : left < fuel)
    (hend : off + left ≤ size) :
    readLoop u s n fuel off left = .ok (((content u s n size).drop off).take left) := by
  rw [readLoop_eq (f := fun p => ((content u s n size)[p]?).getD 0) hfuel]
  · have hlen := length_content h
    congr 1
    refine List.ext_getElem (by simp; omega) fun i h1 _ => ?_
    have hi : off + i < (content u s n size).length := by simp at h1; omega
    simp [List.getElem?_eq_getElem hi]
  · intro p _ hp
    have hx : p < size := by omega
    have hdiv := Nat.div_mul_le_self p u.blockSize
    obtain ⟨c, hc⟩ := Option.isSome_iff_exists.mp (byteAt_isSome h hx)
    rw [blockOf_eq (placeOf_lt (h _ (by omega))), content_at h hx, hc]
    exact hc

theorem read_file (hv : u.isVirtualPath path = none) (hget : u.getInode s path = some n)
    (hin : s.inodes n = some node) (hreg : node.isDirectory = false) (h : Covered u s n node.size) :
    ReadsSlices (minixfsRead u s path) (content u s n node.size) := by
  intro count off
  unfold minixfsRead
  rw [hv, hget, length_content h]
  simp only [Option.bind_some, hin]
  by_cases hsize : node.size ≤ off
  · rw [if_pos hsize, List.drop_eq_nil_of_le (by rw [length_content h]; exact hsize), List.take_nil,
      Nat.sub_eq_zero_of_le hsize, Nat.min_zero, Nat.add_zero]
  · rw [if_neg hsize, hreg, if_neg (by simp), readLoop_content h (Nat.lt_succ_self _) (by omega)]
    have hlen : ((content u s n node.size).drop off).length = node.size - off := by
      rw [List.length_drop, length_content h]
    have hcut : ((content u s n node.size).drop off).take (min count (node.size - off)) =
        ((content u s n node.size).drop off).take count := by
      rw [← hlen, ← List.take_take, List.take_length]
    rw [hcut]
    simp only [Except.map, List.length_take, hlen]

theorem read_info (hv : u.isVirtualPath path = some "info") : ReadsSlices (minixfsRead u s path) (info u s) := by
  intro count off
  unfold minixfsRead
  rw [hv]
  simp [minixfsVirtualRead, info]

/-- Every read of the text returns its slice, and so do reads one after another. -/
structure ReadsInOrder (read : Nat → Nat → Except Stop (List UInt8 × Nat)) (text : List UInt8) : Prop where
  slice : ReadsSlices read text
  chunks : ∀ counts off,
    readMany read counts off = .ok ((text.drop off).take counts.sum, off + min counts.sum (text.length - off))
  whole : ∀ counts, (∀ k ∈ counts, 0 < k) → text.length ≤ counts.length →
    readMany read counts 0 = .ok (text, text.length)
  ends : ∀ count off, 0 < count → (read count off = .ok ([], off) ↔ text.length ≤ off)

theorem readsInOrder {read : Nat → Nat → Except Stop (List UInt8 × Nat)} {text : List UInt8}
    (h : ReadsSlices read text) : ReadsInOrder read text where
  slice := h
  chunks := h.many
  whole _ hpos hlen := h.whole hpos hlen
  ends _ _ hcount := h.ends hcount

/-- A regular file with blocks for its size, and "info", are read as slices. -/
theorem read_slices (hv : u.isVirtualPath path = none) (hget : u.getInode s path = some n)
    (hin : s.inodes n = some node) (hreg : node.isDirectory = false) (h : Covered u s n node.size) :
    (content u s n node.size).length = node.size ∧ ReadsInOrder (minixfsRead u s path) (content u s n node.size) ∧
    ∀ path', u.isVirtualPath path' = some "info" → ReadsInOrder (minixfsRead u s path') (info u s) :=
  ⟨length_content h, readsInOrder (read_file hv hget hin hreg h), fun _ hv' => readsInOrder (read_info hv')⟩

/-! ## A file that reaches into its indirect block -/

/-- Blocks of four bytes, so that the indirect block holds one number. -/
def smallUtils : Utils where
  blockSize := 4
  blockSize_pos := by decide
  fileNameEntry := 2
  dataNumber := 16
  getInode _ path := if path = "/f" then some 1 else none
  isVirtualPath path := if path = "/virtual/info" then some "info" else none
  minBlockcount s _ _ := (s, true)
  addDataBlockToInode s _ := (s, none)
  addSingleIndirectBlock s _ := (s, none)
  addDataBlockToIndirectBlock s _ := (s, none)
  parentDirectory _ _ := none
  firstUnusedInode _ := none
  initInode s _ _ := s
  makeStringFromDirent _ _ := [0, 0]

/-- "/f" has blocks 0 to 10, its indirect block is 11 and names block 12. -/
def smallFile : FileSystem where
  inodes i := if i = 1 then some ⟨some, some 11, 46, false⟩ else none
  data x := if x = 44 then 12 else if x < 44 then UInt8.ofNat x else if 48 ≤ x then 7 else 0
  dataUsed b := decide (b < 13)
  dblockCount := 16

theorem smallFile_covered : Covered smallUtils smallFile 1 46 := by
  intro k hk
  have hlt : k < 12 := by
    have hk4 : k * 4 < 46 := hk
    omega
  clear hk
  revert k
  decide

/-- Read five bytes at a time, ten times. -/
theorem read_slices_small_file :
    readMany (minixfsRead smallUtils smallFile "/f") (List.replicate 10 5) 0 =
      .ok ((List.range 44).map UInt8.ofNat ++ [7, 7], 46) ∧
    ReadsInOrder (minixfsRead smallUtils smallFile "/virtual/info") (info smallUtils smallFile) := by
  have h := read_slices (show smallUtils.isVirtualPath "/f" = none from rfl)
    (show smallUtils.getInode smallFile "/f" = some 1 from rfl) (show smallFile.inodes 1 = some _ from rfl) rfl
    smallFile_covered
  refine ⟨?_, h.2.2 "/virtual/info" rfl⟩
  rw [h.2.1.chunks]
  rfl

end SysProg.Minixfs
