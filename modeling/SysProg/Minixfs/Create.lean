/-
  SysProg.Minixfs.Create — what `minixfs_create_inode_for_path` leaves behind
  (see `SysProg.Minixfs.Minixfs`).

  The new inode is initialised before a block is found for its entry in the parent, and
  no exit after that takes it back. `ensureBlock` has four ways to a block, each with its
  equation.
  - `create_untouched_iff`: a call that returns NULL changes nothing exactly when it ends
    before `init_inode`: the path is there, or has no parent, or no inode is unused.
  - `a_full_disk_keeps_the_inode` is the trace of another exit.

  Assumed of the helpers outside the repository: `CreateHelpers`.
-/

import SysProg.Minixfs.ReadSlices
import SysProg.Minixfs.SizeCheck

namespace SysProg.Minixfs

open Function (update)

variable (u : Utils)

/-- The helpers that pick the inode and its parent, and those that fail. -/
structure CreateHelpers : Prop where
  firstUnused : ∀ s new, u.firstUnusedInode s = some new → s.inodes new = none
  initInode : ∀ s parent new, ∃ node, u.initInode s parent new = { s with inodes := update s.inodes new (some node) }
  parent : ∀ s path parent name, u.parentDirectory s path = some (parent, name) → (s.inodes parent).isSome = true
  toInode : ∀ s n s', u.addDataBlockToInode s n = (s', none) → s' = s
  single : ∀ s n s', u.addSingleIndirectBlock s n = (s', none) → s' = s
  toIndirect : ∀ s i s', u.addDataBlockToIndirectBlock s i = (s', none) → s' = s
  /-- An indirect block is given to one inode, and no inode goes out of use for it. -/
  singleOthers : ∀ s n r, u.addSingleIndirectBlock s n = r → ∀ {i}, i ≠ n → r.1.inodes i = s.inodes i
  singleKeeps : ∀ s n r, u.addSingleIndirectBlock s n = r → (s.inodes n).isSome = true → (r.1.inodes n).isSome = true

/-- The inode table, the data blocks in use and the contents of directories are as they were. -/
structure Untouched (s s' : FileSystem) : Prop where
  inodes : s'.inodes = s.inodes
  dataUsed : s'.dataUsed = s.dataUsed
  directories : ∀ i node, s.inodes i = some node → node.isDirectory = true → SameContents u s s' i

variable {u} {s s' : FileSystem} {path : String} {n parent new k b : Nat}

theorem setInode_other {f : Inode → Inode} {i : Nat} (hi : i ≠ n) : (setInode s n f).inodes i = s.inodes i :=
  Function.update_of_ne hi ..

theorem setInode_self {f : Inode → Inode} {node : Inode} (h : s.inodes n = some node) :
    (setInode s n f).inodes n = some (f node) := by
  simp [setInode, h]

theorem Untouched.refl : Untouched u s s where
  inodes := rfl
  dataUsed := rfl
  directories _ _ _ _ node hnode := ⟨node, hnode, rfl, rfl, fun _ _ => rfl⟩

/-! ## The four ways of `ensureBlock` -/

section Ensure

variable {node : Inode} {i : Nat} {r : Option Nat} {s1 : FileSystem}

theorem ensureBlock_direct (hnode : s.inodes n = some node) (hk : k < numDirectBlocks) (hd : node.direct k = some b) :
    ensureBlock u s n k = (s, some b) := by
  unfold ensureBlock
  simp only [hnode, hk, if_true, hd]

theorem ensureBlock_direct_new (hnode : s.inodes n = some node) (hk : k < numDirectBlocks) (hd : node.direct k = none)
    (hadd : u.addDataBlockToInode s n = (s1, r)) :
    ensureBlock u s n k = (setInode s1 n fun node => { node with direct := update node.direct k r }, r) := by
  unfold ensureBlock
  simp only [hnode, hk, if_true, hd, hadd]

theorem ensureBlock_slot (hnode : s.inodes n = some node) (hk : ¬ k < numDirectBlocks) (hi : node.indirect = some i)
    (he : entry u s.data i (k - numDirectBlocks) = some b) : ensureBlock u s n k = (s, some b) := by
  unfold ensureBlock
  simp only [hnode, hk, if_false, hi, he]

theorem ensureBlock_slot_new (hnode : s.inodes n = some node) (hk : ¬ k < numDirectBlocks) (hi : node.indirect = some i)
    (he : entry u s.data i (k - numDirectBlocks) = none) (hadd : u.addDataBlockToIndirectBlock s i = (s1, r)) :
    ensureBlock u s n k = (setEntry u s1 i (k - numDirectBlocks) r, r) := by
  unfold ensureBlock
  simp only [hnode, hk, if_false, hi, he, hadd]

theorem ensureBlock_indirect_fails (hnode : s.inodes n = some node) (hk : ¬ k < numDirectBlocks)
    (hi : node.indirect = none) (hadd : u.addSingleIndirectBlock s n = (s1, none)) :
    ensureBlock u s n k = (setInode s1 n fun node => { node with indirect := none }, none) := by
  unfold ensureBlock
  simp only [hnode, hk, if_false, hi, hadd]

/-- With the indirect block in place the call goes on as for an inode that had it. -/
theorem ensureBlock_indirect_new {node1 : Inode} (hnode : s.inodes n = some node) (hk : ¬ k < numDirectBlocks)
    (hi : node.indirect = none) (hadd : u.addSingleIndirectBlock s n = (s1, some i))
    (hnode1 : s1.inodes n = some node1) :
    ensureBlock u s n k = ensureBlock u (setInode s1 n fun node => { node with indirect := some i }) n k := by
  unfold ensureBlock
  simp only [hnode, hk, if_false, hi, hadd, setInode_self hnode1]

end Ensure

/-! ## Exits that return NULL -/

theorem ensureBlock_slot_none (hc : CreateHelpers u) {node : Inode} {j : Nat} (hnode : s.inodes n = some node)
    (hk : ¬ k < numDirectBlocks) (hj : node.indirect = some j) (h : ensureBlock u s n k = (s', none)) :
    s'.inodes = s.inodes := by
  cases he : entry u s.data j (k - numDirectBlocks) with
  | some b => rw [ensureBlock_slot hnode hk hj he] at h; cases h
  | none =>
    rcases hadd : u.addDataBlockToIndirectBlock s j with ⟨s1, _ | b⟩
    · rw [ensureBlock_slot_new hnode hk hj he hadd] at h
      cases h
      rw [hc.toIndirect _ _ _ hadd]
      rfl
    · rw [ensureBlock_slot_new hnode hk hj he hadd] at h; cases h

/-- A block that cannot be had leaves the other inodes as they were. -/
theorem ensureBlock_none (hc : CreateHelpers u) (hsome : (s.inodes n).isSome = true)
    (h : ensureBlock u s n k = (s', none)) {i : Nat} (hi : i ≠ n) : s'.inodes i = s.inodes i := by
  obtain ⟨node, hnode⟩ := Option.isSome_iff_exists.mp hsome
  by_cases hk : k < numDirectBlocks
  · cases hd : node.direct k with
    | some b => rw [ensureBlock_direct hnode hk hd] at h; cases h
    | none =>
      rcases hadd : u.addDataBlockToInode s n with ⟨s1, _ | b⟩
      · rw [ensureBlock_direct_new hnode hk hd hadd] at h
        cases h
        rw [setInode_other hi, hc.toInode _ _ _ hadd]
      · rw [ensureBlock_direct_new hnode hk hd hadd] at h; cases h
  · cases hind : node.indirect with
    | some j => exact congrFun (ensureBlock_slot_none hc hnode hk hind h) i
    | none =>
      rcases hadd : u.addSingleIndirectBlock s n with ⟨s1, _ | j⟩
      · rw [ensureBlock_indirect_fails hnode hk hind hadd] at h
        cases h
        rw [setInode_other hi, hc.single _ _ _ hadd]
      · -- the new indirect block stays when the block in it cannot be had
        obtain ⟨node1, hnode1⟩ := Option.isSome_iff_exists.mp (hc.singleKeeps _ _ _ hadd hsome)
        rw [ensureBlock_indirect_new hnode hk hind hadd hnode1] at h
        rw [ensureBlock_slot_none hc (setInode_self hnode1) hk rfl h, setInode_other hi, hc.singleOthers _ _ _ hadd hi]

/-- An exit after `init_inode` leaves the new inode in use. -/
theorem create_none_inode (hc : CreateHelpers u) (h : minixfsCreateInodeForPath u s path = (s', none))
    (hget : ¬ (u.getInode s path).isSome = true) {name : String} (hp : u.parentDirectory s path = some (parent, name))
    (hnew : u.firstUnusedInode s = some new) : s.inodes new = none ∧ (s'.inodes new).isSome = true := by
  have hfree := hc.firstUnused _ _ hnew
  have hparent := hc.parent _ _ _ _ hp
  have hne : new ≠ parent := by
    intro e
    subst e
    rw [hfree] at hparent
    cases hparent
  obtain ⟨node, hinit⟩ := hc.initInode s parent new
  obtain ⟨pnode, hpnode⟩ := Option.isSome_iff_exists.mp hparent
  refine ⟨hfree, ?_⟩
  have hstill : (update s.inodes new (some node) parent).isSome = true := by
    rw [Function.update_of_ne hne.symm]
    exact hparent
  unfold minixfsCreateInodeForPath at h
  rw [if_neg hget, hp] at h
  simp only [hnew, hinit, Function.update_of_ne hne.symm, hpnode] at h
  split at h
  · rename_i s1 hrun
    cases h
    rw [ensureBlock_none hc hstill hrun hne]
    simp
  · cases h

/-- A NULL leaves everything as it was exactly when the call never came to `init_inode`. -/
theorem create_untouched_iff (hc : CreateHelpers u) (h : minixfsCreateInodeForPath u s path = (s', none)) :
    Untouched u s s' ↔
      (u.getInode s path).isSome = true ∨ u.parentDirectory s path = none ∨ u.firstUnusedInode s = none := by
  constructor
  · intro hsame
    by_contra hno
    obtain ⟨hget, hno⟩ := not_or.mp hno
    obtain ⟨hp, hnew⟩ := not_or.mp hno
    obtain ⟨⟨parent, name⟩, hp⟩ := Option.ne_none_iff_exists'.mp hp
    obtain ⟨new, hnew⟩ := Option.ne_none_iff_exists'.mp hnew
    obtain ⟨hfree, hused⟩ := create_none_inode hc h hget hp hnew
    rw [hsame.inodes, hfree] at hused
    cases hused
  · intro hearly
    have hs : s' = s := by
      unfold minixfsCreateInodeForPath at h
      by_cases hget : (u.getInode s path).isSome = true
      · rw [if_pos hget] at h; cases h; rfl
      · rw [if_neg hget] at h
        rcases hearly with hbad | hp | hnew
        · exact absurd hbad hget
        · rw [hp] at h; cases h; rfl
        · rw [hnew] at h
          split at h <;> cases h <;> rfl
    rw [hs]
    exact Untouched.refl

/-! ## A directory of four-byte blocks -/

def takeBlock (s : FileSystem) : FileSystem × Option Nat :=
  match (List.range 16).find? fun b => !s.dataUsed b with
  | none => (s, none)
  | some b => ({ s with dataUsed := update s.dataUsed b true }, some b)

/-- Four inodes, sixteen blocks; "/n" is a name in the root directory, inode 0. -/
def dirUtils : Utils :=
  { smallUtils with
    getInode := fun _ path => if path = "/" then some 0 else none
    isVirtualPath := fun _ => none
    addDataBlockToInode := fun s _ => takeBlock s
    addSingleIndirectBlock := fun s _ =>
      ((takeBlock s).2.elim (takeBlock s).1 fun b => (takeBlock s).1.memcpy (b * 4) (List.replicate 4 255),
        (takeBlock s).2)
    addDataBlockToIndirectBlock := fun s _ => takeBlock s
    parentDirectory := fun s path => if path = "/n" ∧ (s.inodes 0).isSome = true then some (0, "n") else none
    firstUnusedInode := fun s => (List.range 4).find? fun i => (s.inodes i).isNone
    initInode := fun s _ new => { s with inodes := update s.inodes new (some blankInode) }
    makeStringFromDirent := fun name n => [if name = "n" then 110 else 0, UInt8.ofNat n] }

theorem takeBlock_none (h : takeBlock s = (s', none)) : s' = s := by
  unfold takeBlock at h
  split at h
  · cases h; rfl
  · cases h

theorem takeBlock_some (h : takeBlock s = (s', some b)) :
    s.dataUsed b = false ∧ b < 16 ∧ s' = { s with dataUsed := update s.dataUsed b true } := by
  unfold takeBlock at h
  split at h
  · cases h
  · rename_i c hc
    cases h
    have hmem := List.mem_range.mp (List.mem_of_find?_eq_some hc)
    exact ⟨by simpa using List.find?_some hc, hmem, rfl⟩

theorem dirUtils_single {r : Option Nat} (h : takeBlock s = (s', r)) : dirUtils.addSingleIndirectBlock s n =
    (r.elim s' fun b => s'.memcpy (b * 4) (List.replicate 4 255), r) := by
  show ((takeBlock s).2.elim (takeBlock s).1 fun b => (takeBlock s).1.memcpy (b * 4) (List.replicate 4 255),
    (takeBlock s).2) = _
  rw [h]

theorem dirUtils_single_inodes : (dirUtils.addSingleIndirectBlock s n).1.inodes = s.inodes := by
  rcases htake : takeBlock s with ⟨s1, _ | b⟩
  · rw [dirUtils_single htake, takeBlock_none htake]
    rfl
  · rw [dirUtils_single htake, (takeBlock_some htake).2.2]
    rfl

theorem dirUtils_single_none (h : dirUtils.addSingleIndirectBlock s n = (s', none)) : s' = s := by
  rcases htake : takeBlock s with ⟨s1, _ | b⟩
  · rw [dirUtils_single htake] at h
    cases h
    exact takeBlock_none htake
  · rw [dirUtils_single htake] at h
    cases h

theorem dirUtils_createHelpers : CreateHelpers dirUtils where
  firstUnused s new h := by simpa using List.find?_some h
  initInode s _ new := ⟨blankInode, rfl⟩
  parent s path parent name h := by
    change (if path = "/n" ∧ (s.inodes 0).isSome = true then some (0, "n") else none) = some (parent, name) at h
    split at h
    · rename_i hroot
      cases h
      exact hroot.2
    · cases h
  toInode _ _ _ h := takeBlock_none h
  single _ _ _ h := dirUtils_single_none h
  toIndirect _ _ _ h := takeBlock_none h
  singleOthers s n r h i _ := by rw [← h, dirUtils_single_inodes]
  singleKeeps s n r h hs := by rw [← h, dirUtils_single_inodes]; exact hs

def fullDisk : FileSystem where
  inodes i := if i = 0 then some ⟨fun k => if k = 0 then some 0 else none, none, 4, true⟩ else none
  data _ := 0
  dataUsed _ := true
  dblockCount := 16

/-- "/" is there, and nothing changes; "/n" finds no block, and an inode has gone. -/
theorem create_untouched_full_disk :
    Untouched dirUtils fullDisk (minixfsCreateInodeForPath dirUtils fullDisk "/").1 ∧
    ¬ Untouched dirUtils fullDisk (minixfsCreateInodeForPath dirUtils fullDisk "/n").1 := by
  have hroot : minixfsCreateInodeForPath dirUtils fullDisk "/" = (fullDisk, none) := rfl
  have hnew : minixfsCreateInodeForPath dirUtils fullDisk "/n" =
    ((minixfsCreateInodeForPath dirUtils fullDisk "/n").1, none) := rfl
  refine ⟨(create_untouched_iff dirUtils_createHelpers hroot).mpr (Or.inl rfl), fun h => ?_⟩
  have hearly := (create_untouched_iff dirUtils_createHelpers hnew).mp h
  revert hearly
  decide

/-- NULL for want of a block, and inode 1 is in use for a path that does not exist. -/
theorem a_full_disk_keeps_the_inode :
    CreateHelpers dirUtils ∧ (minixfsCreateInodeForPath dirUtils fullDisk "/n").2 = none ∧
    fullDisk.inodes 1 = none ∧ ((minixfsCreateInodeForPath dirUtils fullDisk "/n").1.inodes 1).isSome = true ∧
    ¬ Untouched dirUtils fullDisk (minixfsCreateInodeForPath dirUtils fullDisk "/n").1 := by
  have hused : ((minixfsCreateInodeForPath dirUtils fullDisk "/n").1.inodes 1).isSome = true := rfl
  refine ⟨dirUtils_createHelpers, rfl, rfl, hused, fun h => ?_⟩
  rw [h.inodes] at hused
  cases hused

end SysProg.Minixfs
