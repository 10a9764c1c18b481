/-
  SysProg.Minixfs.AppendEntry — the entry `minixfs_create_inode_for_path` writes into the
  parent directory (see `SysProg.Minixfs.Create`).

  Where the entry goes is computed from the parent's size alone, and nothing checks that
  the parent has a place for one more. The block it goes into is there already, or comes
  from a helper: a direct block, an indirect block, or a block inside that
  (`ensureBlock_ensured`).
  - `create_appends_iff`: a call that succeeds appends one entry and changes no other byte
    in use but unassigned slots of the parent's indirect block, exactly when the parent is
    below its capacity.
  - `a_full_directory_takes_one_more`: at the capacity the entry lands in another file.

  Assumed of the helpers outside the repository: `CreateHelpers`, `BlockHelpers`.
-/

import SysProg.Minixfs.Create

namespace SysProg.Minixfs

open Function (update)
open SysProg.Bytes (Mem store store_at store_off block_addr leDecode leEncode leDecode_leEncode leEncode_length)

variable (u : Utils)

/-! ## What the helpers that hand out blocks do -/

/-- An unused block is taken; no byte of a block in use changes but where `except` says. -/
structure Took (s s' : FileSystem) (b : Nat) (except : Nat → Nat → Prop) : Prop where
  unused : s.dataUsed b = false
  number : b < unassigned
  taken : ∀ c, s'.dataUsed c = true ↔ s.dataUsed c = true ∨ c = b
  bytes : ∀ c j, s.dataUsed c = true → j < u.blockSize → ¬ except c j → s'.data (u.addr c j) = s.data (u.addr c j)

def FreeSlot (s : FileSystem) (i c j : Nat) : Prop :=
  c = i ∧ j / 4 < u.numIndirectBlocks ∧ entry u s.data i (j / 4) = none

/-- The helpers that succeed: the number they return may already be recorded. -/
structure BlockHelpers : Prop where
  toInode : ∀ s n s' b, u.addDataBlockToInode s n = (s', some b) →
    Took u s s' b (fun _ _ => False) ∧ (∀ i, i ≠ n → s'.inodes i = s.inodes i) ∧
    ∀ node, s.inodes n = some node → ∃ node', s'.inodes n = some node' ∧ node'.size = node.size ∧
      node'.indirect = node.indirect ∧ ∀ k c, node.direct k = some c → node'.direct k = some c
  single : ∀ s n s' b, u.addSingleIndirectBlock s n = (s', some b) →
    Took u s s' b (fun _ _ => False) ∧ (∀ i, i ≠ n → s'.inodes i = s.inodes i) ∧
    (∀ node, s.inodes n = some node → ∃ node', s'.inodes n = some node' ∧ node'.size = node.size ∧
      node'.direct = node.direct) ∧
    ∀ k, k < u.numIndirectBlocks → entry u s'.data b k = none
  toIndirect : ∀ s i s' b, u.addDataBlockToIndirectBlock s i = (s', some b) →
    Took u s s' b (FreeSlot u s i) ∧ s'.inodes = s.inodes

structure Owned (s : FileSystem) (n : Nat) : Prop where
  once : ∀ p q b, placed u s n p = some b → placed u s n q = some b → p = q
  used : ∀ p b, placed u s n p = some b → s.dataUsed b = true

/-! ## Slots of an indirect block -/

variable {u} {s s' : FileSystem} {n k b i : Nat} {node : Inode}

theorem entry_slot {d d' : Mem} (h : ∀ t, t < 4 → d' (u.addr i (4 * k + t)) = d (u.addr i (4 * k + t))) :
    entry u d' i k = entry u d i k := by
  unfold entry
  congr 2
  exact List.map_congr_left fun t ht => h t (List.mem_range.mp ht)

theorem setEntry_at (hb : b < unassigned) : entry u (setEntry u s i k (some b)).data i k = some b := by
  have hbytes : ((List.range 4).map fun t => (setEntry u s i k (some b)).data (u.addr i (4 * k + t))) =
    leEncode 4 b := by
    refine List.ext_getElem (by simp [leEncode_length]) fun t h1 h2 => ?_
    rw [leEncode_length] at h2
    rw [List.getElem_map, List.getElem_range]
    show store s.data (u.addr i (4 * k)) (leEncode 4 b) _ = _
    rw [← addr_add, store_at]
  have hlt : b < 256 ^ 4 := Nat.lt_trans hb (by decide)
  unfold entry
  rw [hbytes, leDecode_leEncode hlt, toBlockNumber, if_neg (by omega)]

/-- A slot written changes only its own bytes. -/
theorem setEntry_off {r : Option Nat} {c j : Nat} (hk : k < u.numIndirectBlocks) (hj : j < u.blockSize)
    (h : ¬ (c = i ∧ j / 4 = k)) : (setEntry u s i k r).data (u.addr c j) = s.data (u.addr c j) := by
  apply store_off
  intro t ht heq
  rw [leEncode_length] at ht
  rw [addr_add] at heq
  obtain ⟨rfl, hjt⟩ := block_addr hj (entry_inside hk ht) heq
  exact h ⟨rfl, by omega⟩

/-! ## A block for an index of the file -/

def RecordSlot (u : Utils) (s : FileSystem) (n c j : Nat) : Prop :=
  ∃ i, placed u s n .indirect = some i ∧ FreeSlot u s i c j

/-- `s'` is `s` with block `b` at index `k` of file `n`: it was there, or was unused. -/
structure Ensured (u : Utils) (s s' : FileSystem) (n k b : Nat) : Prop where
  others : ∀ i, i ≠ n → s'.inodes i = s.inodes i
  node : ∀ node, s.inodes n = some node → ∃ node', s'.inodes n = some node' ∧ node'.size = node.size
  here : placed u s' n (placeOf k) = some b
  kept : ∀ p c, placed u s n p = some c → placed u s' n p = some c
  bytes : ∀ c j, s.dataUsed c = true → j < u.blockSize → ¬ RecordSlot u s n c j →
    s'.data (u.addr c j) = s.data (u.addr c j)
  fresh : placed u s n (placeOf k) = some b ∨ s.dataUsed b = false
  apart : placed u s' n .indirect ≠ some b

theorem placeOf_direct (hk : k < numDirectBlocks) : placeOf k = .direct k := if_pos hk

theorem placeOf_entry (hk : ¬ k < numDirectBlocks) : placeOf k = .entry (k - numDirectBlocks) := if_neg hk

/-- A block that is named already. -/
theorem Ensured.refl (ho : Owned u s n) (h : placed u s n (placeOf k) = some b) : Ensured u s s n k b where
  others _ _ := rfl
  node node hnode := ⟨node, hnode, rfl⟩
  here := h
  kept _ _ h := h
  bytes _ _ _ _ _ := rfl
  fresh := Or.inl h
  apart hi := placeOf_ne_indirect k (ho.once _ _ _ h hi)

theorem Ensured.direct (hb : BlockHelpers u) (ho : Owned u s n) (hnode : s.inodes n = some node)
    (hk : k < numDirectBlocks) (hd : node.direct k = none) {s1 : FileSystem}
    (hadd : u.addDataBlockToInode s n = (s1, some b)) :
    Ensured u s (setInode s1 n fun node => { node with direct := update node.direct k (some b) }) n k b := by
  obtain ⟨htook, hothers, hkeeps⟩ := hb.toInode _ _ _ _ hadd
  obtain ⟨node1, hnode1, hsize, hind, hdirect⟩ := hkeeps node hnode
  have hself := setInode_self (f := fun node => { node with direct := update node.direct k (some b) }) hnode1
  have hindirect : ∀ j, node.indirect = some j → placed u s n .indirect = some j := fun j hj => by
    simp [placed, hnode, hj]
  refine ⟨fun j hj => by rw [setInode_other hj, hothers j hj], fun node' hnode' => ?_, ?_, fun p c hp => ?_,
    fun c j hc hj _ => htook.bytes c j hc hj id, Or.inr htook.unused, fun hi => ?_⟩
  · rw [hnode] at hnode'
    cases hnode'
    exact ⟨_, hself, hsize⟩
  · simp [placeOf_direct hk, placed, hk, hself]
  · cases p with
    | direct l =>
      simp only [placed, hnode, Option.bind_some] at hp
      split at hp
      · rename_i hl
        have hlk : l ≠ k := by
          intro e
          rw [e, hd] at hp
          cases hp
        simp [placed, hl, hself, Function.update_of_ne hlk, hdirect l c hp]
      · cases hp
    | indirect =>
      simp only [placed, hnode, Option.bind_some] at hp
      simp [placed, hself, hind, hp]
    | entry l =>
      simp only [placed, hnode, Option.bind_some] at hp
      split at hp
      · rename_i hl
        obtain ⟨j, hj, he⟩ := Option.bind_eq_some_iff.mp hp
        have hused := ho.used _ _ (hindirect j hj)
        have hsame := entry_congr hl fun t ht => htook.bytes j t hused ht id
        simp only [placed, hself, hl, if_true, Option.bind_some, hind, hj]
        exact hsame.trans he
      · cases hp
  · simp only [placed, hself, Option.bind_some, hind] at hi
    have hused := ho.used _ _ (hindirect b hi)
    rw [htook.unused] at hused
    cases hused

/-- A slot of an indirect block that is in use. -/
theorem Ensured.slot (hb : BlockHelpers u) (hnode : s.inodes n = some node) (hi : node.indirect = some i)
    (hused : s.dataUsed i = true) (hk : ¬ k < numDirectBlocks) (hcap : k - numDirectBlocks < u.numIndirectBlocks)
    (he : entry u s.data i (k - numDirectBlocks) = none) {s1 : FileSystem}
    (hadd : u.addDataBlockToIndirectBlock s i = (s1, some b)) :
    Ensured u s (setEntry u s1 i (k - numDirectBlocks) (some b)) n k b := by
  obtain ⟨htook, hin⟩ := hb.toIndirect _ _ _ _ hadd
  have hself : (setEntry u s1 i (k - numDirectBlocks) (some b)).inodes n = some node := by
    rw [← hnode, ← hin]
    rfl
  refine ⟨fun j _ => congrFun hin j, fun node' hnode' => ⟨node', ?_, rfl⟩, ?_, fun p c hp => ?_,
    fun c j hc hj hno => ?_, Or.inr htook.unused, fun hib => ?_⟩
  · rw [hself, ← hnode, hnode']
  · simp only [placeOf_entry hk, placed, hcap, if_true, hself, Option.bind_some, hi]
    exact setEntry_at htook.number
  · cases p with
    | direct l => simpa only [placed, hself, hnode] using hp
    | indirect => simpa only [placed, hself, hnode] using hp
    | entry l =>
      simp only [placed, hnode, Option.bind_some, hi] at hp
      split at hp
      · rename_i hl
        simp only [placed, hself, hl, if_true, Option.bind_some, hi]
        rw [← hp]
        refine entry_slot fun t ht => ?_
        have hlt := entry_inside hl ht
        have hslot : (4 * l + t) / 4 = l := by omega
        rw [setEntry_off hcap hlt fun h => ?_]
        · refine htook.bytes i _ hused hlt fun h => ?_
          rw [FreeSlot, hslot, hp] at h
          cases h.2.2
        · rw [← h.2, hslot, hp] at he
          cases he
      · cases hp
  · have hfree : ¬ FreeSlot u s i c j := fun h => hno ⟨i, by simp [placed, hnode, hi], h⟩
    rw [setEntry_off hcap hj fun h => hfree ⟨h.1, by rw [h.2]; exact ⟨hcap, he⟩⟩]
    exact htook.bytes c j hc hj hfree
  · simp only [placed, hself, Option.bind_some, hi, Option.some.injEq] at hib
    rw [hib, htook.unused] at hused
    cases hused

/-- An indirect block that is new, and a slot in it. -/
theorem Ensured.indirect (hb : BlockHelpers u) (hnode : s.inodes n = some node)
    (hk : ¬ k < numDirectBlocks) (hcap : k - numDirectBlocks < u.numIndirectBlocks) (hind : node.indirect = none)
    {s1 : FileSystem} (hadd : u.addSingleIndirectBlock s n = (s1, some i)) {node1 : Inode}
    (hnode1 : s1.inodes n = some node1)
    (h : ensureBlock u (setInode s1 n fun node => { node with indirect := some i }) n k = (s', some b)) :
    Ensured u s s' n k b := by
  obtain ⟨htook, hothers, hkeeps, hempty⟩ := hb.single _ _ _ _ hadd
  obtain ⟨node1', hnode1', hsize, hdirect⟩ := hkeeps node hnode
  obtain rfl : node1' = node1 := Option.some.inj (hnode1'.symm.trans hnode1)
  have hself := setInode_self (f := fun node => { node with indirect := some i }) hnode1
  have hslot := hempty _ hcap
  have hnew : s.dataUsed i = false := htook.unused
  obtain ⟨s2, r, hadd2⟩ : ∃ s2 r, u.addDataBlockToIndirectBlock (setInode s1 n fun node =>
      { node with indirect := some i }) i = (s2, r) := ⟨_, _, rfl⟩
  rw [ensureBlock_slot_new hself hk rfl hslot hadd2] at h
  obtain ⟨rfl, rfl⟩ := Prod.mk.inj h
  have hE := Ensured.slot hb hself rfl ((htook.taken i).mpr (Or.inr rfl)) hk hcap hslot hadd2
  refine ⟨fun j hj => by rw [hE.others j hj, setInode_other hj, hothers j hj], fun node' hnode' => ?_, hE.here,
    fun p c hp => hE.kept p c ?_, fun c j hc hj _ => ?_, Or.inr ?_, hE.apart⟩
  · rw [hnode] at hnode'
    cases hnode'
    obtain ⟨node2, hnode2, hsize2⟩ := hE.node _ hself
    exact ⟨node2, hnode2, hsize2.trans hsize⟩
  · cases p with
    | direct l =>
      simp only [placed, hnode, Option.bind_some] at hp
      simpa only [placed, hself, Option.bind_some, hdirect] using hp
    | indirect => simp [placed, hnode, hind] at hp
    | entry l => simp [placed, hnode, hind] at hp
  · rw [hE.bytes c j ((htook.taken c).mpr (Or.inl hc)) hj fun hrec => ?_]
    · exact htook.bytes c j hc hj id
    · obtain ⟨i', hi', hc', -⟩ := hrec
      simp only [placed, hself, Option.bind_some, Option.some.injEq] at hi'
      rw [hc', ← hi', hnew] at hc
      cases hc
  · rcases hE.fresh with hold | hfree
    · simp only [placeOf_entry hk, placed, hcap, if_true, hself, Option.bind_some] at hold
      rw [show entry u (setInode s1 n fun node => { node with indirect := some i }).data i (k - numDirectBlocks) = none
        from hslot] at hold
      cases hold
    · by_contra hused
      have := (htook.taken b).mpr (Or.inl (by simpa using hused))
      rw [show s1.dataUsed b = false from hfree] at this
      cases this

/-- Below the capacity, whichever way the block is found. -/
theorem ensureBlock_ensured (hb : BlockHelpers u) (ho : Owned u s n) (hnode : s.inodes n = some node)
    (hcap : k < numDirectBlocks + u.numIndirectBlocks) (h : ensureBlock u s n k = (s', some b)) :
    Ensured u s s' n k b := by
  by_cases hk : k < numDirectBlocks
  · cases hd : node.direct k with
    | some c =>
      rw [ensureBlock_direct hnode hk hd] at h
      cases h
      exact Ensured.refl ho (by simp [placeOf_direct hk, placed, hk, hnode, hd])
    | none =>
      rcases hadd : u.addDataBlockToInode s n with ⟨s1, r⟩
      rw [ensureBlock_direct_new hnode hk hd hadd] at h
      obtain ⟨rfl, rfl⟩ := Prod.mk.inj h
      exact Ensured.direct hb ho hnode hk hd hadd
  · have hslot : k - numDirectBlocks < u.numIndirectBlocks := by omega
    cases hind : node.indirect with
    | some j =>
      have hplaced : placed u s n .indirect = some j := by simp [placed, hnode, hind]
      cases he : entry u s.data j (k - numDirectBlocks) with
      | some c =>
        rw [ensureBlock_slot hnode hk hind he] at h
        cases h
        exact Ensured.refl ho (by simp [placeOf_entry hk, placed, hslot, hnode, hind, he])
      | none =>
        rcases hadd : u.addDataBlockToIndirectBlock s j with ⟨s1, r⟩
        rw [ensureBlock_slot_new hnode hk hind he hadd] at h
        obtain ⟨rfl, rfl⟩ := Prod.mk.inj h
        exact Ensured.slot hb hnode hind (ho.used _ _ hplaced) hk hslot he hadd
    | none =>
      rcases hadd : u.addSingleIndirectBlock s n with ⟨s1, _ | j⟩
      · rw [ensureBlock_indirect_fails hnode hk hind hadd] at h
        cases h
      · obtain ⟨node1, hnode1, -⟩ := (hb.single _ _ _ _ hadd).2.2.1 node hnode
        rw [ensureBlock_indirect_new hnode hk hind hadd hnode1] at h
        exact Ensured.indirect hb hnode hk hslot hind hadd hnode1 h

/-! ## The entry -/

variable (u) in
/-- The entries in the first `size` bytes of a directory: `none` where bytes are missing. -/
def dirents (decode : List UInt8 → String × Nat) (s : FileSystem) (n size : Nat) : List (Option (String × Nat)) :=
  (List.range (size / u.fileNameEntry)).map fun k =>
    let bytes := ((content u s n size).drop (k * u.fileNameEntry)).take u.fileNameEntry
    if bytes.length = u.fileNameEntry then some (decode bytes) else none

/-- The parent holds one entry more, and nothing else in use has changed. -/
structure Appended (u : Utils) (decode : List UInt8 → String × Nat) (s s' : FileSystem) (n size : Nat) (name : String)
    (new : Nat) : Prop where
  grown : ∃ node', s'.inodes n = some node' ∧ node'.size = size + u.fileNameEntry
  entries : dirents u decode s' n (size + u.fileNameEntry) = dirents u decode s n size ++ [some (name, new)]
  bytes : ∀ b j, s.dataUsed b = true → j < u.blockSize → s'.data (u.addr b j) ≠ s.data (u.addr b j) →
    placed u s n (placeOf (size / u.blockSize)) = some b ∧ size % u.blockSize ≤ j ∧
      j < size % u.blockSize + u.fileNameEntry ∨ RecordSlot u s n b j

variable {decode : List UInt8 → String × Nat} {name path : String} {parent new size : Nat} {l : List UInt8}

theorem placed_setInode {f : Inode → Inode} (hf : ∀ node, (f node).direct = node.direct ∧
    (f node).indirect = node.indirect)
    (p : Place) : placed u (setInode s n f) n p = placed u s n p := by
  cases hn : s.inodes n with
  | none => cases p <;> simp [placed, setInode, hn]
  | some node =>
    obtain ⟨hdirect, hindirect⟩ := hf node
    cases p with
    | direct k => simp only [placed, setInode_self hn, hn, Option.bind_some, hdirect]
    | indirect => simp only [placed, setInode_self hn, hn, Option.bind_some, hindirect]
    | entry k => simp only [placed, setInode_self hn, hn, Option.bind_some, hindirect]; rfl

def written (u : Utils) (s : FileSystem) (n size b : Nat) (l : List UInt8) : FileSystem :=
  setInode (s.memcpy (u.addr b (size % u.blockSize)) l) n fun node => { node with size := node.size + u.fileNameEntry }

theorem placed_written (hE : Ensured u s s' n k b) (hl : size % u.blockSize + l.length ≤ u.blockSize) (p : Place) :
    placed u (written u s' n size b l) n p = placed u s' n p := by
  have hb : ∀ i, placed u s' n .indirect = some i → b ≠ i := fun i hi e => hE.apart (e ▸ hi)
  have hsize := placed_setInode (u := u) (s := s'.memcpy (u.addr b (size % u.blockSize)) l) (n := n)
    (f := fun node => { node with size := node.size + u.fileNameEntry }) (fun _ => ⟨rfl, rfl⟩) p
  exact hsize.trans (placed_memcpy hb hl p)

/-- Bytes of blocks in use that are neither in the entry nor in a slot. -/
theorem written_off (hE : Ensured u s s' n k b) (hl : size % u.blockSize + l.length ≤ u.blockSize) {c j : Nat}
    (hc : s.dataUsed c = true) (hj : j < u.blockSize)
    (h : ¬ (c = b ∧ size % u.blockSize ≤ j ∧ j < size % u.blockSize + l.length)) (hno : ¬ RecordSlot u s n c j) :
    (written u s' n size b l).data (u.addr c j) = s.data (u.addr c j) := by
  rw [← hE.bytes c j hc hj hno]
  apply store_off
  intro t ht heq
  rw [addr_add] at heq
  obtain ⟨rfl, rfl⟩ := block_addr hj (show size % u.blockSize + t < u.blockSize by omega) heq
  exact h ⟨rfl, by omega, by omega⟩

/-- The bytes below the old size. -/
theorem byteAt_written_old (hE : Ensured u s s' n (size / u.blockSize) b) (ho : Owned u s n)
    (hcov : Covered u s n size) (hl : size % u.blockSize + l.length ≤ u.blockSize) {x : Nat} (hx : x < size) :
    byteAt u (written u s' n size b l) n x = byteAt u s n x := by
  have hB := u.blockSize_pos
  have hxB := Nat.div_mul_le_self x u.blockSize
  obtain ⟨c, hc⟩ := Option.isSome_iff_exists.mp (hcov (x / u.blockSize) (by omega))
  unfold byteAt
  rw [placed_written hE hl, hE.kept _ c hc, hc]
  refine congrArg some (written_off hE hl (ho.used _ _ hc) (Nat.mod_lt x hB) (fun h => ?_) fun h => ?_)
  · obtain ⟨rfl, hle, -⟩ := h
    rcases hE.fresh with hold | hfree
    · -- the entry's block is the one `x` is in
      have hdiv := placeOf_inj (ho.once _ _ _ hc hold)
      have h1 := Nat.div_add_mod x u.blockSize
      have h2 := Nat.div_add_mod size u.blockSize
      rw [hdiv] at h1
      omega
    · rw [ho.used _ _ hc] at hfree
      cases hfree
  · obtain ⟨i, hi, rfl, -⟩ := h
    exact placeOf_ne_indirect _ (ho.once _ _ _ hc hi)

/-- The bytes of the entry. -/
theorem byteAt_written_new (hE : Ensured u s s' n (size / u.blockSize) b)
    (hl : size % u.blockSize + l.length ≤ u.blockSize) {i : Nat} (hi : i < l.length) :
    byteAt u (written u s' n size b l) n (size + i) = some l[i] := by
  obtain ⟨hdiv, hmod⟩ := same_block (show size % u.blockSize + i < u.blockSize by omega)
  unfold byteAt
  rw [hdiv, hmod, placed_written hE hl, hE.here]
  show some (store s'.data (u.addr b (size % u.blockSize)) l (u.addr b (size % u.blockSize + i))) = _
  rw [← addr_add, store_at hi]

theorem content_written (hE : Ensured u s s' n (size / u.blockSize) b) (ho : Owned u s n) (hcov : Covered u s n size)
    (hl : size % u.blockSize + l.length ≤ u.blockSize) :
    content u (written u s' n size b l) n (size + l.length) = content u s n size ++ l := by
  have hB := u.blockSize_pos
  have hcov' : Covered u (written u s' n size b l) n (size + l.length) := by
    intro k hk
    rw [placed_written hE hl]
    by_cases hlast : k = size / u.blockSize
    · rw [hlast, hE.here]
      rfl
    · have hdm := Nat.div_add_mod size u.blockSize
      have hlt : k < size / u.blockSize + 1 := by
        refine (Nat.mul_lt_mul_right hB).mp (Nat.lt_of_lt_of_le hk ?_)
        rw [Nat.succ_mul, Nat.mul_comm]
        omega
      have hle := Nat.mul_le_mul_right u.blockSize (show k + 1 ≤ size / u.blockSize by omega)
      rw [Nat.succ_mul, Nat.mul_comm (size / u.blockSize)] at hle
      obtain ⟨c, hc⟩ := Option.isSome_iff_exists.mp (hcov k (by omega))
      rw [hE.kept _ c hc]
      rfl
  have hlen := length_content hcov
  refine List.ext_getElem? fun x => ?_
  by_cases hx : x < size
  · rw [content_at hcov' (by omega), byteAt_written_old hE ho hcov hl hx, List.getElem?_append_left (by omega),
      content_at hcov hx]
  · by_cases hi : x - size < l.length
    · obtain ⟨i, rfl⟩ : ∃ i, x = size + i := ⟨x - size, by omega⟩
      rw [Nat.add_sub_cancel_left] at hi
      rw [content_at hcov' (by omega), byteAt_written_new hE hl hi, List.getElem?_append_right (by omega), hlen,
        Nat.add_sub_cancel_left, List.getElem?_eq_getElem hi]
    · rw [List.getElem?_eq_none (by rw [length_content hcov']; omega),
        List.getElem?_eq_none (by rw [List.length_append, hlen]; omega)]

/-! ## The entries of the parent -/

theorem length_dirents : (dirents u decode s n size).length = size / u.fileNameEntry := by
  simp [dirents]

theorem dirents_getElem? (hk : k < size / u.fileNameEntry) :
    (dirents u decode s n size)[k]? =
      some (let bytes := ((content u s n size).drop (k * u.fileNameEntry)).take u.fileNameEntry
        if bytes.length = u.fileNameEntry then some (decode bytes) else none) := by
  simp [dirents, hk]

/-- One more entry's bytes at the end are one more entry. -/
theorem dirents_append (hE : 0 < u.fileNameEntry) (hsize : u.fileNameEntry ∣ size) (hl : l.length = u.fileNameEntry)
    (hlen : (content u s n size).length = size)
    (h : content u s' n (size + u.fileNameEntry) = content u s n size ++ l) :
    dirents u decode s' n (size + u.fileNameEntry) = dirents u decode s n size ++ [some (decode l)] := by
  obtain ⟨m, rfl⟩ := hsize
  have hcount : (u.fileNameEntry * m + u.fileNameEntry) / u.fileNameEntry = m + 1 := by
    rw [← Nat.mul_succ, Nat.mul_div_cancel_left _ hE]
  unfold dirents
  rw [hcount, Nat.mul_div_cancel_left _ hE, List.range_succ, List.map_append, h]
  refine congrArg₂ HAppend.hAppend (List.map_congr_left fun k hk => ?_) ?_
  · -- an old entry ends before the new bytes
    have hkm := Nat.mul_le_mul_right u.fileNameEntry (List.mem_range.mp hk)
    rw [Nat.succ_mul, Nat.mul_comm m] at hkm
    dsimp only
    rw [List.drop_append_of_le_length (by omega), List.take_append_of_le_length (by rw [List.length_drop]; omega)]
  · have hend : m * u.fileNameEntry = (content u s n (u.fileNameEntry * m)).length := by rw [hlen, Nat.mul_comm]
    simp only [List.map_cons, List.map_nil]
    rw [hend, List.drop_left, ← hl, List.take_length, if_pos rfl]

theorem length_content_le : (content u s n size).length ≤ capacity u := by
  have hplace : ∀ k, (placeBytes u s n (placeOf k)).length ≤ u.blockSize := by
    intro k
    unfold placeBytes
    cases placed u s n (placeOf k) <;> simp
  unfold content capacity
  rw [List.length_take, fileBlocks_eq]
  exact Nat.le_trans (Nat.min_le_right _ _) (Slices.length_blocks_le hplace)

/-- A directory at its capacity has no place for an entry. -/
theorem not_appended (hE : 0 < u.fileNameEntry) (hsize : u.fileNameEntry ∣ size) (hcap : size = capacity u) :
    ¬ Appended u decode s s' n size name new := by
  intro h
  have hlast := congrArg (fun entries => entries[size / u.fileNameEntry]?) h.entries
  have hlt : size / u.fileNameEntry < (size + u.fileNameEntry) / u.fileNameEntry := by
    rw [Nat.add_div_right _ hE]
    exact Nat.lt_succ_self _
  have hnil : (content u s' n (size + u.fileNameEntry)).drop (size / u.fileNameEntry * u.fileNameEntry) = [] := by
    rw [Nat.div_mul_cancel hsize]
    exact List.drop_eq_nil_of_le (hcap ▸ length_content_le)
  simp only [dirents_getElem? hlt, hnil] at hlast
  rw [List.getElem?_append_right (by rw [length_dirents]), length_dirents, Nat.sub_self, List.take_nil,
    if_neg (by simp; omega)] at hlast
  cases hlast

/-! ## The call -/

def initialised (s : FileSystem) (new : Nat) (blank : Inode) : FileSystem :=
  { s with inodes := update s.inodes new (some blank) }

section Initialised

variable {fresh : Inode}

theorem initialised_inodes (h : n ≠ new) : (initialised s new fresh).inodes n = s.inodes n := Function.update_of_ne h ..

theorem placed_initialised (h : n ≠ new) (p : Place) : placed u (initialised s new fresh) n p = placed u s n p :=
  placed_congr (initialised_inodes h) (fun _ _ _ _ => rfl) p

theorem content_initialised (h : n ≠ new) : content u (initialised s new fresh) n size = content u s n size := by
  have hplace : ∀ p, placeBytes u (initialised s new fresh) n p = placeBytes u s n p := by
    intro p
    unfold placeBytes
    rw [placed_initialised h]
    rfl
  unfold content fileBlocks
  simp only [hplace]

theorem Owned.initialised (ho : Owned u s n) (fresh : Inode) (h : n ≠ new) : Owned u (initialised s new fresh) n where
  once p q b hp hq := ho.once p q b (placed_initialised h p ▸ hp) (placed_initialised h q ▸ hq)
  used p b hp := ho.used p b (placed_initialised h p ▸ hp)

end Initialised

/-- A call that returns an inode. -/
theorem create_some (hc : CreateHelpers u) (hp : u.parentDirectory s path = some (parent, name))
    (hin : s.inodes parent = some node) (h : minixfsCreateInodeForPath u s path = (s', some new)) :
    parent ≠ new ∧ ∃ fresh s1 b,
      ensureBlock u (initialised s new fresh) parent (node.size / u.blockSize) = (s1, some b) ∧
        s' = written u s1 parent node.size b (u.makeStringFromDirent name new) := by
  unfold minixfsCreateInodeForPath at h
  split at h
  · cases h
  · rw [hp] at h
    dsimp only at h
    split at h
    · cases h
    · rename_i m hm
      have hne : parent ≠ m := by
        intro e
        rw [e, hc.firstUnused _ _ hm] at hin
        cases hin
      obtain ⟨fresh, hinit⟩ := hc.initInode s parent m
      rw [hinit] at h
      simp only [Function.update_of_ne hne, hin] at h
      split at h
      · cases h
      · rename_i s1 b hrun
        obtain ⟨rfl, hnew⟩ := Prod.mk.inj h
        obtain rfl := Option.some.inj hnew
        exact ⟨hne, fresh, s1, b, hrun, rfl⟩

/-- A call that succeeds for a directory within its capacity appends the entry, and only
    that, exactly when the directory is below its capacity. -/
theorem create_appends_iff (hc : CreateHelpers u) (hb : BlockHelpers u) (hdvd : u.fileNameEntry ∣ u.blockSize)
    (hp : u.parentDirectory s path = some (parent, name)) (hin : s.inodes parent = some node)
    (hsize : u.fileNameEntry ∣ node.size) (hcap : node.size ≤ capacity u) (hcov : Covered u s parent node.size)
    (ho : Owned u s parent) (h : minixfsCreateInodeForPath u s path = (s', some new))
    (hl : (u.makeStringFromDirent name new).length = u.fileNameEntry)
    (hdec : decode (u.makeStringFromDirent name new) = (name, new)) :
    Appended u decode s s' parent node.size name new ↔ node.size < capacity u := by
  have hB := u.blockSize_pos
  have hpos : 0 < u.fileNameEntry := Nat.pos_of_dvd_of_pos hdvd hB
  constructor
  · intro happ
    refine Nat.lt_of_le_of_ne hcap fun e => not_appended hpos hsize e happ
  · intro hlt
    obtain ⟨hne, fresh, s1, b, hrun, rfl⟩ := create_some hc hp hin h
    have hin0 : (initialised s new fresh).inodes parent = some node := (initialised_inodes hne).trans hin
    have ho0 := ho.initialised fresh hne
    have hcov0 : Covered u (initialised s new fresh) parent node.size := fun k hk => by
      rw [placed_initialised hne]
      exact hcov k hk
    have hEn := ensureBlock_ensured hb ho0 hin0
      ((Nat.div_lt_iff_lt_mul hB).mpr hlt) hrun
    -- the entry fits into what is left of its block
    have hfits : node.size % u.blockSize + (u.makeStringFromDirent name new).length ≤ u.blockSize := by
      have hmod : u.fileNameEntry ∣ node.size % u.blockSize := (Nat.dvd_mod_iff hdvd).mpr hsize
      have hroom := Nat.le_of_dvd (Nat.sub_pos_of_lt (Nat.mod_lt node.size hB)) (Nat.dvd_sub hdvd hmod)
      have := Nat.mod_lt node.size hB
      omega
    have hcontent := content_written hEn ho0 hcov0 hfits
    rw [hl, content_initialised hne] at hcontent
    refine ⟨?_, ?_, fun c j hc hj hch => ?_⟩
    · obtain ⟨node1, hnode1, hsize1⟩ := hEn.node node hin0
      exact ⟨_, setInode_self hnode1, congrArg (· + u.fileNameEntry) hsize1⟩
    · rw [dirents_append hpos hsize hl (length_content hcov) hcontent, hdec]
    · by_contra hno
      obtain ⟨hentry, hrec⟩ := not_or.mp hno
      refine hch (written_off hEn hfits hc hj (fun hin => hentry ?_) fun hr => hrec ?_)
      · obtain ⟨rfl, hle, hj'⟩ := hin
        rcases hEn.fresh with hold | hfree
        · rw [placed_initialised hne] at hold
          exact ⟨hold, hle, hl ▸ hj'⟩
        · exact absurd (hc.symm.trans hfree) (by simp)
      · obtain ⟨i, hi, hslot⟩ := hr
        rw [placed_initialised hne] at hi
        exact ⟨i, hi, hslot⟩

/-! ## Directories of two-byte entries -/

theorem takeBlock_took {except : Nat → Nat → Prop} (h : takeBlock s = (s', some b)) : Took dirUtils s s' b except := by
  obtain ⟨hfree, hlt, rfl⟩ := takeBlock_some h
  refine ⟨hfree, Nat.lt_trans hlt (by decide), fun c => ?_, fun _ _ _ _ _ => rfl⟩
  by_cases hc : c = b <;> simp [hc]

theorem dirUtils_single_some (h : dirUtils.addSingleIndirectBlock s n = (s', some b)) :
    ∃ s1, takeBlock s = (s1, some b) ∧ s' = s1.memcpy (b * 4) (List.replicate 4 255) := by
  rcases htake : takeBlock s with ⟨s1, _ | c⟩
  · rw [dirUtils_single htake] at h
    cases h
  · rw [dirUtils_single htake] at h
    cases h
    exact ⟨s1, rfl, rfl⟩

theorem dirUtils_blockHelpers : BlockHelpers dirUtils where
  toInode s n s' b h := by
    have hs := (takeBlock_some h).2.2
    exact ⟨takeBlock_took h, fun i _ => by rw [hs], fun node hnode => ⟨node, by rw [hs]; exact hnode, rfl, rfl,
      fun _ _ hk => hk⟩⟩
  single s n s' b h := by
    obtain ⟨s1, htake, rfl⟩ := dirUtils_single_some h
    have hs := (takeBlock_some htake).2.2
    have htook : Took dirUtils s s1 b fun _ _ => False := takeBlock_took htake
    refine ⟨⟨htook.unused, htook.number, htook.taken, fun c j hc hj _ => ?_⟩, fun i _ => by rw [hs]; rfl,
      fun node hnode => ⟨node, by rw [hs]; exact hnode, rfl, rfl⟩, fun k hk => ?_⟩
    · have hcb : b ≠ c := by
        intro e
        rw [← e, htook.unused] at hc
        cases hc
      have hfour : 0 + (List.replicate 4 (255 : UInt8)).length ≤ dirUtils.blockSize := by simp [dirUtils, smallUtils]
      have hstore := store_block (u := dirUtils) (o := 0) (d := s1.data) hcb hfour hj
      exact hstore.trans (htook.bytes c j hc hj id)
    · obtain rfl : k = 0 := Nat.lt_one_iff.mp hk
      have hbytes : (List.range 4).map (fun t =>
          (s1.memcpy (b * 4) (List.replicate 4 255)).data (b * 4 + (4 * 0 + t))) = List.replicate 4 255 := by
        refine List.map_eq_replicate_iff.mpr fun t ht => ?_
        have htl : t < (List.replicate 4 (255 : UInt8)).length := by simpa using List.mem_range.mp ht
        rw [Nat.mul_zero, Nat.zero_add]
        exact (store_at htl).trans (List.getElem_replicate ..)
      exact (congrArg (fun bytes => toBlockNumber (leDecode bytes)) hbytes).trans rfl
  toIndirect s i s' b h := ⟨takeBlock_took h, by rw [(takeBlock_some h).2.2]⟩

def decodeDirent (bytes : List UInt8) : String × Nat :=
  (if bytes.head? = some 110 then "n" else "", (bytes.getD 1 0).toNat)

/-- The root directory has two entries, in block 0. -/
def oneBlockRoot : FileSystem where
  inodes i := if i = 0 then some ⟨fun k => if k = 0 then some 0 else none, none, 4, true⟩ else none
  data _ := 0
  dataUsed b := b == 0
  dblockCount := 16

theorem oneBlockRoot_placed {p : Place} (h : placed dirUtils oneBlockRoot 0 p = some b) : p = .direct 0 ∧ b = 0 := by
  cases p with
  | direct k =>
    simp only [placed, oneBlockRoot] at h
    split_ifs at h
    simp at h
    exact ⟨by rw [h.1], h.2.symm⟩
  | indirect => cases h
  | entry k =>
    simp only [placed, oneBlockRoot] at h
    split_ifs at h
    cases h

/-- "/n" becomes the third entry, in a new block. -/
theorem create_appends_root :
    (minixfsCreateInodeForPath dirUtils oneBlockRoot "/n").2 = some 1 ∧
    Appended dirUtils decodeDirent oneBlockRoot (minixfsCreateInodeForPath dirUtils oneBlockRoot "/n").1 0 4 "n" 1 := by
  have hrun : minixfsCreateInodeForPath dirUtils oneBlockRoot "/n" =
    ((minixfsCreateInodeForPath dirUtils oneBlockRoot "/n").1, some 1) := rfl
  have hcov : Covered dirUtils oneBlockRoot 0 4 := by
    intro k hk
    obtain rfl : k = 0 := Nat.lt_one_iff.mp ((Nat.mul_lt_mul_right (show 0 < 4 by decide)).mp hk)
    rfl
  have howned : Owned dirUtils oneBlockRoot 0 :=
    ⟨fun p q b hp hq => (oneBlockRoot_placed hp).1.trans (oneBlockRoot_placed hq).1.symm,
      fun p b hp => by rw [(oneBlockRoot_placed hp).2]; rfl⟩
  refine ⟨rfl, ?_⟩
  exact (create_appends_iff dirUtils_createHelpers dirUtils_blockHelpers (by decide) rfl rfl (by decide) (by decide)
    hcov howned hrun rfl (show decodeDirent (dirUtils.makeStringFromDirent "n" 1) = ("n", 1) from rfl)).mpr (by decide)

/-- The root directory fills its twelve blocks. The indirect block, 11, names block 12, and
    the bytes after it, the first entries, read as the number 13: a block of file 1. -/
def fullRoot : FileSystem where
  inodes i :=
    if i = 0 then some ⟨some, some 11, 48, true⟩
    else if i = 1 then some ⟨fun k => if k = 0 then some 13 else none, none, 4, false⟩
    else none
  data x := if x = 44 then 12 else if x = 48 then 13 else 0
  dataUsed b := decide (b < 14)
  dblockCount := 16

theorem fullRoot_placed {p : Place} (h : placed dirUtils fullRoot 0 p = some b) :
    p = .direct b ∧ b < 11 ∨ p = .indirect ∧ b = 11 ∨ p = .entry 0 ∧ b = 12 := by
  cases p with
  | direct k =>
    simp only [placed, fullRoot, numDirectBlocks] at h
    split_ifs at h with hk
    simp at h
    subst h
    exact Or.inl ⟨rfl, hk⟩
  | indirect =>
    simp only [placed, fullRoot] at h
    simp at h
    exact Or.inr (Or.inl ⟨rfl, h.symm⟩)
  | entry k =>
    have hk : k < dirUtils.numIndirectBlocks := by
      by_contra hk
      simp [placed, hk] at h
    obtain rfl : k = 0 := Nat.lt_one_iff.mp hk
    have h12 : placed dirUtils fullRoot 0 (.entry 0) = some 12 := by decide
    exact Or.inr (Or.inr ⟨rfl, Option.some.inj (h.symm.trans h12)⟩)

/-- The call for "/n" succeeds and writes the entry over the start of file 1. -/
theorem a_full_directory_takes_one_more :
    CreateHelpers dirUtils ∧ BlockHelpers dirUtils ∧ Covered dirUtils fullRoot 0 48 ∧ Owned dirUtils fullRoot 0 ∧
    capacity dirUtils = 48 ∧ (minixfsCreateInodeForPath dirUtils fullRoot "/n").2 = some 2 ∧
    byteAt dirUtils fullRoot 1 0 = some 0 ∧
    byteAt dirUtils (minixfsCreateInodeForPath dirUtils fullRoot "/n").1 1 0 = some 110 ∧
    ¬ Appended dirUtils decodeDirent fullRoot (minixfsCreateInodeForPath dirUtils fullRoot "/n").1 0 48 "n" 2 := by
  refine ⟨dirUtils_createHelpers, dirUtils_blockHelpers, fun k hk => ?_, ⟨fun p q b hp hq => ?_, fun p b hp => ?_⟩, rfl,
    by decide, by decide, by decide, not_appended (by decide) (by decide) rfl⟩
  · have hlt : k < 12 := (Nat.mul_lt_mul_right (show 0 < 4 by decide)).mp hk
    clear hk
    revert k
    decide
  · rcases fullRoot_placed hp with ⟨rfl, h1⟩ | ⟨rfl, h1⟩ | ⟨rfl, h1⟩ <;>
      rcases fullRoot_placed hq with ⟨rfl, h2⟩ | ⟨rfl, h2⟩ | ⟨rfl, h2⟩ <;> first | rfl | omega
  · have hlt : b < 14 := by rcases fullRoot_placed hp with ⟨-, h⟩ | ⟨-, h⟩ | ⟨-, h⟩ <;> omega
    simpa [fullRoot] using hlt

end SysProg.Minixfs
