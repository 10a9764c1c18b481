/-
  SysProg.Minixfs.WriteRead — what `minixfs_write` leaves in a regular file and in the
  others (see `SysProg.Minixfs.Minixfs`, `SysProg.Minixfs.Contents`).

  `minixfs_read` takes byte `o` of block `b` at `(char *)(fs->data_root + b) + o`;
  `minixfs_write` copies to `fs->data_root + b + o`, which counts in blocks and is the
  start of block `b + o`. The two agree where the offset in the first block is 0.
  - `write_intact`: a write at a multiple of the block size reads back, and neither the
    rest of the file nor any other file changes. At any other offset, for a write that
    is accepted and does not hit the file's own indirect block, some buffer breaks this.
  - `write_hits_the_next_block`: one byte at offset 1 lands in another file.

  Assumed of the helpers outside the repository: a path resolves by what the directories
  contain, and `minixfs_min_blockcount`, when it succeeds, has given the file the blocks
  asked for, out of blocks no file owns (`Extended`).
-/

import SysProg.Minixfs.Contents

namespace SysProg.Minixfs

open Function (update)
open SysProg.Bytes (Mem store store_at store_off block_addr)

variable (u : Utils)

def SameContents (s s' : FileSystem) (i : Nat) : Prop :=
  ∀ node, s.inodes i = some node → ∃ node', s'.inodes i = some node' ∧ node'.isDirectory = node.isDirectory ∧
    node'.size = node.size ∧ ∀ x, x < node.size → byteAt u s' i x = byteAt u s i x

structure SameDirectories (s s' : FileSystem) : Prop where
  kinds : ∀ i, (s'.inodes i).map Inode.isDirectory = (s.inodes i).map Inode.isDirectory
  contents : ∀ i node, s.inodes i = some node → node.isDirectory = true → SameContents u s s' i

/-- `minixfs_min_blockcount` succeeded: `s'` differs from `s` in blocks newly given to
    file `n`, each of them owned by no file before, and file `n` has `need` blocks. -/
structure Extended (s s' : FileSystem) (n need : Nat) : Prop where
  others : ∀ i, i ≠ n → s'.inodes i = s.inodes i
  node : ∀ node, s.inodes n = some node →
    ∃ node', s'.inodes n = some node' ∧ node'.size = node.size ∧ node'.isDirectory = node.isDirectory
  kept : ∀ p b, placed u s n p = some b → placed u s' n p = some b
  unused : ∀ p b, placed u s' n p = some b → placed u s n p = some b ∨ ∀ i q, placed u s i q ≠ some b
  once : ∀ p q b, placed u s' n p = some b → placed u s' n q = some b → p = q
  bytes : ∀ i p b j, placed u s i p = some b → (i = n → p ≠ .indirect) → j < u.blockSize →
    s'.data (u.addr b j) = s.data (u.addr b j)
  capacity : need ≤ numDirectBlocks + u.numIndirectBlocks
  enough : ∀ k, k < need → (placed u s' n (placeOf k)).isSome = true

/-- A write that returns `count` reads back, and changes nothing else below the old size
    of the file and nothing in any other file. -/
def Intact (s : FileSystem) (path : String) (n off : Nat) (buf : List UInt8) : Prop :=
  ∀ s' off', minixfsWrite u s path buf off = (s', .ok (buf.length, off')) →
    minixfsRead u s' path buf.length off = .ok (buf, off + buf.length) ∧
    (∀ node x c, s.inodes n = some node → x < node.size → (x < off ∨ off + buf.length ≤ x) →
      byteAt u s n x = some c → byteAt u s' n x = some c) ∧
    ∀ i, i ≠ n → SameContents u s s' i

variable {u}

/-! ## The blocks a loop walks -/

variable (u) in
/-- The address of position `p` of a file whose block at index `k` is `blk k`. -/
def posAddr (blk : Nat → Nat) (p : Nat) : Nat := u.addr (blk (p / u.blockSize)) (p % u.blockSize)

variable (u) in
/-- File `n` has block `blk k` at each index `k` from `lo` to below `hi`. -/
structure Laid (s : FileSystem) (n : Nat) (blk : Nat → Nat) (lo hi : Nat) : Prop where
  capacity : hi ≤ numDirectBlocks + u.numIndirectBlocks
  blocks : ∀ k, lo ≤ k → k < hi → blockOf u s n k = some (blk k)
  inj : ∀ k l, lo ≤ k → k < hi → lo ≤ l → l < hi → blk k = blk l → k = l
  offIndirect : ∀ k i, lo ≤ k → k < hi → placed u s n .indirect = some i → blk k ≠ i

variable {s : FileSystem} {n lo hi : Nat} {blk : Nat → Nat}

theorem Laid.posAddr_inj (h : Laid u s n blk lo hi) {p q : Nat} (hp : lo ≤ p / u.blockSize) (hp' : p / u.blockSize < hi)
    (hq : lo ≤ q / u.blockSize) (hq' : q / u.blockSize < hi) (heq : posAddr u blk p = posAddr u blk q) : p = q := by
  have hB := u.blockSize_pos
  obtain ⟨hb, hm⟩ := block_addr (Nat.mod_lt p hB) (Nat.mod_lt q hB) heq
  have hdiv := h.inj _ _ hp hp' hq hq' hb
  rw [← Nat.div_add_mod p u.blockSize, ← Nat.div_add_mod q u.blockSize, hdiv, hm]

/-- A store into one block leaves the others alone. -/
theorem store_block {d : Mem} {b c o j : Nat} {l : List UInt8} (hbc : b ≠ c) (hlen : o + l.length ≤ u.blockSize)
    (hj : j < u.blockSize) : store d (u.addr b o) l (u.addr c j) = d (u.addr c j) := by
  apply store_off
  intro i hi heq
  rw [addr_add] at heq
  exact hbc (block_addr (show o + i < u.blockSize by omega) hj heq.symm).1

theorem placed_memcpy {b o : Nat} {l : List UInt8} (hb : ∀ i, placed u s n .indirect = some i → b ≠ i)
    (hlen : o + l.length ≤ u.blockSize) (p : Place) : placed u (s.memcpy (u.addr b o) l) n p = placed u s n p := by
  refine placed_congr (show (s.memcpy (u.addr b o) l).inodes n = s.inodes n from rfl) ?_ p
  intro i hi j hj
  exact store_block (hb i hi) hlen hj

theorem Laid.memcpy (h : Laid u s n blk lo hi) {b o : Nat} {l : List UInt8}
    (hb : ∀ i, placed u s n .indirect = some i → b ≠ i) (hlen : o + l.length ≤ u.blockSize) :
    Laid u (s.memcpy (u.addr b o) l) n blk lo hi where
  capacity := h.capacity
  blocks k hk hk' := by
    have hcap := h.capacity
    rw [blockOf_eq (by omega), placed_memcpy hb hlen, ← blockOf_eq (by omega)]
    exact h.blocks k hk hk'
  inj := h.inj
  offIndirect k i hk hk' hi := h.offIndirect k i hk hk' (by rwa [placed_memcpy hb hlen] at hi)

theorem ensureBlock_assigned {k b : Nat} (h : blockOf u s n k = some b) : ensureBlock u s n k = (s, some b) := by
  unfold blockOf at h
  obtain ⟨node, hnode, h⟩ := Option.bind_eq_some_iff.mp h
  unfold ensureBlock
  rw [hnode]
  simp only
  split at h
  · rename_i hk; rw [if_pos hk, h]
  · rename_i hk
    obtain ⟨i, hi, h⟩ := Option.bind_eq_some_iff.mp h
    rw [if_neg hk, hi]
    simp only [h]

/-- `s'` is `s` with only bytes at the positions from `a` to below `e` of the blocks `blk`
    changed. -/
structure WroteOnly (u : Utils) (s s' : FileSystem) (blk : Nat → Nat) (a e : Nat) : Prop where
  inodes : s'.inodes = s.inodes
  frame : ∀ x, (∀ p, a ≤ p → p < e → x ≠ posAddr u blk p) → s'.data x = s.data x

variable {s' : FileSystem} {a e : Nat}

/-- A block that is not at an index written is as it was. -/
theorem WroteOnly.block (hw : WroteOnly u s s' blk a e) {b : Nat}
    (hb : ∀ p, a ≤ p → p < e → blk (p / u.blockSize) ≠ b) {j : Nat} (hj : j < u.blockSize) :
    s'.data (u.addr b j) = s.data (u.addr b j) := by
  apply hw.frame
  intro p hp hlt heq
  exact hb p hp hlt (block_addr hj (Nat.mod_lt p u.blockSize_pos) heq).1.symm

/-- The file names the blocks it named. -/
theorem WroteOnly.placed (hw : WroteOnly u s s' blk a e) (hl : Laid u s n blk lo hi) (hlo : lo ≤ a / u.blockSize)
    (hhi : ∀ p, p < e → p / u.blockSize < hi) (p : Place) : placed u s' n p = placed u s n p := by
  refine placed_congr (by rw [hw.inodes]) ?_ p
  intro i hi j hj
  refine hw.block (fun q hq hlt => ?_) hj
  exact hl.offIndirect _ i (Nat.le_trans hlo (Nat.div_le_div_right hq)) (hhi q hlt) hi

/-! ## The write loop from the start of a block -/

/-- One round of the loop, at a position whose block is assigned. -/
theorem writeLoop_round (buf : List UInt8) (off fuel : Nat) {written b tw : Nat} (hw : written < buf.length)
    (hb : blockOf u s n ((off + written) / u.blockSize) = some b)
    (htw : min (u.blockSize - (off + written) % u.blockSize) (buf.length - written) = tw) :
    writeLoop u n buf off (fuel + 1) s written =
      writeLoop u n buf off fuel
        (s.memcpy (u.addr (b + (off + written) % u.blockSize) 0) ((buf.drop written).take tw)) (written + tw) := by
  subst htw
  rw [writeLoop, if_pos hw, ensureBlock_assigned hb]

theorem writeLoop_aligned (buf : List UInt8) (off fuel written : Nat) (hfuel : buf.length - written < fuel)
    (hw : written ≤ buf.length) (hal : written < buf.length → (off + written) % u.blockSize = 0)
    (hl : Laid u s n blk lo hi) (hlo : lo ≤ (off + written) / u.blockSize)
    (hhi : ∀ p, p < off + buf.length → p / u.blockSize < hi) :
    ∃ s', writeLoop u n buf off fuel s written = (s', .ok buf.length) ∧
      WroteOnly u s s' blk (off + written) (off + buf.length) ∧
      ∀ p, off + written ≤ p → p < off + buf.length → buf[p - off]? = some (s'.data (posAddr u blk p)) := by
  have hB := u.blockSize_pos
  induction fuel generalizing s written with
  | zero => omega
  | succ fuel ih =>
    by_cases hlt : written < buf.length
    · have hmod := hal hlt
      have hk := hhi (off + written) (by omega)
      obtain ⟨tw, htw⟩ : ∃ tw, min (u.blockSize - (off + written) % u.blockSize) (buf.length - written) = tw := ⟨_, rfl⟩
      rw [writeLoop_round buf off fuel hlt (hl.blocks _ hlo hk) htw, hmod, Nat.add_zero]
      generalize hchunk : (buf.drop written).take tw = chunk
      have hlen : chunk.length = tw := by rw [← hchunk]; simp; omega
      -- the chunk is stored at the addresses of its positions
      have hpos : ∀ i, i < tw → u.addr (blk ((off + written) / u.blockSize)) 0 + i =
        posAddr u blk (off + written + i) := by
        intro i hi
        obtain ⟨hdiv, hm⟩ := same_block (show (off + written) % u.blockSize + i < u.blockSize by omega)
        rw [posAddr, hdiv, hm, hmod, addr_add]
      have hnext : written + tw < buf.length → (off + (written + tw)) % u.blockSize = 0 := by
        intro h
        have htwB : tw = u.blockSize := by omega
        rw [htwB, ← Nat.add_assoc, Nat.add_mod_right, hmod]
      have hle : (off + written) / u.blockSize ≤ (off + (written + tw)) / u.blockSize := Nat.div_le_div_right (by omega)
      have hlaid := hl.memcpy (o := 0) (l := chunk) (fun i hi => hl.offIndirect _ i hlo hk hi) (by omega)
      obtain ⟨s', hrun, ⟨hin, hframe⟩, hwritten⟩ := ih _ (by omega) (by omega) hnext hlaid (Nat.le_trans hlo hle)
      refine ⟨s', hrun, ⟨hin, fun x hx => ?_⟩, fun p hp hp' => ?_⟩
      · rw [hframe x fun p hp hp' => hx p (by omega) hp']
        apply store_off
        intro i hi
        rw [hpos i (by omega)]
        exact hx _ (by omega) (by omega)
      · by_cases hnew : off + (written + tw) ≤ p
        · exact hwritten p hnew hp'
        · obtain ⟨i, rfl⟩ : ∃ i, p = off + written + i := ⟨p - (off + written), by omega⟩
          have hi : i < tw := by omega
          rw [hframe _ fun q hq hq' heq => ?_]
          · rw [← hpos i hi]
            show _ = some (store s.data _ chunk _)
            rw [store_at (by omega)]
            subst hchunk
            simp only [List.getElem_take, List.getElem_drop]
            rw [List.getElem?_eq_getElem (by omega)]
            congr 2
            omega
          · have hdiv : lo ≤ (off + written + i) / u.blockSize := Nat.le_trans hlo (Nat.div_le_div_right (by omega))
            have hdivq : lo ≤ q / u.blockSize := Nat.le_trans hlo (Nat.div_le_div_right (by omega))
            have := hl.posAddr_inj hdiv (hhi _ hp') hdivq (hhi q hq') heq
            omega
    · have heq : written = buf.length := by omega
      subst heq
      exact ⟨s, by rw [writeLoop, if_neg hlt], ⟨rfl, fun _ _ => rfl⟩, fun p hp hp' => by omega⟩

/-! ## A write that is accepted -/

variable (u) in
/-- The path names regular file `n`, and the helpers do what they are for. -/
structure RegularFile (s : FileSystem) (path : String) (n : Nat) (node : Inode) : Prop where
  separate : Separate u s
  notVirtual : u.isVirtualPath path = none
  resolves : u.getInode s path = some n
  inode : s.inodes n = some node
  regular : node.isDirectory = false
  byDirectories : ∀ s', SameDirectories u s s' → u.getInode s' path = u.getInode s path
  minBlockcount : ∀ need s', u.minBlockcount s path need = (s', true) → Extended u s s' n need

def resize (s : FileSystem) (n size : Nat) : FileSystem :=
  setInode s n fun node => { node with size := max node.size size }

theorem wrap_eq {x y : Nat} (hx : x < 2 ^ 63) (hy : y < 2 ^ 63) : wrap (x + y) = x + y := Nat.mod_eq_of_lt (by omega)

variable {path : String} {node : Inode} {off : Nat} {buf : List UInt8}

/-- A write returns after the size check, `minixfs_min_blockcount` and the loop. -/
theorem write_ok_iff (hf : RegularFile u s path n node) (hoff : off < 2 ^ 63) (hlen : buf.length < 2 ^ 63)
    {s' : FileSystem} {r : Nat × Nat} :
    minixfsWrite u s path buf off = (s', .ok r) ↔ off + buf.length ≤ maxFileSize u ∧
      ∃ s1 s2, u.minBlockcount s path (blocksNeeded u (off + buf.length)) = (s1, true) ∧
        writeLoop u n buf off (buf.length + 1) s1 0 = (s2, .ok r.1) ∧ s' = resize s2 n (off + buf.length) ∧
          r.2 = off + r.1 := by
  unfold minixfsWrite
  rw [wrap_eq hoff hlen, Nat.add_comm buf.length off, wrap_eq hoff hlen, hf.resolves]
  obtain ⟨w, o⟩ := r
  by_cases hmax : maxFileSize u < off + buf.length
  · rw [if_pos hmax]
    constructor
    · intro h; cases h
    · intro ⟨h, _⟩; omega
  · rw [if_neg hmax]
    dsimp only
    cases hmin : u.minBlockcount s path (blocksNeeded u (off + buf.length)) with
    | mk s1 ok =>
    cases ok with
    | false =>
      constructor
      · intro h; cases h
      · intro ⟨_, t, t', h, _⟩; cases h
    | true =>
    cases hrun : writeLoop u n buf off (buf.length + 1) s1 0 with
    | mk s2 res =>
    cases res with
    | error e =>
      simp only [hrun]
      constructor
      · intro h; cases h
      · intro ⟨_, t, t', h, hl, _⟩; cases h; rw [hrun] at hl; cases hl
    | ok written =>
      simp only [hrun]
      constructor
      · intro h
        cases h
        exact ⟨by omega, s1, s2, rfl, hrun, rfl, rfl⟩
      · rintro ⟨-, t, t', h, hl, rfl, rfl⟩
        cases h
        rw [hrun] at hl
        cases hl
        rfl

theorem lt_blocksNeeded {p x : Nat} (h : p < x) : p / u.blockSize < blocksNeeded u x := by
  have hB := u.blockSize_pos
  have hx := Nat.div_add_mod x u.blockSize
  have hxm := Nat.mod_lt x hB
  unfold blocksNeeded
  split
  · exact Nat.lt_succ_of_le (Nat.div_le_div_right (Nat.le_of_lt h))
  · rename_i hz
    rw [Nat.add_zero, Nat.div_lt_iff_lt_mul hB, Nat.mul_comm]
    omega

def numbered (u : Utils) (s : FileSystem) (n k : Nat) : Nat := (placed u s n (placeOf k)).getD 0

variable {s1 s2 : FileSystem} {need : Nat}

theorem Extended.numbered (h : Extended u s s1 n need) {k : Nat} (hk : k < need) :
    placed u s1 n (placeOf k) = some (numbered u s1 n k) := by
  obtain ⟨b, hb⟩ := Option.isSome_iff_exists.mp (h.enough k hk)
  rw [Minixfs.numbered, hb, Option.getD_some]

theorem Extended.laid (h : Extended u s s1 n need) : Laid u s1 n (Minixfs.numbered u s1 n) 0 need where
  capacity := h.capacity
  blocks k _ hk := by
    have hcap := h.capacity
    rw [blockOf_eq (by omega), h.numbered hk]
  inj k l _ hk _ hl heq := placeOf_inj (h.once _ _ _ (h.numbered hk) (by rw [h.numbered hl, heq]))
  offIndirect k i _ hk hi heq := placeOf_ne_indirect k (h.once _ _ _ (h.numbered hk) (by rw [hi, heq]))

/-- Blocks of other files are not among those of file `n`. -/
theorem Extended.apart (h : Extended u s s1 n need) (hs : Separate u s) {i b : Nat} {p q : Place} (hi : i ≠ n)
    (hb : placed u s i p = some b) : placed u s1 n q ≠ some b := by
  intro hq
  rcases h.unused q b hq with hold | hfree
  · exact hi (hs _ _ _ _ _ hb hold).1
  · exact hfree i p hb

@[simp] theorem resize_data {s : FileSystem} {k : Nat} : (resize s n k).data = s.data := rfl

theorem resize_other {s : FileSystem} {i k : Nat} (hi : i ≠ n) : (resize s n k).inodes i = s.inodes i :=
  Function.update_of_ne hi ..

theorem resize_self {s : FileSystem} {node : Inode} {k : Nat} (h : s.inodes n = some node) :
    (resize s n k).inodes n = some { node with size := max node.size k } := by
  simp [resize, setInode, h]

theorem placed_resize {s : FileSystem} {k : Nat} (p : Place) : placed u (resize s n k) n p = placed u s n p := by
  have hbind : ∀ {α : Type} (f : Inode → Option α), (∀ node k, f { node with size := k } = f node) →
      ((resize s n k).inodes n).bind f = (s.inodes n).bind f := by
    intro α f hf
    cases hn : s.inodes n with
    | none => simp [resize, setInode, hn]
    | some node => simp [resize_self hn, hf]
  cases p with
  | direct k => simp only [placed]; rw [hbind]; exact fun _ _ => rfl
  | indirect => simp only [placed]; rw [hbind]; exact fun _ _ => rfl
  | entry k => simp only [placed, resize_data]; rw [hbind]; exact fun _ _ => rfl

/-! ## Reading back -/

theorem read_eq {s : FileSystem} {node : Inode} {count : Nat} (hv : u.isVirtualPath path = none)
    (hget : u.getInode s path = some n) (hin : s.inodes n = some node) (hreg : node.isDirectory = false)
    (hcount : 0 < count) (hsize : off + count ≤ node.size) :
    minixfsRead u s path count off =
      (readLoop u s n (count + 1) off count).map fun bytes => (bytes, off + bytes.length) := by
  unfold minixfsRead
  rw [hv, hget]
  simp only [Option.bind_some, hin]
  rw [if_neg (by omega), hreg, if_neg (by simp), show min count (node.size - off) = count by omega]

/-! ## What the aligned write leaves -/

variable {count : Nat}

/-- Every other file is as it was. -/
theorem WroteOnly.others (hw : WroteOnly u s1 s2 (numbered u s1 n) off (off + count))
    (hE : Extended u s s1 n (blocksNeeded u (off + count))) (hs : Separate u s) {i : Nat} (hi : i ≠ n) {k : Nat} :
      SameContents u s (resize s2 n k) i := by
  have hin : (resize s2 n k).inodes i = s.inodes i := by rw [resize_other hi, hw.inodes, hE.others i hi]
  intro node hnode
  refine ⟨node, hin.trans hnode, rfl, rfl, fun x _ => ?_⟩
  apply byteAt_congr hin
  intro p b hb j hj
  rw [resize_data, hw.block (fun q _ hlt heq => ?_) hj]
  · exact hE.bytes i p b j hb (fun h => absurd h hi) hj
  · exact hE.apart hs hi hb (heq ▸ hE.numbered (lt_blocksNeeded hlt))

/-- The file's own bytes at positions not written are as they were. -/
theorem WroteOnly.rest (hw : WroteOnly u s1 s2 (numbered u s1 n) off (off + count))
    (hE : Extended u s s1 n (blocksNeeded u (off + count))) {x k : Nat} {c : UInt8} (hx : x < off ∨ off + count ≤ x)
    (hc : byteAt u s n x = some c) :
    byteAt u (resize s2 n k) n x = some c := by
  obtain ⟨b, hb, rfl⟩ := Option.map_eq_some_iff.mp hc
  have hb1 := hE.kept _ b hb
  unfold byteAt
  rw [placed_resize, hw.placed hE.laid (Nat.zero_le _) fun p hp => lt_blocksNeeded hp, hb1]
  apply congrArg some
  rw [resize_data, ← hE.bytes n _ b _ hb (fun _ => placeOf_ne_indirect _) (Nat.mod_lt x u.blockSize_pos)]
  apply hw.frame
  intro p hp hlt heq
  obtain ⟨hblk, hmod⟩ := block_addr (Nat.mod_lt x u.blockSize_pos) (Nat.mod_lt p u.blockSize_pos) heq
  have hplace := hE.once _ _ b hb1 (hblk ▸ hE.numbered (lt_blocksNeeded hlt))
  have hdiv := placeOf_inj hplace
  have hxp : x = p := by rw [← Nat.div_add_mod x u.blockSize, ← Nat.div_add_mod p u.blockSize, hdiv, hmod]
  omega

/-- The directories are as they were, so the path still names the file. -/
theorem RegularFile.still (hf : RegularFile u s path n node) (hE : Extended u s s1 n need) (hin : s2.inodes = s1.inodes)
    {k : Nat} (hsame : ∀ i, i ≠ n → SameContents u s (resize s2 n k) i) :
    u.getInode (resize s2 n k) path = some n ∧ ∃ node', s1.inodes n = some node' ∧ node'.size = node.size ∧
      node'.isDirectory = false := by
  obtain ⟨node', hnode', hsize, hdir⟩ := hE.node node hf.inode
  refine ⟨?_, node', hnode', hsize, hdir.trans hf.regular⟩
  rw [← hf.resolves]
  apply hf.byDirectories
  refine ⟨fun i => ?_, fun i nodei hi hdiri => hsame i fun h => ?_⟩
  · by_cases hi : i = n
    · subst hi
      rw [resize_self (hin ▸ hnode'), hf.inode]
      simp [hdir]
    · rw [resize_other hi, hin, hE.others i hi]
  · subst h
    rw [hf.inode] at hi
    cases hi
    rw [hf.regular] at hdiri
    cases hdiri

theorem intact_of_aligned (hf : RegularFile u s path n node) (hoff : off < 2 ^ 63) (hlen : buf.length < 2 ^ 63)
    (hal : off % u.blockSize = 0 ∨ buf.length = 0) : Intact u s path n off buf := by
  intro s' off' hrun
  obtain ⟨hmax, s1, s2, hmin, hloop, rfl, ho⟩ := (write_ok_iff hf hoff hlen).mp hrun
  have hE := hf.minBlockcount _ _ hmin
  obtain ⟨s3, hrun3, hw, hwritten⟩ := writeLoop_aligned buf off (buf.length + 1) 0
    (by omega) (Nat.zero_le _) (fun h => by rw [Nat.add_zero]; omega) hE.laid (Nat.zero_le _)
    (fun p hp => lt_blocksNeeded hp)
  obtain rfl : s3 = s2 := by rw [hrun3] at hloop; cases hloop; rfl
  have hin := hw.inodes
  have hothers : ∀ i, i ≠ n → SameContents u s (resize s3 n (off + buf.length)) i := fun i hi =>
    hw.others hE hf.separate hi
  refine ⟨?_, fun _ x c _ _ hx hc => hw.rest hE hx hc, hothers⟩
  obtain ⟨hget, node', hnode', hsize, hreg⟩ := hf.still hE hin hothers
  have hself := resize_self (k := off + buf.length) (show s3.inodes n = some node' by rw [hin]; exact hnode')
  by_cases hzero : buf.length = 0
  · -- nothing was asked for, nothing is read
    obtain rfl := List.eq_nil_of_length_eq_zero hzero
    unfold minixfsRead
    rw [hf.notVirtual, hget]
    simp only [Option.bind_some, hself, hreg]
    split
    · rfl
    · simp [readLoop, Except.map]
  · rw [read_eq hf.notVirtual hget hself hreg (by omega) (Nat.le_max_right _ _),
      readLoop_eq (f := fun p => buf[p - off]?.getD 0) (by omega) fun p hp hlt => ?_]
    · have hbytes : (List.range buf.length).map (fun i => buf[off + i - off]?.getD 0) = buf := by
        refine List.ext_getElem (by simp) fun i h1 h2 => ?_
        simp [h2]
      simp only [Except.map, hbytes]
    · have hcap := hE.capacity
      have hk := lt_blocksNeeded (u := u) hlt
      rw [blockOf_eq (by omega), placed_resize, hw.placed hE.laid (Nat.zero_le _) fun p hp => lt_blocksNeeded hp,
        hE.numbered hk]
      have hb := hwritten p hp hlt
      rw [hb, Option.getD_some]
      rfl

/-! ## Any other offset -/

theorem not_intact_of_unaligned (hf : RegularFile u s path n node) (hoff : off < 2 ^ 63) (hlen : count < 2 ^ 63)
    (hmax : off + count ≤ maxFileSize u) (hmin : u.minBlockcount s path (blocksNeeded u (off + count)) = (s1, true))
    (hmod : off % u.blockSize ≠ 0) (hcount : 0 < count)
    (hind : placed u s1 n .indirect ≠ some (numbered u s1 n (off / u.blockSize) + off % u.blockSize)) :
    ∃ buf : List UInt8, buf.length = count ∧ ¬ Intact u s path n off buf := by
  have hB := u.blockSize_pos
  have hmodlt := Nat.mod_lt off hB
  have hE := hf.minBlockcount _ _ hmin
  -- a first byte that differs from what is there
  let old := s1.data (posAddr u (numbered u s1 n) off)
  obtain ⟨buf, hbuf⟩ : ∃ buf : List UInt8, buf = (old + 1) :: List.replicate (count - 1) 0 := ⟨_, rfl⟩
  have hbl : buf.length = count := by subst hbuf; simp; omega
  refine ⟨buf, hbl, fun hintact => ?_⟩
  obtain ⟨tw, htw⟩ : ∃ tw, min (u.blockSize - (off + 0) % u.blockSize) (buf.length - 0) = tw := ⟨_, rfl⟩
  rw [Nat.add_zero] at htw
  have hk := lt_blocksNeeded (u := u) (show off < off + count by omega)
  have hfirst := writeLoop_round buf off count (show 0 < buf.length by omega)
    (hE.laid.blocks _ (Nat.zero_le _) hk) htw
  have hchunk : ((buf.drop 0).take tw).length = tw := by simp; omega
  have hlaid := hE.laid.memcpy (b := numbered u s1 n (off / u.blockSize) + off % u.blockSize) (o := 0)
    (l := (buf.drop 0).take tw) (fun i hi heq => hind (heq ▸ hi)) (by omega)
  have hnext : 0 + tw < buf.length → (off + (0 + tw)) % u.blockSize = 0 := by
    intro h
    have htwB : 0 + tw = u.blockSize - off % u.blockSize := by omega
    have hsum : off + (0 + tw) = u.blockSize * (off / u.blockSize) + u.blockSize := by
      have := Nat.div_add_mod off u.blockSize
      omega
    rw [hsum, Nat.add_mod_right, Nat.mul_mod_right]
  obtain ⟨s2, hloop, hw, -⟩ := writeLoop_aligned buf off count _ (by omega)
    (by omega) hnext hlaid (Nat.zero_le _) (fun p hp => lt_blocksNeeded (hbl ▸ hp))
  have hrun : minixfsWrite u s path buf off = (resize s2 n (off + buf.length), .ok (buf.length, off + buf.length)) :=
    (write_ok_iff hf hoff (hbl ▸ hlen)).mpr ⟨hbl.symm ▸ hmax, s1, s2, hbl.symm ▸ hmin,
      by rw [hbl]; exact hfirst.trans (hbl ▸ hloop), rfl, rfl⟩
  obtain ⟨hread, -, hothers⟩ := hintact _ _ hrun
  obtain ⟨hget, node', hnode', hsize, hreg⟩ := hf.still hE hw.inodes hothers
  have hself := resize_self (k := off + buf.length) (show s2.inodes n = some node' by rw [hw.inodes]; exact hnode')
  rw [read_eq hf.notVirtual hget hself hreg (by omega) (Nat.le_max_right _ _)] at hread
  -- the byte at `off` is still the old one
  have hkept : s2.data (posAddr u (numbered u s1 n) off) = old := by
    rw [hw.frame _ fun p hp hlt heq => ?_]
    · exact store_block (by omega) (by omega) hmodlt
    · have := hE.laid.posAddr_inj (Nat.zero_le _) hk (Nat.zero_le _) (lt_blocksNeeded (hbl ▸ hlt)) heq
      omega
  have hblock : blockOf u (resize s2 n (off + buf.length)) n (off / u.blockSize) =
      some (numbered u s1 n (off / u.blockSize)) := by
    have hcap := hE.capacity
    rw [blockOf_eq (by omega), placed_resize, hw.placed hlaid (Nat.zero_le _) fun p hp => lt_blocksNeeded (hbl ▸ hp),
      ← blockOf_eq (by omega)]
    exact hlaid.blocks _ (Nat.zero_le _) hk
  cases hl : readLoop u (resize s2 n (off + buf.length)) n (buf.length + 1) off buf.length with
  | error e => rw [hl] at hread; cases hread
  | ok l =>
    rw [hl] at hread
    have hlb : l = buf := congrArg Prod.fst (Except.ok.inj hread)
    have hhead := readLoop_head (by omega) hblock hl
    rw [hlb, hbuf, List.getElem?_cons_zero] at hhead
    have hbad : old + 1 = old := (Option.some.inj hhead).trans hkept
    have := congrArg UInt8.toNat hbad
    simp [UInt8.toNat_add] at this
    omega

/-- A write at a multiple of the block size, or of no bytes, is intact whatever the
    buffer. A write that gets past its checks and whose misplaced first bytes would not
    fall on the file's own indirect block is intact for every buffer only then. -/
theorem write_intact (hf : RegularFile u s path n node) (hoff : off < 2 ^ 63) (hcount : count < 2 ^ 63) :
    (off % u.blockSize = 0 ∨ count = 0 → ∀ buf : List UInt8, buf.length = count → Intact u s path n off buf) ∧
    ∀ s1, off + count ≤ maxFileSize u → u.minBlockcount s path (blocksNeeded u (off + count)) = (s1, true) →
      placed u s1 n .indirect ≠ some (numbered u s1 n (off / u.blockSize) + off % u.blockSize) →
      (∀ buf : List UInt8, buf.length = count → Intact u s path n off buf) → off % u.blockSize = 0 ∨ count = 0 := by
  constructor
  · intro hal buf hbl
    subst hbl
    exact intact_of_aligned hf hoff hcount hal
  · intro s1 hmax hmin hind hall
    by_contra hno
    rw [not_or] at hno
    obtain ⟨buf, hbl, hbad⟩ := not_intact_of_unaligned hf hoff hcount hmax hmin hno.1 (Nat.pos_of_ne_zero hno.2) hind
    exact hbad (hall buf hbl)

/-! ## Two files of two bytes -/

def twoFilesUtils : Utils where
  blockSize := 16384
  blockSize_pos := by decide
  fileNameEntry := 256
  dataNumber := 2
  getInode _ path := if path = "/f" then some 1 else if path = "/g" then some 2 else none
  isVirtualPath _ := none
  minBlockcount s _ need := (s, decide (need ≤ 1))
  addDataBlockToInode s _ := (s, none)
  addSingleIndirectBlock s _ := (s, none)
  addDataBlockToIndirectBlock s _ := (s, none)
  parentDirectory _ _ := none
  firstUnusedInode _ := none
  initInode s _ _ := s
  makeStringFromDirent _ _ := []

def oneBlock (b : Nat) : Inode := ⟨fun k => if k = 0 then some b else none, none, 2, false⟩

/-- "/f" is "ab" in block 0, "/g" is "cd" in block 1. -/
def twoFiles : FileSystem where
  inodes i := if i = 1 then some (oneBlock 0) else if i = 2 then some (oneBlock 1) else none
  data x := if x = 0 then 97 else if x = 1 then 98 else if x = 16384 then 99 else if x = 16385 then 100 else 0
  dataUsed b := decide (b < 2)
  dblockCount := 2

theorem twoFiles_placed {i b : Nat} {p : Place} (h : placed twoFilesUtils twoFiles i p = some b) :
    p = .direct 0 ∧ (i = 1 ∧ b = 0 ∨ i = 2 ∧ b = 1) := by
  cases p with
  | direct k =>
    simp only [placed, twoFiles] at h
    split_ifs at h with hk h1 h2 <;> simp [oneBlock] at h
    · exact ⟨by rw [h.1], Or.inl ⟨h1, h.2.symm⟩⟩
    · exact ⟨by rw [h.1], Or.inr ⟨h2, h.2.symm⟩⟩
  | indirect =>
    simp only [placed, twoFiles] at h
    split_ifs at h <;> simp [oneBlock] at h
  | entry k =>
    simp only [placed, twoFiles] at h
    split_ifs at h <;> simp [oneBlock] at h

theorem twoFiles_regular : RegularFile twoFilesUtils twoFiles "/f" 1 (oneBlock 0) where
  separate i j p q b hi hj := by
    obtain ⟨rfl, hi⟩ := twoFiles_placed hi
    obtain ⟨rfl, hj⟩ := twoFiles_placed hj
    exact ⟨by omega, rfl⟩
  notVirtual := rfl
  resolves := by decide
  inode := rfl
  regular := rfl
  byDirectories _ _ := rfl
  minBlockcount need s' h := by
    obtain ⟨rfl, hneed⟩ := Prod.mk.inj h
    have hneed : need ≤ 1 := by simpa using hneed
    refine ⟨fun _ _ => rfl, fun node hnode => ⟨node, hnode, rfl, rfl⟩, fun _ _ hb => hb, fun _ _ hb => Or.inl hb,
      fun p q b hp hq => ?_, fun _ _ _ _ _ _ _ => rfl, by unfold numDirectBlocks; omega, fun k hk => ?_⟩
    · rw [(twoFiles_placed hp).1, (twoFiles_placed hq).1]
    · obtain rfl : k = 0 := by omega
      decide

/-- "hi" written at offset 0 of "/f"; and at offset 1 not every byte can be written. -/
theorem write_intact_two_files :
    (minixfsWrite twoFilesUtils twoFiles "/f" [104, 105] 0).2 = .ok (2, 2) ∧
    Intact twoFilesUtils twoFiles "/f" 1 0 [104, 105] ∧
    ¬ ∀ buf : List UInt8, buf.length = 1 → Intact twoFilesUtils twoFiles "/f" 1 1 buf := by
  refine ⟨rfl, (write_intact twoFiles_regular (by decide) (show 2 < 2 ^ 63 by decide)).1 (Or.inl rfl) _ rfl,
    fun h => ?_⟩
  have hbad := (write_intact twoFiles_regular (show 1 < 2 ^ 63 by decide) (show 1 < 2 ^ 63 by decide)).2 twoFiles
    (by decide) rfl (by decide) h
  revert hbad
  decide

/-- One byte "x" at offset 1 of "/f" lands at offset 0 of "/g", and reads back as "b". -/
theorem write_hits_the_next_block : RegularFile twoFilesUtils twoFiles "/f" 1 (oneBlock 0) ∧
    (minixfsWrite twoFilesUtils twoFiles "/f" [120] 1).2 = .ok (1, 2) ∧
    byteAt twoFilesUtils (minixfsWrite twoFilesUtils twoFiles "/f" [120] 1).1 2 0 = some 120 ∧
    ¬ Intact twoFilesUtils twoFiles "/f" 1 1 [120] := by
  refine ⟨twoFiles_regular, rfl, by decide, fun h => ?_⟩
  have hread : minixfsRead twoFilesUtils (minixfsWrite twoFilesUtils twoFiles "/f" [120] 1).1 "/f" 1 1 =
    .ok ([98], 2) := rfl
  have hback := hread.symm.trans (h (minixfsWrite twoFilesUtils twoFiles "/f" [120] 1).1 2 rfl).1
  cases hback

end SysProg.Minixfs
