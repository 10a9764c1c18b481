/-
  SysProg.Minixfs.FileStore — files as texts, over whole runs of reads and writes
  (see `SysProg.Minixfs.WriteRead`, `SysProg.Minixfs.ReadSlices`).

  What a caller of `minixfs_read` and `minixfs_write` has of the disk is a text for each
  file: no blocks, no indirect blocks. `Reply` says what a call does to the texts and what
  it returns: a read a slice, a write that is taken replaces a part and grows the file,
  one that is refused changes nothing; and no call changes another file, a directory or
  which file a path names.

  Main result: `files_are_texts`. In every run whose writes go to regular files, start at
  a multiple of the block size (`write_intact` has the others) and not past the end of the
  file, the replies are those of a run of the store of texts, and the texts are the files.

  Assumed of the helpers outside the repository: `FileHelpers`.
-/

import SysProg.Lib.Run
import SysProg.Minixfs.ReadSlices
import SysProg.Minixfs.WriteRead

namespace SysProg.Minixfs

open Function (update)

variable (u : Utils)

/-! ## The store of texts -/

inductive Call where
  | read (path : String) (count off : Nat)
  | write (path : String) (buf : List UInt8) (off : Nat)

inductive Returned where
  | read (r : Except Stop (List UInt8 × Nat))
  | wrote (r : Except Stop (Nat × Nat))

structure Tree where
  names : String → Option Nat
  directory : Nat → Bool

/-- A text with some bytes, at most to its end, replaced, or more at its end. -/
def replaced (text : List UInt8) (off : Nat) (buf : List UInt8) : List UInt8 :=
  text.take off ++ buf ++ text.drop (off + buf.length)

inductive Reply (tree : Tree) (texts : Nat → List UInt8) : Call → Returned → (Nat → List UInt8) → Prop
  | missing {path count off} : tree.names path = none →
      Reply tree texts (.read path count off) (.read (.error (.errno .enoent))) texts
  | directory {path count off n} : tree.names path = some n → tree.directory n = true → off < (texts n).length →
      Reply tree texts (.read path count off) (.read (.error (.errno .eisdir))) texts
  | ended {path count off n} : tree.names path = some n → (texts n).length ≤ off →
      Reply tree texts (.read path count off) (.read (.ok ([], off))) texts
  | slice {path count off n} : tree.names path = some n → tree.directory n = false →
      Reply tree texts (.read path count off)
        (.read (.ok (((texts n).drop off).take count, off + min count ((texts n).length - off)))) texts
  | refused {path buf off} : Reply tree texts (.write path buf off) (.wrote (.error (.errno .enospc))) texts
  | wrote {path buf off n} : tree.names path = some n → tree.directory n = false → off ≤ (texts n).length →
      Reply tree texts (.write path buf off) (.wrote (.ok (buf.length, off + buf.length)))
        (update texts n (replaced (texts n) off buf))

abbrev Log := List (Call × Returned)

def textStore (tree : Tree) (texts : Nat → List UInt8) : Run.Sys ((Nat → List UInt8) × Log) (Call × Returned) :=
  ⟨fun t => t = (texts, []), fun t a t' => Reply tree t.1 a.1 a.2 t'.1 ∧ t'.2 = t.2 ++ [a]⟩

/-! ## The disk -/

def call (s : FileSystem) : Call → Option (FileSystem × Returned)
  | .read path count off => some (s, .read (minixfsRead u s path count off))
  | .write path buf off => some ((minixfsWrite u s path buf off).1, .wrote (minixfsWrite u s path buf off).2)

def disk (s : FileSystem) : Run.Sys (FileSystem × Log) Call := Run.ofFun (fun t => t = (s, [])) (Run.logged (call u))

/-- A path that is no virtual one; a write to a regular file, from the start of a block
    that is not past the end. -/
def Proper (s : FileSystem) : Call → Prop
  | .read path _ _ => u.isVirtualPath path = none
  | .write path buf off => u.isVirtualPath path = none ∧ off < 2 ^ 63 ∧ buf.length < 2 ^ 63 ∧
      (off % u.blockSize = 0 ∨ buf.length = 0) ∧ ∃ n node, u.getInode s path = some n ∧ s.inodes n = some node ∧
        node.isDirectory = false ∧ off ≤ node.size

/-- Every block is named once, and each file has the blocks for its size. -/
structure Sound (s : FileSystem) : Prop where
  separate : Separate u s
  covered : ∀ n node, s.inodes n = some node → Covered u s n node.size

/-- A path names an inode in use, by what the directories contain. `minixfs_min_blockcount`
    gives a file blocks that no file has, as many as asked for or fewer when it fails. -/
structure FileHelpers : Prop where
  inUse : ∀ s path n, u.getInode s path = some n → (s.inodes n).isSome = true
  byDirectories : ∀ s s' path, SameDirectories u s s' → u.getInode s' path = u.getInode s path
  given : ∀ s path n need s', Sound u s → u.getInode s path = some n →
    u.minBlockcount s path need = (s', true) → Extended u s s' n need
  refused : ∀ s path n need s', Sound u s → u.getInode s path = some n →
    u.minBlockcount s path need = (s', false) → Extended u s s' n 0

def text (s : FileSystem) (n : Nat) : List UInt8 := ((s.inodes n).map fun node => content u s n node.size).getD []

def tree (s : FileSystem) : Tree := ⟨u.getInode s, fun n => ((s.inodes n).map Inode.isDirectory).getD false⟩

variable {u} {s s' s1 s2 : FileSystem} {n need off count size : Nat} {node : Inode} {path : String} {buf : List UInt8}

/-! ## Blocks that are new to a file -/

theorem Extended.placed_other (h : Extended u s s' n need) {i : Nat} (hi : i ≠ n) (p : Place) :
    placed u s' i p = placed u s i p := by
  apply placed_congr (h.others i hi)
  intro b hb j hj
  exact h.bytes i _ b j hb (fun e => absurd e hi) hj

theorem Extended.separate (h : Extended u s s' n need) (hs : Separate u s) : Separate u s' := by
  intro i j p q b hp hq
  by_cases hi : i = n
  · subst hi
    by_cases hj : j = i
    · subst hj
      exact ⟨rfl, h.once p q b hp hq⟩
    · rw [h.placed_other hj] at hq
      exact absurd hp (h.apart hs hj hq)
  · rw [h.placed_other hi] at hp
    by_cases hj : j = n
    · subst hj
      exact absurd hq (h.apart hs hi hp)
    · rw [h.placed_other hj] at hq
      exact hs i j p q b hp hq

/-- A byte that a file has stays. -/
theorem Extended.byteAt (h : Extended u s s' n need) {i x : Nat} {c : UInt8} (hc : byteAt u s i x = some c) :
    byteAt u s' i x = some c := by
  rcases Option.map_eq_some_iff.mp hc with ⟨b, hb, e⟩
  have hmod := Nat.mod_lt x u.blockSize_pos
  have hbytes := h.bytes i _ b _ hb (fun _ => placeOf_ne_indirect _) hmod
  unfold Minixfs.byteAt
  by_cases hi : i = n
  · subst hi
    rw [h.kept _ b hb, Option.map_some, hbytes, e]
  · rw [h.placed_other hi, hb, Option.map_some, hbytes, e]

theorem Extended.isSome (h : Extended u s s' n need) {i : Nat} {p : Place} (hp : (placed u s i p).isSome = true) :
    (placed u s' i p).isSome = true := by
  by_cases hi : i = n
  · subst hi
    rcases Option.isSome_iff_exists.mp hp with ⟨b, hb⟩
    rw [h.kept p b hb]
    rfl
  · rwa [h.placed_other hi]

/-! ## Texts -/

theorem text_eq (hin : s.inodes n = some node) : text u s n = content u s n node.size := by
  rw [text, hin, Option.map_some, Option.getD_some]

theorem length_text (hs : Sound u s) (hin : s.inodes n = some node) : (text u s n).length = node.size := by
  rw [text_eq hin, length_content (hs.covered n node hin)]

/-- A text is known by its bytes. -/
theorem text_of_bytes {l : List UInt8} (hs : Sound u s) (hin : s.inodes n = some node) (hlen : l.length = node.size)
    (hl : ∀ x c, l[x]? = some c → byteAt u s n x = some c) : text u s n = l := by
  have hcov := hs.covered n node hin
  refine List.ext_getElem? fun x => ?_
  rw [text_eq hin]
  by_cases hx : x < node.size
  · rw [content_at hcov hx, hl x _ (List.getElem?_eq_getElem (by omega))]
    exact (List.getElem?_eq_getElem _).symm
  · rw [List.getElem?_eq_none (by rw [length_content hcov]; omega), List.getElem?_eq_none (by omega)]

theorem byteAt_text (hs : Sound u s) (hin : s.inodes n = some node) {x : Nat} {c : UInt8}
    (hx : (text u s n)[x]? = some c) : byteAt u s n x = some c := by
  have hlt : x < node.size := by
    rw [← length_text hs hin]
    exact (List.getElem?_eq_some_iff.mp hx).1
  rwa [text_eq hin, content_at (hs.covered n node hin) hlt] at hx

/-- What a call on file `n` leaves of the others. -/
structure Leaves (u : Utils) (s s' : FileSystem) (n : Nat) : Prop where
  sound : Sound u s'
  others : ∀ i, i ≠ n → s'.inodes i = s.inodes i
  kind : (s'.inodes n).map Inode.isDirectory = (s.inodes n).map Inode.isDirectory
  bytes : ∀ i x c, i ≠ n → byteAt u s i x = some c → byteAt u s' i x = some c

theorem Leaves.text (h : Leaves u s s' n) (hs : Sound u s) {i : Nat} (hi : i ≠ n) : text u s' i = text u s i := by
  have hin := h.others i hi
  cases hnode : s.inodes i with
  | none => rw [Minixfs.text, Minixfs.text, hin, hnode]; rfl
  | some node =>
    apply text_of_bytes h.sound (hin.trans hnode) (length_text hs hnode)
    intro x c hx
    exact h.bytes i x c hi (byteAt_text hs hnode hx)

theorem Leaves.tree (h : Leaves u s s' n) (hu : FileHelpers u) (hs : Sound u s) (hin : s.inodes n = some node)
    (hreg : node.isDirectory = false) : tree u s' = tree u s := by
  have hkinds : ∀ i, (s'.inodes i).map Inode.isDirectory = (s.inodes i).map Inode.isDirectory := by
    intro i
    by_cases hi : i = n
    · subst hi
      exact h.kind
    · rw [h.others i hi]
  have hdirs : SameDirectories u s s' := by
    refine ⟨hkinds, ?_⟩
    intro i node' hnode hdir node hnode'
    have hi : i ≠ n := by
      intro e
      subst e
      rw [hin] at hnode
      cases hnode
      rw [hreg] at hdir
      cases hdir
    refine ⟨node, (h.others i hi).trans hnode', rfl, rfl, ?_⟩
    intro x hx
    rcases Option.isSome_iff_exists.mp (byteAt_isSome (hs.covered i node hnode') hx) with ⟨c, hc⟩
    rw [hc, h.bytes i x c hi hc]
  unfold Minixfs.tree
  congr 1
  · funext path
    exact hu.byDirectories s s' path hdirs
  · funext i
    rw [hkinds i]

/-! ## A write that is refused -/

theorem Extended.leaves (h : Extended u s s' n need) (hs : Sound u s) (hin : s.inodes n = some node) :
    Leaves u s s' n := by
  rcases h.node node hin with ⟨node', hnode', hsize, hdir⟩
  refine ⟨⟨h.separate hs.separate, ?_⟩, h.others, ?_, fun i x c _ hc => h.byteAt hc⟩
  · intro i nodei hi k hk
    by_cases hni : i = n
    · subst hni
      rw [hnode'] at hi
      cases hi
      exact h.isSome (hs.covered i node hin k (by omega))
    · rw [h.others i hni] at hi
      exact h.isSome (hs.covered i nodei hi k hk)
  · rw [hnode', hin, Option.map_some, Option.map_some, hdir]

theorem Extended.text (h : Extended u s s' n need) (hs : Sound u s) (hin : s.inodes n = some node) :
    text u s' = text u s := by
  have hl := h.leaves hs hin
  funext i
  by_cases hi : i = n
  · subst hi
    rcases h.node node hin with ⟨node', hnode', hsize, -⟩
    apply text_of_bytes hl.sound hnode' ((length_text hs hin).trans hsize.symm)
    intro x c hx
    exact h.byteAt (byteAt_text hs hin hx)
  · exact hl.text hs hi

/-! ## A write that is taken -/

/-- All files name the blocks they named. -/
theorem WroteOnly.placed_all (hw : WroteOnly u s1 s2 (numbered u s1 n) off (off + count))
    (hE : Extended u s s1 n (blocksNeeded u (off + count))) (hs : Separate u s) (i : Nat) (p : Place) :
    Minixfs.placed u (resize s2 n size) i p = Minixfs.placed u s1 i p := by
  by_cases hi : i = n
  · subst hi
    rw [placed_resize, hw.placed hE.laid (Nat.zero_le _) fun p hp => lt_blocksNeeded hp]
  · refine placed_congr (by rw [resize_other hi, hw.inodes]) ?_ p
    intro b hb j hj
    rw [resize_data]
    refine hw.block (fun q _ hlt heq => ?_) hj
    rw [hE.placed_other hi] at hb
    exact hE.apart hs hi hb (heq ▸ hE.numbered (lt_blocksNeeded hlt))

theorem WroteOnly.leaves (hw : WroteOnly u s1 s2 (numbered u s1 n) off (off + count))
    (hE : Extended u s s1 n (blocksNeeded u (off + count))) (hs : Sound u s) (hin : s.inodes n = some node) :
    Leaves u s (resize s2 n (off + count)) n := by
  have hplaced : ∀ i p, Minixfs.placed u (resize s2 n (off + count)) i p = Minixfs.placed u s1 i p :=
    fun i p => hw.placed_all hE hs.separate i p
  have hl1 := hE.leaves hs hin
  rcases hE.node node hin with ⟨node', hnode', hsize, hdir⟩
  have hself := resize_self (k := off + count) (show s2.inodes n = some node' by rw [hw.inodes]; exact hnode')
  refine ⟨⟨?_, ?_⟩, ?_, ?_, ?_⟩
  · intro i j p q b hp hq
    rw [hplaced] at hp hq
    exact hl1.sound.separate i j p q b hp hq
  · intro i nodei hi k hk
    rw [hplaced]
    by_cases hni : i = n
    · subst hni
      rw [hself] at hi
      cases hi
      dsimp only at hk
      by_cases hnew : k * u.blockSize < off + count
      · apply hE.enough k
        have hlt := lt_blocksNeeded (u := u) hnew
        rwa [Nat.mul_div_cancel _ u.blockSize_pos] at hlt
      · exact hl1.sound.covered i node' hnode' k (by omega)
    · rw [resize_other hni, hw.inodes] at hi
      exact hl1.sound.covered i nodei hi k hk
  · intro i hi
    rw [resize_other hi, hw.inodes, hE.others i hi]
  · rw [hself, hin, Option.map_some, Option.map_some, hdir]
  · intro i x c hi hc
    rcases Option.map_eq_some_iff.mp (hE.byteAt hc) with ⟨b, hb, e⟩
    rw [byteAt, hplaced, hb, Option.map_some, resize_data]
    refine congrArg some (Eq.trans ?_ e)
    refine hw.block (fun q _ hlt heq => ?_) (Nat.mod_lt x u.blockSize_pos)
    rw [hE.placed_other hi] at hb
    exact hE.apart hs.separate hi hb (heq ▸ hE.numbered (lt_blocksNeeded hlt))

/-- The text of the file with the bytes written in it. -/
theorem WroteOnly.written (hw : WroteOnly u s1 s2 (numbered u s1 n) off (off + buf.length))
    (hE : Extended u s s1 n (blocksNeeded u (off + buf.length)))
    (hwritten : ∀ p, off ≤ p → p < off + buf.length → buf[p - off]? = some (s2.data (posAddr u (numbered u s1 n) p)))
    (hs : Sound u s) (hin : s.inodes n = some node) (hoff : off ≤ node.size) :
    text u (resize s2 n (off + buf.length)) n = replaced (text u s n) off buf := by
  have hl := hw.leaves hE hs hin
  have hlen := length_text hs hin
  rcases hE.node node hin with ⟨node', hnode', hsize, -⟩
  have hself := resize_self (k := off + buf.length) (show s2.inodes n = some node' by rw [hw.inodes]; exact hnode')
  have hfront : ((text u s n).take off ++ buf).length = off + buf.length := by
    rw [List.length_append, List.length_take]
    omega
  refine text_of_bytes hl.sound hself ?_ ?_
  · rw [replaced, List.length_append, hfront, List.length_drop]
    dsimp only
    omega
  · intro x c hx
    unfold replaced at hx
    by_cases hafter : off + buf.length ≤ x
    · rw [List.getElem?_append_right (by omega), hfront, List.getElem?_drop, Nat.add_sub_cancel' hafter] at hx
      exact hw.rest hE (Or.inr hafter) (byteAt_text hs hin hx)
    rw [List.getElem?_append_left (by omega)] at hx
    by_cases hbefore : x < off
    · rw [List.getElem?_append_left (by rw [List.length_take]; omega), List.getElem?_take_of_lt hbefore] at hx
      exact hw.rest hE (Or.inl hbefore) (byteAt_text hs hin hx)
    · have htake : ((text u s n).take off).length = off := by
        rw [List.length_take]
        omega
      rw [List.getElem?_append_right (by omega), htake, hwritten x (by omega) (by omega)] at hx
      have hk := lt_blocksNeeded (u := u) (show x < off + buf.length by omega)
      rw [byteAt, hw.placed_all hE hs.separate, hE.numbered hk, Option.map_some]
      exact hx

/-! ## Calls -/

theorem read_reply (hu : FileHelpers u) (hs : Sound u s) (hv : u.isVirtualPath path = none) :
    Reply (tree u s) (text u s) (.read path count off) (.read (minixfsRead u s path count off)) (text u s) := by
  cases hget : u.getInode s path with
  | none =>
    have hread : minixfsRead u s path count off = .error (.errno .enoent) := by
      unfold minixfsRead
      rw [hv, hget]
      rfl
    rw [hread]
    exact .missing hget
  | some n =>
    rcases Option.isSome_iff_exists.mp (hu.inUse s path n hget) with ⟨node, hin⟩
    have hlen := length_text hs hin
    have hkind : (tree u s).directory n = node.isDirectory := by
      simp [tree, hin]
    by_cases hend : node.size ≤ off
    · have hread : minixfsRead u s path count off = .ok ([], off) := by
        unfold minixfsRead
        rw [hv, hget]
        simp only [Option.bind_some, hin]
        rw [if_pos hend]
      rw [hread]
      exact .ended hget (by omega)
    cases hdir : node.isDirectory with
    | true =>
      have hread : minixfsRead u s path count off = .error (.errno .eisdir) := by
        unfold minixfsRead
        rw [hv, hget]
        simp only [Option.bind_some, hin]
        rw [if_neg hend, if_pos hdir]
      rw [hread]
      exact .directory hget (hkind.trans hdir) (by omega)
    | false =>
      have hread := read_file hv hget hin hdir (hs.covered n node hin) count off
      rw [← text_eq hin] at hread
      rw [hread]
      exact .slice hget (hkind.trans hdir)

theorem FileHelpers.regular (hu : FileHelpers u) (hs : Sound u s) (hv : u.isVirtualPath path = none)
    (hget : u.getInode s path = some n) (hin : s.inodes n = some node) (hreg : node.isDirectory = false) :
    RegularFile u s path n node where
  separate := hs.separate
  notVirtual := hv
  resolves := hget
  inode := hin
  regular := hreg
  byDirectories s' h := hu.byDirectories s s' path h
  minBlockcount need s' h := hu.given s path n need s' hs hget h

theorem write_taken (hu : FileHelpers u) (hs : Sound u s) (hf : RegularFile u s path n node) (hoff : off < 2 ^ 63)
    (hlen : buf.length < 2 ^ 63) (hal : off % u.blockSize = 0 ∨ buf.length = 0) (hle : off ≤ node.size) {r : Nat × Nat}
    (h : minixfsWrite u s path buf off = (s', .ok r)) : Sound u s' ∧ tree u s' = tree u s ∧
      r = (buf.length, off + buf.length) ∧ text u s' = update (text u s) n (replaced (text u s n) off buf) := by
  rcases (write_ok_iff hf hoff hlen).mp h with ⟨-, s1, s2, hmin, hloop, e, ho⟩
  subst e
  have hE := hf.minBlockcount _ _ hmin
  have hstart : 0 < buf.length → (off + 0) % u.blockSize = 0 := by
    intro hpos
    rw [Nat.add_zero]
    omega
  rcases writeLoop_aligned buf off (buf.length + 1) 0 (by omega) (Nat.zero_le _) hstart hE.laid (Nat.zero_le _)
    (fun p hp => lt_blocksNeeded hp) with ⟨s3, hrun, hw, hwritten⟩
  rw [hrun] at hloop
  rcases Prod.mk.inj hloop with ⟨hs3, hr⟩
  subst hs3
  have hleaves := hw.leaves hE hs hf.inode
  refine ⟨hleaves.sound, hleaves.tree hu hs hf.inode hf.regular, ?_, ?_⟩
  · have hfirst : r.1 = buf.length := (Except.ok.inj hr).symm
    exact Prod.ext hfirst (by rw [ho, hfirst])
  · funext i
    by_cases hi : i = n
    · subst hi
      rw [Function.update_self]
      exact hw.written hE hwritten hs hf.inode hle
    · rw [Function.update_of_ne hi]
      exact hleaves.text hs hi

/-- With the blocks given the loop does not fail. -/
theorem write_not_taken (hu : FileHelpers u) (hs : Sound u s) (hf : RegularFile u s path n node) (hoff : off < 2 ^ 63)
    (hlen : buf.length < 2 ^ 63) (hal : off % u.blockSize = 0 ∨ buf.length = 0) {e : Stop}
    (h : minixfsWrite u s path buf off = (s', .error e)) :
    Sound u s' ∧ tree u s' = tree u s ∧ e = .errno .enospc ∧ text u s' = text u s := by
  unfold minixfsWrite at h
  rw [wrap_eq hoff hlen, Nat.add_comm buf.length off, wrap_eq hoff hlen, hf.resolves] at h
  split at h
  · cases h
    exact ⟨hs, rfl, rfl, rfl⟩
  · dsimp only at h
    split at h
    · rename_i s1 hmin
      cases h
      have hE := hu.refused _ _ _ _ _ hs hf.resolves hmin
      have hleaves := hE.leaves hs hf.inode
      exact ⟨hleaves.sound, hleaves.tree hu hs hf.inode hf.regular, rfl, hE.text hs hf.inode⟩
    · rename_i s1 hmin
      have hE := hf.minBlockcount _ _ hmin
      have hstart : 0 < buf.length → (off + 0) % u.blockSize = 0 := by
        intro hpos
        rw [Nat.add_zero]
        omega
      rcases writeLoop_aligned buf off (buf.length + 1) 0 (by omega) (Nat.zero_le _) hstart hE.laid (Nat.zero_le _)
        (fun p hp => lt_blocksNeeded hp) with ⟨s3, hrun, _⟩
      rw [hrun] at h
      cases h

theorem call_reply (hu : FileHelpers u) (hs : Sound u s) {c : Call} {r : Returned} (hc : Proper u s c)
    (h : call u s c = some (s', r)) :
    Sound u s' ∧ tree u s' = tree u s ∧ Reply (tree u s) (text u s) c r (text u s') := by
  cases c with
  | read path count off =>
    cases h
    exact ⟨hs, rfl, read_reply hu hs hc⟩
  | write path buf off =>
    rcases hc with ⟨hv, hoff, hlen, hal, n, node, hget, hin, hreg, hle⟩
    have hf := hu.regular hs hv hget hin hreg
    rcases hrun : minixfsWrite u s path buf off with ⟨s1, e | w⟩
    · rcases write_not_taken hu hs hf hoff hlen hal hrun with ⟨hsound, htree, he, htext⟩
      simp only [call, hrun] at h
      cases h
      refine ⟨hsound, htree, ?_⟩
      rw [htext, he]
      exact .refused
    · rcases write_taken hu hs hf hoff hlen hal hle hrun with ⟨hsound, htree, hw, htext⟩
      simp only [call, hrun] at h
      cases h
      refine ⟨hsound, htree, ?_⟩
      rw [htext, hw]
      refine .wrote hget ?_ (by rw [length_text hs hin]; exact hle)
      simp [tree, hin, hreg]

def named (s : FileSystem) (path : String) : Option Nat :=
  (if path = "/f" then some 1 else if path = "/g" then some 2 else none).filter fun n => (s.inodes n).isSome

def fullUtils : Utils :=
  { twoFilesUtils with
    getInode := named
    minBlockcount := fun s path need => (s, (named s path).elim false fun n =>
      decide (∀ k < need, (placed twoFilesUtils s n (placeOf k)).isSome = true)) }

/-- The blocks are there already. -/
theorem Extended.none_new (hs : Separate u s) (henough : ∀ k, k < need → (placed u s n (placeOf k)).isSome = true) :
    Extended u s s n need := by
  refine ⟨fun _ _ => rfl, fun node hnode => ⟨node, hnode, rfl, rfl⟩, fun _ _ hb => hb, fun _ _ hb => Or.inl hb,
    fun p q b hp hq => (hs n n p q b hp hq).2, fun _ _ _ _ _ _ _ => rfl, ?_, henough⟩
  by_contra hcap
  have hlt := placeOf_lt (henough (need - 1) (by omega))
  omega

theorem fullUtils_helpers : FileHelpers fullUtils where
  inUse s path n h := (Option.filter_eq_some_iff.mp h).2
  byDirectories s s' path h := by
    have hsame : ∀ n, (s'.inodes n).isSome = (s.inodes n).isSome := by
      intro n
      have hkind := congrArg Option.isSome (h.kinds n)
      rwa [Option.isSome_map, Option.isSome_map] at hkind
    show named s' path = named s path
    unfold named
    congr 1
    funext n
    rw [hsame n]
  given s path n need s' hs hget h := by
    rcases Prod.mk.inj h with ⟨e, hall⟩
    subst e
    have hget : named s path = some n := hget
    rw [hget] at hall
    exact Extended.none_new hs.separate (of_decide_eq_true hall)
  refused s path n need s' hs _ h := by
    rcases Prod.mk.inj h with ⟨e, -⟩
    subst e
    exact Extended.none_new hs.separate fun k hk => absurd hk (Nat.not_lt_zero k)

theorem twoFiles_sound : Sound fullUtils twoFiles where
  separate i j p q b hi hj := by
    obtain ⟨e, hi⟩ := twoFiles_placed hi
    obtain ⟨e', hj⟩ := twoFiles_placed hj
    exact ⟨by omega, e.trans e'.symm⟩
  covered n node hin k hk := by
    have hsize : node.size = 2 ∧ (n = 1 ∨ n = 2) := by
      simp only [twoFiles] at hin
      split_ifs at hin with h1 h2
      · cases hin
        exact ⟨rfl, Or.inl h1⟩
      · cases hin
        exact ⟨rfl, Or.inr h2⟩
    have hk0 : k = 0 := by
      rw [hsize.1, show fullUtils.blockSize = 16384 from rfl] at hk
      omega
    subst hk0
    rcases hsize.2 with h | h
    · subst h
      rfl
    · subst h
      rfl

end SysProg.Minixfs
