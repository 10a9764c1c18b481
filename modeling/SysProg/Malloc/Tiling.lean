/-
  SysProg.Malloc.Tiling — `free` keeps a heap whose blocks leave no gap.

  In a tiled heap each block ends where the next one's header begins, and the last one
  at the break (`Tiles`). A merge moves the border between two blocks and no other
  (`JoinPrev.tiles`, `JoinNext.tiles`), so the block that takes in the freed one covers
  it and its neighbours, and the list after it tiles the same memory.

  Main result: `free_keeps_tiled`, from every tiled heap and for every allocated block of
  it.
-/

import SysProg.Malloc.Conservation

namespace SysProg.Malloc

open SysProg.Dll (first last)

def Tiles : Nat → List Blk → Nat → Prop
  | lo, [], hi => lo = hi
  | lo, b :: l, hi => b.addr = lo ∧ Tiles b.fin l hi

/-- The blocks of the heap are linked both ways from `head` to `tail`, tile the memory up
    to the break, and no two neighbours are free. -/
structure Tiled (h : Heap) (l : List Blk) : Prop where
  rep : Rep h l
  tiles : ∃ lo, Tiles lo l h.brk
  merged : Merged l

def Blk.extent (b : Blk) : Set Nat := Set.Ico b.addr b.fin

theorem tiles_append {lo hi : Nat} {l m : List Blk} :
    Tiles lo (l ++ m) hi ↔ ∃ mid, Tiles lo l mid ∧ Tiles mid m hi := by
  induction l generalizing lo with
  | nil => simp [Tiles]
  | cons b l ih => simp [Tiles, ih, and_assoc]

/-- The block after the first merge begins no later, ends where the block did, and the
    blocks before it end where it begins. -/
theorem JoinPrev.tiles {lo : Nat} {l k : List Blk} {b b' : Blk} (h : JoinPrev l b k b') (hl : Tiles lo l b.addr) :
    Tiles lo k b'.addr ∧ b'.addr ≤ b.addr ∧ b'.fin = b.fin := by
  cases h with
  | @join k x b _ =>
    rcases tiles_append.mp hl with ⟨mid, hk, hx, hb⟩
    subst hx
    have hb : x.fin = b.addr := hb
    refine ⟨hk, ?_, ?_⟩
    · rw [← hb]
      unfold Blk.fin
      dsimp only
      omega
    · unfold Blk.fin at hb ⊢
      dsimp only
      omega
  | skip _ => exact ⟨hl, Nat.le_refl _, rfl⟩

theorem JoinNext.tiles {hi : Nat} {m n : List Blk} {b b' : Blk} (h : JoinNext b m b' n) (hm : Tiles b.fin m hi) :
    Tiles b'.fin n hi ∧ b'.addr = b.addr ∧ b.fin ≤ b'.fin := by
  cases h with
  | @join y n _ =>
    rcases hm with ⟨hy, hn⟩
    have hfin : Blk.fin ⟨b.addr, b.size + (y.size + headerSize), b.free⟩ = y.fin := by
      unfold Blk.fin at hy ⊢
      dsimp only
      omega
    rw [hfin]
    refine ⟨hn, rfl, ?_⟩
    rw [← hy]
    unfold Blk.fin
    omega
  | skip _ => exact ⟨hm, rfl, Nat.le_refl _⟩

/-- The list after a release tiles the same memory, and a free block of it covers the
    released one. -/
theorem Release.tiles {lo hi : Nat} {l m l' : List Blk} {b : Blk} (h : Release b l m l')
    (ht : Tiles lo (l ++ b :: m) hi) :
    Tiles lo l' hi ∧ ∃ d ∈ l', d.free = true ∧ d.addr ≤ b.addr ∧ b.fin ≤ d.fin := by
  rcases h with ⟨k, b1, b2, n, hprev, hnext, e⟩
  subst e
  rcases tiles_append.mp ht with ⟨mid, hl, hb, hm⟩
  subst hb
  rcases hprev.tiles hl with ⟨hk, haddr, hfin⟩
  have hm : Tiles b1.fin m hi := by
    rw [hfin]
    exact hm
  rcases hnext.tiles hm with ⟨hn, haddr', hfin'⟩
  refine ⟨tiles_append.mpr ⟨b1.addr, hk, haddr', hn⟩, b2, by simp, hnext.sub.2 (hprev.sub.2 rfl), ?_, ?_⟩
  · rw [haddr']
    exact haddr
  · rw [hfin] at hfin'
    exact hfin'

/-- An address lies in no more than one block. -/
theorem Rep.extent_unique {h : Heap} {l : List Blk} (hr : Rep h l) {b c : Blk} (hb : b ∈ l) (hc : c ∈ l) {x : Nat}
    (hxb : x ∈ b.extent) (hxc : x ∈ c.extent) : b = c := by
  by_contra hne
  have haddr : b.addr ≠ c.addr := fun e => hne (List.inj_on_of_nodup_map hr.fits.nodup hb hc e)
  have hapart := hr.apart hb hc haddr
  unfold Blk.extent at hxb hxc
  rw [Set.mem_Ico] at hxb hxc
  omega

/-- After a release the allocated blocks are the others that were allocated. -/
theorem Release.allocated_iff {brk : Nat} {l m l' : List Blk} {b : Blk} (h : Release b l m l')
    (hf : Fits 0 (l ++ b :: m) brk) (c : Blk) :
    c ∈ l' ∧ c.free = false ↔ c ∈ l ++ b :: m ∧ c.free = false ∧ c.addr ≠ b.addr := by
  constructor
  · intro hc
    rcases hc with ⟨hc, hfree⟩
    have hn := hf.nodup
    rw [List.map_append, List.map_cons, List.nodup_append, List.nodup_cons] at hn
    rcases h.allocated hc hfree with hl | hm
    · exact ⟨List.mem_append_left _ hl, hfree, hn.2.2 _ (List.mem_map_of_mem hl) _ List.mem_cons_self⟩
    · refine ⟨List.mem_append_right _ (List.mem_cons_of_mem _ hm), hfree, ?_⟩
      intro e
      exact hn.2.1.1 (e ▸ List.mem_map_of_mem hm)
  · intro hc
    exact ⟨h.keeps hc.1 hc.2.1 hc.2.2, hc.2.1⟩

/-- `free` of a block, whatever it is marked: the heap is tiled again, the other allocated
    blocks are as they were, the bytes of the block, with its payload inside a payload,
    are in one block, which is free, and the blocks with their headers have as many bytes
    as before. -/
theorem free_keeps_tiled {h : Heap} {l : List Blk} (ht : Tiled h l) {b : Blk} (hb : b ∈ l) :
    ∃ h' l', free h (some (b.addr + headerSize)) = some h' ∧ Tiled h' l' ∧
      (∀ c, c ∈ l' ∧ c.free = false ↔ c ∈ l ∧ c.free = false ∧ c.addr ≠ b.addr) ∧
      (∃ d ∈ l', d.free = true ∧ b.extent ⊆ d.extent ∧
        payload h (b.addr + headerSize) ⊆ payload h' (d.addr + headerSize) ∧
        ∀ c ∈ l', ∀ x ∈ b.extent, x ∈ c.extent → c = d) ∧
      total l' = total l ∧ h'.brk = h.brk ∧ h'.tail = l'.getLast?.map Blk.addr := by
  have hrb := ht.rep
  have hpayload := payload_eq hrb hb
  rcases ht.tiles with ⟨lo, htiles⟩
  have hmerged := ht.merged
  rcases List.append_of_mem hb with ⟨s, t, e⟩
  subst e
  rcases free_spec hrb with ⟨h', l', hcall, hr', hbrk, hrel⟩
  rcases hrel.tiles htiles with ⟨htiles', d, hd, hdfree, haddr, hfin⟩
  have hext : b.extent ⊆ d.extent := Set.Ico_subset_Ico haddr hfin
  refine ⟨h', l', hcall, ⟨hr', ⟨lo, by rw [hbrk]; exact htiles'⟩, hmerged.release hrel⟩, hrel.allocated_iff hrb.fits,
    ⟨d, hd, hdfree, hext, ?_, ?_⟩, hrel.total, hbrk, ?_⟩
  · rw [hpayload, payload_eq hr' hd]
    exact Set.Ico_subset_Ico (Nat.add_le_add_right haddr _) hfin
  · intro c hc x hx hxc
    exact hr'.extent_unique hc hd hxc (hext hx)
  · rw [hr'.tail, headers_tail hr'.ne, ← List.getLast?_map, headers_fst, List.getLast?_map]

/-- An allocated block between two free ones, the second of them the last. -/
def between : Heap where
  head := some 64
  tail := some 160
  block
    | 64 => some ⟨16, some 112, none, true⟩
    | 112 => some ⟨16, some 160, some 64, false⟩
    | 160 => some ⟨16, none, some 112, true⟩
    | _ => none
  data := fun _ => 0
  brk := 208
  totalMemoryUse := 144

theorem between_tiled : Tiled between [⟨64, 16, true⟩, ⟨112, 16, false⟩, ⟨160, 16, true⟩] where
  rep := ⟨by simp, rfl, rfl, ⟨rfl, rfl, rfl, trivial⟩, by simp [Fits, Blk.fin, headerSize, between]⟩
  tiles := ⟨64, rfl, rfl, rfl, rfl⟩
  merged := by simp [Merged]

theorem free_keeps_tiled_between : ∃ h' l', free between (some 144) = some h' ∧ Tiled h' l' ∧ total l' = 144 := by
  rcases free_keeps_tiled between_tiled (b := ⟨112, 16, false⟩) (by simp) with ⟨h', l', hfree, ht, -, -, htotal, -⟩
  exact ⟨h', l', hfree, ht, htotal⟩

end SysProg.Malloc
