/-
  SysProg.Malloc.Blocks — the heap as a list of blocks.

  `Rep h l` says that the heap `h` is the list of blocks `l`: `head` and `tail` are its
  ends, the links of the headers agree both ways, and the blocks lie below the break in
  the order of the list, each ending before the next one's header (`Fits`; a near fit
  leaves a gap). Each edit of the allocator keeps the representation: a block set in
  place (`Rep.set`), a block added at the end (`Rep.snoc`), a block absorbed by its
  predecessor (`Rep.absorb`).

  On the list, a request is served in one of three ways or fails (`Serve`), and a freed
  block takes in its free neighbours (`Release`); the calls do just that to the list of
  the heap (`malloc_spec`, `free_spec`).
-/

import Mathlib.Data.List.Nodup
import SysProg.Lib.Dll
import SysProg.Malloc.Alloc

namespace SysProg.Malloc

open Function (update)
open SysProg.Dll (Seg first last first_append last_append last_mem seg_append)

structure Blk where
  addr : Nat
  size : Nat
  free : Bool

def node (b : Blk) (next prev : Option Nat) : Metadata := ⟨b.size, next, prev, b.free⟩

def Blk.fin (b : Blk) : Nat := b.addr + headerSize + b.size

def Fits : Nat → List Blk → Nat → Prop
  | lo, [], hi => lo ≤ hi
  | lo, b :: l, hi => lo ≤ b.addr ∧ Fits b.fin l hi

theorem fits_append {lo hi : Nat} {l m : List Blk} : Fits lo (l ++ m) hi ↔ ∃ mid, Fits lo l mid ∧ Fits mid m hi := by
  induction l generalizing lo with
  | nil =>
    constructor
    · intro h
      exact ⟨lo, Nat.le_refl lo, h⟩
    · intro h
      rcases h with ⟨mid, hmid, h⟩
      cases m with
      | nil => exact Nat.le_trans hmid h
      | cons b m => exact ⟨Nat.le_trans hmid h.1, h.2⟩
  | cons b l ih => simp [Fits, ih, and_assoc]

theorem Fits.le {lo hi : Nat} {l : List Blk} (h : Fits lo l hi) : lo ≤ hi := by
  induction l generalizing lo with
  | nil => exact h
  | cons b l ih =>
    have hfin := ih h.2
    unfold Blk.fin at hfin
    have hb := h.1
    omega

theorem Fits.mono {lo lo' hi : Nat} {l : List Blk} (h : Fits lo l hi) (hlo : lo' ≤ lo) : Fits lo' l hi := by
  cases l with
  | nil => exact Nat.le_trans hlo h
  | cons b l => exact ⟨Nat.le_trans hlo h.1, h.2⟩

theorem Fits.bounds {lo hi : Nat} {l : List Blk} (h : Fits lo l hi) : ∀ b ∈ l, lo ≤ b.addr ∧ b.fin ≤ hi := by
  intro b hb
  rcases List.append_of_mem hb with ⟨s, t, e⟩
  subst e
  rcases fits_append.mp h with ⟨mid, hs, hb⟩
  exact ⟨Nat.le_trans hs.le hb.1, hb.2.le⟩

/-- Of two blocks one ends before the other's header. -/
theorem Fits.pairwise {lo hi : Nat} {l : List Blk} (h : Fits lo l hi) : l.Pairwise fun b c => b.fin ≤ c.addr := by
  induction l generalizing lo with
  | nil => exact List.Pairwise.nil
  | cons b l ih =>
    unfold Fits at h
    exact List.Pairwise.cons (fun c hc => (h.2.bounds c hc).1) (ih h.2)

theorem Fits.nodup {lo hi : Nat} {l : List Blk} (h : Fits lo l hi) : (l.map Blk.addr).Nodup := by
  unfold List.Nodup
  rw [List.pairwise_map]
  apply h.pairwise.imp
  intro b c hbc e
  unfold Blk.fin headerSize at hbc
  omega

theorem Fits.length {lo hi : Nat} {l : List Blk} (h : Fits lo l hi) : lo + l.length ≤ hi := by
  induction l generalizing lo with
  | nil => exact h
  | cons b l ih =>
    have hl := ih h.2
    have hb := h.1
    unfold Blk.fin headerSize at hl
    rw [List.length_cons]
    omega

structure Rep (h : Heap) (l : List Blk) : Prop where
  ne : l ≠ []
  head : h.head = first Blk.addr l none
  tail : h.tail = last Blk.addr none l
  seg : Seg Blk.addr node h.block none l none
  fits : Fits 0 l h.brk

theorem Rep.block_at {h : Heap} {l m : List Blk} {b : Blk} (hr : Rep h (l ++ b :: m)) :
    h.block b.addr = some (node b (first Blk.addr m none) (last Blk.addr none l)) := hr.seg.node_at

/-- A block in place. -/
theorem Rep.set {h : Heap} {l m : List Blk} {b : Blk} (hr : Rep h (l ++ b :: m)) (b' : Blk) (ha : b'.addr = b.addr)
    (hs : b'.size ≤ b.size) :
    Rep (h.set b.addr (node b' (first Blk.addr m none) (last Blk.addr none l))) (l ++ b' :: m) where
  ne := by simp
  head := by
    rw [first_append]
    exact hr.head.trans (first_append.trans (by simp only [first, ha]))
  tail := by
    rw [last_append]
    exact hr.tail.trans (last_append.trans (by simp only [last, ha]))
  seg := hr.seg.set hr.fits.nodup ha
  fits := by
    rcases fits_append.mp hr.fits with ⟨mid, hl, hb⟩
    refine fits_append.mpr ⟨mid, hl, ha ▸ hb.1, hb.2.mono ?_⟩
    unfold Blk.fin
    omega

/-- A block added at the end, after the tail `b` has shrunk. -/
theorem Rep.snoc {h h' : Heap} {l : List Blk} {b c : Blk} (hr : Rep h (l ++ [b])) (b' : Blk) (ha : b'.addr = b.addr)
    (hb : b'.fin ≤ c.addr) (hc : c.fin ≤ h'.brk) (hhead : h'.head = h.head) (htail : h'.tail = some c.addr)
    (hblock : h'.block = update (update h.block c.addr (some (node c none (some b.addr)))) b.addr
      (some (node b' (some c.addr) (last Blk.addr none l)))) : Rep h' (l ++ [b', c]) := by
  rcases fits_append.mp hr.fits with ⟨mid, hl, hm, -⟩
  have hfits : Fits 0 (l ++ [b', c]) h'.brk := fits_append.mpr ⟨mid, hl, ha ▸ hm, hb, hc⟩
  refine ⟨by simp, ?_, ?_, ?_, hfits⟩
  · rw [hhead, hr.head, first_append, first_append]
    simp only [first, ha]
  · rw [htail, last_append]
    rfl
  · rw [hblock]
    refine hr.seg.snoc ?_ ha
    have hn := hfits.nodup
    simp only [List.map_append, List.map_cons, List.map_nil, ha] at hn ⊢
    exact hn

/-- A block absorbed by its predecessor. -/
theorem Rep.absorb {h : Heap} {l m : List Blk} {x y : Blk} (hr : Rep h (l ++ x :: y :: m)) :
    ∃ h', absorb h x.addr y.addr = some h' ∧
      Rep h' (l ++ ⟨x.addr, x.size + (y.size + headerSize), x.free⟩ :: m) := by
  have hx := hr.block_at
  have hy : h.block y.addr = some (node y (first Blk.addr m none) (some x.addr)) := by
    have hr' : Rep h ((l ++ [x]) ++ y :: m) := by simpa using hr
    rw [hr'.block_at, last_append]
    rfl
  have hnodup := hr.fits.nodup
  rcases fits_append.mp hr.fits with ⟨mid, hl, hm, hxy, hym⟩
  have hfits : Fits 0 (l ++ ⟨x.addr, x.size + (y.size + headerSize), x.free⟩ :: m) h.brk := by
    refine fits_append.mpr ⟨mid, hl, hm, hym.mono ?_⟩
    unfold Blk.fin at hxy ⊢
    dsimp only
    omega
  have hhead : h.head = first Blk.addr (l ++ ⟨x.addr, x.size + (y.size + headerSize), x.free⟩ :: m) none := by
    rw [hr.head, first_append, first_append]
    rfl
  unfold Malloc.absorb
  rw [hx, Option.bind_some, hy, Option.bind_some]
  cases m with
  | nil =>
    have htail : h.tail = some y.addr := by rw [hr.tail, last_append]; rfl
    refine ⟨_, rfl, ⟨by simp, ?_, ?_, ?_, ?_⟩⟩
    · simpa [node, first, Heap.set, htail] using hhead
    · simp [node, first, Heap.set, htail, last_append, last]
    · simpa [node, first, Heap.set, htail] using
        hr.seg.join_last hnodup ⟨x.addr, x.size + (y.size + headerSize), x.free⟩ rfl
    · simpa [node, first, Heap.set, htail] using hfits
  | cons z m =>
    have hz : h.block z.addr = some (node z (first Blk.addr m none) (some y.addr)) := by
      have hr' : Rep h ((l ++ [x, y]) ++ z :: m) := by simpa using hr
      rw [hr'.block_at, last_append]
      rfl
    have hn := hnodup
    simp only [List.map_append, List.map_cons, List.nodup_append, List.nodup_cons, List.mem_cons, not_or] at hn
    have hxz : z.addr ≠ x.addr := fun e => hn.2.1.1.2.1 e.symm
    have htail : h.tail = last Blk.addr (some z.addr) m := by rw [hr.tail, last_append]; rfl
    have hne : h.tail ≠ some y.addr := by
      intro e
      rcases last_mem (htail.symm.trans e) with e | hmem
      · exact hn.2.1.2.1.1 (Option.some.inj e).symm
      · exact hn.2.1.2.1.2 hmem
    have hz' : update h.block x.addr (some ⟨x.size + (y.size + headerSize), some z.addr, last Blk.addr none l,
        x.free⟩) z.addr = some (node z (first Blk.addr m none) (some y.addr)) := by
      rw [Function.update_of_ne hxz, hz]
    refine ⟨{ h with
      block := update (update h.block x.addr (some (node ⟨x.addr, x.size + (y.size + headerSize), x.free⟩
        (some z.addr) (last Blk.addr none l)))) z.addr (some (node z (first Blk.addr m none) (some x.addr))) },
      ?_, ⟨by simp, hhead, ?_, ?_, hfits⟩⟩
    · simp only [node, first, Heap.set, hz', Option.map_some, hne, if_false]
    · simp [htail, last_append, last]
    · exact hr.seg.join hnodup ⟨x.addr, x.size + (y.size + headerSize), x.free⟩ rfl

/-! ## The calls -/

def Keeps (l l' : List Blk) : Prop := ∀ b ∈ l, b.free = false → b ∈ l'

/-- `first_fit` returns a free block that is large enough, if anything. -/
theorem firstFit_spec {h : Heap} {p : Option Nat} {l : List Blk} (size : Nat) {fuel : Nat}
    (hs : Seg Blk.addr node h.block p l none) (hfuel : l.length < fuel) :
    ∃ r, firstFit h size fuel (first Blk.addr l none) = some r ∧
      ∀ a, r = some a → ∃ b ∈ l, b.addr = a ∧ b.free = true ∧ size ≤ b.size := by
  induction l generalizing p fuel with
  | nil =>
    cases fuel with
    | zero => cases hfuel
    | succ fuel =>
      refine ⟨none, rfl, ?_⟩
      intro a ha
      cases ha
  | cons b l ih =>
    cases fuel with
    | zero => cases hfuel
    | succ fuel =>
      unfold first firstFit
      rw [hs.1, Option.bind_some]
      by_cases hb : b.free = true ∧ size ≤ b.size
      · refine ⟨some b.addr, if_pos hb, ?_⟩
        intro a ha
        exact ⟨b, List.mem_cons_self, Option.some.inj ha, hb⟩
      · rcases ih hs.2 (Nat.lt_of_succ_lt_succ hfuel) with ⟨r, hr, hfits⟩
        refine ⟨r, (if_neg hb).trans hr, ?_⟩
        intro a ha
        rcases hfits a ha with ⟨c, hc, hrest⟩
        exact ⟨c, List.mem_cons_of_mem _ hc, hrest⟩

/-- `malloc` serves a request from a free block that is large enough, if from any. -/
theorem bestBlock_spec {h : Heap} {l : List Blk} (hr : Rep h l) (size : Nat) :
    ∃ r, bestBlock h size = some r ∧
      ∀ a, r = some a → ∃ b ∈ l, b.addr = a ∧ b.free = true ∧ size ≤ b.size := by
  rcases List.eq_nil_or_concat l with hl | ⟨m, t, hl⟩
  · exact absurd hl hr.ne
  rw [List.concat_eq_append] at hl
  have htail : h.tail = some t.addr := by rw [hr.tail, hl, last_append]; rfl
  have ht : h.block t.addr = some (node t none (last Blk.addr none m)) := by
    rw [hl] at hr
    exact hr.block_at
  unfold bestBlock
  rw [htail, Option.bind_some, ht, Option.bind_some]
  by_cases hfit : t.free = true ∧ size ≤ t.size
  · refine ⟨some t.addr, if_pos hfit, ?_⟩
    intro a ha
    exact ⟨t, by simp [hl], Option.some.inj ha, hfit⟩
  · have hlen := hr.fits.length
    rcases firstFit_spec size hr.seg (show _ < h.brk + 1 by omega) with ⟨r, hfirst, hspec⟩
    rw [← hr.head] at hfirst
    exact ⟨r, (if_neg hfit).trans hfirst, hspec⟩

/-- What `malloc` hands out: a block of `size` bytes at `a` that was not allocated before. -/
structure Serves (l l' : List Blk) (a size : Nat) : Prop where
  block : ∃ b ∈ l', b.addr = a ∧ b.free = false ∧ size = b.size
  fresh : ∀ b ∈ l, b.free = false → b.addr ≠ a

/-- What a request of `size` bytes does to the list of blocks: the list after it, the
    pointer that is returned, the break, and how many bytes of the block it is served
    from are in no block any more. -/
inductive Serve (size brk : Nat) : List Blk → List Blk → Option Nat → Nat → Nat → Prop
  | fail {l : List Blk} : Serve size brk l l none brk 0
  | fit {l m : List Blk} {b : Blk} : b.free = true → size ≤ b.size →
      Serve size brk (l ++ b :: m) (l ++ ⟨b.addr, size, false⟩ :: m) (some (b.addr + headerSize)) brk (b.size - size)
  | split {l : List Blk} {b : Blk} : b.free = true → size + headerSize ≤ b.size →
      Serve size brk (l ++ [b])
        (l ++ [⟨b.addr, size, false⟩, ⟨b.addr + headerSize + size, b.size - size - headerSize, true⟩])
        (some (b.addr + headerSize)) brk 0
  | grow {l : List Blk} :
      Serve size brk l (l ++ [⟨brk, size, false⟩]) (some (brk + headerSize)) (brk + (size + headerSize)) 0

theorem Serve.keeps {size brk brk' lost : Nat} {l l' : List Blk} {r : Option Nat}
    (h : Serve size brk l l' r brk' lost) : Keeps l l' := by
  intro c hc hcfree
  cases h with
  | fail => exact hc
  | fit hfree _ =>
    rcases List.mem_append.mp hc with hc | hc
    · exact List.mem_append_left _ hc
    · rcases List.mem_cons.mp hc with hc | hc
      · rw [hc, hfree] at hcfree
        cases hcfree
      · exact List.mem_append_right _ (List.mem_cons_of_mem _ hc)
  | split hfree _ =>
    rcases List.mem_append.mp hc with hc | hc
    · exact List.mem_append_left _ hc
    · rw [List.mem_singleton.mp hc, hfree] at hcfree
      cases hcfree
  | grow => exact List.mem_append_left _ hc

theorem Serve.serves {size brk brk' lost p : Nat} {l l' : List Blk} (hf : Fits 0 l brk)
    (h : Serve size brk l l' (some p) brk' lost) : ∃ a, p = a + headerSize ∧ Serves l l' a size := by
  have hfresh : ∀ {k m : List Blk} {b : Blk}, l = k ++ b :: m → b.free = true →
      ∀ c ∈ l, c.free = false → c.addr ≠ b.addr := by
    intro k m b e hfree c hc hcfree hcb
    have hb : b ∈ l := by rw [e]; simp
    rw [List.inj_on_of_nodup_map hf.nodup hc hb hcb, hfree] at hcfree
    cases hcfree
  cases h with
  | @fit k m b hfree _ => exact ⟨_, rfl, ⟨⟨b.addr, size, false⟩, by simp, rfl, rfl, rfl⟩, hfresh rfl hfree⟩
  | @split k b hfree _ => exact ⟨_, rfl, ⟨⟨b.addr, size, false⟩, by simp, rfl, rfl, rfl⟩, hfresh rfl hfree⟩
  | grow =>
    refine ⟨brk, rfl, ⟨⟨brk, size, false⟩, by simp, rfl, rfl, rfl⟩, ?_⟩
    intro b hb _ e
    have hb := (hf.bounds b hb).2
    unfold Blk.fin headerSize at hb
    omega

/-- The bytes that a request served from block `b` leaves over when `b` is not split. -/
def unused (b : Metadata) (size : Nat) : Nat := if canSplit b size = true then 0 else b.size - size

theorem place_spec {h : Heap} {l m : List Blk} {b : Blk} {size : Nat} (hr : Rep h (l ++ b :: m)) (hfree : b.free = true)
    (hsize : size ≤ b.size) (hmax : size + (headerSize + alignTo) < wordSize)
    (hsplit : ∀ x, h.block b.addr = some x → canSplit x size = true → x.next = none) :
    ∃ h' l' x, place h b.addr size = some h' ∧ Rep h' l' ∧ h.block b.addr = some x ∧
      Serve size h.brk (l ++ b :: m) l' (some (b.addr + headerSize)) h'.brk (unused x size) := by
  have hb := hr.block_at
  unfold place unused
  rw [hb, Option.map_some]
  by_cases hcan : canSplit (node b (first Blk.addr m none) (last Blk.addr none l)) size = true
  · have hm := hsplit _ hb hcan
    cases m with
    | cons c m => cases hm
    | nil =>
      have hroom := hcan
      unfold canSplit at hroom
      have hroom := (of_decide_eq_true hroom).2
      rw [Nat.mod_eq_of_lt (by rw [Nat.add_assoc]; exact hmax)] at hroom
      dsimp only [node] at hroom
      have htail : h.tail = some b.addr := by rw [hr.tail, last_append]; rfl
      have hbrk := (hr.fits.bounds b (by simp)).2
      refine ⟨_, l ++ [⟨b.addr, size, false⟩, ⟨b.addr + headerSize + size, b.size - size - headerSize, true⟩], _, rfl,
        ?_, rfl, ?_⟩
      · rw [if_pos hcan]
        refine hr.snoc ⟨b.addr, size, false⟩ rfl (Nat.le_refl _) ?_ rfl ?_ rfl
        · unfold Blk.fin at hbrk ⊢
          dsimp only [split, Heap.set]
          omega
        · simp [split, htail]
      · rw [if_pos hcan, if_pos hcan]
        exact .split hfree (by omega)
  · refine ⟨_, l ++ ⟨b.addr, size, false⟩ :: m, _, rfl, ?_, rfl, ?_⟩
    · rw [if_neg hcan]
      exact hr.set ⟨b.addr, size, false⟩ rfl hsize
    · rw [if_neg hcan, if_neg hcan]
      exact .fit hfree hsize

theorem sbrk_of_lt {h h' : Heap} {n : Nat} {ok : Bool} (hn : n < 2 ^ 63) (hs : sbrk h n ok = some h') :
    h' = { h with brk := h.brk + n } := by
  unfold sbrk at hs
  rw [if_pos hn] at hs
  dsimp only at hs
  split at hs
  · rw [← Option.some.inj hs]
    congr 1
  · cases hs

theorem extend_spec {h : Heap} {l : List Blk} {size : Nat} (hr : Rep h l) (hmax : size + headerSize < 2 ^ 63)
    (ok : Bool) :
    ∃ h' r l', extend h size ok = some (h', r) ∧ Rep h' l' ∧ Serve size h.brk l l' r h'.brk 0 := by
  unfold extend
  have hmod : (size + headerSize) % wordSize = size + headerSize :=
    Nat.mod_eq_of_lt (Nat.lt_of_lt_of_le hmax (by decide))
  rw [hmod]
  cases hs : sbrk h (size + headerSize) ok with
  | none => exact ⟨h, none, l, rfl, hr, .fail⟩
  | some grown =>
    have hgrown := sbrk_of_lt hmax hs
    rcases List.eq_nil_or_concat l with hl | ⟨m, t, hl⟩
    · exact absurd hl hr.ne
    rw [List.concat_eq_append] at hl
    subst hl
    have htail : h.tail = some t.addr := by rw [hr.tail, last_append]; rfl
    have hfin := (hr.fits.bounds t (by simp)).2
    have hne : t.addr ≠ h.brk := by
      intro e
      unfold Blk.fin headerSize at hfin
      omega
    have ht : (grown.set h.brk ⟨size, none, h.tail, false⟩).block t.addr
        = some (node t none (last Blk.addr none m)) := by
      rw [hgrown]
      exact (Function.update_of_ne hne _ _).trans hr.block_at
    have hroom : ¬ grown.brk < h.brk + headerSize := by
      rw [hgrown]
      dsimp only
      omega
    refine ⟨_, _, m ++ [t, ⟨h.brk, size, false⟩], by
      dsimp only; rw [if_neg hroom, htail, Option.bind_some, ← htail, ht, Option.map_some], ?_, ?_⟩
    · refine hr.snoc t rfl hfin ?_ ?_ rfl ?_
      · rw [hgrown]
        unfold Blk.fin
        dsimp only [Heap.set]
        omega
      · rw [hgrown]
        rfl
      · rw [hgrown, htail]
        rfl
    · have hserve : Serve size h.brk (m ++ [t]) (m ++ [t] ++ [⟨h.brk, size, false⟩]) (some (h.brk + headerSize))
          (h.brk + (size + headerSize)) 0 := .grow
      rw [List.append_assoc] at hserve
      rw [hgrown]
      exact hserve

/-- The block a request is served from is the last of the list if it is split. -/
def splitsLast (h : Heap) (size : Nat) : Bool :=
  (bestBlock h size).all fun best => best.all fun a => (h.block a).all fun b => !canSplit b size || b.next.isNone

/-- The only block is the last. -/
theorem splitsLast_single {h : Heap} {b : Blk} (hr : Rep h [b]) (size : Nat) : splitsLast h size = true := by
  rcases bestBlock_spec hr size with ⟨best, hbest, hspec⟩
  unfold splitsLast
  rw [hbest]
  cases best with
  | none => rfl
  | some a =>
    rcases hspec a rfl with ⟨c, hc, ha, -⟩
    have hb := hr.block_at (l := [])
    rw [List.mem_singleton.mp hc] at ha
    simp [← ha, hb, node, first]

/-- The bytes of the block a request is served from that are in no block after it. -/
def slack (h : Heap) (size : Nat) : Nat :=
  ((bestBlock h size).bind id).elim 0 fun best => (h.block best).elim 0 fun b => unused b size

theorem serve_spec {h : Heap} {l : List Blk} {size : Nat} (hr : Rep h l) (hmax : size + (headerSize + alignTo) < 2 ^ 63)
    (hsplit : splitsLast h size = true) (ok : Bool) :
    ∃ h' r l', serve h size ok = some (h', r) ∧ Rep h' l' ∧ Serve size h.brk l l' r h'.brk (slack h size) := by
  rcases bestBlock_spec hr size with ⟨best, hbest, hspec⟩
  unfold serve slack
  rw [hbest, Option.bind_some, Option.bind_some]
  cases best with
  | none =>
    refine extend_spec hr ?_ ok
    omega
  | some a =>
    rcases hspec a rfl with ⟨b, hb, ha, hfree, hsize⟩
    rcases List.append_of_mem hb with ⟨s, t, e⟩
    subst e ha
    have hlast : ∀ x, h.block b.addr = some x → canSplit x size = true → x.next = none := by
      intro x hx hcan
      unfold splitsLast at hsplit
      simpa [hbest, hx, hcan] using hsplit
    have hword : size + (headerSize + alignTo) < wordSize := Nat.lt_of_lt_of_le hmax (by decide)
    rcases place_spec hr hfree hsize hword hlast with ⟨h', l', x, hplace, hrep, hx, hserve⟩
    refine ⟨h', some (b.addr + headerSize), l', by dsimp only; rw [hplace, Option.map_some], hrep, ?_⟩
    rw [id, Option.elim_some, hx, Option.elim_some]
    exact hserve

theorem initHead_spec {h h' : Heap} {ok : Bool} (hi : initHead h ok = some h') :
    Rep h' [⟨h.brk, initialHeapSize - headerSize, true⟩] ∧ h'.brk = h.brk + initialHeapSize := by
  unfold initHead at hi
  rcases Option.map_eq_some_iff.mp hi with ⟨grown, hs, e⟩
  have hgrown := sbrk_of_lt (by decide) hs
  subst e hgrown
  refine ⟨⟨by simp, rfl, rfl, ⟨?_, trivial⟩, Nat.zero_le _, ?_⟩, rfl⟩
  · exact Function.update_self ..
  · have hle : headerSize ≤ initialHeapSize := by decide
    show h.brk + headerSize + (initialHeapSize - headerSize) ≤ h.brk + initialHeapSize
    omega

theorem initHead_true {h h' : Heap} {ok : Bool} (hi : initHead h ok = some h') : initHead h true = some h' := by
  cases ok with
  | true => exact hi
  | false =>
    unfold initHead sbrk at hi
    rw [if_neg (fun hc => Bool.false_ne_true hc.1)] at hi
    cases hi

theorem roundUp_spec {size : Nat} (hmax : size ≤ maxHeapSize) :
    size ≤ roundUp size ∧ roundUp size + (headerSize + alignTo) < 2 ^ 63 := by
  unfold maxHeapSize at hmax
  unfold roundUp wordSize alignTo headerSize
  omega

def IsHeap (h : Heap) (l : List Blk) : Prop := h.head = none ∧ h.tail = none ∧ l = [] ∨ Rep h l

theorem Rep.initialised {h : Heap} {l : List Blk} (hr : Rep h l) : h.head ≠ none := by
  cases l with
  | nil => exact absurd rfl hr.ne
  | cons b l => rw [hr.head]; exact Option.some_ne_none _

theorem malloc_defined {h : Heap} {l : List Blk} {size : Nat} (hr : Rep h l) (hmax : size ≤ maxHeapSize)
    (hsplit : splitsLast h (roundUp size) = true) (ok : Sbrk) : ∃ x, malloc h size ok = some x := by
  rcases serve_spec hr (roundUp_spec hmax).2 hsplit ok.grow with ⟨h', r, -, hs, -⟩
  unfold malloc
  rw [if_neg hr.initialised, Option.bind_some]
  exact ⟨_, hs⟩

def ready (h : Heap) : Heap := if h.head = none then (initHead h true).getD h else h

inductive Ready (brk : Nat) : List Blk → Nat → List Blk → Prop
  | kept {l : List Blk} : Ready brk l brk l
  | init : Ready brk [] (brk + initialHeapSize) [⟨brk, initialHeapSize - headerSize, true⟩]

theorem malloc_spec {h h' : Heap} {l : List Blk} {size : Nat} {ok : Sbrk} {r : Option Nat} (hh : IsHeap h l)
    (hmax : size ≤ maxHeapSize) (hsplit : splitsLast h (roundUp size) = true) (hm : malloc h size ok = some (h', r)) :
    ∃ l0 l', Ready h.brk l (ready h).brk l0 ∧ Rep (ready h) l0 ∧ Rep h' l' ∧
      Serve (roundUp size) (ready h).brk l0 l' r h'.brk (slack (ready h) (roundUp size)) := by
  have hround := (roundUp_spec hmax).2
  unfold malloc at hm
  unfold ready
  rcases hh with ⟨hhead, -, hl⟩ | hr
  · subst hl
    rw [if_pos hhead] at hm
    rcases Option.bind_eq_some_iff.mp hm with ⟨h0, hi, hm⟩
    rcases initHead_spec hi with ⟨hr0, hbrk⟩
    rcases serve_spec hr0 hround (splitsLast_single hr0 _) ok.grow with ⟨_, _, l', hs, hrep, hserve⟩
    rw [if_pos hhead, initHead_true hi, Option.getD_some]
    have e := Prod.mk.inj (Option.some.inj (hs.symm.trans hm))
    rw [e.1] at hrep hserve
    rw [e.2] at hserve
    refine ⟨_, l', ?_, hr0, hrep, hserve⟩
    rw [hbrk]
    exact .init
  · rw [if_neg hr.initialised, Option.bind_some] at hm
    rcases serve_spec hr hround hsplit ok.grow with ⟨_, _, l', hs, hrep, hserve⟩
    rw [if_neg hr.initialised]
    have e := Prod.mk.inj (Option.some.inj (hs.symm.trans hm))
    rw [e.1] at hrep hserve
    rw [e.2] at hserve
    exact ⟨l, l', .kept, hr, hrep, hserve⟩

/-- The first merge of `free`: the list before the block, and the block. -/
inductive JoinPrev : List Blk → Blk → List Blk → Blk → Prop
  | join {l : List Blk} {x b : Blk} : x.free = true →
      JoinPrev (l ++ [x]) b l ⟨x.addr, x.size + (b.size + headerSize), true⟩
  | skip {l : List Blk} {b : Blk} : (∀ x ∈ l.getLast?, x.free = false) → JoinPrev l b l b

/-- The second: the block, and the list after it. -/
inductive JoinNext : Blk → List Blk → Blk → List Blk → Prop
  | join {b y : Blk} {m : List Blk} : y.free = true →
      JoinNext b (y :: m) ⟨b.addr, b.size + (y.size + headerSize), b.free⟩ m
  | skip {b : Blk} {m : List Blk} : (∀ y ∈ m.head?, y.free = false) → JoinNext b m b m

def Release (b : Blk) (l m l' : List Blk) : Prop :=
  ∃ k b1 b2 n, JoinPrev l { b with free := true } k b1 ∧ JoinNext b1 m b2 n ∧ l' = k ++ b2 :: n

theorem JoinPrev.keeps {l l' : List Blk} {b b' : Blk} (h : JoinPrev l b l' b') : Keeps l l' := by
  intro c hc hcfree
  cases h with
  | join hx =>
    rcases List.mem_append.mp hc with hc | hc
    · exact hc
    · rw [List.mem_singleton.mp hc, hx] at hcfree
      cases hcfree
  | skip _ => exact hc

theorem JoinNext.keeps {m m' : List Blk} {b b' : Blk} (h : JoinNext b m b' m') : Keeps m m' := by
  intro c hc hcfree
  cases h with
  | join hy =>
    rcases List.mem_cons.mp hc with hc | hc
    · rw [hc, hy] at hcfree
      cases hcfree
    · exact hc
  | skip _ => exact hc

theorem Release.keeps {b c : Blk} {l m l' : List Blk} (h : Release b l m l') (hc : c ∈ l ++ b :: m)
    (hcfree : c.free = false) (hne : c.addr ≠ b.addr) : c ∈ l' := by
  rcases h with ⟨k, b1, b2, n, hprev, hnext, e⟩
  subst e
  rcases List.mem_append.mp hc with hc | hc
  · exact List.mem_append_left _ (hprev.keeps c hc hcfree)
  · rcases List.mem_cons.mp hc with hc | hc
    · exact absurd (congrArg Blk.addr hc) hne
    · exact List.mem_append_right _ (List.mem_cons_of_mem _ (hnext.keeps c hc hcfree))

theorem absorb_brk {h h' : Heap} {a b : Nat} (ha : absorb h a b = some h') : h'.brk = h.brk := by
  unfold absorb at ha
  rcases Option.bind_eq_some_iff.mp ha with ⟨x, -, ha⟩
  rcases Option.bind_eq_some_iff.mp ha with ⟨y, -, ha⟩
  dsimp only at ha
  rcases Option.map_eq_some_iff.mp ha with ⟨g, hlinked, e⟩
  have hg : g.brk = h.brk := by
    split at hlinked
    · cases hlinked
      rfl
    · rcases Option.map_eq_some_iff.mp hlinked with ⟨z, -, e⟩
      cases e
      rfl
  rw [← e, ← hg]
  split
  · rfl
  · rfl

/-- The first merge of `free`. -/
theorem mergePrev_spec {h : Heap} {l m : List Blk} {b : Blk} (hr : Rep h (l ++ b :: m)) :
    ∃ h' l' b', mergePrev h b.addr (last Blk.addr none l) = some (h', b'.addr) ∧ Rep h' (l' ++ b' :: m) ∧
      h'.brk = h.brk ∧ JoinPrev l b l' b' := by
  rcases List.eq_nil_or_concat l with hl | ⟨k, x, hl⟩
  · subst hl
    exact ⟨h, [], b, rfl, hr, rfl, .skip (by simp)⟩
  rw [List.concat_eq_append] at hl
  subst hl
  rw [last_append]
  have hr' : Rep h (k ++ x :: b :: m) := by simpa using hr
  unfold last mergePrev
  dsimp only [last]
  rw [hr'.block_at, Option.bind_some]
  by_cases hx : x.free = true
  · rcases hr'.absorb with ⟨h', habsorb, hrep⟩
    rw [hx] at hrep
    exact ⟨h', k, _, by rw [if_pos (by exact hx), habsorb, Option.map_some], hrep, absorb_brk habsorb, .join hx⟩
  · exact ⟨h, k ++ [x], b, if_neg hx, hr, rfl, .skip (by simpa using hx)⟩

/-- The second. -/
theorem mergeNext_spec {h : Heap} {l m : List Blk} {b : Blk} (hr : Rep h (l ++ b :: m)) :
    ∃ h' b' m', mergeNext h b.addr (first Blk.addr m none) = some h' ∧ Rep h' (l ++ b' :: m') ∧ h'.brk = h.brk ∧
      JoinNext b m b' m' := by
  cases m with
  | nil => exact ⟨h, b, [], rfl, hr, rfl, .skip (by simp)⟩
  | cons y m =>
    have hy : h.block y.addr = some (node y (first Blk.addr m none) (some b.addr)) := by
      have hr' : Rep h ((l ++ [b]) ++ y :: m) := by simpa using hr
      rw [hr'.block_at, last_append]
      rfl
    unfold first mergeNext
    dsimp only
    rw [hy, Option.bind_some]
    by_cases hfree : y.free = true
    · rcases hr.absorb with ⟨h', habsorb, hrep⟩
      exact ⟨h', _, m, (if_pos hfree).trans habsorb, hrep, absorb_brk habsorb, .join hfree⟩
    · exact ⟨h, b, y :: m, if_neg hfree, hr, rfl, .skip (by simpa using hfree)⟩

theorem free_spec {h : Heap} {l m : List Blk} {b : Blk} (hr : Rep h (l ++ b :: m)) :
    ∃ h' l', free h (some (b.addr + headerSize)) = some h' ∧ Rep h' l' ∧ h'.brk = h.brk ∧ Release b l m l' := by
  have hset := hr.set { b with free := true } rfl (Nat.le_refl _)
  rcases mergePrev_spec hset with ⟨h1, l1, b1, hprev, hr1, hbrk1, hjoin1⟩
  rcases mergeNext_spec hr1 with ⟨h2, b2, m2, hnext, hr2, hbrk2, hjoin2⟩
  refine ⟨h2, _, ?_, hr2, hbrk2.trans hbrk1, l1, b1, b2, m2, hjoin1, hjoin2, rfl⟩
  unfold free
  dsimp only
  rw [Nat.add_sub_cancel, hr.block_at, Option.bind_some]
  exact Option.bind_eq_some_iff.mpr ⟨_, hprev, hnext⟩

end SysProg.Malloc
