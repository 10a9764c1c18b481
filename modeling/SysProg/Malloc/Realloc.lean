/-
  SysProg.Malloc.Realloc — what `realloc` changes.

  A block that is too small is moved: `malloc`, a copy of the old bytes and `free`. The
  request may split a block that has a successor, whose `prev` then stays the block
  before the new one, so what `malloc` leaves is a list of blocks along `next` only
  (`Along`), the list but for `prev` links of a heap that is linked both ways. The
  merges of `free` read no `prev` but that of the block that is freed
  (`absorb_upToPrev`), and a stale one is that of the block just handed out
  (`Granted`), which is not free: there is no merge where there could be one, and
  nothing else goes wrong (`free_upToPrev`).

  Main result: `realloc_frame`, for every heap, every allocated block and every size.
-/

import SysProg.Malloc.Requests
import SysProg.Malloc.Tiling

namespace SysProg.Malloc

open Function (update)
open SysProg.Bytes (Mem load store load_length load_take load_store load_store_off)
open SysProg.Dll (first last first_append last_append last_mem)

/-! ## The list along `next` -/

def Metadata.unlink (b : Metadata) : Metadata := { b with prev := none }

structure UpToPrev (g h : Heap) : Prop where
  head : h.head = g.head
  tail : h.tail = g.tail
  brk : h.brk = g.brk
  block : ∀ a, (h.block a).map Metadata.unlink = (g.block a).map Metadata.unlink

def Along (h : Heap) (l : List Blk) : Prop := ∃ g, Rep g l ∧ UpToPrev g h

theorem upToPrev_refl (h : Heap) : UpToPrev h h := ⟨rfl, rfl, rfl, fun _ => rfl⟩

section

variable {g g' h : Heap} {a b : Nat} {x y : Metadata}

theorem UpToPrev.block_at (hn : UpToPrev g h) (hx : g.block a = some x) :
    ∃ p, h.block a = some { x with prev := p } := by
  have hblock := hn.block a
  rw [hx, Option.map_some] at hblock
  rcases Option.map_eq_some_iff.mp hblock with ⟨y, hy, e⟩
  refine ⟨y.prev, ?_⟩
  rw [hy]
  cases y
  cases x
  simpa [Metadata.unlink] using e

theorem UpToPrev.set (hn : UpToPrev g h) (e : y.unlink = x.unlink) : UpToPrev (g.set a x) (h.set a y) where
  head := hn.head
  tail := hn.tail
  brk := hn.brk
  block := by
    intro c
    unfold Heap.set
    dsimp only
    by_cases hc : c = a
    · rw [hc, Function.update_self, Function.update_self, Option.map_some, Option.map_some, e]
    · rw [Function.update_of_ne hc, Function.update_of_ne hc]
      exact hn.block c

theorem UpToPrev.data (hn : UpToPrev g h) (d : Mem) : UpToPrev g { h with data := d } :=
  ⟨hn.head, hn.tail, hn.brk, hn.block⟩

theorem absorb_upToPrev (hn : UpToPrev g h) (hg : absorb g a b = some g') :
    ∃ h', absorb h a b = some h' ∧ UpToPrev g' h' := by
  unfold absorb at hg ⊢
  rcases Option.bind_eq_some_iff.mp hg with ⟨x, hx, hg⟩
  rcases Option.bind_eq_some_iff.mp hg with ⟨y, hy, hg⟩
  rcases hn.block_at hx with ⟨p, hx⟩
  rcases hn.block_at hy with ⟨q, hy⟩
  have hn : UpToPrev (g.set a { x with size := x.size + (y.size + headerSize), next := y.next })
      (h.set a ⟨x.size + (y.size + headerSize), y.next, p, x.free⟩) := hn.set rfl
  have htail : ∀ {g1 h1 : Heap}, UpToPrev g1 h1 →
      UpToPrev (if g1.tail = some b then { g1 with tail := some a } else g1)
        (if h1.tail = some b then { h1 with tail := some a } else h1) := by
    intro g1 h1 hn
    rw [hn.tail]
    split
    · exact ⟨hn.head, rfl, hn.brk, hn.block⟩
    · exact hn
  rw [hx, Option.bind_some, hy, Option.bind_some]
  dsimp only at hg ⊢
  rcases Option.map_eq_some_iff.mp hg with ⟨g1, hlinked, e⟩
  subst e
  cases hnext : y.next with
  | none =>
    rw [hnext] at hlinked hn
    cases hlinked
    exact ⟨_, rfl, htail hn⟩
  | some c =>
    rw [hnext] at hlinked hn
    rcases Option.map_eq_some_iff.mp hlinked with ⟨z, hz, e⟩
    subst e
    rcases hn.block_at hz with ⟨r, hz⟩
    dsimp only
    rw [hz, Option.map_some, Option.map_some]
    exact ⟨_, rfl, htail (hn.set rfl)⟩

theorem mergePrev_upToPrev {cur cur' : Nat} {p : Option Nat} (hn : UpToPrev g h)
    (hg : mergePrev g cur p = some (g', cur')) : ∃ h', mergePrev h cur p = some (h', cur') ∧ UpToPrev g' h' := by
  cases p with
  | none =>
    cases hg
    exact ⟨h, rfl, hn⟩
  | some prev =>
    unfold mergePrev at hg ⊢
    dsimp only at hg ⊢
    rcases Option.bind_eq_some_iff.mp hg with ⟨x, hx, hg⟩
    rcases hn.block_at hx with ⟨q, hx⟩
    rw [hx, Option.bind_some]
    by_cases hfree : x.free = true
    · rw [if_pos hfree] at hg ⊢
      rcases Option.map_eq_some_iff.mp hg with ⟨g1, habsorb, e⟩
      cases e
      rcases absorb_upToPrev hn habsorb with ⟨h', habsorb, hn⟩
      exact ⟨h', by rw [habsorb, Option.map_some], hn⟩
    · rw [if_neg hfree] at hg ⊢
      cases hg
      exact ⟨h, rfl, hn⟩

theorem mergeNext_upToPrev {cur : Nat} {p : Option Nat} (hn : UpToPrev g h) (hg : mergeNext g cur p = some g') :
    ∃ h', mergeNext h cur p = some h' ∧ UpToPrev g' h' := by
  cases p with
  | none =>
    cases hg
    exact ⟨h, rfl, hn⟩
  | some next =>
    unfold mergeNext at hg ⊢
    dsimp only at hg ⊢
    rcases Option.bind_eq_some_iff.mp hg with ⟨x, hx, hg⟩
    rcases hn.block_at hx with ⟨q, hx⟩
    rw [hx, Option.bind_some]
    by_cases hfree : x.free = true
    · rw [if_pos hfree] at hg ⊢
      exact absorb_upToPrev hn hg
    · rw [if_neg hfree] at hg ⊢
      cases hg
      exact ⟨h, rfl, hn⟩

end

/-! ## A request -/

/-- A block added between two. -/
theorem Rep.insert {h h' : Heap} {l m : List Blk} {b c z : Blk} (hr : Rep h (l ++ b :: z :: m)) (b' : Blk)
    (ha : b'.addr = b.addr) (hb : b'.fin ≤ c.addr) (hc : c.fin ≤ z.addr) (hhead : h'.head = h.head)
    (htail : h'.tail = h.tail) (hbrk : h'.brk = h.brk)
    (hblock : h'.block = update (update (update h.block c.addr (some (node c (some z.addr) (some b.addr)))) b.addr
      (some (node b' (some c.addr) (last Blk.addr none l)))) z.addr
      (some (node z (first Blk.addr m none) (some c.addr)))) : Rep h' (l ++ b' :: c :: z :: m) := by
  rcases fits_append.mp hr.fits with ⟨mid, hl, hm, -, hz⟩
  have hfits : Fits 0 (l ++ b' :: c :: z :: m) h'.brk := by
    rw [hbrk]
    exact fits_append.mpr ⟨mid, hl, ha ▸ hm, hb, hc, hz⟩
  refine ⟨by simp, ?_, ?_, ?_, hfits⟩
  · rw [hhead, hr.head, first_append, first_append]
    simp only [first, ha]
  · rw [htail, hr.tail, last_append, last_append]
    rfl
  · rw [hblock]
    refine hr.seg.insert ?_ ha
    have hn := hfits.nodup
    simp only [List.map_append, List.map_cons, ha] at hn ⊢
    exact hn

/-- The heap and its blocks once a request of `size` bytes has been served at `a`: a block
    whose `prev` is not the block before it has the block at `a` there. -/
structure Granted (l : List Blk) (h' : Heap) (l' : List Blk) (a size : Nat) : Prop where
  keeps : Keeps l l'
  serves : Serves l l' a size
  list : ∃ g, Rep g l' ∧ UpToPrev g h' ∧
    ∀ c ∈ l', h'.block c.addr = g.block c.addr ∨ ∃ x, h'.block c.addr = some x ∧ x.prev = some a

theorem Rep.granted {size brk brk' n a : Nat} {h' : Heap} {l l' : List Blk} (hr : Rep h' l') (hf : Fits 0 l brk)
    (hs : Serve size brk l l' (some (a + headerSize)) brk' n) : Granted l h' l' a size := by
  rcases hs.serves hf with ⟨c, hc, hserves⟩
  have hca : a = c := Nat.add_right_cancel hc
  rw [← hca] at hserves
  exact ⟨hs.keeps, hserves, h', hr, upToPrev_refl h', fun _ _ => Or.inl rfl⟩

/-- A block split before another one. -/
theorem split_granted {h : Heap} {l m : List Blk} {b c : Blk} {size : Nat} (hr : Rep h (l ++ b :: c :: m))
    (hfree : b.free = true) (hsize : size + headerSize ≤ b.size) :
    Granted (l ++ b :: c :: m) (split h b.addr size (node b (some c.addr) (last Blk.addr none l)))
      (l ++ ⟨b.addr, size, false⟩ :: ⟨b.addr + headerSize + size, b.size - size - headerSize, true⟩ :: c :: m)
      b.addr size := by
  have hc : h.block c.addr = some (node c (first Blk.addr m none) (some b.addr)) := by
    have hr' : Rep h ((l ++ [b]) ++ c :: m) := by simpa using hr
    rw [hr'.block_at, last_append]
    rfl
  have hapart : b.fin ≤ c.addr := by
    rcases fits_append.mp hr.fits with ⟨mid, -, -, hbc, -⟩
    exact hbc
  unfold Blk.fin at hapart
  have hcb : c.addr ≠ b.addr := by
    intro e
    unfold headerSize at hapart
    omega
  have hcn : c.addr ≠ b.addr + headerSize + size := by
    unfold headerSize at hapart hsize ⊢
    omega
  have hkeep : (split h b.addr size (node b (some c.addr) (last Blk.addr none l))).block c.addr
      = some (node c (first Blk.addr m none) (some b.addr)) := by
    rw [← hc]
    exact (Function.update_of_ne hcb _ _).trans (Function.update_of_ne hcn _ _)
  refine ⟨?_, ⟨⟨⟨b.addr, size, false⟩, by simp, rfl, rfl, rfl⟩, ?_⟩, ?_⟩
  · intro d hd hdfree
    rcases List.mem_append.mp hd with hd | hd
    · exact List.mem_append_left _ hd
    · rcases List.mem_cons.mp hd with hd | hd
      · rw [hd, hfree] at hdfree
        cases hdfree
      · exact List.mem_append_right _ (List.mem_cons_of_mem _ (List.mem_cons_of_mem _ hd))
  · intro d hd hdfree hdb
    have hb : b ∈ l ++ b :: c :: m := by simp
    rw [List.inj_on_of_nodup_map hr.fits.nodup hd hb hdb, hfree] at hdfree
    cases hdfree
  · refine ⟨(split h b.addr size (node b (some c.addr) (last Blk.addr none l))).set c.addr
      (node c (first Blk.addr m none) (some (b.addr + headerSize + size))), ?_, ?_, ?_⟩
    · refine hr.insert ⟨b.addr, size, false⟩ rfl (Nat.le_refl _) ?_ rfl ?_ rfl rfl
      · unfold Blk.fin
        dsimp only
        omega
      · apply if_neg
        intro e
        rw [hr.tail, last_append] at e
        have hn := hr.fits.nodup
        rw [List.map_append, List.nodup_append, List.map_cons, List.nodup_cons] at hn
        have hlast : last Blk.addr (some c.addr) m = some b.addr := e
        rcases last_mem hlast with he | hmem
        · exact hcb (Option.some.inj he)
        · exact hn.2.1.1 (List.mem_cons_of_mem _ hmem)
    · refine ⟨rfl, rfl, rfl, ?_⟩
      intro a
      unfold Heap.set
      dsimp only
      by_cases ha : a = c.addr
      · rw [ha, hkeep, Function.update_self]
        rfl
      · rw [Function.update_of_ne ha]
    · intro d hd
      by_cases hdc : d.addr = c.addr
      · rw [hdc]
        exact Or.inr ⟨_, hkeep, rfl⟩
      · exact Or.inl (Function.update_of_ne hdc _ _).symm

theorem place_granted {h : Heap} {l m : List Blk} {b : Blk} {size : Nat} (hr : Rep h (l ++ b :: m))
    (hfree : b.free = true) (hsize : size ≤ b.size) (hmax : size + (headerSize + alignTo) < wordSize) :
    ∃ h' l', place h b.addr size = some h' ∧ h'.data = h.data ∧ Granted (l ++ b :: m) h' l' b.addr size := by
  have hb := hr.block_at
  by_cases hinside : canSplit (node b (first Blk.addr m none) (last Blk.addr none l)) size = true ∧ m ≠ []
  · rcases hinside with ⟨hcan, hm⟩
    cases m with
    | nil => exact absurd rfl hm
    | cons c m =>
      refine ⟨split h b.addr size (node b (some c.addr) (last Blk.addr none l)), _, ?_, rfl,
        split_granted hr hfree ?_⟩
      · unfold place
        rw [hb, Option.map_some, if_pos hcan]
        rfl
      · unfold canSplit at hcan
        have hroom := (of_decide_eq_true hcan).2
        rw [Nat.mod_eq_of_lt (by rw [Nat.add_assoc]; exact hmax)] at hroom
        dsimp only [node] at hroom
        omega
  · have hlast : ∀ x, h.block b.addr = some x → canSplit x size = true → x.next = none := by
      intro x hx hcan
      rw [hb] at hx
      rw [← Option.some.inj hx] at hcan ⊢
      cases m with
      | nil => rfl
      | cons c m => exact absurd ⟨hcan, by simp⟩ hinside
    rcases place_spec hr hfree hsize hmax hlast with ⟨h', l', x, hplace, hrep, -, hserve⟩
    refine ⟨h', l', hplace, ?_, hrep.granted hr.fits hserve⟩
    unfold place at hplace
    rcases Option.map_eq_some_iff.mp hplace with ⟨y, -, e⟩
    rw [← e]
    split
    · rfl
    · rfl

/-- A heap that is not extended is as it was, and one that is keeps its bytes. -/
theorem extend_keeps {h h' : Heap} {size : Nat} {ok : Bool} {r : Option Nat} (he : extend h size ok = some (h', r)) :
    h'.data = h.data ∧ (r = none → h' = h) := by
  unfold extend at he
  cases hs : sbrk h ((size + headerSize) % wordSize) ok with
  | none =>
    rw [hs] at he
    cases he
    exact ⟨rfl, fun _ => rfl⟩
  | some grown =>
    rw [hs] at he
    dsimp only at he
    rw [Option.ite_none_left_eq_some] at he
    rcases Option.bind_eq_some_iff.mp he.2 with ⟨tail, -, he⟩
    rcases Option.map_eq_some_iff.mp he with ⟨t, -, e⟩
    cases e
    rcases sbrk_brk hs with ⟨brk, hgrown⟩
    refine ⟨?_, by simp⟩
    rw [hgrown]
    rfl

/-- `malloc` on a heap that is there already. -/
theorem serve_granted {h : Heap} {l : List Blk} {size : Nat} (hr : Rep h l)
    (hmax : size + (headerSize + alignTo) < 2 ^ 63) (ok : Bool) :
    ∃ h' r, serve h size ok = some (h', r) ∧ h'.data = h.data ∧ (r = none → h' = h) ∧
      ∀ q, r = some q → ∃ a l', q = a + headerSize ∧ Granted l h' l' a size := by
  rcases bestBlock_spec hr size with ⟨best, hbest, hspec⟩
  unfold serve
  rw [hbest, Option.bind_some]
  cases best with
  | none =>
    have hgrow : size + headerSize < 2 ^ 63 := by omega
    rcases extend_spec hr hgrow ok with ⟨h', r, l', he, hrep, hserve⟩
    rcases extend_keeps he with ⟨hdata, hnull⟩
    refine ⟨h', r, he, hdata, hnull, ?_⟩
    intro q hq
    rw [hq] at hserve
    rcases hserve.serves hr.fits with ⟨a, ha, -⟩
    rw [ha] at hserve
    exact ⟨a, l', ha, hrep.granted hr.fits hserve⟩
  | some a =>
    rcases hspec a rfl with ⟨b, hb, ha, hfree, hsize⟩
    rcases List.append_of_mem hb with ⟨s, t, e⟩
    subst e ha
    have hword : size + (headerSize + alignTo) < wordSize := Nat.lt_of_lt_of_le hmax (by decide)
    rcases place_granted hr hfree hsize hword with ⟨h', l', hplace, hdata, hgranted⟩
    refine ⟨h', some (b.addr + headerSize), by dsimp only; rw [hplace, Option.map_some], hdata, by simp, ?_⟩
    intro q hq
    exact ⟨b.addr, l', (Option.some.inj hq).symm, hgranted⟩

/-! ## A release -/

/-- The block is not allocated any more: the last block of the list at or before it is
    free and has room for it. -/
def Released (l : List Blk) (b : Blk) : Prop :=
  ∃ d ∈ l, d.free = true ∧ b.size ≤ d.size ∧ d.addr ≤ b.addr ∧ ∀ c ∈ l, c.addr ≤ b.addr → c.addr ≤ d.addr

theorem absorb_data {h h' : Heap} {a b : Nat} (ha : absorb h a b = some h') : h'.data = h.data := by
  unfold absorb at ha
  rcases Option.bind_eq_some_iff.mp ha with ⟨x, -, ha⟩
  rcases Option.bind_eq_some_iff.mp ha with ⟨y, -, ha⟩
  rcases Option.map_eq_some_iff.mp ha with ⟨g, hlinked, e⟩
  have hg : g.data = h.data := by
    split at hlinked
    · cases hlinked
      rfl
    · rcases Option.map_eq_some_iff.mp hlinked with ⟨z, -, e⟩
      cases e
      rfl
  rw [← e, ← hg]
  split
  · rfl
  · rfl

theorem mergePrev_data {h h' : Heap} {cur cur' : Nat} {p : Option Nat} (hm : mergePrev h cur p = some (h', cur')) :
    h'.data = h.data := by
  cases p with
  | none =>
    cases hm
    rfl
  | some prev =>
    rcases Option.bind_eq_some_iff.mp hm with ⟨x, -, hm⟩
    split at hm
    · rcases Option.map_eq_some_iff.mp hm with ⟨g, ha, e⟩
      cases e
      exact absorb_data ha
    · cases hm
      rfl

theorem mergeNext_data {h h' : Heap} {cur : Nat} {p : Option Nat} (hm : mergeNext h cur p = some h') :
    h'.data = h.data := by
  cases p with
  | none =>
    cases hm
    rfl
  | some next =>
    rcases Option.bind_eq_some_iff.mp hm with ⟨x, -, hm⟩
    split at hm
    · exact absorb_data hm
    · cases hm
      rfl

theorem free_data {h h' : Heap} {p : Option Nat} (hf : free h p = some h') : h'.data = h.data := by
  cases p with
  | none =>
    cases hf
    rfl
  | some ptr =>
    rcases Option.bind_eq_some_iff.mp hf with ⟨c, -, hf⟩
    rcases Option.bind_eq_some_iff.mp hf with ⟨⟨h1, cur⟩, hprev, hnext⟩
    have hset := mergePrev_data hprev
    exact (mergeNext_data hnext).trans hset

/-- `free` of block `b`, whose `prev` is the block before it or one that is not free. -/
theorem free_upToPrev {g h : Heap} {s t : List Blk} {b : Blk} {p : Option Nat} (hr : Rep g (s ++ b :: t))
    (hn : UpToPrev g h) (hb : h.block b.addr = some (node b (first Blk.addr t none) p))
    (hp : p = last Blk.addr none s ∨ ∃ a x, p = some a ∧ a ≠ b.addr ∧ h.block a = some x ∧ x.free = false) :
    ∃ h' l', free h (some (b.addr + headerSize)) = some h' ∧ Along h' l' ∧
      ∃ k b1 b2 n, (JoinPrev s { b with free := true } k b1 ∨ k = s ∧ b1 = { b with free := true }) ∧
        JoinNext b1 t b2 n ∧ l' = k ++ b2 :: n := by
  have hset := hr.set { b with free := true } rfl (Nat.le_refl _)
  have hnset : UpToPrev (g.set b.addr (node { b with free := true } (first Blk.addr t none) (last Blk.addr none s)))
      (h.set b.addr (node { b with free := true } (first Blk.addr t none) p)) := hn.set rfl
  have hfirst : ∃ g1 h1 k b1, mergePrev (h.set b.addr (node { b with free := true } (first Blk.addr t none) p)) b.addr p
      = some (h1, b1.addr) ∧ Rep g1 (k ++ b1 :: t) ∧ UpToPrev g1 h1 ∧
      (JoinPrev s { b with free := true } k b1 ∨ k = s ∧ b1 = { b with free := true }) := by
    rcases hp with hp | ⟨a, x, hp, hab, hx, hxfree⟩
    · rcases mergePrev_spec hset with ⟨g1, k, b1, hprev, hr1, -, hjoin⟩
      rcases mergePrev_upToPrev hnset hprev with ⟨h1, hprev, hn1⟩
      rw [← hp] at hprev
      exact ⟨g1, h1, k, b1, hprev, hr1, hn1, Or.inl hjoin⟩
    · refine ⟨_, _, s, _, ?_, hset, hnset, Or.inr ⟨rfl, rfl⟩⟩
      have hxa : (h.set b.addr (node { b with free := true } (first Blk.addr t none) p)).block a = some x :=
        (Function.update_of_ne hab _ _).trans hx
      rw [hp] at hxa ⊢
      unfold mergePrev
      dsimp only
      rw [hxa, Option.bind_some, if_neg (by rw [hxfree]; exact Bool.false_ne_true)]
  rcases hfirst with ⟨g1, h1, k, b1, hprev, hr1, hn1, hjoin⟩
  rcases mergeNext_spec hr1 with ⟨g2, b2, n, hnext, hr2, -, hjoin2⟩
  rcases mergeNext_upToPrev hn1 hnext with ⟨h2, hnext, hn2⟩
  refine ⟨h2, _, ?_, ⟨g2, hr2, hn2⟩, k, b1, b2, n, hjoin, hjoin2, rfl⟩
  unfold free
  dsimp only
  rw [Nat.add_sub_cancel, hb, Option.bind_some]
  exact Option.bind_eq_some_iff.mpr ⟨_, hprev, hnext⟩

/-- The first merge takes the block back, if it moves it. -/
theorem JoinPrev.covers {lo hi : Nat} {l k m : List Blk} {b b' : Blk} (h : JoinPrev l b k b')
    (hf : Fits lo (l ++ b :: m) hi) : b'.addr ≤ b.addr ∧ b.size ≤ b'.size := by
  cases h with
  | @join k x b _ =>
    rw [List.append_assoc] at hf
    rcases fits_append.mp hf with ⟨mid, -, -, hx, -⟩
    unfold Blk.fin at hx
    dsimp only
    omega
  | skip _ => exact ⟨Nat.le_refl _, Nat.le_refl _⟩

theorem JoinNext.covers {m n : List Blk} {b b' : Blk} (h : JoinNext b m b' n) :
    b'.addr = b.addr ∧ b.size ≤ b'.size := by
  cases h with
  | join _ => exact ⟨rfl, Nat.le_add_right _ _⟩
  | skip _ => exact ⟨rfl, Nat.le_refl _⟩

theorem Granted.data {l l' : List Blk} {h' : Heap} {a size : Nat} (hg : Granted l h' l' a size) (d : Mem) :
    Granted l { h' with data := d } l' a size := by
  rcases hg.list with ⟨g, hr, hn, hblock⟩
  exact ⟨hg.keeps, hg.serves, g, hr, hn.data d, hblock⟩

/-- The header of a block of the heap that a request has left: its `prev` is the block
    before it or the new block. -/
theorem Granted.block_at {l s t : List Blk} {h' : Heap} {a size : Nat} {b : Blk}
    (hg : Granted l h' (s ++ b :: t) a size) (hba : b.addr ≠ a) :
    ∃ p, h'.block b.addr = some (node b (first Blk.addr t none) p) ∧
      (p = last Blk.addr none s ∨ ∃ a x, p = some a ∧ a ≠ b.addr ∧ h'.block a = some x ∧ x.free = false) := by
  rcases hg.list with ⟨g, hr, hn, hblock⟩
  have hg_at := hr.block_at
  rcases hn.block_at hg_at with ⟨p, hp⟩
  refine ⟨p, hp, ?_⟩
  rcases hblock b (by simp) with hsame | ⟨x, hx, hprev⟩
  · rw [hp, hg_at] at hsame
    exact Or.inl (congrArg Metadata.prev (Option.some.inj hsame))
  · rw [hp] at hx
    rw [← Option.some.inj hx] at hprev
    rcases hg.serves.block with ⟨c, hc, hca, hcfree, -⟩
    rcases List.append_of_mem hc with ⟨s', t', e⟩
    rw [e] at hr
    rcases hn.block_at hr.block_at with ⟨q, hq⟩
    rw [hca] at hq
    exact Or.inr ⟨a, _, hprev, Ne.symm hba, hq, hcfree⟩

/-- `free` of a block of the heap that a request has left, other than the one it was served
    from. -/
theorem Granted.free {l l' : List Blk} {h' : Heap} {a size : Nat} {b : Blk} (hg : Granted l h' l' a size)
    (hb : b ∈ l') (hba : b.addr ≠ a) :
    ∃ h2 l2, Malloc.free h' (some (b.addr + headerSize)) = some h2 ∧ Along h2 l2 ∧ Released l2 b ∧
      ∀ c ∈ l', c.free = false → c.addr ≠ b.addr → c ∈ l2 := by
  rcases hg.list with ⟨g, hr, hn, -⟩
  rcases List.append_of_mem hb with ⟨s, t, e⟩
  subst e
  rcases hg.block_at hba with ⟨p, hblock, hp⟩
  rcases free_upToPrev hr hn hblock hp with ⟨h2, l2, hfree, halong, k, b1, b2, n, hprev, hnext, e⟩
  subst e
  have hfirst : b1.addr ≤ b.addr ∧ b.size ≤ b1.size ∧ b1.free = true ∧ Keeps s k := by
    rcases hprev with hprev | ⟨hk, hb1⟩
    · rcases fits_append.mp hr.fits with ⟨mid, hs, hmid, ht⟩
      have hfits : Fits 0 (s ++ { b with free := true } :: t) g.brk := fits_append.mpr ⟨mid, hs, hmid, ht⟩
      rcases hprev.covers hfits with ⟨haddr, hsize⟩
      exact ⟨haddr, hsize, hprev.sub.2 rfl, hprev.keeps⟩
    · rw [hk, hb1]
      exact ⟨Nat.le_refl _, Nat.le_refl _, rfl, fun _ hc _ => hc⟩
  rcases hfirst with ⟨haddr, hsize, hb1free, hkeeps⟩
  rcases hnext.covers with ⟨haddr2, hsize2⟩
  refine ⟨h2, _, hfree, halong, ⟨b2, by simp, hnext.sub.2 hb1free, hsize.trans hsize2, haddr2 ▸ haddr, ?_⟩, ?_⟩
  · intro c hc hcb
    rcases halong with ⟨g2, hr2, -⟩
    rcases List.mem_append.mp hc with hc | hc
    · have hapart := (List.pairwise_append.mp hr2.fits.pairwise).2.2 c hc b2 List.mem_cons_self
      unfold Blk.fin at hapart
      omega
    · rcases List.mem_cons.mp hc with hc | hc
      · rw [hc]
      · -- The blocks after it come from after `b`.
        have hpair := (List.pairwise_append.mp hr.fits.pairwise).2.1
        have hapart := (List.pairwise_cons.mp hpair).1 c (hnext.sub.1 c hc)
        unfold Blk.fin headerSize at hapart
        omega
  · intro c hc hcfree hcb
    rcases List.mem_append.mp hc with hc | hc
    · exact List.mem_append_left _ (hkeeps c hc hcfree)
    · rcases List.mem_cons.mp hc with hc | hc
      · exact absurd (congrArg Blk.addr hc) hcb
      · exact List.mem_append_right _ (List.mem_cons_of_mem _ (hnext.keeps c hc hcfree))

/-! ## The call -/

def recorded (h : Heap) (p : Nat) : Option Nat := (h.block (p - headerSize)).map Metadata.size

/-- A call that returns `q` for the pointer of block `b` of the list `l`: the blocks lie
    apart, among them the one of `q`, with the bytes of `b` as far as they go and both
    sizes do; `b` is released if it is another one; the other allocated blocks have the
    address, the size and the bytes they had. -/
structure Reallocated (h h' : Heap) (l l' : List Blk) (b : Blk) (n q : Nat) : Prop where
  along : Along h' l'
  room : ∃ c ∈ l', q = c.addr + headerSize ∧ c.free = false ∧ n ≤ c.size ∧ recorded h' q = some c.size
  bytes : load h'.data q (min b.size n) = load h.data (b.addr + headerSize) (min b.size n)
  released : q ≠ b.addr + headerSize ↔ Released l' b
  others : ∀ c ∈ l, c.free = false → c.addr ≠ b.addr → c ∈ l' ∧
    recorded h' (c.addr + headerSize) = some c.size ∧
    load h'.data (c.addr + headerSize) c.size = load h.data (c.addr + headerSize) c.size

theorem Along.recorded {h : Heap} {l : List Blk} {b : Blk} (ha : Along h l) (hb : b ∈ l) :
    recorded h (b.addr + headerSize) = some b.size := by
  rcases ha with ⟨g, hr, hn⟩
  rcases List.append_of_mem hb with ⟨s, t, e⟩
  subst e
  rcases hn.block_at hr.block_at with ⟨p, hp⟩
  unfold Malloc.recorded
  rw [Nat.add_sub_cancel, hp]
  rfl

/-- A block that is allocated is not released. -/
theorem not_released {h : Heap} {l : List Blk} {b : Blk} (hr : Rep h l) (hb : b ∈ l) (hfree : b.free = false) :
    ¬ Released l b := by
  intro hrel
  rcases hrel with ⟨d, hd, hdfree, -, hdb, hlast⟩
  have haddr : d.addr = b.addr := Nat.le_antisymm hdb (hlast b hb (Nat.le_refl _))
  rw [List.inj_on_of_nodup_map hr.fits.nodup hd hb haddr, hfree] at hdfree
  cases hdfree

theorem realloc_stays_in_place {h : Heap} {l : List Blk} {b : Blk} {n : Nat} (hr : Rep h l) (hb : b ∈ l)
    (hfree : b.free = false) (hn : n ≤ b.size) : Reallocated h h l l b n (b.addr + headerSize) := by
  have halong : Along h l := ⟨h, hr, upToPrev_refl h⟩
  refine ⟨halong, ⟨b, hb, rfl, hfree, hn, halong.recorded hb⟩, rfl, ?_, ?_⟩
  · exact ⟨fun hne => absurd rfl hne, fun hrel => absurd hrel (not_released hr hb hfree)⟩
  · intro c hc _ _
    exact ⟨hc, halong.recorded hc, rfl⟩

/-- The new block, then the copy, then the release. -/
theorem realloc_moves {h h1 : Heap} {l l1 : List Blk} {b : Blk} {n a : Nat} (hb : b ∈ l) (hfree : b.free = false)
    (hn : b.size < n) (hmax : n ≤ maxHeapSize) (hg : Granted l h1 l1 a (roundUp n)) (hdata : h1.data = h.data) :
    ∃ h2 l2, Malloc.free { h1 with data := store h1.data (a + headerSize) (load h1.data (b.addr + headerSize) b.size) }
      (some (b.addr + headerSize)) = some h2 ∧ Reallocated h h2 l l2 b n (a + headerSize) := by
  have hba : b.addr ≠ a := hg.serves.fresh b hb hfree
  rcases (hg.data (store h1.data (a + headerSize) (load h1.data (b.addr + headerSize) b.size))).free
    (hg.keeps b hb hfree) hba with ⟨h2, l2, hcall, halong, hrel, hkeeps⟩
  have hdata2 := free_data hcall
  rcases hg.serves.block with ⟨e, he, hea, hefree, hesize⟩
  have hround := (roundUp_spec hmax).1
  rw [hdata] at hdata2
  refine ⟨h2, l2, hcall, halong, ?_, ?_, ?_, ?_⟩
  · have he2 := hkeeps e he hefree (by rw [hea]; exact Ne.symm hba)
    exact ⟨e, he2, by rw [hea], hefree, by omega, hea ▸ halong.recorded he2⟩
  · have hlen : 0 + b.size ≤ (load h.data (b.addr + headerSize) b.size).length := by
      rw [load_length]
      omega
    have hback := load_store (m := h.data) (a := a + headerSize) hlen
    rw [Nat.add_zero, List.drop_zero, load_take, Nat.min_self] at hback
    rw [hdata2, Nat.min_eq_left (Nat.le_of_lt hn)]
    exact hback
  · refine ⟨fun _ => hrel, fun _ hq => ?_⟩
    exact hba (Nat.add_right_cancel hq).symm
  · intro c hc hcfree hcb
    have hc1 := hg.keeps c hc hcfree
    have hc2 := hkeeps c hc1 hcfree hcb
    refine ⟨hc2, halong.recorded hc2, ?_⟩
    rw [hdata2]
    apply load_store_off
    rcases hg.list with ⟨g, hr, -⟩
    have hapart := hr.apart hc1 he (by rw [hea]; exact hg.serves.fresh c hc hcfree)
    unfold Blk.fin at hapart
    rw [load_length]
    omega

/-- `realloc` of an allocated block. -/
theorem realloc_frame {h : Heap} {l : List Blk} (hr : Rep h l) {b : Blk} (hb : b ∈ l) (hfree : b.free = false) {n : Nat}
    (hn : 0 < n) (hmax : n ≤ maxHeapSize) (ok : Sbrk) :
    ∃ h' r, realloc h (some (b.addr + headerSize)) n ok = some (h', r) ∧
      (r = none ∧ h' = h ∨ ∃ q l', r = some q ∧ Reallocated h h' l l' b n q) := by
  have hblock : ∀ {h1 : Heap} {l1 : List Blk}, Along h1 l1 → b ∈ l1 →
      ∃ cur, h1.block b.addr = some cur ∧ cur.size = b.size := by
    intro h1 l1 halong hb
    have hrec := halong.recorded hb
    unfold recorded at hrec
    rw [Nat.add_sub_cancel] at hrec
    exact Option.map_eq_some_iff.mp hrec
  rcases hblock ⟨h, hr, upToPrev_refl h⟩ hb with ⟨cur, hcur, hsize⟩
  unfold realloc
  dsimp only
  rw [if_neg (Nat.ne_of_gt hn), Nat.add_sub_cancel, hcur, Option.bind_some, hsize]
  by_cases hle : n ≤ b.size
  · exact ⟨h, _, if_pos hle, Or.inr ⟨_, l, rfl, realloc_stays_in_place hr hb hfree hle⟩⟩
  rcases serve_granted hr (roundUp_spec hmax).2 ok.grow with ⟨h1, r, hserve, hdata, hnull, hsome⟩
  have hmalloc : malloc h n ok = some (h1, r) := by
    unfold malloc
    rw [if_neg hr.initialised, Option.bind_some]
    exact hserve
  rw [if_neg hle, hmalloc, Option.bind_some]
  cases r with
  | none => exact ⟨h1, none, rfl, Or.inl ⟨rfl, hnull rfl⟩⟩
  | some new =>
    rcases hsome new rfl with ⟨a, l1, ha, hg⟩
    subst ha
    rcases hg.list with ⟨g, hr1, hn1, -⟩
    rcases hblock ⟨g, hr1, hn1⟩ (hg.keeps b hb hfree) with ⟨cur1, hcur1, hsize1⟩
    rcases realloc_moves hb hfree (Nat.lt_of_not_le hle) hmax hg hdata with ⟨h2, l2, hcall, hmoved⟩
    refine ⟨h2, some (a + headerSize), ?_, Or.inr ⟨_, l2, rfl, hmoved⟩⟩
    dsimp only
    rw [hcur1, Option.bind_some, hsize1, hcall, Option.map_some]

def crowded : Heap where
  head := some 64
  tail := some 240
  block
    | 64 => some ⟨104, some 200, none, true⟩
    | 200 => some ⟨8, some 240, some 64, false⟩
    | 240 => some ⟨16, none, some 200, false⟩
    | _ => none
  data := fun a => UInt8.ofNat a
  brk := 288
  totalMemoryUse := 224

theorem crowded_rep : Rep crowded [⟨64, 104, true⟩, ⟨200, 8, false⟩, ⟨240, 16, false⟩] :=
  ⟨by simp, rfl, rfl, ⟨rfl, rfl, rfl, trivial⟩, by simp [Fits, Blk.fin, headerSize, crowded]⟩

/-- The block that is moved is the one whose predecessor is split for it. -/
theorem realloc_frame_crowded : ∃ h' l', realloc crowded (some 232) 24 ⟨true, true⟩ = some (h', some 96) ∧
    Reallocated crowded h' [⟨64, 104, true⟩, ⟨200, 8, false⟩, ⟨240, 16, false⟩] l' ⟨200, 8, false⟩ 24 96 := by
  have hret : (realloc crowded (some 232) 24 ⟨true, true⟩).map Prod.snd = some (some 96) := by decide +kernel
  have hsize : 24 ≤ maxHeapSize := by decide
  rcases realloc_frame crowded_rep (b := ⟨200, 8, false⟩) (by simp) rfl (by decide) hsize ⟨true, true⟩ with
    ⟨h', r, hcall, hr⟩
  have hcall' : realloc crowded (some 232) 24 ⟨true, true⟩ = some (h', r) := hcall
  rw [hcall'] at hret
  have hr96 : r = some 96 := Option.some.inj hret
  subst hr96
  rcases hr with ⟨hnone, -⟩ | ⟨q, l', hq, hmoved⟩
  · cases hnone
  · cases hq
    exact ⟨h', l', hcall, hmoved⟩

end SysProg.Malloc
