/-
  SysProg.Malloc.Linked — the list of blocks is linked both ways and merged.

  The blocks of a heap lie in the order of the list, and their headers are linked as the
  list says (`Rep`); that no two neighbours are free is kept by every change of the list
  (`merged_stable`): a request leaves an allocated block where a free one was or at the
  end, and a freed block takes in its free neighbours. So the headers that are read along
  `next` from `head` are a well formed list (`Linked`).

  Main results: `lists_are_linked`, over every run that splits only the last block, and
  `stale_prev`, a run that splits another one.
-/

import Mathlib.Data.List.Chain
import SysProg.Malloc.AllocSafety

namespace SysProg.Malloc

open SysProg.Dll (Seg first last)

/-! ## The list, as it is in memory -/

inductive Follows (h : Heap) : Option Nat → List (Nat × Metadata) → Prop
  | nil : Follows h none []
  | cons {a : Nat} {b : Metadata} {l : List (Nat × Metadata)} : h.block a = some b → Follows h b.next l →
      Follows h (some a) ((a, b) :: l)

structure Linked (h : Heap) (l : List (Nat × Metadata)) : Prop where
  follows : Follows h h.head l
  increasing : (l.map Prod.fst).Pairwise fun a c => a < c
  tail : h.tail = l.getLast?.map Prod.fst
  head : ∀ x ∈ l.head?, x.2.prev = none
  back : l.IsChain fun x y => y.2.prev = some x.1
  merged : l.IsChain fun x y => ¬ (x.2.free = true ∧ y.2.free = true)

def headers : Option Nat → List Blk → List (Nat × Metadata)
  | _, [] => []
  | p, b :: l => (b.addr, node b (first Blk.addr l none) p) :: headers (some b.addr) l

theorem headers_fst {p : Option Nat} {l : List Blk} : (headers p l).map Prod.fst = l.map Blk.addr := by
  induction l generalizing p with
  | nil => rfl
  | cons b l ih =>
    unfold headers
    rw [List.map_cons, List.map_cons, ih]

theorem headers_follow {h : Heap} {p : Option Nat} {l : List Blk} (hs : Seg Blk.addr node h.block p l none) :
    Follows h (first Blk.addr l none) (headers p l) := by
  induction l generalizing p with
  | nil => exact .nil
  | cons b l ih => exact .cons hs.1 (ih hs.2)

theorem headers_tail {p : Option Nat} {l : List Blk} (hl : l ≠ []) :
    last Blk.addr p l = (headers p l).getLast?.map Prod.fst := by
  induction l generalizing p with
  | nil => exact absurd rfl hl
  | cons b l ih =>
    cases l with
    | nil => rfl
    | cons c l =>
      unfold last headers
      rw [ih (by simp)]
      unfold headers
      rw [List.getLast?_cons_cons]

/-- Neighbours in the headers are neighbours in the list. -/
theorem headers_chain {R : Nat × Metadata → Nat × Metadata → Prop} {S : Blk → Blk → Prop}
    (hRS : ∀ b c n n' p, S b c → R (b.addr, node b n p) (c.addr, node c n' (some b.addr))) {p : Option Nat}
    {l : List Blk} (hl : l.IsChain S) : (headers p l).IsChain R := by
  induction l generalizing p with
  | nil => exact .nil
  | cons b l ih =>
    unfold headers
    rw [List.isChain_cons] at hl ⊢
    refine ⟨?_, ih hl.2⟩
    intro y hy
    cases l with
    | nil => cases hy
    | cons c l =>
      cases hy
      exact hRS _ _ _ _ _ (hl.1 c rfl)

/-! ## Free neighbours are merged -/

def Merged (l : List Blk) : Prop := l.IsChain fun b c => ¬ (b.free = true ∧ c.free = true)

theorem merged_append {l m : List Blk} :
    Merged (l ++ m) ↔ Merged l ∧ Merged m ∧ ∀ b ∈ l.getLast?, ∀ c ∈ m.head?, ¬ (b.free = true ∧ c.free = true) :=
  List.isChain_append

theorem merged_cons {b : Blk} {l : List Blk} :
    Merged (b :: l) ↔ (∀ c ∈ l.head?, ¬ (b.free = true ∧ c.free = true)) ∧ Merged l := List.isChain_cons

theorem merged_singleton {b : Blk} : Merged [b] := .singleton b

/-- A free block taken. -/
theorem Merged.take {l m : List Blk} {b : Blk} (h : Merged (l ++ b :: m)) {c : Blk} (hc : c.free = false) :
    Merged (l ++ c :: m) := by
  rcases merged_append.mp h with ⟨hl, hbm, -⟩
  refine merged_append.mpr ⟨hl, merged_cons.mpr ⟨?_, (merged_cons.mp hbm).2⟩, ?_⟩
  · intro d _ hfree
    rw [hc] at hfree
    cases hfree.1
  · intro d _ e he hfree
    cases he
    rw [hc] at hfree
    cases hfree.2

/-- A block added after an allocated one. -/
theorem Merged.snoc {l : List Blk} {b c : Blk} (h : Merged (l ++ [b])) (hb : b.free = false) :
    Merged (l ++ [b, c]) := by
  rcases merged_append.mp h with ⟨hl, -, hlb⟩
  refine merged_append.mpr ⟨hl, merged_cons.mpr ⟨?_, merged_singleton⟩, ?_⟩
  · intro d _ hfree
    rw [hb] at hfree
    cases hfree.1
  · intro d hd e he
    cases he
    exact hlb d hd b rfl

theorem Merged.serve {size brk brk' n : Nat} {l l' : List Blk} {r : Option Nat} (h : Merged l)
    (hs : Serve size brk l l' r brk' n) : Merged l' := by
  cases hs with
  | fail => exact h
  | fit _ _ => exact h.take rfl
  | split _ _ => exact (h.take (c := ⟨_, size, false⟩) rfl).snoc rfl
  | grow =>
    refine merged_append.mpr ⟨h, merged_singleton, ?_⟩
    intro b _ c hc hfree
    cases hc
    cases hfree.2

/-- What is left before a freed block is merged and does not end in a free block. -/
theorem JoinPrev.merged {l k : List Blk} {b b' : Blk} (hj : JoinPrev l b k b') (h : Merged l) :
    Merged k ∧ ∀ x ∈ k.getLast?, x.free = false := by
  cases hj with
  | join hx =>
    rcases merged_append.mp h with ⟨hk, -, hkx⟩
    refine ⟨hk, ?_⟩
    intro z hz
    have hnot := hkx z hz _ rfl
    simpa [hx] using hnot
  | skip hl => exact ⟨h, hl⟩

theorem JoinNext.merged {m n : List Blk} {b b' : Blk} (hj : JoinNext b m b' n) (h : Merged m) :
    Merged n ∧ ∀ y ∈ n.head?, y.free = false := by
  cases hj with
  | join hy =>
    rcases merged_cons.mp h with ⟨hyn, hn⟩
    refine ⟨hn, ?_⟩
    intro z hz
    have hnot := hyn z hz
    simpa [hy] using hnot
  | skip hm => exact ⟨h, hm⟩

theorem Merged.release {l m l' : List Blk} {b : Blk} (h : Merged (l ++ b :: m)) (hr : Release b l m l') :
    Merged l' := by
  rcases hr with ⟨k, b1, b2, n, hprev, hnext, e⟩
  subst e
  rcases merged_append.mp h with ⟨hl, hbm, -⟩
  rcases hprev.merged hl with ⟨hk, hlast⟩
  rcases hnext.merged (merged_cons.mp hbm).2 with ⟨hn, hfirst⟩
  refine merged_append.mpr ⟨hk, merged_cons.mpr ⟨?_, hn⟩, ?_⟩
  · intro c hc hfree
    rw [hfirst c hc] at hfree
    cases hfree.2
  · intro c hc d _ hfree
    rw [hlast c hc] at hfree
    cases hfree.1

theorem merged_stable : Stable fun _ l _ _ => Merged l where
  init := fun _ => merged_singleton
  serve := fun h hs => h.serve hs
  release := fun h _ _ hr => h.release hr
  resize := fun _ h => h

/-! ## Runs -/

theorem IsHeap.linked {h : Heap} {l : List Blk} (hh : IsHeap h l) (hm : Merged l) : ∃ m, Linked h m := by
  rcases hh with ⟨hhead, htail, -⟩ | hr
  · refine ⟨[], ?_, .nil, htail, by simp, .nil, .nil⟩
    rw [hhead]
    exact .nil
  · have htrue : l.IsChain fun _ _ => True := hm.imp fun _ _ _ => trivial
    refine ⟨headers none l, ?_, ?_, hr.tail.trans (headers_tail hr.ne), ?_, ?_, ?_⟩
    · rw [hr.head]
      exact headers_follow hr.seg
    · rw [headers_fst, List.pairwise_map]
      apply hr.fits.pairwise.imp
      intro b c hbc
      unfold Blk.fin headerSize at hbc
      omega
    · intro x hx
      cases l with
      | nil => cases hx
      | cons b l =>
        cases hx
        rfl
    · exact headers_chain (fun _ _ _ _ _ _ => rfl) htrue
    · exact headers_chain (fun _ _ _ _ _ h => h) hm

theorem via_merged {s : St} (h : sys.Via Allowed s) : InvWith (fun _ l _ _ => Merged l) s.heap s.live 0 := by
  refine h.inv (I := fun s => InvWith (fun _ l _ _ => Merged l) s.heap s.live 0) ?_ ?_
  · intro s h0
    rcases h0 with ⟨hhead, htail, -, hlive⟩
    rw [hlive]
    exact ⟨[], Or.inl ⟨hhead, htail, rfl⟩, ⟨List.nodup_nil, by simp⟩, .nil⟩
  · intro s a s' hi hc hs
    exact step_keeps merged_stable hi hc.1 hc.2 hs

/-- The list of blocks is linked both ways, in the order of the addresses, and merged. -/
theorem lists_are_linked {s : St} (h : sys.Via Allowed s) : ∃ l, Linked s.heap l := by
  rcases via_merged h with ⟨l, hh, -, hm⟩
  exact hh.linked hm

/-- The last block is split twice and taken; two blocks are freed and merged, and the
    merged one is taken again. -/
theorem lists_are_linked_reused :
    ∃ s l, sys.Via Allowed s ∧ s.live = [(4128, 1056), (5216, 268434336)] ∧ Linked s.heap l := by
  have hs : (Run.exec (Run.guard Allowed step) start
      [.malloc 1000 ⟨true, true⟩, .malloc 24 ⟨true, true⟩, .malloc 268434336 ⟨true, true⟩, .free (some 5160),
        .free (some 4128), .malloc 1056 ⟨true, true⟩]).map (fun s => s.live) =
      some [(4128, 1056), (5216, 268434336)] := by
    decide +kernel
  rcases Option.map_eq_some_iff.mp hs with ⟨s, hs, e⟩
  have h0 : sys.Via Allowed start := .init start_initial
  have hvia : sys.Via Allowed s := Run.via_guard h0 hs
  rcases lists_are_linked hvia with ⟨l, hl⟩
  exact ⟨s, l, hvia, e, hl⟩

/-- The block at 4096 is split before the block at 5128, which keeps it for its
    predecessor. -/
theorem stale_prev : ∃ s, sys.Via (fun s a => valid s a = true) s ∧ ¬ ∃ l, Linked s.heap l := by
  have hs : (Run.exec (Run.guard (fun s a => valid s a = true) step) start
      [.malloc 1000 ⟨true, true⟩, .malloc 16 ⟨true, true⟩, .malloc 268434344 ⟨true, true⟩, .free (some 4128),
        .malloc 100 ⟨true, true⟩]).map (fun s => (s.heap.head, [4096, 4232, 5128].map s.heap.block)) =
      some (some 4096, [some ⟨104, some 4232, none, false⟩, some ⟨864, some 5128, some 4096, true⟩,
        some ⟨16, some 5176, some 4096, false⟩]) := by
    decide +kernel
  rcases Option.map_eq_some_iff.mp hs with ⟨s, hs, e⟩
  have h0 : sys.Via (fun s a => valid s a = true) start := .init start_initial
  refine ⟨s, Run.via_guard h0 hs, ?_⟩
  intro hl
  rcases hl with ⟨l, hl⟩
  have hhead : s.heap.head = some 4096 := (Prod.mk.inj e).1
  have hblocks := (Prod.mk.inj e).2
  simp only [List.map_cons, List.map_nil, List.cons.injEq, and_true] at hblocks
  rcases hblocks with ⟨ha, hn, hb⟩
  have hfollows := hl.follows
  have hback := hl.back
  rw [hhead] at hfollows
  cases hfollows with
  | cons ha' hrest =>
    rw [ha] at ha'
    cases ha'
    cases hrest with
    | cons hn' hrest =>
      rw [hn] at hn'
      cases hn'
      cases hrest with
      | cons hb' hrest =>
        rw [hb] at hb'
        cases hb'
        have hprev : (some 4096 : Option Nat) = some 4232 :=
          (List.isChain_cons_cons.mp (List.isChain_cons_cons.mp hback).2).1
        cases hprev

end SysProg.Malloc
