/-
  SysProg.Malloc.Conservation — no byte of the heap is lost.

  The blocks with their headers, and the bytes lost to near fits, add up to what `sbrk`
  has given (`accounts_stable`): a split, a merge and an extension move bytes between
  blocks, and a block that is handed out without a split although it is larger than the
  request gives up the rest for good (`slack`). When nothing is live every block is free,
  so there is one (`Merged`), and it is short of exactly the bytes lost
  (`bytes_accounted`).

  Main results: `no_byte_lost`, over every run that splits only the last block and has no
  near fit, and `bytes_lost`, a run with a near fit and one that splits another block.
-/

import SysProg.Malloc.Linked

namespace SysProg.Malloc

open SysProg.Dll (first last)

/-! ## The accounts -/

def total : List Blk → Nat
  | [] => 0
  | b :: l => b.size + headerSize + total l

theorem total_append {l m : List Blk} : total (l ++ m) = total l + total m := by
  induction l with
  | nil => exact (Nat.zero_add _).symm
  | cons b l ih =>
    rw [List.cons_append, total, total, ih]
    exact (Nat.add_assoc ..).symm

theorem total_cons {b : Blk} {l : List Blk} : total (b :: l) = b.size + headerSize + total l := rfl

theorem total_nil : total [] = 0 := rfl

/-- A request moves bytes between the blocks, the break and the bytes lost. -/
theorem Serve.total {size brk brk' n : Nat} {l l' : List Blk} {r : Option Nat} (h : Serve size brk l l' r brk' n) :
    total l' + n + brk = total l + brk' := by
  cases h with
  | fail => omega
  | fit _ hsize =>
    rw [total_append, total_append, total_cons, total_cons]
    dsimp only
    omega
  | split _ hsize =>
    rw [total_append, total_append, total_cons, total_cons, total_cons]
    dsimp only
    omega
  | grow =>
    rw [total_append, total_cons, total_nil]
    dsimp only
    omega

theorem JoinPrev.total {l k : List Blk} {b b' : Blk} (h : JoinPrev l b k b') :
    total k + b'.size = total l + b.size := by
  cases h with
  | join _ =>
    rw [total_append, total_cons, total_nil]
    dsimp only
    omega
  | skip _ => rfl

theorem JoinNext.total {m n : List Blk} {b b' : Blk} (h : JoinNext b m b' n) :
    total n + b'.size = total m + b.size := by
  cases h with
  | join _ =>
    rw [total_cons]
    dsimp only
    omega
  | skip _ => rfl

theorem Release.total {b : Blk} {l m l' : List Blk} (h : Release b l m l') : total l' = total (l ++ b :: m) := by
  rcases h with ⟨k, b1, b2, n, hprev, hnext, e⟩
  subst e
  have h1 := hprev.total
  have h2 := hnext.total
  rw [total_append, total_append, total_cons, total_cons]
  dsimp only at h1
  omega

/-! ## Allocated blocks are live -/

def Covered (l : List Blk) (live : List (Nat × Nat)) : Prop :=
  ∀ b ∈ l, b.free = false → b.addr + headerSize ∈ live.map Prod.fst

theorem covered_append {l m : List Blk} {live : List (Nat × Nat)} :
    Covered (l ++ m) live ↔ Covered l live ∧ Covered m live := List.forall_mem_append

theorem covered_cons {b : Blk} {l : List Blk} {live : List (Nat × Nat)} :
    Covered (b :: l) live ↔ (b.free = false → b.addr + headerSize ∈ live.map Prod.fst) ∧ Covered l live :=
  List.forall_mem_cons

theorem covered_nil {live : List (Nat × Nat)} : Covered [] live := by
  intro b hb
  cases hb

theorem Covered.cons {l : List Blk} {live : List (Nat × Nat)} (h : Covered l live) (x : Nat × Nat) :
    Covered l (x :: live) := fun b hb hfree => List.mem_cons_of_mem _ (h b hb hfree)

theorem Covered.serve {size brk brk' n k : Nat} {l l' : List Blk} {live : List (Nat × Nat)} {r : Option Nat}
    (h : Covered l live) (hs : Serve size brk l l' r brk' n) : Covered l' (grant live k r) := by
  cases hs with
  | fail => exact h
  | fit _ _ =>
    rcases covered_append.mp h with ⟨hl, hbm⟩
    refine covered_append.mpr ⟨hl.cons _, covered_cons.mpr ⟨fun _ => List.mem_cons_self, ?_⟩⟩
    exact (covered_cons.mp hbm).2.cons _
  | split _ _ =>
    rcases covered_append.mp h with ⟨hl, -⟩
    refine covered_append.mpr ⟨hl.cons _, covered_cons.mpr ⟨fun _ => List.mem_cons_self, ?_⟩⟩
    refine covered_cons.mpr ⟨?_, covered_nil⟩
    intro hfree
    cases hfree
  | grow => exact covered_append.mpr ⟨h.cons _, covered_cons.mpr ⟨fun _ => List.mem_cons_self, covered_nil⟩⟩

theorem JoinPrev.sub {l k : List Blk} {b b' : Blk} (h : JoinPrev l b k b') :
    (∀ c ∈ k, c ∈ l) ∧ (b.free = true → b'.free = true) := by
  cases h with
  | join _ => exact ⟨fun c hc => List.mem_append_left _ hc, fun _ => rfl⟩
  | skip _ => exact ⟨fun _ hc => hc, fun hb => hb⟩

theorem JoinNext.sub {m n : List Blk} {b b' : Blk} (h : JoinNext b m b' n) :
    (∀ c ∈ n, c ∈ m) ∧ (b.free = true → b'.free = true) := by
  cases h with
  | join _ => exact ⟨fun c hc => List.mem_cons_of_mem _ hc, fun hb => hb⟩
  | skip _ => exact ⟨fun _ hc => hc, fun hb => hb⟩

/-- Freeing a block leaves no other block allocated than those that were. -/
theorem Release.allocated {b c : Blk} {l m l' : List Blk} (h : Release b l m l') (hc : c ∈ l')
    (hcfree : c.free = false) :
    c ∈ l ∨ c ∈ m := by
  rcases h with ⟨k, b1, b2, n, hprev, hnext, e⟩
  subst e
  rcases List.mem_append.mp hc with hc | hc
  · exact Or.inl (hprev.sub.1 c hc)
  · rcases List.mem_cons.mp hc with hc | hc
    · rw [hc, hnext.sub.2 (hprev.sub.2 rfl)] at hcfree
      cases hcfree
    · exact Or.inr (hnext.sub.1 c hc)

theorem mem_drop {live : List (Nat × Nat)} {p q : Nat} (hp : p ∈ live.map Prod.fst) (hne : p ≠ q) :
    p ∈ (drop live (some q)).map Prod.fst := by
  rcases List.mem_map.mp hp with ⟨x, hx, e⟩
  subst e
  refine List.mem_map_of_mem (List.mem_filter.mpr ⟨hx, ?_⟩)
  rw [decide_eq_true_eq]
  intro e
  exact hne (Option.some.inj e)

theorem Covered.release {brk : Nat} {l m l' : List Blk} {b : Blk} {live : List (Nat × Nat)}
    (h : Covered (l ++ b :: m) live) (hf : Fits 0 (l ++ b :: m) brk) (hr : Release b l m l') :
    Covered l' (drop live (some (b.addr + headerSize))) := by
  intro c hc hcfree
  have hmem : c ∈ l ++ b :: m := by
    rcases hr.allocated hc hcfree with hl | hm
    · exact List.mem_append_left _ hl
    · exact List.mem_append_right _ (List.mem_cons_of_mem _ hm)
  apply mem_drop (h c hmem hcfree)
  intro e
  have hn := hf.nodup
  rw [List.map_append, List.map_cons, List.nodup_append, List.nodup_cons] at hn
  have haddr : c.addr = b.addr := Nat.add_right_cancel e
  rcases hr.allocated hc hcfree with hl | hm
  · exact hn.2.2 _ (List.mem_map_of_mem hl) _ List.mem_cons_self haddr
  · exact hn.2.1.1 (haddr ▸ List.mem_map_of_mem hm)

theorem Covered.resize {l : List Blk} {live : List (Nat × Nat)} {p k : Nat} (h : Covered l live) :
    Covered l (grant (drop live (some p)) k (some p)) := by
  intro c hc hcfree
  by_cases hcp : c.addr + headerSize = p
  · rw [hcp]
    exact List.mem_cons_self
  · exact List.mem_cons_of_mem _ (mem_drop (h c hc hcfree) hcp)

/-! ## Runs -/

/-- What holds of the blocks, the break and the live pointers of a run that began with
    the break at `brk0`. -/
structure Accounts (brk0 brk : Nat) (l : List Blk) (live : List (Nat × Nat)) (lost : Nat) : Prop where
  total : brk0 + total l + lost = brk
  merged : Merged l
  covered : Covered l live

theorem accounts_stable (brk0 : Nat) : Stable (Accounts brk0) where
  init := by
    intro brk lost h
    have hle : headerSize ≤ initialHeapSize := by decide
    have htotal := h.total
    refine ⟨?_, merged_singleton, ?_⟩
    · rw [total_nil] at htotal
      rw [total_cons, total_nil]
      dsimp only
      omega
    · refine covered_cons.mpr ⟨?_, covered_nil⟩
      intro hfree
      cases hfree
  serve := by
    intro size brk brk' n k lost l l' live r h hs
    have htotal := h.total
    have hmoved := hs.total
    exact ⟨by omega, h.merged.serve hs, h.covered.serve hs⟩
  release := by
    intro brk lost l m l' b live h hf _ hr
    refine ⟨?_, h.merged.release hr, h.covered.release hf hr⟩
    rw [hr.total]
    exact h.total
  resize := fun _ h => ⟨h.total, h.merged, h.covered.resize⟩

/-- All of the list is one free block, and its bytes, its header and the bytes lost are
    what `sbrk` gave since the break was at `brk0`. -/
structure Single (brk0 : Nat) (h : Heap) (a : Nat) (b : Metadata) (lost : Nat) : Prop where
  head : h.head = some a
  tail : h.tail = some a
  block : h.block a = some b
  alone : b.next = none ∧ b.prev = none
  free : b.free = true
  total : brk0 + (b.size + headerSize) + lost = h.brk

/-- When nothing is live, there is one block. -/
theorem InvWith.single {brk0 lost : Nat} {h : Heap} (hi : InvWith (Accounts brk0) h [] lost) (hhead : h.head ≠ none) :
    ∃ a b, Single brk0 h a b lost := by
  rcases hi with ⟨l, ⟨hnone, -⟩ | hr, -, hacc⟩
  · exact absurd hnone hhead
  have hfree : ∀ b ∈ l, b.free = true := by
    intro b hb
    cases hbf : b.free with
    | true => rfl
    | false => cases hacc.covered b hb hbf
  cases l with
  | nil => exact absurd rfl hr.ne
  | cons b l =>
    cases l with
    | cons c l =>
      have hnot := (merged_cons.mp hacc.merged).1 c rfl
      exact absurd ⟨hfree b (by simp), hfree c (by simp)⟩ hnot
    | nil =>
      have hblock : h.block b.addr = some (node b none none) := hr.block_at (l := [])
      exact ⟨b.addr, _, hr.head, hr.tail, hblock, ⟨rfl, rfl⟩, hfree b (by simp), hacc.total⟩

theorem initial_accounts {s : St} (h : Initial s) : InvWith (Accounts s.heap.brk) s.heap s.live 0 := by
  rcases h with ⟨hhead, htail, -, hlive⟩
  rw [hlive]
  exact ⟨[], Or.inl ⟨hhead, htail, rfl⟩, ⟨List.nodup_nil, by simp⟩, rfl, .nil, covered_nil⟩

def tallied (s0 : St) : Run.Sys (St × Nat) Act :=
  Run.ofFun (fun x => x = (s0, 0)) fun x a => (step x.1 a).map fun s => (s, x.2 + lostBy x.1 a)

/-- Every byte that `sbrk` gave is in the one block that is left or was lost. -/
theorem bytes_accounted {s0 s : St} {lost : Nat} (h0 : Initial s0)
    (h : (tallied s0).Via (fun x a => Allowed x.1 a) (s, lost)) (hlive : s.live = []) (hhead : s.heap.head ≠ none) :
    ∃ a b, Single s0.heap.brk s.heap a b lost := by
  have hi : InvWith (Accounts s0.heap.brk) s.heap s.live lost := by
    refine h.inv (I := fun x => InvWith (Accounts s0.heap.brk) x.1.heap x.1.live x.2) ?_ ?_
    · intro x hx
      rw [hx]
      exact initial_accounts h0
    · intro x a x' hi hc hs
      rcases Option.map_eq_some_iff.mp hs with ⟨s', hstep, e⟩
      subst e
      exact step_keeps (accounts_stable _) hi hc.1 hc.2 hstep
  rw [hlive] at hi
  exact hi.single hhead

def runs (s0 : St) : Run.Sys St Act := Run.ofFun (fun s => s = s0) step

/-- A call that splits no block but the last and has no near fit. -/
def Snug (s : St) (a : Act) : Prop := Allowed s a ∧ lostBy s a = 0

/-- When everything has been freed, all that `sbrk` gave is in one free block. -/
theorem no_byte_lost {s0 s : St} (h0 : Initial s0) (h : (runs s0).Via Snug s) (hlive : s.live = []) :
    (s.heap.head ≠ none → ∃ a b, Single s0.heap.brk s.heap a b 0) ∧
      (s.heap.head = none → s.heap.brk = s0.heap.brk) := by
  have hi : InvWith (Accounts s0.heap.brk) s.heap s.live 0 := by
    refine h.inv (I := fun s => InvWith (Accounts s0.heap.brk) s.heap s.live 0) ?_ ?_
    · intro s hs
      rw [hs]
      exact initial_accounts h0
    · intro s a s' hi hc hs
      have hi' := step_keeps (accounts_stable _) hi hc.1.1 hc.1.2 hs
      rw [hc.2] at hi'
      exact hi'
  rw [hlive] at hi
  refine ⟨hi.single, ?_⟩
  intro hhead
  rcases hi with ⟨l, ⟨-, -, hl⟩ | hr, -, hacc⟩
  · have htotal := hacc.total
    rw [hl] at htotal
    exact htotal.symm
  · exact absurd hhead hr.initialised

instance instDecidableSnug (s : St) (a : Act) : Decidable (Snug s a) := inferInstanceAs (Decidable (_ ∧ _))

/-- The heap is extended, a block moved and another resized, a block taken whole again. -/
theorem no_byte_lost_moved : ∃ s, (runs start).Via Snug s ∧ s.live = [] ∧ s.heap.brk = 268440592 ∧
    ∃ a b, Single 4096 s.heap a b 0 := by
  have hs : (Run.exec (Run.guard Snug step) start
      [.malloc 1000 ⟨true, true⟩, .calloc 3 8 ⟨true, true⟩, .malloc 268434336 ⟨true, true⟩,
        .realloc (some 4128) 1001 ⟨true, true⟩, .malloc 1000 ⟨true, true⟩, .realloc (some 5160) 10 ⟨true, true⟩,
        .free (some 5216), .free (some 4128), .free (some 5160), .free (some 268439584)]).map
      (fun s => (s.live, s.heap.head, s.heap.brk)) = some ([], some 4096, 268440592) := by
    decide +kernel
  rcases Option.map_eq_some_iff.mp hs with ⟨s, hs, e⟩
  simp only [Prod.mk.injEq] at e
  have h0 : (runs start).Via Snug start := .init rfl
  have hvia : (runs start).Via Snug s := Run.via_guard h0 hs
  have hhead : s.heap.head ≠ none := by rw [e.2.1]; exact Option.some_ne_none _
  exact ⟨s, hvia, e.1, e.2.2, (no_byte_lost start_initial hvia e.1).1 hhead⟩

/-- Of 1000 bytes 984 are asked for, and 16 are lost; and a block is split before
    another one, which is freed while the block it keeps for its predecessor is
    allocated, and stays apart. -/
theorem bytes_lost :
    (∃ s, (runs start).Via (fun s a => valid s a = true) s ∧ s.live = [] ∧ s.heap.head ≠ none ∧
      ¬ ∃ a b, Single 4096 s.heap a b 0) ∧
    ∃ s, (runs start).Via (fun s a => valid s a = true ∧ lostBy s a = 0) s ∧ s.live = [] ∧ s.heap.head ≠ none ∧
      ¬ ∃ a b, Single 4096 s.heap a b 0 := by
  constructor
  · have hs : (Run.exec (Run.guard (fun s a => valid s a = true) step) start
        [.malloc 1000 ⟨true, true⟩, .malloc 16 ⟨true, true⟩, .malloc 268434344 ⟨true, true⟩, .free (some 4128),
          .malloc 984 ⟨true, true⟩, .free (some 4128), .free (some 5160), .free (some 5208)]).map
        (fun s => (s.live, s.heap.head, s.heap.brk, s.heap.block 4096)) =
        some ([], some 4096, 268439552, some ⟨268435408, none, none, true⟩) := by
      decide +kernel
    rcases Option.map_eq_some_iff.mp hs with ⟨s, hs, e⟩
    simp only [Prod.mk.injEq] at e
    rcases e with ⟨hlive, hhead, hbrk, hblock⟩
    have h0 : (runs start).Via (fun s a => valid s a = true) start := .init rfl
    refine ⟨s, Run.via_guard h0 hs, hlive, by rw [hhead]; exact Option.some_ne_none _, ?_⟩
    intro hsingle
    rcases hsingle with ⟨a, b, hsingle⟩
    have ha : a = 4096 := Option.some.inj (hsingle.head.symm.trans hhead)
    subst ha
    have hb := Option.some.inj (hsingle.block.symm.trans hblock)
    have htotal := hsingle.total
    rw [hb, hbrk] at htotal
    revert htotal
    decide
  · have hs : (Run.exec (Run.guard (fun s a => valid s a = true ∧ lostBy s a = 0) step) start
        [.malloc 1000 ⟨true, true⟩, .malloc 16 ⟨true, true⟩, .malloc 268434344 ⟨true, true⟩, .free (some 4128),
          .malloc 100 ⟨true, true⟩, .free (some 5160), .free (some 4128), .free (some 5208)]).map
        (fun s => (s.live, s.heap.head, s.heap.tail)) = some ([], some 4096, some 5128) := by
      decide +kernel
    rcases Option.map_eq_some_iff.mp hs with ⟨s, hs, e⟩
    simp only [Prod.mk.injEq] at e
    rcases e with ⟨hlive, hhead, htail⟩
    have h0 : (runs start).Via (fun s a => valid s a = true ∧ lostBy s a = 0) start := .init rfl
    refine ⟨s, Run.via_guard h0 hs, hlive, by rw [hhead]; exact Option.some_ne_none _, ?_⟩
    intro hsingle
    rcases hsingle with ⟨a, b, hsingle⟩
    have ha : some a = some 4096 := hsingle.head.symm.trans hhead
    have ha' : some a = some 5128 := hsingle.tail.symm.trans htail
    rw [ha] at ha'
    cases ha'

end SysProg.Malloc
