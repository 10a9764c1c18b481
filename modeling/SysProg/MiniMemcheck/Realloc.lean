/-
  SysProg.MiniMemcheck.Realloc — when `mini_realloc` keeps the list
  (see `SysProg.MiniMemcheck.MiniMemcheck` and `SysProg.MiniMemcheck.Ledger`).

  After the backing call the code reads the block where it was and writes the one it got,
  and it never changes the pointers that lead to the block. A block that moved is read
  after it was freed; a call that failed is written through NULL, its bytes already
  counted. A size that wraps with the `meta_data` in front leaves a block shorter than
  that. So `mini_realloc` of a live payload does what it must exactly when the size is the
  one the block has, or does not wrap and the backing `realloc` keeps the block in place
  (`realloc_tracks_iff`).
-/

import SysProg.MiniMemcheck.Ledger

namespace SysProg.MiniMemcheck

open Function (update)
open SysProg.Chain (Seg)

variable {s : St} {l l' : List (Addr × MetaData)} {a : Addr} {m : MetaData} {live : List (Addr × Nat)} {p n size : Nat}
  {filename instruction tmp : Addr} {backing : Realloc}

def Realloc.payload (p : Addr) : Realloc → Option Addr
  | .kept => some p
  | .moved new => some (MiniMemcheck.payload new)
  | .failed => none

def resized (live : List (Addr × Nat)) (p p' size : Nat) : List (Addr × Nat) :=
  live.map fun x => if x.1 = p then (p', size) else x

/-- The list and the counters follow the live payloads, of which `p` has size `n`; a
    failure changes nothing. -/
def ReallocTracks (s : St) (live : List (Addr × Nat)) (p n size : Nat) (filename instruction tmp : Addr)
    (backing : Realloc) : Prop :=
  ∃ s' q, miniRealloc s (some p) size filename instruction tmp backing = some (s', q) ∧
    match if n = size then some p else backing.payload p with
    | some p' => q = some p' ∧ Lists s' (resized live p p' size) ∧ Balanced s' (resized live p p' size)
    | none => q = none ∧ Lists s' live ∧ SameCounters s s'

theorem resized_split (h : Blocks s (l ++ (a, m) :: l')) (p' size : Nat) :
    resized ((l ++ (a, m) :: l').map entry) (payload a) p' size = l.map entry ++ (p', size) :: l'.map entry := by
  have hid : ∀ k : List (Addr × Nat), (∀ x ∈ k, x.1 ≠ payload a) →
      k.map (fun x => if x.1 = payload a then (p', size) else x) = k := by
    intro k hk
    exact (List.map_congr_left fun x hx => if_neg (hk x hx)).trans (List.map_id' k)
  unfold resized
  rw [List.map_append, List.map_cons, List.map_append, List.map_cons, hid _ fun x hx => h.others (Or.inl hx),
    hid _ fun x hx => h.others (Or.inr hx)]
  exact congrArg (fun y => l.map entry ++ y :: l'.map entry) (if_pos rfl)

/-- A block of another size in place. -/
theorem Blocks.set (h : Blocks s (l ++ (a, m) :: l')) (size : Nat) :
    Blocks { s with node := update s.node a (some { m with requestSize := size }) }
      (l ++ (a, { m with requestSize := size }) :: l') where
  seg := h.seg.set rfl
  rest := by
    intro c hc
    have hne : c ≠ a := fun e => hc (by simp [e])
    refine (Function.update_of_ne hne ..).trans (h.rest c ?_)
    rw [List.map_append, List.map_cons] at hc ⊢
    exact hc
  bound := by
    intro c hc
    apply h.bound c
    rw [List.map_append, List.map_cons] at hc ⊢
    exact hc

/-- What the call does with the block of a live payload of another size. -/
theorem miniRealloc_live (h : Blocks s (l ++ (a, m) :: l')) (hsize : 0 < size) (hne : m.requestSize ≠ size) :
    miniRealloc s (some (payload a)) size filename instruction tmp backing = resize s a size backing := by
  have ha : s.node a = some m := h.seg.mem (by simp)
  simp only [miniRealloc, if_neg (Nat.ne_of_gt hsize), h.find, Option.bind_some, ha, if_neg hne]

theorem resize_kept {size : Nat} (hfit : metaSize + size < wordSize) (h : Blocks s (l ++ (a, m) :: l')) : ∃ s',
    resize s a size .kept = some (s', some (payload a)) ∧
    Lists s' (l.map entry ++ (payload a, size) :: l'.map entry) ∧
    (m.requestSize ≤ size → s'.totalMemoryRequested = (s.totalMemoryRequested + (size - m.requestSize)) % wordSize ∧
      s'.totalMemoryFreed = s.totalMemoryFreed) ∧
    (size < m.requestSize → s'.totalMemoryRequested = s.totalMemoryRequested ∧
      s'.totalMemoryFreed = (s.totalMemoryFreed + (m.requestSize - size)) % wordSize) := by
  have ha : s.node a = some m := h.seg.mem (by simp)
  have hb := h.set size
  have hroom : ¬ allocSize size < metaSize := by
    rw [allocSize_eq hfit]
    omega
  simp only [resize, realloc, if_neg hroom, ha, Option.bind_some, Option.map_some]
  split
  · rename_i hlt
    refine ⟨_, rfl, ⟨_, ⟨hb.seg, hb.rest, hb.bound⟩, by simp [entry]⟩, fun hle => absurd hlt (Nat.not_lt.mpr hle), ?_⟩
    exact fun _ => ⟨rfl, rfl⟩
  · rename_i hle
    exact ⟨_, rfl, ⟨_, ⟨hb.seg, hb.rest, hb.bound⟩, by simp [entry]⟩, fun _ => ⟨rfl, rfl⟩, fun hlt => absurd hlt hle⟩

/-- The sums before and after differ by what the counters count. -/
theorem balanced_resize {s' : St} (k k' : List (Addr × Nat)) (p : Addr) {n size : Nat}
    (hmore : n ≤ size → s'.totalMemoryRequested = (s.totalMemoryRequested + (size - n)) % wordSize ∧
      s'.totalMemoryFreed = s.totalMemoryFreed)
    (hless : size < n → s'.totalMemoryRequested = s.totalMemoryRequested ∧
      s'.totalMemoryFreed = (s.totalMemoryFreed + (n - size)) % wordSize) :
    Balanced s' (k ++ (p, size) :: k') ↔ Balanced s (k ++ (p, n) :: k') := by
  unfold Balanced wordSize at *
  rw [List.map_append, List.sum_append, List.map_cons, List.sum_cons, List.map_append, List.sum_append, List.map_cons,
    List.sum_cons]
  rcases Nat.lt_or_ge size n with hlt | hge
  · rw [(hless hlt).1, (hless hlt).2]
    omega
  · rw [(hmore hge).1, (hmore hge).2]
    omega

theorem realloc_tracks_iff (h : Lists s live) (hp : (p, n) ∈ live) (hsize : 0 < size) (hword : size < wordSize)
    (hnew : ∀ new, backing = .moved new → payload new ≠ p) :
    ReallocTracks s live p n size filename instruction tmp backing ↔
      Balanced s live ∧ (n = size ∨ backing = .kept ∧ metaSize + size < wordSize) := by
  rcases h with ⟨l, hb, hl⟩
  rw [← hl] at hp ⊢
  rcases List.mem_map.mp hp with ⟨⟨a, m⟩, hx, e⟩
  rcases List.append_of_mem hx with ⟨l₁, l₂, hsplit⟩
  obtain ⟨rfl, rfl⟩ := Prod.mk.inj e
  rw [hsplit] at hb ⊢
  have ha : s.node a = some m := hb.seg.mem (by simp)
  unfold ReallocTracks
  by_cases hn : m.requestSize = size
  · -- the backing allocator is not called
    have hcall : miniRealloc s (some (payload a)) size filename instruction tmp backing =
      some (s, some (payload a)) := by
      simp only [miniRealloc, if_neg (Nat.ne_of_gt hsize), hb.find, Option.bind_some, ha, if_pos hn]
    have hsame : resized ((l₁ ++ (a, m) :: l₂).map entry) (payload a) (payload a) size =
        (l₁ ++ (a, m) :: l₂).map entry := by
      rw [resized_split hb, List.map_append, List.map_cons, ← hn]
      rfl
    rw [hcall, if_pos hn]
    dsimp only
    rw [hsame]
    constructor
    · intro ⟨s', q, hrun, _, _, hbal⟩
      cases hrun
      exact ⟨hbal, Or.inl hn⟩
    · intro ⟨hbal, _⟩
      exact ⟨s, _, rfl, rfl, ⟨_, hb, rfl⟩, hbal⟩
  · rw [miniRealloc_live hb hsize hn, if_neg hn]
    cases backing with
    | kept =>
      by_cases hfit : metaSize + size < wordSize
      · rcases resize_kept hfit hb with ⟨s', hres, hlists, hmore, hless⟩
        have hbal := balanced_resize (l₁.map entry) (l₂.map entry) (payload a) hmore hless
        rw [hres]
        dsimp only [Realloc.payload]
        rw [resized_split hb, List.map_append, List.map_cons]
        constructor
        · intro ⟨s'', q, hrun, _, _, hbal'⟩
          cases hrun
          exact ⟨hbal.mp hbal', Or.inr ⟨rfl, hfit⟩⟩
        · intro ⟨hbal', _⟩
          exact ⟨s', _, rfl, rfl, hlists, hbal.mpr hbal'⟩
      · -- the block is too short for its `meta_data`
        have hres : resize s a size .kept = none := by
          simp only [resize, realloc, if_pos (allocSize_lt hword hfit), Function.update_self, Option.bind_none]
        rw [hres]
        constructor
        · intro ⟨s', q, hrun, _⟩
          cases hrun
        · intro ⟨_, hk⟩
          rcases hk with hk | ⟨-, hk⟩
          · exact absurd hk hn
          · exact absurd hk hfit
    | moved new =>
      have hne : a ≠ new := fun e => hnew new rfl (congrArg payload e.symm)
      have hres : resize s a size (.moved new) = none := by
        simp only [resize, realloc, Function.update_of_ne hne, Function.update_self, Option.bind_none]
      rw [hres]
      constructor
      · intro ⟨s', q, hrun, _⟩
        cases hrun
      · intro ⟨_, hk⟩
        rcases hk with hk | ⟨hk, -⟩
        · exact absurd hk hn
        · cases hk
    | failed =>
      have hres : resize s a size .failed = none := by
        simp only [resize, realloc, ha, Option.bind_some, Option.bind_none]
      rw [hres]
      constructor
      · intro ⟨s', q, hrun, _⟩
        cases hrun
      · intro ⟨_, hk⟩
        rcases hk with hk | ⟨hk, -⟩
        · exact absurd hk hn
        · cases hk

/-- One block grows in place. -/
theorem realloc_tracks_iff_kept : ∃ s log, sys.Reach (s, log) ∧ (ledger log).live = [(4128, 10)] ∧
    ReallocTracks s (ledger log).live 4128 10 20 1 2 0 .kept := by
  have hrun : (Run.exec (Run.guard (fun (_ : St × List (Call × Option Addr)) c => c.Fits) (Run.logged step)) (start, [])
      [.malloc 10 1 2 4096]).map (fun x => (ledger x.2).live) = some [(4128, 10)] := by
    decide +kernel
  rcases Option.map_eq_some_iff.mp hrun with ⟨⟨s, log⟩, hexec, hlive⟩
  have h0 : sys.Via (fun _ c => c.Fits) (start, []) := .init rfl
  have hr : sys.Via (fun _ c => c.Fits) (s, log) := Run.via_guard h0 hexec
  have ht := reach_tracks hr
  have hp : (4128, 10) ∈ (ledger log).live := by simp [show (ledger log).live = [(4128, 10)] from hlive]
  refine ⟨s, log, hr.reach, hlive, (realloc_tracks_iff ht.lists hp (by decide) (by decide) ?_).mpr
    ⟨ht.balanced, Or.inr ⟨rfl, by decide⟩⟩⟩
  intro new hnew
  cases hnew

/-- The same block moves, or the backing call fails: the block is used after it was freed,
    or NULL is. -/
theorem moved_block_is_lost : ∃ s log, sys.Reach (s, log) ∧ (ledger log).live = [(4128, 10)] ∧
    ¬ ReallocTracks s (ledger log).live 4128 10 20 1 2 0 (.moved 8192) ∧
    ¬ ReallocTracks s (ledger log).live 4128 10 20 1 2 0 .failed := by
  have hrun : (Run.exec (Run.logged step) (start, []) [.malloc 10 1 2 4096]).map (fun x => ((ledger x.2).live,
      (miniRealloc x.1 (some 4128) 20 1 2 0 (.moved 8192)).isSome,
        (miniRealloc x.1 (some 4128) 20 1 2 0 .failed).isSome)) =
      some ([(4128, 10)], false, false) := by
    decide +kernel
  rcases Option.map_eq_some_iff.mp hrun with ⟨⟨s, log⟩, hexec, hres⟩
  have h0 : sys.Reach (start, []) := .init rfl
  have hr : sys.Reach (s, log) := Run.via_exec h0 (fun _ _ _ => trivial) hexec
  simp only [Prod.mk.injEq] at hres
  refine ⟨s, log, hr, hres.1, ?_, ?_⟩
  · intro ⟨s', q, hcall, _⟩
    rw [hcall] at hres
    cases hres.2.1
  · intro ⟨s', q, hcall, _⟩
    rw [hcall] at hres
    cases hres.2.2

end SysProg.MiniMemcheck
