/-
  SysProg.Mmu.Processes — adding and removing a process.

  A process is added with a fresh directory, a table and two pages, all zero
  (`Rep.addProcess`). Its removal walks its tables: every frame that a slot of the process
  has goes back to the kernel and every swap file of its pages is deleted, and nothing
  else is touched (`Clears`, `Gone`), which leaves the other processes what they
  had (`Rep.removeProcess`).
-/

import SysProg.Lib.Loop
import SysProg.Mmu.Frames

namespace SysProg.Mmu

open Function (update)
open SysProg.Bytes (Mem load store)

variable {P : Platform} {s s' : St} {φ : Frames} {M : Space}

/-! ## Processes -/

/-- A process is given a fresh directory. -/
theorem Rep.link_directory (hr : Rep P s φ M) {pid : Nat} {g : Frame} (hf : Fresh s φ g)
    (hnone : φ (.directory pid) = none) (segs : Nat → Option Segmentations) :
    Rep P { s with pageDirectories := update s.pageDirectories pid (some g), segmentations := segs }
      (update φ (.directory pid) (some g)) M := by
  have htables : ∀ p k, φ (.table p k) ≠ none → p ≠ pid := by
    intro p k hp e
    apply hp
    rw [e, hr.table, refOf_table, hnone]
    rfl
  have href : ∀ p k l, refOf (update φ (.directory pid) (some g)) (.page p k l) = refOf φ (.page p k l) := by
    intro p k l
    rw [refOf_page, refOf_page, Function.update_of_ne (by simp)]
  refine ⟨⟨?_, ?_, ?_, ?_⟩, ?_, ?_, ?_, ?_, ?_⟩
  · intro p
    by_cases hp : p = pid
    · dsimp only
      rw [hp, Function.update_self, Function.update_self]
    · rw [Function.update_of_ne (by simpa using hp)]
      exact (hr.directory p).trans (Function.update_of_ne hp _ _).symm
  · intro p k
    rw [Function.update_of_ne (by simp)]
    by_cases hp : p = pid
    · have hnot : φ (.table p k) = none := by
        by_contra h
        exact htables p k h hp
      subst hp
      rw [hnot, refOf_table, Function.update_self]
      exact (hf.entry_none k).symm
    · rw [refOf_table, Function.update_of_ne (by simpa using hp)]
      exact hr.table p k
  · intro p k l
    rw [Function.update_of_ne (by simp), href]
    exact hr.page p k l
  · intro x y f hx hy
    refine inj_update hr.toTree ?_ hx hy
    intro f hg
    exact Option.some.inj hg ▸ hf.noSlot
  · intro x f hx
    by_cases hxd : x = .directory pid
    · rw [hxd, Function.update_self] at hx
      exact Option.some.inj hx ▸ hf.inUse
    · rw [Function.update_of_ne hxd] at hx
      exact hr.used x f hx
  · intro f r h
    rcases hr.evictable f r h with ⟨p, k, l, hp, hp'⟩
    exact ⟨p, k, l, by rw [Function.update_of_ne (by simp)]; exact hp, by rw [href]; exact hp'⟩
  · intro r q hq
    rcases hr.swap r q hq with ⟨p, k, hp⟩
    exact ⟨p, k, by rw [Function.update_of_ne (by simp)]; exact hp⟩
  · intro v r hv va hva
    rw [href]
    exact hr.tlb v r hv va hva
  · intro p k l
    refine Eq.trans ?_ (hr.mem p k l)
    exact pageOf_congr (Function.update_of_ne (by simp) _ _) (href p k l) (fun _ _ => rfl) fun _ _ => rfl

theorem Rep.addPage (hr : Rep P s φ M) {pid : Nat} {k i : Index} {pde : Ref} {g : Grant}
    (href : refOf φ (.table pid k) = some pde) (htable : φ (.table pid k) ≠ none)
    (hnone : φ (.page pid k i) = none) (hzero : M pid k i = fun _ => 0) (h : addPage P s pde i g = some s') :
    ∃ φ', Rep P s' φ' M ∧ (∀ x, (∀ p l j, x ≠ .page p l j) → φ' x = φ x) ∧ Kept P s φ s' φ' ∧
      ∀ j, j ≠ i → φ (.page pid k j) = none → φ' (.page pid k j) = none := by
  have hpte : refOf φ (.page pid k i) = some ⟨(entry P s pde).baseAddr, i⟩ := by
    have ht := hr.table pid k
    rw [href, Option.bind_some] at ht
    unfold Entry.target at ht
    split at ht
    · rw [refOf_page, ht]
      rfl
    · exact absurd ht htable
  unfold Mmu.addPage at h
  rcases Option.map_eq_some_iff.mp h with ⟨s1, hask, e⟩
  rcases hr.ask hask with ⟨φ1, s2, hr2, hfresh, hshrinks, -, e2, hother⟩
  have hsub : ∀ j, φ (.page pid k j) = none → φ1 (.page pid k j) = none := by
    intro j hj
    cases hφ : φ1 (.page pid k j) with
    | none => rfl
    | some f => rw [hshrinks.sub _ f hφ] at hj; cases hj
  have hlink := hr2.link_page hfresh (by rw [hshrinks.refOf_eq]; exact hpte) (hsub i hnone) fun r' hr' =>
    (Option.some.inj hr').symm
  rw [← e2, Space.set_self hzero] at hlink
  refine ⟨update φ1 (.page pid k i) (some g.frame), ?_, ?_, ⟨?_, e ▸ hother _ (hsub i hnone)⟩, ?_⟩
  · rw [← e]
    have hentry : entry P s2 ⟨(entry P s pde).baseAddr, i⟩ = entry P s1 ⟨(entry P s pde).baseAddr, i⟩ := by
      rw [e2]
      rfl
    rw [hentry] at hlink
    exact hlink
  · intro x hx
    rw [Function.update_of_ne (hx _ _ _)]
    exact hshrinks.keep x hx
  · intro hopened
    subst e
    exact ((hopened.ask hask).setEntry (Entry.pointTo_open _ _)).refs (refOf_update_page.trans hshrinks.refOf_eq)
  · intro j hj hnone'
    rw [Function.update_of_ne (by simpa using hj)]
    exact hsub j hnone'

/-- A process without a directory has no frames and no memory. -/
theorem Rep.absent (hr : Rep P s φ M) {pid : Nat} (hd : φ (.directory pid) = none) (i j : Index) :
    φ (.table pid i) = none ∧ φ (.page pid i j) = none ∧ M pid i j = fun _ => 0 := by
  have ht : φ (.table pid i) = none := by rw [hr.table, refOf_table, hd]; rfl
  have hp : φ (.page pid i j) = none := by rw [hr.page, refOf_page, ht]; rfl
  refine ⟨ht, hp, ?_⟩
  rw [← hr.mem]
  unfold pageOf
  rw [hp, refOf_page, ht]
  rfl

/-- A process is added with its memory zero, which is what it was before. -/
theorem Rep.addProcess (hr : Rep P s φ M) {pid : Nat} {g : Fin 4 → Grant} (hd : φ (.directory pid) = none)
    (h : addProcess P s pid g = some s') :
    ∃ φ', Rep P s' φ' M ∧ (∀ p, p ≠ pid → φ' (.directory p) = φ (.directory p)) ∧ Kept P s φ s' φ' := by
  unfold Mmu.addProcess at h
  split at h
  · rcases Option.bind_eq_some_iff.mp h with ⟨s1, hask1, h⟩
    rcases Option.bind_eq_some_iff.mp h with ⟨s3, hask3, h⟩
    rcases Option.bind_eq_some_iff.mp h with ⟨s5, hpage1, hpage2⟩
    -- the directory
    rcases hr.ask hask1 with ⟨φ1, s2, hr2, hfresh2, hshrinks1, -, e2, hother1⟩
    have hs12 : s1 = s2 := by rw [e2, ← hfresh2.notEvictable, Function.update_eq_self]
    subst hs12
    have hd1 : φ1 (.directory pid) = none := (hshrinks1.keep _ (by simp)).trans hd
    have hzero : ∀ k i, M pid k i = fun _ => 0 := fun k i => (hr.absent hd k i).2.2
    have hr3 := hr2.link_directory hfresh2 hd1 (update s1.segmentations pid (some initialSegments))
    have htable : update φ1 (.directory pid) (some (g 0).frame) (.table pid 0) = none :=
      (Function.update_of_ne (by simp) _ _).trans (hr2.absent hd1 0 0).1
    have hpages : ∀ j, update φ1 (.directory pid) (some (g 0).frame) (.page pid 0 j) = none := fun j =>
      (Function.update_of_ne (by simp) _ _).trans (hr2.absent hd1 0 j).2.1
    have hdir : update φ1 (.directory pid) (some (g 0).frame) (.directory pid) = some (g 0).frame :=
      Function.update_self ..
    have hothers : ∀ p, p ≠ pid →
        update φ1 (.directory pid) (some (g 0).frame) (.directory p) = φ (.directory p) := by
      intro p hp
      rw [Function.update_of_ne (by simpa using hp)]
      exact hshrinks1.keep _ (by simp)
    have hkept3 : Kept P s φ { s1 with
        pageDirectories := update s1.pageDirectories pid (some (g 0).frame)
        segmentations := update s1.segmentations pid (some initialSegments) }
        (update φ1 (.directory pid) (some (g 0).frame)) := by
      refine ⟨?_, hother1 _ hd1⟩
      intro hopened
      apply ((hopened.ask hask1).refs hshrinks1.refOf_eq).congr
      intro p k j r hr
      rw [refOf_page, Function.update_of_ne (by simp), ← refOf_page] at hr
      exact Or.inl ⟨hr, rfl⟩
    generalize update φ1 (.directory pid) (some (g 0).frame) = φ3 at hr3 htable hpages hdir hothers hkept3
    -- its first table
    rcases hr3.ask hask3 with ⟨φ4, s4, hr4, hfresh4, hshrinks4, -, e4, hother3⟩
    have hs34 : s3 = s4 := by rw [e4, ← hfresh4.notEvictable, Function.update_eq_self]
    subst hs34
    have href : refOf φ4 (.table pid 0) = some ⟨(g 0).frame, 0⟩ := by
      rw [hshrinks4.refOf_eq, refOf_table, hdir]
      rfl
    have htable4 : φ4 (.table pid 0) = none := (hshrinks4.keep _ (by simp)).trans htable
    have hr5 := hr4.link_table hfresh4 href htable4
    have hpages4 : ∀ j, update φ4 (.table pid 0) (some (g 1).frame) (.page pid 0 j) = none := by
      intro j
      rw [Function.update_of_ne (by simp)]
      cases hφ : φ4 (.page pid 0 j) with
      | none => rfl
      | some f =>
        have hf := hshrinks4.sub _ f hφ
        rw [hpages j] at hf
        cases hf
    have htable5 : update φ4 (.table pid 0) (some (g 1).frame) (.table pid 0) ≠ none := by
      rw [Function.update_self]
      exact Option.some_ne_none _
    have href5 : refOf (update φ4 (.table pid 0) (some (g 1).frame)) (.table pid 0) = some ⟨(g 0).frame, 0⟩ := by
      rw [refOf_table, Function.update_of_ne (by simp), ← refOf_table]
      exact href
    have hothers5 : ∀ p, p ≠ pid →
        update φ4 (.table pid 0) (some (g 1).frame) (.directory p) = φ (.directory p) := by
      intro p hp
      rw [Function.update_of_ne (by simp), hshrinks4.keep _ (by simp)]
      exact hothers p hp
    have hkept5 : Kept P s φ (setEntry P s3 ⟨(g 0).frame, 0⟩
        ((entry P s3 ⟨(g 0).frame, 0⟩).pointTo (g 1).frame)) (update φ4 (.table pid 0) (some (g 1).frame)) := by
      refine hkept3.trans ⟨?_, hother3 _ htable4⟩
      intro hopened
      exact ((hopened.ask hask3).refs hshrinks4.refOf_eq).link_table hfresh4
    generalize update φ4 (.table pid 0) (some (g 1).frame) = φ5 at hr5 hpages4 htable5 href5 hothers5 hkept5
    -- pages 1 and 2
    rcases hr5.addPage href5 htable5 (hpages4 1) (hzero 0 1) hpage1 with
      ⟨φ6, hr6, hkeep6, hkept6, hnone6⟩
    have href6 : refOf φ6 (.table pid 0) = some ⟨(g 0).frame, 0⟩ := by
      rw [refOf_table, hkeep6 _ (by simp), ← refOf_table]
      exact href5
    have htable6 : φ6 (.table pid 0) ≠ none := by rw [hkeep6 _ (by simp)]; exact htable5
    rcases hr6.addPage href6 htable6 (hnone6 2 (by decide) (hpages4 2)) (hzero 0 2) hpage2 with
      ⟨φ7, hr7, hkeep7, hkept7, -⟩
    refine ⟨φ7, hr7, ?_, (hkept5.trans hkept6).trans hkept7⟩
    intro p hp
    rw [hkeep7 _ (by simp), hkeep6 _ (by simp)]
    exact hothers5 p hp
  · cases h

/-! ## Teardown -/

def Slot.pid : Slot → Nat
  | .directory pid => pid
  | .table pid _ => pid
  | .page pid _ _ => pid

structure Clears (φ : Frames) (pid : Nat) (s s' : St) : Prop where
  frames : s'.frames = s.frames
  mmu : s'.pageDirectories = s.pageDirectories ∧ s'.currPid = s.currPid ∧ s'.tlb = s.tlb
  inUse : ∀ f, (∀ x, φ x = some f → x.pid ≠ pid) → s'.inUse f = s.inUse f
  evictable : ∀ f, s'.evictable f = s.evictable f ∨ s'.evictable f = none
  swap : ∀ r, s'.swap r = s.swap r ∨ s'.swap r = none ∧ ∃ i, φ (.table pid i) = some r.frame

theorem Clears.refl {pid : Nat} : Clears φ pid s s :=
  ⟨rfl, ⟨rfl, rfl, rfl⟩, fun _ _ => rfl, fun _ => Or.inl rfl, fun _ => Or.inl rfl⟩

theorem Clears.trans {pid : Nat} {s1 s2 s3 : St} (h1 : Clears φ pid s1 s2) (h2 : Clears φ pid s2 s3) :
    Clears φ pid s1 s3 := by
  refine ⟨h2.frames.trans h1.frames, ?_, ?_, ?_, ?_⟩
  · rcases h1.mmu with ⟨ha, hb, hc⟩
    rcases h2.mmu with ⟨ha', hb', hc'⟩
    exact ⟨ha'.trans ha, hb'.trans hb, hc'.trans hc⟩
  · intro f hf
    exact (h2.inUse f hf).trans (h1.inUse f hf)
  · intro f
    rcases h2.evictable f with h | h
    · rw [h]
      exact h1.evictable f
    · exact Or.inr h
  · intro r
    rcases h2.swap r with h | h
    · rw [h]
      exact h1.swap r
    · exact Or.inr h

def Gone (φ : Frames) (pid : Nat) (i j : Index) (s : St) : Prop :=
  (∀ f, φ (.page pid i j) = some f → s.evictable f = none) ∧
    ∀ r, refOf φ (.page pid i j) = some r → s.swap r = none

theorem Gone.last {pid : Nat} {i j : Index} (h : Gone φ pid i j s) (hc : Clears φ pid s s') : Gone φ pid i j s' := by
  constructor
  · intro f hf
    rcases hc.evictable f with e | e
    · rw [e]
      exact h.1 f hf
    · exact e
  · intro r hr
    rcases hc.swap r with e | e
    · rw [e]
      exact h.2 r hr
    · exact e.1

theorem Clears.returnFrame {pid : Nat} {x : Slot} {f : Frame} (hx : φ x = some f) (hp : x.pid = pid) :
    Clears φ pid s (returnFrameToKernel s f) := by
  refine ⟨rfl, ⟨rfl, rfl, rfl⟩, ?_, ?_, fun _ => Or.inl rfl⟩
  · intro g hg
    refine Function.update_of_ne ?_ _ _
    intro e
    exact hg x (e ▸ hx) hp
  · intro g
    by_cases hgf : g = f
    · rw [hgf]
      exact Or.inr (Function.update_self ..)
    · exact Or.inl (Function.update_of_ne hgf _ _)

theorem Clears.removeSwap {pid : Nat} {i : Index} {r : Ref} (hr : φ (.table pid i) = some r.frame) :
    Clears φ pid s (removeSwapFile s r) := by
  refine ⟨rfl, ⟨rfl, rfl, rfl⟩, fun _ _ => rfl, fun _ => Or.inl rfl, ?_⟩
  intro r'
  by_cases hrr : r' = r
  · subst hrr
    exact Or.inr ⟨Function.update_self .., i, hr⟩
  · exact Or.inl (Function.update_of_ne hrr _ _)

theorem Tree.removeEntry (ht : Tree P s φ) {u : St} (hu : u.frames = s.frames) {pid : Nat} {i : Index} {t : Frame}
    (htable : φ (.table pid i) = some t) (j : Index) :
    Clears φ pid u (removeEntry P t u j) ∧ Gone φ pid i j (removeEntry P t u j) := by
  have href : refOf φ (.page pid i j) = some ⟨t, j⟩ := by rw [refOf_page, htable]; rfl
  have hpage := ht.page pid i j
  rw [href, Option.bind_some, ← (entry_congr (congrFun hu _) : entry P u _ = entry P s _)] at hpage
  have hswap : ∀ v : St, Clears φ pid v (removeSwapFile v ⟨t, j⟩) := fun v => .removeSwap htable
  have hgone : ∀ v : St, (removeSwapFile v ⟨t, j⟩).swap ⟨t, j⟩ = none := fun v => Function.update_self ..
  unfold Mmu.removeEntry
  dsimp only
  split
  · rename_i hp
    rw [target_some hp] at hpage
    refine ⟨(Clears.returnFrame hpage rfl).trans (hswap _), ?_, ?_⟩
    · intro f hf
      rw [hpage] at hf
      rw [← Option.some.inj hf]
      exact Function.update_self ..
    · intro r hr
      rw [href] at hr
      exact Option.some.inj hr ▸ hgone _
  · rename_i hp
    rw [target_none hp] at hpage
    refine ⟨hswap _, ?_, ?_⟩
    · intro f hf
      rw [hpage] at hf
      cases hf
    · intro r hr
      rw [href] at hr
      exact Option.some.inj hr ▸ hgone _

theorem Tree.removeTable (ht : Tree P s φ) {u : St} (hu : u.frames = s.frames) {pid : Nat} {pd : Frame}
    (hdir : φ (.directory pid) = some pd) (i : Index) :
    Clears φ pid u (removeTable P pd u i) ∧ ∀ j, Gone φ pid i j (removeTable P pd u i) := by
  have href : refOf φ (.table pid i) = some ⟨pd, i⟩ := by rw [refOf_table, hdir]; rfl
  have htable := ht.table pid i
  rw [href, Option.bind_some, ← (entry_congr (congrFun hu _) : entry P u _ = entry P s _)] at htable
  unfold Mmu.removeTable
  dsimp only
  split
  · rename_i hp
    rw [target_some hp] at htable
    rcases Loop.foldl_each (R := Clears φ pid) (D := fun j => Gone φ pid i j) (s := u) Clears.refl
      (fun _ _ => Clears.trans) (fun v j hv => ht.removeEntry (hv.frames.trans hu) htable j)
      (fun _ _ _ hv hj => hj.last hv) (List.finRange 1024) with ⟨hclears, hgone⟩
    have hreturn := Clears.returnFrame
      (s := (List.finRange 1024).foldl (Mmu.removeEntry P (entry P u ⟨pd, i⟩).baseAddr) u) htable
      (show (Slot.table pid i).pid = pid from rfl)
    exact ⟨hclears.trans hreturn, fun j => (hgone j (List.mem_finRange j)).last hreturn⟩
  · rename_i hp
    rw [target_none hp] at htable
    refine ⟨Clears.refl, fun j => ⟨?_, ?_⟩⟩
    · intro f hf
      rw [ht.page, refOf_page, htable] at hf
      cases hf
    · intro r hr
      rw [refOf_page, htable] at hr
      cases hr

theorem Tree.removeTables (ht : Tree P s φ) {pid : Nat} {pd : Frame} (hdir : φ (.directory pid) = some pd) :
    Clears φ pid s (returnFrameToKernel ((List.finRange 1024).foldl (Mmu.removeTable P pd) s) pd) ∧
      ∀ i j, Gone φ pid i j (returnFrameToKernel ((List.finRange 1024).foldl (Mmu.removeTable P pd) s) pd) := by
  rcases Loop.foldl_each (R := Clears φ pid) (D := fun i t => ∀ j, Gone φ pid i j t) (s := s) Clears.refl
    (fun _ _ => Clears.trans) (fun v i hv => ht.removeTable hv.frames hdir i)
    (fun _ _ _ hv hi j => (hi j).last hv) (List.finRange 1024) with ⟨hclears, hgone⟩
  have hreturn := Clears.returnFrame (s := (List.finRange 1024).foldl (Mmu.removeTable P pd) s) hdir
    (show (Slot.directory pid).pid = pid from rfl)
  exact ⟨hclears.trans hreturn, fun i j => (hgone i (List.mem_finRange i) j).last hreturn⟩

def Frames.without (φ : Frames) (pid : Nat) : Frames := fun x => if x.pid = pid then none else φ x

theorem Rep.cleared (hr : Rep P s φ M) {pid : Nat} {u : St} (hc : Clears φ pid s u) (hg : ∀ i j, Gone φ pid i j u)
    (segs : Nat → Option Segmentations) :
    Rep P { u with
        pageDirectories := update u.pageDirectories pid none
        segmentations := segs
        tlb := if u.currPid = pid then [] else u.tlb } (φ.without pid) (update M pid fun _ _ _ => 0) := by
  rcases hc.mmu with ⟨hdirs, hpid, htlb⟩
  have hself : ∀ x : Slot, x.pid = pid → φ.without pid x = none := fun x hx => if_pos hx
  have hother : ∀ x : Slot, x.pid ≠ pid → φ.without pid x = φ x := fun x hx => if_neg hx
  have hsome : ∀ x f, φ.without pid x = some f → φ x = some f ∧ x.pid ≠ pid := by
    intro x f hx
    by_cases hp : x.pid = pid
    · rw [hself x hp] at hx
      cases hx
    · exact ⟨(hother x hp).symm.trans hx, hp⟩
  have hrefs : ∀ x : Slot, x.pid ≠ pid → refOf (φ.without pid) x = refOf φ x := by
    intro x hx
    cases x with
    | directory p => rfl
    | table p i => rw [refOf_table, refOf_table, hother (.directory p) hx]
    | page p i j => rw [refOf_page, refOf_page, hother (.table p i) hx]
  have hentry : ∀ r, entry P u r = entry P s r := fun r => entry_congr (congrFun hc.frames _)
  refine ⟨⟨?_, ?_, ?_, ?_⟩, ?_, ?_, ?_, ?_, ?_⟩
  · intro p
    by_cases hp : p = pid
    · dsimp only
      rw [hself (.directory p) hp, hp, Function.update_self]
    · dsimp only
      rw [hother (.directory p) hp, Function.update_of_ne hp, hdirs]
      exact hr.directory p
  · intro p i
    by_cases hp : p = pid
    · rw [hself (.table p i) hp, refOf_table, hself (.directory p) hp]
      rfl
    · rw [hother (.table p i) hp, hrefs (.table p i) hp]
      apply (hr.table p i).trans
      exact Option.bind_congr fun r _ => congrArg Entry.target (hentry r).symm
  · intro p i j
    by_cases hp : p = pid
    · rw [hself (.page p i j) hp, refOf_page, hself (.table p i) hp]
      rfl
    · rw [hother (.page p i j) hp, hrefs (.page p i j) hp]
      apply (hr.page p i j).trans
      exact Option.bind_congr fun r _ => congrArg Entry.target (hentry r).symm
  · intro x y f hx hy
    exact hr.inj x y f (hsome x f hx).1 (hsome y f hy).1
  · intro x f hx
    rcases hsome x f hx with ⟨hx, hp⟩
    refine (hc.inUse f ?_).trans (hr.used x f hx)
    intro y hy
    rw [hr.inj y x f hy hx]
    exact hp
  · intro f r hf
    have hs : s.evictable f = some r := by
      rcases hc.evictable f with e | e
      · exact e ▸ hf
      · rw [e] at hf
        cases hf
    rcases hr.evictable f r hs with ⟨p, i, j, hpage, href⟩
    have hp : p ≠ pid := by
      intro e
      subst e
      have hnone := (hg i j).1 f hpage
      rw [hnone] at hf
      cases hf
    exact ⟨p, i, j, (hother (.page p i j) hp).trans hpage, (hrefs (.page p i j) hp).trans href⟩
  · intro r q hq
    have hs : s.swap r = some q := by
      rcases hc.swap r with e | e
      · exact e ▸ hq
      · rw [e.1] at hq
        cases hq
    rcases hr.swap r q hs with ⟨p, i, htable⟩
    have hp : p ≠ pid := by
      intro e
      subst e
      have hnone := (hg i r.index).2 r (by rw [refOf_page, htable]; rfl)
      rw [hnone] at hq
      cases hq
    exact ⟨p, i, (hother (.table p i) hp).trans htable⟩
  · intro v r hv va hva
    dsimp only at hv ⊢
    split at hv
    · cases hv
    · rename_i hp
      rw [htlb] at hv
      rw [hrefs (.page u.currPid _ _) hp, hpid]
      exact hr.tlb v r hv va hva
  · intro p i j
    by_cases hp : p = pid
    · subst hp
      unfold pageOf
      rw [hself (.page p i j) rfl, refOf_page, hself (.table p i) rfl, Function.update_self]
      rfl
    · rw [Function.update_of_ne hp]
      refine Eq.trans ?_ (hr.mem p i j)
      apply pageOf_congr (hother (.page p i j) hp) (hrefs (.page p i j) hp) (fun f _ => congrFun hc.frames f)
      intro r hr'
      rcases hc.swap r with e | ⟨-, k, hk⟩
      · exact e
      · -- a swap file that is removed is of the process
        rcases Option.map_eq_some_iff.mp hr' with ⟨t, ht, e⟩
        subst e
        exact absurd (congrArg Slot.pid (hr.inj _ _ _ ht hk)) hp

theorem Rep.removeProcess (hr : Rep P s φ M) {pid : Nat} (h : removeProcess P s pid = some s') :
    ∃ φ' M', Rep P s' φ' M' ∧ φ' (.directory pid) = none ∧
      (∀ p, p ≠ pid → φ' (.directory p) = φ (.directory p) ∧ M' p = M p) ∧ (Opened P s φ → Opened P s' φ') := by
  unfold Mmu.removeProcess at h
  split at h
  · have hrep : ∃ u, Clears φ pid s u ∧ (∀ i j, Gone φ pid i j u) ∧ s' = { u with
        pageDirectories := update u.pageDirectories pid none
        segmentations := update u.segmentations pid none
        tlb := if u.currPid = pid then [] else u.tlb } := by
      dsimp only at h
      split at h
      · rename_i hd
        refine ⟨s, Clears.refl, fun i j => ?_, (Option.some.inj h).symm⟩
        rcases hr.absent ((hr.directory pid).trans hd) i j with ⟨htable, hpage, -⟩
        constructor
        · intro f hf
          rw [hpage] at hf
          cases hf
        · intro r hr'
          rw [refOf_page, htable] at hr'
          cases hr'
      · rename_i pd hd
        rcases hr.removeTables ((hr.directory pid).trans hd) with ⟨hclears, hgone⟩
        exact ⟨_, hclears, hgone, (Option.some.inj h).symm⟩
    rcases hrep with ⟨u, hclears, hgone, e⟩
    refine ⟨φ.without pid, update M pid fun _ _ _ => 0, e ▸ hr.cleared hclears hgone _, if_pos rfl, ?_, ?_⟩
    · intro p hp
      exact ⟨if_neg hp, Function.update_of_ne hp _ _⟩
    · intro hopened
      subst e
      apply hopened.congr
      intro p i j r hr'
      refine Or.inl ⟨?_, entry_congr (congrFun hclears.frames _)⟩
      rw [refOf_page] at hr' ⊢
      unfold Frames.without at hr'
      split at hr'
      · cases hr'
      · exact hr'
  · cases h

end SysProg.Mmu
