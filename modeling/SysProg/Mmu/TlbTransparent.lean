/-
  SysProg.Mmu.TlbTransparent — the TLB changes nothing but the number of its misses.

  No function of the code looks at the TLB except the lookup of an access and the
  flushes, so from a state with another TLB (`St.setTlb`) each does the same. A cached
  entry is the one that a walk of the tables of the current process finds, without a page
  fault (`walk_cached`): what is cached for a page is its slot in the tree of frames,
  which stays as long as the process does. So a run goes in step with the run of the same
  calls and grants where every lookup misses (`step_miss`).

  Main result: `tlb_transparent`.
-/

import SysProg.Mmu.Isolation

namespace SysProg.Mmu

variable {P : Platform} {s s' : St} {φ : Frames} {M : Space}

/-! ## States that differ in the TLB -/

def St.setTlb (s : St) (tlb : List (Nat × Ref)) (misses : Nat) : St := { s with tlb := tlb, numTlbMisses := misses }

variable (tlb : List (Nat × Ref)) (misses : Nat)

@[simp] theorem setTlb_currPid : (s.setTlb tlb misses).currPid = s.currPid := rfl

@[simp] theorem setTlb_pageDirectories : (s.setTlb tlb misses).pageDirectories = s.pageDirectories := rfl

@[simp] theorem setTlb_segmentations : (s.setTlb tlb misses).segmentations = s.segmentations := rfl

@[simp] theorem setTlb_inUse : (s.setTlb tlb misses).inUse = s.inUse := rfl

@[simp] theorem setTlb_evictable : (s.setTlb tlb misses).evictable = s.evictable := rfl

@[simp] theorem setTlb_swap : (s.setTlb tlb misses).swap = s.swap := rfl

@[simp] theorem entry_setTlb (r : Ref) : entry P (s.setTlb tlb misses) r = entry P s r := rfl

theorem setEntry_setTlb (r : Ref) (e : Entry) :
    setEntry P (s.setTlb tlb misses) r e = (setEntry P s r e).setTlb tlb misses := rfl

theorem evict_setTlb (s : St) (f : Frame) : evict P (s.setTlb tlb misses) f = (evict P s f).setTlb tlb misses := by
  unfold evict
  rw [setTlb_evictable]
  cases s.evictable f with
  | none => rfl
  | some pte => rfl

theorem askKernelForFrame_setTlb (pte : Option Ref) (g : Grant) :
    askKernelForFrame P (s.setTlb tlb misses) pte g =
      (askKernelForFrame P s pte g).map fun s => s.setTlb tlb misses := by
  have hevict : g.evicted.foldl (evict P) (s.setTlb tlb misses) = (g.evicted.foldl (evict P) s).setTlb tlb misses :=
    List.foldl_hom (fun s : St => s.setTlb tlb misses) (evict_setTlb tlb misses)
  unfold askKernelForFrame
  dsimp only
  rw [hevict, setTlb_inUse]
  by_cases hused : (g.evicted.foldl (evict P) s).inUse g.frame = true
  · rw [if_pos hused, if_pos hused]
    rfl
  · rw [if_neg hused, if_neg hused]
    rfl

theorem pageFault_setTlb (r : Ref) (g : Grant) :
    pageFault P (s.setTlb tlb misses) r g = (pageFault P s r g).map fun s => s.setTlb tlb misses := by
  have hask := askKernelForFrame_setTlb (P := P) (s := { s with numPageFaults := s.numPageFaults + 1 }) tlb misses
    none g
  unfold pageFault
  rw [Option.map_map]
  apply (congrArg (Option.map _) hask).trans
  rw [Option.map_map]
  rfl

theorem demandTable_setTlb (pde : Ref) (g : Grant) :
    demandTable P (s.setTlb tlb misses) pde g = (demandTable P s pde g).map fun s => s.setTlb tlb misses := by
  unfold demandTable
  rw [entry_setTlb]
  by_cases hp : (entry P s pde).present = true
  · rw [if_pos hp, if_pos hp]
    rfl
  · rw [if_neg hp, if_neg hp]
    exact pageFault_setTlb tlb misses pde g

theorem readPageFromDisk_setTlb (s : St) (pte : Ref) :
    readPageFromDisk P (s.setTlb tlb misses) pte = (readPageFromDisk P s pte).setTlb tlb misses := by
  unfold readPageFromDisk
  rw [setTlb_swap]
  cases s.swap pte with
  | none => rfl
  | some page => rfl

theorem demandPage_setTlb (pte : Ref) (g : Grant) :
    demandPage P (s.setTlb tlb misses) pte g = (demandPage P s pte g).map fun s => s.setTlb tlb misses := by
  unfold demandPage
  rw [entry_setTlb]
  by_cases hp : (entry P s pte).present = true
  · rw [if_pos hp, if_pos hp]
    rfl
  · rw [if_neg hp, if_neg hp, pageFault_setTlb, Option.map_map, Option.map_map]
    congr 1
    funext s
    exact readPageFromDisk_setTlb tlb misses s pte

/-- A walk finds the same entry, and adds it to the TLB there is. -/
theorem walk_setTlb {va : Addr} {pid : Nat} {g : Grant} {pte : Ref} (h : walk P s va pid g = some (s', pte)) :
    walk P (s.setTlb tlb misses) va pid g =
      some (s'.setTlb ((va.val / 2 ^ 12, pte) :: tlb) (misses + 1), pte) := by
  unfold walk at h
  rcases Option.bind_eq_some_iff.mp h with ⟨pd, hpd, h⟩
  rcases Option.map_eq_some_iff.mp h with ⟨s1, hdemand, e⟩
  have hdemand' := demandTable_setTlb (P := P) (s := { s with numTlbMisses := s.numTlbMisses + 1 }) tlb (misses + 1)
    ⟨pd, pdeIndex va⟩ g
  rw [hdemand, Option.map_some] at hdemand'
  unfold walk
  rw [setTlb_pageDirectories, hpd, Option.bind_some]
  apply (congrArg (Option.map _) hdemand').trans
  rw [← (Prod.mk.inj e).1, ← (Prod.mk.inj e).2]
  rfl

/-! ## Accesses -/

def Choices.miss (c : Choices) : Choices := { c with hit := none }

theorem Choices.miss_page (c : Choices) : c.miss.page = c.page := rfl

/-- The walk of the current process finds the cached entry, and changes the TLB and
    nothing else. -/
theorem walk_cached (hr : Rep P s φ M) {va : Addr} {pte : Ref} (hmem : (va.val / 2 ^ 12, pte) ∈ s.tlb) (g : Grant) :
    walk P s va s.currPid g =
      some (s.setTlb ((va.val / 2 ^ 12, pte) :: s.tlb) (s.numTlbMisses + 1), pte) := by
  have href := hr.tlb _ _ hmem va rfl
  rw [refOf_page] at href
  rcases Option.map_eq_some_iff.mp href with ⟨t, htable, e⟩
  have hentry := hr.table s.currPid (pdeIndex va)
  rw [htable, refOf_table, hr.directory] at hentry
  rcases Option.bind_eq_some_iff.mp hentry.symm with ⟨pde, hpde, htarget⟩
  rcases Option.map_eq_some_iff.mp hpde with ⟨pd, hpd, e'⟩
  subst e'
  unfold Entry.target at htarget
  split at htarget
  · rename_i hp
    have hdemand : demandTable P { s with numTlbMisses := s.numTlbMisses + 1 } ⟨pd, pdeIndex va⟩ g =
        some { s with numTlbMisses := s.numTlbMisses + 1 } := if_pos hp
    have hbase : (entry P { s with numTlbMisses := s.numTlbMisses + 1 } ⟨pd, pdeIndex va⟩).baseAddr = t :=
      Option.some.inj htarget
    unfold walk
    rw [hpd, Option.bind_some, hdemand, Option.map_some]
    dsimp only
    rw [hbase, e]
    rfl
  · cases htarget

theorem lookup_miss (hr : Rep P s φ M) {va : Addr} {pid : Nat} {c : Choices} {pte : Ref} (hpid : s.currPid = pid)
    (h : lookup P s va pid c = some (s', pte)) :
    ∃ tlb' misses', lookup P (s.setTlb tlb misses) va pid c.miss = some (s'.setTlb tlb' misses', pte) := by
  unfold lookup at h
  split at h
  · exact ⟨_, _, walk_setTlb tlb misses h⟩
  · split at h
    · rename_i hmem
      cases h
      subst hpid
      have hwalk := walk_setTlb tlb misses (walk_cached hr hmem c.table)
      exact ⟨_, _, hwalk⟩
    · cases h

theorem contextSwitch_setTlb (pid : Nat) :
    ∃ tlb', contextSwitch (s.setTlb tlb misses) pid = (contextSwitch s pid).setTlb tlb' misses := by
  unfold contextSwitch
  rw [setTlb_currPid]
  by_cases hp : s.currPid ≠ pid
  · rw [if_pos hp, if_pos hp]
    exact ⟨[], rfl⟩
  · rw [if_neg hp, if_neg hp]
    exact ⟨tlb, rfl⟩

theorem performCheck_miss (hr : Rep P s φ M) {va : Addr} {pid : Nat} {c : Choices} {o : Option Ref}
    (h : performCheck P s va pid c = some (s', o)) :
    ∃ tlb' misses', performCheck P (s.setTlb tlb misses) va pid c.miss = some (s'.setTlb tlb' misses', o) := by
  unfold performCheck at h
  rcases hr.contextSwitch pid with ⟨hr0, hpid⟩
  rcases contextSwitch_setTlb (s := s) tlb misses pid with ⟨tlb0, hswitch⟩
  rcases Option.bind_eq_some_iff.mp h with ⟨segs, hsegs, h⟩
  unfold performCheck
  dsimp only
  rw [hswitch, setTlb_segmentations, hsegs, Option.bind_some]
  split at h
  · rename_i hin
    rw [if_pos hin]
    rcases Option.bind_eq_some_iff.mp h with ⟨⟨s1, pte⟩, hlookup, h⟩
    rcases Option.map_eq_some_iff.mp h with ⟨s2, hdemand, h⟩
    rcases lookup_miss tlb0 misses hr0 hpid hlookup with ⟨tlb1, misses1, hlookup'⟩
    rw [hlookup', Option.bind_some]
    dsimp only
    rw [demandPage_setTlb, Choices.miss_page, hdemand, Option.map_some, Option.map_some]
    refine ⟨tlb1, misses1, ?_⟩
    rw [entry_setTlb]
    dsimp only at h
    split at h
    · rename_i hflags
      rw [if_pos hflags]
      cases h
      rfl
    · rename_i hflags
      rw [if_neg hflags]
      cases h
      rfl
  · rename_i hin
    rw [if_neg hin]
    cases h
    exact ⟨tlb0, misses, rfl⟩

/-- What comes after the check sees no translation. -/
theorem performCheck_map_miss (hr : Rep P s φ M) {va : Addr} {pid : Nat} {c : Choices} {α : Type}
    {f : St × Option Ref → St × α} {a : α}
    (hf : ∀ s tlb misses o, f (s.setTlb tlb misses, o) = ((f (s, o)).1.setTlb tlb misses, (f (s, o)).2))
    (h : (performCheck P s va pid c).map f = some (s', a)) :
    ∃ tlb' misses', (performCheck P (s.setTlb tlb misses) va pid c.miss).map f = some (s'.setTlb tlb' misses', a) := by
  rcases Option.map_eq_some_iff.mp h with ⟨⟨s1, o⟩, hcheck, e⟩
  rcases performCheck_miss tlb misses hr hcheck with ⟨tlb', misses', hcheck'⟩
  refine ⟨tlb', misses', ?_⟩
  rw [hcheck', Option.map_some, hf, e]

theorem read_miss (hr : Rep P s φ M) {va : Addr} {pid n : Nat} {c : Choices} {o : Option (List UInt8)}
    (h : read P s va pid n c = some (s', o)) :
    ∃ tlb' misses', read P (s.setTlb tlb misses) va pid n c.miss = some (s'.setTlb tlb' misses', o) := by
  unfold read at h ⊢
  split at h
  · rename_i hasserts
    rw [if_pos hasserts]
    refine performCheck_map_miss tlb misses hr ?_ h
    intro s tlb misses pte
    cases pte with
    | none => rfl
    | some pte => rfl
  · cases h

theorem write_miss (hr : Rep P s φ M) {va : Addr} {pid : Nat} {buffer : List UInt8} {c : Choices} {done : Bool}
    (h : write P s va pid buffer c = some (s', done)) :
    ∃ tlb' misses', write P (s.setTlb tlb misses) va pid buffer c.miss = some (s'.setTlb tlb' misses', done) := by
  unfold write at h ⊢
  split at h
  · rename_i hasserts
    rw [if_pos hasserts]
    refine performCheck_map_miss tlb misses hr ?_ h
    intro s tlb misses pte
    cases pte with
    | none => rfl
    | some pte => rfl
  · cases h

/-! ## Processes -/

theorem returnFrameToKernel_setTlb (s : St) (f : Frame) :
    returnFrameToKernel (s.setTlb tlb misses) f = (returnFrameToKernel s f).setTlb tlb misses := rfl

theorem addPage_setTlb (pde : Ref) (i : Index) (g : Grant) :
    addPage P (s.setTlb tlb misses) pde i g = (addPage P s pde i g).map fun s => s.setTlb tlb misses := by
  unfold addPage
  dsimp only
  rw [entry_setTlb, askKernelForFrame_setTlb, Option.map_map, Option.map_map]
  rfl

theorem addProcess_setTlb {pid : Nat} {g : Fin 4 → Grant} (h : addProcess P s pid g = some s') :
    addProcess P (s.setTlb tlb misses) pid g = some (s'.setTlb tlb misses) := by
  unfold addProcess at h ⊢
  split at h
  · rename_i hpid
    rcases Option.bind_eq_some_iff.mp h with ⟨s1, hask1, h⟩
    rcases Option.bind_eq_some_iff.mp h with ⟨s2, hask2, h⟩
    rcases Option.bind_eq_some_iff.mp h with ⟨s3, hpage1, hpage2⟩
    have hask2' := askKernelForFrame_setTlb (P := P) (s := { s1 with
        pageDirectories := Function.update s1.pageDirectories pid (some (g 0).frame)
        segmentations := Function.update s1.segmentations pid (some initialSegments) }) tlb misses none (g 1)
    rw [hask2, Option.map_some] at hask2'
    rw [if_pos hpid, askKernelForFrame_setTlb, hask1, Option.map_some, Option.bind_some]
    dsimp only
    apply (congrArg (fun o => Option.bind o _) hask2').trans
    rw [Option.bind_some, entry_setTlb, setEntry_setTlb, addPage_setTlb, hpage1, Option.map_some, Option.bind_some,
      addPage_setTlb, hpage2, Option.map_some]
  · cases h

theorem removeEntry_setTlb (pt : Frame) (s : St) (vpn2 : Index) :
    removeEntry P pt (s.setTlb tlb misses) vpn2 = (removeEntry P pt s vpn2).setTlb tlb misses := by
  unfold removeEntry
  dsimp only
  rw [entry_setTlb]
  split
  · rfl
  · rfl

theorem removeTable_setTlb (pd : Frame) (s : St) (vpn1 : Index) :
    removeTable P pd (s.setTlb tlb misses) vpn1 = (removeTable P pd s vpn1).setTlb tlb misses := by
  unfold removeTable
  dsimp only
  rw [entry_setTlb, List.foldl_hom (fun s : St => s.setTlb tlb misses) (removeEntry_setTlb tlb misses _)]
  split
  · exact returnFrameToKernel_setTlb tlb misses _ _
  · rfl

theorem removeProcess_setTlb {pid : Nat} (h : removeProcess P s pid = some s') :
    ∃ tlb', removeProcess P (s.setTlb tlb misses) pid = some (s'.setTlb tlb' misses) := by
  unfold removeProcess at h ⊢
  rw [setTlb_pageDirectories]
  split at h
  · rename_i hpid
    rw [if_pos hpid]
    cases hd : s.pageDirectories pid with
    | none =>
      rw [hd] at h
      cases h
      exact ⟨_, rfl⟩
    | some pd =>
      have htables : (List.finRange 1024).foldl (removeTable P pd) (s.setTlb tlb misses) =
          ((List.finRange 1024).foldl (removeTable P pd) s).setTlb tlb misses :=
        List.foldl_hom (fun s : St => s.setTlb tlb misses) (removeTable_setTlb tlb misses pd)
      rw [hd] at h
      dsimp only at h ⊢
      rw [htables]
      generalize (List.finRange 1024).foldl (removeTable P pd) s = u at h ⊢
      cases h
      exact ⟨_, rfl⟩
  · cases h

/-! ## Runs -/

def Act.miss : Act → Act
  | .addProcess pid g => .addProcess pid g
  | .removeProcess pid => .removeProcess pid
  | .read va pid n c => .read va pid n c.miss
  | .write va pid buffer c => .write va pid buffer c.miss

/-- A call does the same, and returns the same bytes, when its lookup misses. -/
theorem step_miss {t t' : Trace} {a : Act} (hi : Inv P t) (h : step P t a = some t') :
    ∃ tlb' misses', step P ⟨t.mmu.setTlb tlb misses, t.log⟩ a.miss = some ⟨t'.mmu.setTlb tlb' misses', t'.log⟩ := by
  rcases hi with ⟨φ, M, hr, -, -⟩
  cases a with
  | addProcess pid g =>
    unfold step at h
    dsimp only at h
    split at h
    · rename_i hd
      rcases Option.map_eq_some_iff.mp h with ⟨s, hadd, e⟩
      subst e
      refine ⟨tlb, misses, ?_⟩
      unfold Act.miss step
      dsimp only
      rw [setTlb_pageDirectories, if_pos hd, addProcess_setTlb tlb misses hadd]
      rfl
    · cases h
  | removeProcess pid =>
    rcases Option.map_eq_some_iff.mp h with ⟨s, hremove, e⟩
    subst e
    rcases removeProcess_setTlb tlb misses hremove with ⟨tlb', hremove'⟩
    refine ⟨tlb', misses, ?_⟩
    unfold Act.miss step
    dsimp only
    rw [hremove']
    rfl
  | read va pid n c =>
    unfold step at h
    dsimp only at h
    split at h
    · cases h
    · rename_i hd
      rcases Option.map_eq_some_iff.mp h with ⟨⟨s, o⟩, hread, e⟩
      rcases read_miss tlb misses hr hread with ⟨tlb', misses', hread'⟩
      refine ⟨tlb', misses', ?_⟩
      unfold Act.miss step
      dsimp only
      rw [setTlb_pageDirectories, if_neg hd, hread']
      cases o with
      | none =>
        subst e
        rfl
      | some bytes =>
        subst e
        rfl
  | write va pid buffer c =>
    unfold step at h
    dsimp only at h
    split at h
    · cases h
    · rename_i hd
      rcases Option.map_eq_some_iff.mp h with ⟨⟨s, done⟩, hwrite, e⟩
      rcases write_miss tlb misses hr hwrite with ⟨tlb', misses', hwrite'⟩
      refine ⟨tlb', misses', ?_⟩
      unfold Act.miss step
      dsimp only
      rw [setTlb_pageDirectories, if_neg hd, hwrite']
      cases done with
      | false =>
        subst e
        rfl
      | true =>
        subst e
        rfl

/-- A run and the run of the same calls where every lookup misses are in step. -/
theorem exec_miss {t t' : Trace} {acts : List Act} (hi : Inv P t) (h : Run.exec (step P) t acts = some t') :
    Inv P t' ∧ ∃ tlb' misses', Run.exec (step P) ⟨t.mmu.setTlb tlb misses, t.log⟩ (acts.map Act.miss) =
      some ⟨t'.mmu.setTlb tlb' misses', t'.log⟩ := by
  induction acts generalizing t tlb misses with
  | nil =>
    cases h
    exact ⟨hi, tlb, misses, rfl⟩
  | cons a acts ih =>
    rcases Option.bind_eq_some_iff.mp h with ⟨t1, hstep, hrest⟩
    rcases step_miss tlb misses hi hstep with ⟨tlb1, misses1, hstep'⟩
    rcases ih tlb1 misses1 (step_inv hi hstep) hrest with ⟨hi', tlb', misses', hrest'⟩
    refine ⟨hi', tlb', misses', ?_⟩
    rw [List.map_cons, Run.exec, hstep']
    exact hrest'

/-- The bytes read, the memory and the faults are those of the run where every lookup
    misses; a cached entry is the one that a walk of the current process finds. -/
theorem tlb_transparent (P : Platform) {t0 t : Trace} {acts : List Act} (h0 : Initial t0)
    (h : Run.exec (step P) t0 acts = some t) :
    (∃ u, Run.exec (step P) t0 (acts.map Act.miss) = some u ∧ u.log = t.log ∧ u.mmu.frames = t.mmu.frames ∧
      u.mmu.swap = t.mmu.swap ∧ u.mmu.numPageFaults = t.mmu.numPageFaults ∧
      u.mmu.numSegmentationFaults = t.mmu.numSegmentationFaults) ∧
    ∀ va pte g, (va.val / 2 ^ 12, pte) ∈ t.mmu.tlb →
      walk P t.mmu va t.mmu.currPid g =
        some (t.mmu.setTlb ((va.val / 2 ^ 12, pte) :: t.mmu.tlb) (t.mmu.numTlbMisses + 1), pte) := by
  rcases exec_miss t0.mmu.tlb t0.mmu.numTlbMisses (initial_inv h0) h with ⟨⟨φ, M, hr, -, -⟩, tlb', misses', hmiss⟩
  refine ⟨⟨_, hmiss, rfl, rfl, rfl, rfl, rfl⟩, ?_⟩
  intro va pte g hmem
  exact walk_cached hr hmem g

/-- The second and the third access hit, the third after its page was evicted. -/
theorem tlb_transparent_hits : ∃ acts t u, Run.exec (step bitFields) twoStart acts = some t ∧
    t.mmu.numTlbMisses = 1 ∧ Run.exec (step bitFields) twoStart (acts.map Act.miss) = some u ∧ u.log = t.log ∧
    t.log = [.got 1 4100 2 [7, 8], .added 2, .got 1 4100 2 [7, 8], .wrote 1 4100 [7, 8], .added 1] := by
  have ht : (Run.exec (step bitFields) twoStart
      [.addProcess 1 firstFrames, .write 4100 1 [7, 8] ⟨none, ⟨[], 0⟩, ⟨[], 0⟩⟩,
        .read 4100 1 2 ⟨some ⟨1, 1⟩, ⟨[], 0⟩, ⟨[], 0⟩⟩, .addProcess 2 secondFrames,
        .read 4100 1 2 ⟨some ⟨1, 1⟩, ⟨[], 0⟩, ⟨[], 7⟩⟩]).map (fun t => (t.log, t.mmu.numTlbMisses)) =
      some ([.got 1 4100 2 [7, 8], .added 2, .got 1 4100 2 [7, 8], .wrote 1 4100 [7, 8], .added 1], 1) := by
    decide +kernel
  rcases Option.map_eq_some_iff.mp ht with ⟨t, ht, e⟩
  have h0 : Initial twoStart := ⟨rfl, fun _ => rfl, rfl, fun _ => rfl, fun _ => rfl, rfl⟩
  rcases tlb_transparent bitFields h0 ht with ⟨⟨u, hu, hlog, -⟩, -⟩
  exact ⟨_, t, u, ht, (Prod.mk.inj e).2, hu, hlog, (Prod.mk.inj e).1⟩

end SysProg.Mmu
