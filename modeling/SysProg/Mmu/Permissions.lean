/-
  SysProg.Mmu.Permissions — what the permissions of a segment do.

  The check of an access looks at the flags of the page table entry alone. Every entry is
  made by `mmu_add_process` or a page fault, both of which set the flags, and an eviction only
  clears `present`, so in every run the entries of all pages that are present let the user
  write (`reach_opened`), whatever the segment table says. So a write to an address of any segment
  is carried out (`write_ignores_permissions`).
-/

import SysProg.Mmu.Isolation

namespace SysProg.Mmu

variable {P : Platform} {s s' : St} {φ : Frames} {M : Space}

/-! ## The entries of a run -/

/-- In every run the entries of the pages are open. -/
theorem reach_opened {t : Trace} (h : (sys P).Reach t) : ∃ φ M, Rep P t.mmu φ M ∧ Opened P t.mmu φ := by
  refine Run.Sys.Reach.inv (I := fun t => ∃ φ M, Rep P t.mmu φ M ∧ Opened P t.mmu φ) ?_ ?_ h
  · intro t ht
    rcases initial_inv (P := P) ht with ⟨φ, M, hr, -, -⟩
    refine ⟨φ, M, hr, ?_⟩
    intro pid i j r hpage
    rcases Option.map_eq_some_iff.mp hpage with ⟨f, hf, -⟩
    rw [hr.table, refOf_table, hr.directory, ht.2.1 pid] at hf
    cases hf
  · intro t a t' ⟨φ, M, hr, ho⟩ hs
    cases a with
    | addProcess pid g =>
      simp only [sys, Run.ofFun, step] at hs
      split at hs
      · rename_i hd
        rcases Option.map_eq_some_iff.mp hs with ⟨s, hadd, rfl⟩
        rcases hr.addProcess ((hr.directory pid).trans hd) hadd with ⟨φ', hr', -, hkept⟩
        exact ⟨φ', M, hr', hkept.opened ho⟩
      · cases hs
    | removeProcess pid =>
      rcases Option.map_eq_some_iff.mp hs with ⟨s, hremove, rfl⟩
      rcases hr.removeProcess hremove with ⟨φ', M', hr', -, -, hopen⟩
      exact ⟨φ', M', hr', hopen ho⟩
    | read va pid n c =>
      simp only [sys, Run.ofFun, step] at hs
      split at hs
      · cases hs
      · rcases Option.map_eq_some_iff.mp hs with ⟨⟨s, o⟩, hread, e⟩
        rcases hr.read hread with ⟨φ', hr', -, hkept, -⟩
        cases o <;> subst e <;> exact ⟨φ', M, hr', hkept.opened ho⟩
    | write va pid buffer c =>
      simp only [sys, Run.ofFun, step] at hs
      split at hs
      · cases hs
      · rcases Option.map_eq_some_iff.mp hs with ⟨⟨s, done⟩, hwrite, e⟩
        rcases hr.write hwrite with ⟨φ', hr', -, hkept⟩
        cases done <;> subst e <;> exact ⟨φ', _, hr', hkept.opened ho⟩

/-! ## The check of an access -/

theorem askKernelForFrame_faults {pte : Option Ref} {g : Grant} (h : askKernelForFrame P s pte g = some s') :
    s'.numSegmentationFaults = s.numSegmentationFaults := by
  have hevicted : ∀ (l : List Frame) (u : St),
      (l.foldl (evict P) u).numSegmentationFaults = u.numSegmentationFaults := by
    intro l
    induction l with
    | nil => exact fun _ => rfl
    | cons f l ih =>
      intro u
      apply (ih _).trans
      unfold evict
      split <;> rfl
  unfold askKernelForFrame at h
  dsimp only at h
  split at h
  · cases h
  · cases h
    exact hevicted _ _

theorem pageFault_faults {r : Ref} {g : Grant} (h : pageFault P s r g = some s') :
    s'.numSegmentationFaults = s.numSegmentationFaults := by
  rcases Option.map_eq_some_iff.mp h with ⟨s1, hask, rfl⟩
  have hfaults := askKernelForFrame_faults hask
  exact hfaults

theorem lookup_faults {va : Addr} {pid : Nat} {c : Choices} {pte : Ref} (h : lookup P s va pid c = some (s', pte)) :
    s'.numSegmentationFaults = s.numSegmentationFaults := by
  unfold lookup at h
  split at h
  · rcases Option.bind_eq_some_iff.mp h with ⟨pd, -, h⟩
    rcases Option.map_eq_some_iff.mp h with ⟨s1, hd, e⟩
    cases e
    unfold demandTable at hd
    split at hd
    · cases hd
      rfl
    · have hfaults := pageFault_faults hd
      exact hfaults
  · split at h
    · cases h
      rfl
    · cases h

theorem demandPage_faults {pte : Ref} {g : Grant} (h : demandPage P s pte g = some s') :
    s'.numSegmentationFaults = s.numSegmentationFaults := by
  unfold demandPage at h
  split at h
  · cases h
    rfl
  · rcases Option.map_eq_some_iff.mp h with ⟨s1, hfault, rfl⟩
    refine Eq.trans ?_ (pageFault_faults hfault)
    unfold readPageFromDisk
    split <;> rfl

/-- The check of an access to a segment gives an entry. -/
theorem performCheck_passes {va : Addr} {pid : Nat} {c : Choices} {o : Option Ref} {segs : Segmentations}
    (hr : Rep P s φ M) (ho : Opened P s φ) (hsegs : s.segmentations pid = some segs)
    (hin : P.addressInSegmentations segs va = true) (h : performCheck P s va pid c = some (s', o)) :
    o ≠ none ∧ s'.numSegmentationFaults = s.numSegmentationFaults := by
  have hswitch : (contextSwitch s pid).segmentations = s.segmentations ∧
      (contextSwitch s pid).numSegmentationFaults = s.numSegmentationFaults := by
    unfold contextSwitch
    split <;> exact ⟨rfl, rfl⟩
  rcases hr.contextSwitch pid with ⟨hr0, hpid⟩
  unfold performCheck at h
  dsimp only at h
  rw [hswitch.1, hsegs, Option.bind_some, if_pos hin] at h
  rcases Option.bind_eq_some_iff.mp h with ⟨⟨s1, pte⟩, hlookup, h⟩
  rcases Option.map_eq_some_iff.mp h with ⟨s2, hdemand, h⟩
  rcases hr0.lookup hpid hlookup with ⟨φ1, hr1, -, hkept1, href⟩
  rcases hr1.demandPage href hdemand with ⟨φ2, hr2, -, hkept2, href2, hpage⟩
  have hopened : Opened P s2 φ2 := hkept2.opened (hkept1.opened ((kept_contextSwitch pid).opened ho))
  have hpresent : (entry P s2 pte).present = true := by
    rw [hr2.page, href2, Option.bind_some] at hpage
    by_contra hnot
    rw [target_none hnot] at hpage
    cases hpage
  rcases hopened _ _ _ pte href2 hpresent with ⟨hwrite, huser⟩
  dsimp only at h
  rw [if_pos ⟨huser, hwrite⟩] at h
  cases h
  refine ⟨nofun, ?_⟩
  rw [demandPage_faults hdemand, lookup_faults hlookup, hswitch.2]

/-! ## Writes -/

def Segment.Contains (seg : Segment) (va : Addr) : Prop := seg.start ≤ va.val ∧ va.val < seg.stop

/-- Where the segment test finds the addresses of every segment: a write to a segment without WRITE is
    carried out, and there is no segmentation fault, in any run and wherever the page is. -/
theorem write_ignores_permissions
    (hP : ∀ segs va k, (segs k).Contains va → P.addressInSegmentations segs va = true)
    {t : Trace} (h : (sys P).Reach t) {pid : Nat} {segs : Segmentations} {k : SegmentKind} {va : Addr}
    {buffer : List UInt8} {c : Choices} {s' : St} {done : Bool} (hsegs : t.mmu.segmentations pid = some segs)
    (hk : (segs k).Contains va) (_hw : .write ∉ (segs k).permissions)
    (hwrite : write P t.mmu va pid buffer c = some (s', done)) :
    done = true ∧ s'.numSegmentationFaults = t.mmu.numSegmentationFaults := by
  rcases reach_opened h with ⟨φ, M, hr, ho⟩
  unfold write at hwrite
  split at hwrite
  swap
  · cases hwrite
  rcases Option.map_eq_some_iff.mp hwrite with ⟨⟨s1, o⟩, hcheck, e⟩
  rcases performCheck_passes hr ho hsegs (hP segs va k hk) hcheck with ⟨hsome, hfaults⟩
  cases o with
  | none => exact absurd rfl hsome
  | some pte =>
    cases e
    exact ⟨rfl, hfaults⟩

def textStart : Addr := 0x08048000

theorem bitFields_segments (segs : Segmentations) (va : Addr) (k : SegmentKind) (h : (segs k).Contains va) :
    bitFields.addressInSegmentations segs va = true := by
  refine List.any_eq_true.mpr ⟨k, ?_, decide_eq_true h⟩
  cases k <;> decide

/-- A process writes to its code a second time, through the TLB. -/
theorem write_ignores_permissions_cached : ∃ t segs s', (sys bitFields).Reach t ∧
    t.mmu.segmentations 1 = some segs ∧ (segs .text).permissions = [.read, .exec] ∧
    write bitFields t.mmu textStart 1 [9] ⟨some ⟨5, 72⟩, ⟨[], 0⟩, ⟨[], 0⟩⟩ = some (s', true) ∧
    s'.numSegmentationFaults = t.mmu.numSegmentationFaults := by
  have ht : (Run.exec (step bitFields) twoStart
      [.addProcess 1 firstFrames, .write textStart 1 [7, 8] ⟨none, ⟨[], 5⟩, ⟨[], 6⟩⟩]).map
      (fun t => ((write bitFields t.mmu textStart 1 [9] ⟨some ⟨5, 72⟩, ⟨[], 0⟩, ⟨[], 0⟩⟩).isSome,
        (t.mmu.segmentations 1).map fun segs => ((segs .text).start, (segs .text).stop, (segs .text).permissions))) =
      some (true, some (0x08048000, 0x08052000, [.read, .exec])) := by
    decide +kernel
  rcases Option.map_eq_some_iff.mp ht with ⟨t, ht, heq⟩
  rcases Option.isSome_iff_exists.mp (Prod.mk.inj heq).1 with ⟨⟨s', done⟩, hwrite⟩
  rcases Option.map_eq_some_iff.mp (Prod.mk.inj heq).2 with ⟨segs, hsegs, hseg⟩
  simp only [Prod.mk.injEq] at hseg
  rcases hseg with ⟨hstart, hstop, hperm⟩
  have h0 : Initial twoStart := ⟨rfl, fun _ => rfl, rfl, fun _ => rfl, fun _ => rfl, rfl⟩
  have hreach : (sys bitFields).Reach t := Run.reach_exec h0 ht
  have hin : (segs .text).Contains textStart := by
    unfold Segment.Contains
    rw [hstart, hstop]
    decide
  rcases write_ignores_permissions bitFields_segments hreach hsegs hin (by rw [hperm]; decide) hwrite with
    ⟨rfl, hfaults⟩
  exact ⟨t, segs, s', hreach, hsegs, hperm, hwrite, hfaults⟩

/-- A write to the code of a process changes it. -/
theorem text_written : ∃ t segs s', (sys bitFields).Reach t ∧ t.mmu.segmentations 1 = some segs ∧
    (segs .text).start = textStart.val ∧ (segs .text).stop = 0x08052000 ∧ (segs .text).permissions = [.read, .exec] ∧
    write bitFields t.mmu textStart 1 [9] ⟨none, ⟨[], 0⟩, ⟨[], 0⟩⟩ = some (s', true) ∧
    Bytes.load (t.mmu.frames 6) 0 2 = [7, 8] ∧ Bytes.load (s'.frames 6) 0 2 = [9, 8] ∧
    t.mmu.numSegmentationFaults = 0 ∧ s'.numSegmentationFaults = 0 := by
  have ht : (Run.exec (step bitFields) twoStart
      [.addProcess 1 firstFrames, .write textStart 1 [7, 8] ⟨none, ⟨[], 5⟩, ⟨[], 6⟩⟩]).map
      (fun t => ((Bytes.load (t.mmu.frames 6) 0 2, t.mmu.numSegmentationFaults),
        (t.mmu.segmentations 1).map fun segs => ((segs .text).start, (segs .text).stop, (segs .text).permissions))) =
      some (([7, 8], 0), some (0x08048000, 0x08052000, [.read, .exec])) := by
    decide +kernel
  have hw : (Run.exec (step bitFields) twoStart
      [.addProcess 1 firstFrames, .write textStart 1 [7, 8] ⟨none, ⟨[], 5⟩, ⟨[], 6⟩⟩]).bind
      (fun t => (write bitFields t.mmu textStart 1 [9] ⟨none, ⟨[], 0⟩, ⟨[], 0⟩⟩).map
        fun r => (r.2, Bytes.load (r.1.frames 6) 0 2, r.1.numSegmentationFaults)) = some (true, [9, 8], 0) := by
    decide +kernel
  rcases Option.map_eq_some_iff.mp ht with ⟨t, ht, heq⟩
  simp only [Prod.mk.injEq] at heq
  rcases heq with ⟨⟨hbefore, hzero⟩, hsegs⟩
  rcases Option.map_eq_some_iff.mp hsegs with ⟨segs, hsegs, hseg⟩
  rw [ht, Option.bind_some] at hw
  rcases Option.map_eq_some_iff.mp hw with ⟨⟨s', done⟩, hwrite, hafter⟩
  simp only [Prod.mk.injEq] at hseg hafter
  rcases hseg with ⟨hstart, hstop, hperm⟩
  rcases hafter with ⟨rfl, hload, hfaults⟩
  have h0 : Initial twoStart := ⟨rfl, fun _ => rfl, rfl, fun _ => rfl, fun _ => rfl, rfl⟩
  exact ⟨t, segs, s', Run.reach_exec h0 ht, hsegs, hstart, hstop, hperm, hwrite, hbefore, hload, hzero, hfaults⟩

end SysProg.Mmu
