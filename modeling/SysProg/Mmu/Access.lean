/-
  SysProg.Mmu.Access — what an access does to the memory of the processes.

  The check of an access may evict pages, give its page table and its page a frame and
  read the page back from its swap file, and leaves what the processes see as it was
  (`Rep.performCheck`). So a read returns bytes of the page (`Rep.read`), and a write
  changes the bytes that it writes and no others (`Rep.write`).
-/

import SysProg.Mmu.Frames

namespace SysProg.Mmu

open Function (update)
open SysProg.Bytes (Mem load store)

variable {P : Platform} {s s' : St} {φ : Frames} {M : Space}

/-! ## Accesses -/

/-- The counters say nothing about the frames. -/
theorem Rep.counters (hr : Rep P s φ M) (misses pageFaults segmentationFaults : Nat) :
    Rep P { s with
      numTlbMisses := misses
      numPageFaults := pageFaults
      numSegmentationFaults := segmentationFaults } φ M :=
  ⟨⟨hr.directory, hr.table, hr.page, hr.inj⟩, hr.used, hr.evictable, hr.swap, hr.tlb, hr.mem⟩

theorem Rep.demandTable (hr : Rep P s φ M) {pid : Nat} {i : Index} {r : Ref} {g : Grant}
    (href : refOf φ (.table pid i) = some r) (h : demandTable P s r g = some s') :
    ∃ φ', Rep P s' φ' M ∧ (∀ p, φ' (.directory p) = φ (.directory p)) ∧ Kept P s φ s' φ' ∧
      φ' (.table pid i) = some (entry P s' r).baseAddr ∧ s'.currPid = s.currPid := by
  unfold Mmu.demandTable at h
  split at h
  · rename_i hp
    cases h
    refine ⟨φ, hr, fun _ => rfl, .refl, ?_, rfl⟩
    rw [hr.table, href, Option.bind_some, target_some hp]
  · rename_i hp
    rcases Option.map_eq_some_iff.mp h with ⟨s1, hask, e⟩
    rcases (hr.counters _ _ _).ask hask with ⟨φ1, s2, hr2, hfresh, hshrinks, hpid, e2, hother⟩
    have hs12 : s1 = s2 := by
      rw [e2, ← hfresh.notEvictable, Function.update_eq_self]
    subst hs12 e
    have hnone : φ1 (.table pid i) = none := by
      rw [hshrinks.keep _ (by simp), hr.table, href, Option.bind_some, target_none hp]
    have href1 : refOf φ1 (.table pid i) = some r := by rw [hshrinks.refOf_eq]; exact href
    refine ⟨_, hr2.link_table hfresh href1 hnone, ?_, ⟨?_, hother _ hnone⟩, ?_, hpid⟩
    · intro p
      rw [Function.update_of_ne (by simp)]
      exact hshrinks.keep _ (by simp)
    · intro hopened
      have hasked : Opened P s1 φ := Opened.ask (s := { s with numPageFaults := s.numPageFaults + 1 }) hopened hask
      exact (hasked.refs hshrinks.refOf_eq).link_table hfresh
    · rw [Function.update_self]
      rcases entry_setEntry (P := P) (s := s1) (r := r) (e := (entry P s1 r).pointTo g.frame) with ⟨a, d, he⟩
      rw [he]
      rfl

/-- The swap file of a page that has just been given a frame. -/
theorem Rep.readPageFromDisk {pid : Nat} {i j : Index} {r : Ref} (hr : Rep P s φ (M.set pid i j fun _ => 0))
    (href : refOf φ (.page pid i j) = some r) (hf : φ (.page pid i j) = some (entry P s r).baseAddr)
    (hmem : M pid i j = (s.swap r).getD fun _ => 0) :
    Rep P (readPageFromDisk P s r) φ M ∧ entry P (readPageFromDisk P s r) r = entry P s r := by
  unfold Mmu.readPageFromDisk
  cases hq : s.swap r with
  | none =>
    rw [hq, Option.getD_none] at hmem
    rw [Space.set_self hmem] at hr
    exact ⟨hr, rfl⟩
  | some q =>
    rw [hq, Option.getD_some] at hmem
    have hset := hr.setPage hf q
    rw [Space.set_set, Space.set_self hmem] at hset
    exact ⟨hset, entry_congr (Function.update_of_ne (hr.ref_ne_page href hf) _ _)⟩

theorem Opened.readPageFromDisk {pid : Nat} {i j : Index} {r : Ref} (h : Opened P s φ) (ht : Tree P s φ)
    (hf : φ (.page pid i j) = some (entry P s r).baseAddr) : Opened P (Mmu.readPageFromDisk P s r) φ := by
  unfold Mmu.readPageFromDisk
  split
  · exact h
  · exact h.setPage ht hf _

theorem readPageFromDisk_inUse {r : Ref} : (readPageFromDisk P s r).inUse = s.inUse := by
  unfold readPageFromDisk
  split
  · rfl
  · rfl

theorem Rep.demandPage (hr : Rep P s φ M) {pid : Nat} {i j : Index} {r : Ref} {g : Grant}
    (href : refOf φ (.page pid i j) = some r) (h : demandPage P s r g = some s') :
    ∃ φ', Rep P s' φ' M ∧ (∀ p, φ' (.directory p) = φ (.directory p)) ∧ Kept P s φ s' φ' ∧
      refOf φ' (.page pid i j) = some r ∧ φ' (.page pid i j) = some (entry P s' r).baseAddr := by
  unfold Mmu.demandPage at h
  split at h
  · rename_i hp
    cases h
    refine ⟨φ, hr, fun _ => rfl, .refl, href, ?_⟩
    rw [hr.page, href, Option.bind_some, target_some hp]
  · rename_i hp
    rcases Option.map_eq_some_iff.mp h with ⟨s3, hfault, e⟩
    rcases Option.map_eq_some_iff.mp hfault with ⟨s1, hask, e3⟩
    rcases (hr.counters _ _ _).ask hask with ⟨φ1, s2, hr2, hfresh, hshrinks, -, e2, hother⟩
    have hnone : φ1 (.page pid i j) = none := by
      cases hφ : φ1 (.page pid i j) with
      | none => rfl
      | some f =>
        have hf := hshrinks.sub _ f hφ
        rw [hr.page, href, Option.bind_some, target_none hp] at hf
        cases hf
    have href1 : refOf φ1 (.page pid i j) = some r := by rw [hshrinks.refOf_eq]; exact href
    have hlink := hr2.link_page (o := none) hfresh href1 hnone (by simp)
    rw [← e2] at hlink
    have hentry : entry P s2 r = entry P s1 r := by rw [e2]; rfl
    rw [hentry, e3] at hlink
    have hbase : (entry P s3 r).baseAddr = g.frame := by
      rw [← e3]
      rcases entry_setEntry (P := P) (s := s1) (r := r) (e := (entry P s1 r).pointTo g.frame) with ⟨a, d, he⟩
      rw [he]
      rfl
    have hswap : s3.swap = s2.swap := by rw [← e3, e2]; rfl
    have hmem : M pid i j = (s3.swap r).getD fun _ => 0 := by
      rw [← hr2.mem pid i j]
      unfold pageOf
      rw [hnone, href1, hswap]
      rfl
    have hslot : update φ1 (.page pid i j) (some g.frame) (.page pid i j) = some g.frame := Function.update_self ..
    have href3 : refOf (update φ1 (.page pid i j) (some g.frame)) (.page pid i j) = some r := by
      rw [refOf_update_page]
      exact href1
    have hpage3 := hslot.trans (congrArg some hbase.symm)
    rcases hlink.readPageFromDisk href3 hpage3 hmem with ⟨hr4, he4⟩
    subst e
    have hinUse : (Mmu.readPageFromDisk P s3 r).inUse = s1.inUse := by
      rw [readPageFromDisk_inUse, ← e3]
      rfl
    refine ⟨_, hr4, ?_, ⟨?_, fun f => hinUse ▸ hother _ hnone f⟩, href3, ?_⟩
    · intro p
      rw [Function.update_of_ne (by simp)]
      exact hshrinks.keep _ (by simp)
    · intro hopened
      have hasked : Opened P s1 φ := Opened.ask (s := { s with numPageFaults := s.numPageFaults + 1 }) hopened hask
      have hset : Opened P s3 φ := e3 ▸ hasked.setEntry ((entry P s1 r).pointTo_open g.frame)
      exact (hset.refs (refOf_update_page.trans hshrinks.refOf_eq)).readPageFromDisk hlink.toTree hpage3
    · rw [he4, hbase, hslot]

/-- The indices depend on the page number alone. -/
theorem index_congr (va va' : Addr) (h : va'.val / 2 ^ 12 = va.val / 2 ^ 12) :
    pdeIndex va' = pdeIndex va ∧ pteIndex va' = pteIndex va := by
  unfold pdeIndex pteIndex
  simp only [Fin.mk.injEq]
  have h22 : ∀ a : Nat, a / 2 ^ 22 = a / 2 ^ 12 / 2 ^ 10 := fun a => by rw [Nat.div_div_eq_div_mul]; rfl
  rw [h22, h22, h]
  exact ⟨rfl, rfl⟩

theorem Rep.walk (hr : Rep P s φ M) {va : Addr} {pid : Nat} {g : Grant} {pte : Ref} (hpid : s.currPid = pid)
    (h : walk P s va pid g = some (s', pte)) :
    ∃ φ', Rep P s' φ' M ∧ (∀ p, φ' (.directory p) = φ (.directory p)) ∧ Kept P s φ s' φ' ∧
      refOf φ' (.page pid (pdeIndex va) (pteIndex va)) = some pte := by
  unfold Mmu.walk at h
  rcases Option.bind_eq_some_iff.mp h with ⟨pd, hpd, h⟩
  rcases Option.map_eq_some_iff.mp h with ⟨s1, hd, e⟩
  have href : refOf φ (.table pid (pdeIndex va)) = some ⟨pd, pdeIndex va⟩ := by
    rw [refOf_table, hr.directory, hpd]
    rfl
  rcases (hr.counters (s.numTlbMisses + 1) _ _).demandTable href hd with
    ⟨φ', hr', hdirs, hkept, htable, hcurr⟩
  have hpte : refOf φ' (.page pid (pdeIndex va) (pteIndex va)) = some pte := by
    rw [refOf_page, htable, ← (Prod.mk.inj e).2]
    rfl
  rw [← (Prod.mk.inj e).1]
  refine ⟨φ', ?_, hdirs, ⟨hkept.opened, hkept.other⟩, hpte⟩
  refine ⟨⟨hr'.directory, hr'.table, hr'.page, hr'.inj⟩, hr'.used, hr'.evictable, hr'.swap, ?_, hr'.mem⟩
  intro v r hv va' hva
  rcases List.mem_cons.mp hv with hv | hv
  · rcases index_congr _ _ (hva.trans (Prod.mk.inj hv).1) with ⟨hi, hj⟩
    dsimp only
    rw [hi, hj, hcurr, (Prod.mk.inj hv).2, (Prod.mk.inj e).2]
    exact hpid ▸ hpte
  · exact hr'.tlb v r hv va' hva

theorem Rep.lookup (hr : Rep P s φ M) {va : Addr} {pid : Nat} {c : Choices} {pte : Ref} (hpid : s.currPid = pid)
    (h : lookup P s va pid c = some (s', pte)) :
    ∃ φ', Rep P s' φ' M ∧ (∀ p, φ' (.directory p) = φ (.directory p)) ∧ Kept P s φ s' φ' ∧
      refOf φ' (.page pid (pdeIndex va) (pteIndex va)) = some pte := by
  unfold Mmu.lookup at h
  split at h
  · exact hr.walk hpid h
  · split at h
    · rename_i hmem
      cases h
      exact ⟨φ, hr, fun _ => rfl, .refl, hpid ▸ hr.tlb _ _ hmem va rfl⟩
    · cases h

theorem Rep.contextSwitch (hr : Rep P s φ M) (pid : Nat) :
    Rep P (contextSwitch s pid) φ M ∧ (contextSwitch s pid).currPid = pid := by
  unfold Mmu.contextSwitch
  split
  · exact ⟨⟨⟨hr.directory, hr.table, hr.page, hr.inj⟩, hr.used, hr.evictable, hr.swap, by simp, hr.mem⟩, rfl⟩
  · rename_i h
    exact ⟨hr, Decidable.not_not.mp h⟩

theorem kept_contextSwitch (pid : Nat) : Kept P s φ (contextSwitch s pid) φ := by
  unfold Mmu.contextSwitch
  split
  · exact ⟨id, fun _ => Iff.rfl⟩
  · exact .refl

/-- After the check of an access its page has a frame, and the entry points to it. -/
theorem Rep.performCheck (hr : Rep P s φ M) {va : Addr} {pid : Nat} {c : Choices} {o : Option Ref}
    (h : performCheck P s va pid c = some (s', o)) :
    ∃ φ', Rep P s' φ' M ∧ (∀ p, φ' (.directory p) = φ (.directory p)) ∧ Kept P s φ s' φ' ∧
      ∀ pte, o = some pte → refOf φ' (.page pid (pdeIndex va) (pteIndex va)) = some pte ∧
        φ' (.page pid (pdeIndex va) (pteIndex va)) = some (entry P s' pte).baseAddr := by
  unfold Mmu.performCheck at h
  rcases hr.contextSwitch pid with ⟨hr0, hpid⟩
  rcases Option.bind_eq_some_iff.mp h with ⟨segs, -, h⟩
  split at h
  · rcases Option.bind_eq_some_iff.mp h with ⟨⟨s1, pte⟩, hlookup, h⟩
    rcases Option.map_eq_some_iff.mp h with ⟨s2, hdemand, h⟩
    rcases hr0.lookup hpid hlookup with ⟨φ1, hr1, hdirs1, hkept1, href⟩
    rcases hr1.demandPage href hdemand with ⟨φ2, hr2, hdirs2, hkept2, href2, hpage⟩
    have hdirs : ∀ p, φ2 (.directory p) = φ (.directory p) := fun p => (hdirs2 p).trans (hdirs1 p)
    have hkept : Kept P s φ s2 φ2 := ((kept_contextSwitch pid).trans hkept1).trans hkept2
    dsimp only at h
    split at h
    · cases h
      refine ⟨φ2, hr2, hdirs, hkept, ?_⟩
      intro pte' ho
      rw [← Option.some.inj ho]
      exact ⟨href2, hpage⟩
    · cases h
      exact ⟨φ2, hr2.counters _ _ _, hdirs, ⟨hkept.opened, hkept.other⟩, by simp⟩
  · cases h
    have hkept := kept_contextSwitch (P := P) (s := s) (φ := φ) pid
    exact ⟨φ, hr0.counters _ _ _, fun _ => rfl, ⟨hkept.opened, hkept.other⟩, by simp⟩

/-- The contents of a page are in its frame. -/
theorem Rep.frame_eq (hr : Rep P s φ M) {pid : Nat} {i j : Index} {f : Frame} (hf : φ (.page pid i j) = some f) :
    s.frames f = M pid i j := by
  rw [← hr.mem]
  unfold pageOf
  rw [hf]

/-- A read changes no memory and returns bytes of the page. -/
theorem Rep.read (hr : Rep P s φ M) {va : Addr} {pid n : Nat} {c : Choices} {o : Option (List UInt8)}
    (h : read P s va pid n c = some (s', o)) :
    ∃ φ', Rep P s' φ' M ∧ (∀ p, φ' (.directory p) = φ (.directory p)) ∧ Kept P s φ s' φ' ∧
      ∀ bytes, o = some bytes → bytes = load (M pid (pdeIndex va) (pteIndex va)) (va.val % pageSize) n := by
  unfold Mmu.read at h
  split at h
  · rcases Option.map_eq_some_iff.mp h with ⟨⟨s1, pte⟩, hcheck, e⟩
    rcases hr.performCheck hcheck with ⟨φ', hr', hdirs, hkept, hpte⟩
    cases pte with
    | none =>
      cases e
      exact ⟨φ', hr', hdirs, hkept, by simp⟩
    | some pte =>
      cases e
      rcases hpte pte rfl with ⟨href, hpage⟩
      have htouched : Opened P s φ → Opened P (setEntry P s1 pte { entry P s1 pte with accessed := true }) φ' :=
        fun hopened => (hkept.opened hopened).touch href rfl rfl
      refine ⟨φ', hr'.touch href rfl, hdirs, ⟨htouched, hkept.other⟩, ?_⟩
      intro bytes hb
      rw [← Option.some.inj hb, hr'.frame_eq hpage]
  · cases h

/-- A write changes the bytes it writes and no others. -/
theorem Rep.write (hr : Rep P s φ M) {va : Addr} {pid : Nat} {buffer : List UInt8} {c : Choices} {done : Bool}
    (h : write P s va pid buffer c = some (s', done)) :
    ∃ φ', Rep P s' φ' (if done = true then M.set pid (pdeIndex va) (pteIndex va)
        (store (M pid (pdeIndex va) (pteIndex va)) (va.val % pageSize) buffer) else M) ∧
      (∀ p, φ' (.directory p) = φ (.directory p)) ∧ Kept P s φ s' φ' := by
  unfold Mmu.write at h
  split at h
  · rcases Option.map_eq_some_iff.mp h with ⟨⟨s1, pte⟩, hcheck, e⟩
    rcases hr.performCheck hcheck with ⟨φ', hr', hdirs, hkept, hpte⟩
    cases pte with
    | none =>
      cases e
      exact ⟨φ', hr', hdirs, hkept⟩
    | some pte =>
      cases e
      rcases hpte pte rfl with ⟨href, hpage⟩
      rw [← hr'.frame_eq hpage]
      refine ⟨φ', (hr'.setPage hpage _).touch href rfl, hdirs, ?_, hkept.other⟩
      intro hopened
      exact ((hkept.opened hopened).setPage hr'.toTree hpage _).touch href rfl rfl
  · cases h

end SysProg.Mmu
