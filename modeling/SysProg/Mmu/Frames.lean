/-
  SysProg.Mmu.Frames — which frame holds what.

  A slot is a place a process has for a frame: its directory, the table of a directory
  entry, the page of a table entry. `Rep s φ M` says that `φ` gives each slot the frame
  that the entries in memory point to, that no frame has two slots and each one is in
  use, that what the kernel may evict and what the TLB and the swap files refer to are
  slots, and that the pages of the processes, in their frames or their swap files, are
  `M`. So `M` is the memory that the processes see.

  Each thing the code does to memory has a lemma: an entry changed in its flags
  (`Rep.touch`), a page written (`Rep.setPage`), a page evicted (`Rep.evict`), a frame
  obtained (`Rep.ask`) and linked as a table or a page (`Rep.link_table`, `Rep.link_page`).
  Each of them also keeps the page entries open to the user (`Opened`) and the frames in
  use for other things what they are (`Other`).
-/

import SysProg.Mmu.Mmu

namespace SysProg.Mmu

open Function (update)
open SysProg.Bytes (Mem load store)

inductive Slot where
  | directory (pid : Nat)
  | table (pid : Nat) (i : Index)
  | page (pid : Nat) (i j : Index)
  deriving DecidableEq

abbrev Space := Nat → Index → Index → Mem

abbrev Frames := Slot → Option Frame

variable {P : Platform} {s s' : St} {φ : Frames} {M : Space}

def refOf (φ : Frames) : Slot → Option Ref
  | .directory _ => none
  | .table pid i => (φ (.directory pid)).map fun d => ⟨d, i⟩
  | .page pid i j => (φ (.table pid i)).map fun t => ⟨t, j⟩

theorem refOf_table {pid : Nat} {i : Index} : refOf φ (.table pid i) = (φ (.directory pid)).map fun d => ⟨d, i⟩ := rfl

theorem refOf_page {pid : Nat} {i j : Index} : refOf φ (.page pid i j) = (φ (.table pid i)).map fun t => ⟨t, j⟩ := rfl

@[simp] theorem refOf_update_page {pid : Nat} {i j : Index} {g : Option Frame} :
    refOf (update φ (.page pid i j) g) = refOf φ := by
  funext x
  cases x <;> simp [refOf]

def Entry.target (e : Entry) : Option Frame := if e.present = true then some e.baseAddr else none

theorem target_some {e : Entry} (h : e.present = true) : e.target = some e.baseAddr := if_pos h

theorem target_none {e : Entry} (h : ¬ e.present = true) : e.target = none := if_neg h

def pageOf (s : St) (φ : Frames) (pid : Nat) (i j : Index) : Mem :=
  match φ (.page pid i j) with
  | some f => s.frames f
  | none => ((refOf φ (.page pid i j)).bind s.swap).getD fun _ => 0

/-- The frames of the slots are those that the entries point to, each has one slot. -/
structure Tree (P : Platform) (s : St) (φ : Frames) : Prop where
  directory : ∀ pid, φ (.directory pid) = s.pageDirectories pid
  table : ∀ pid i, φ (.table pid i) = (refOf φ (.table pid i)).bind fun r => (entry P s r).target
  page : ∀ pid i j, φ (.page pid i j) = (refOf φ (.page pid i j)).bind fun r => (entry P s r).target
  inj : ∀ x y f, φ x = some f → φ y = some f → x = y

structure Rep (P : Platform) (s : St) (φ : Frames) (M : Space) : Prop extends Tree P s φ where
  used : ∀ x f, φ x = some f → s.inUse f = true
  evictable : ∀ f r, s.evictable f = some r → ∃ pid i j, φ (.page pid i j) = some f ∧ refOf φ (.page pid i j) = some r
  swap : ∀ r p, s.swap r = some p → ∃ pid i, φ (.table pid i) = some r.frame
  tlb : ∀ v r, (v, r) ∈ s.tlb → ∀ va : Addr, va.val / 2 ^ 12 = v →
    refOf φ (.page s.currPid (pdeIndex va) (pteIndex va)) = some r
  mem : ∀ pid i j, pageOf s φ pid i j = M pid i j

/-! ## Entries -/

theorem entry_congr {r : Ref} (h : s'.frames r.frame = s.frames r.frame) : entry P s' r = entry P s r := by
  unfold entry
  rw [h]

theorem entry_setEntry {r : Ref} {e : Entry} :
    ∃ accessed dirty, entry P (setEntry P s r e) r = { e with accessed := accessed, dirty := dirty } := by
  have hload : load (store (s.frames r.frame) (4 * r.index.val) (P.encode e)) (4 * r.index.val) 4 = P.encode e := by
    have hlen := P.length_encode e
    apply List.ext_getElem
    · simp [load, hlen]
    · intro k hk hk'
      simp only [load, List.getElem_map, List.getElem_range]
      exact Bytes.store_at hk'
  unfold entry setEntry
  dsimp only
  rw [Function.update_self, hload]
  exact P.decode_encode e

theorem entry_setEntry_of_ne {r r' : Ref} {e : Entry} (h : r' ≠ r) : entry P (setEntry P s r e) r' = entry P s r' := by
  by_cases hf : r'.frame = r.frame
  · have hi : r'.index.val ≠ r.index.val := by
      intro hi
      apply h
      cases r
      cases r'
      simp only [Ref.mk.injEq]
      exact ⟨hf, Fin.ext hi⟩
    have hlen := P.length_encode e
    unfold entry setEntry
    dsimp only
    rw [hf, Function.update_self]
    congr 1
    unfold load
    apply List.map_congr_left
    intro k hk
    have hk := List.mem_range.mp hk
    apply Bytes.store_off
    intro m hm
    omega
  · exact entry_congr (Function.update_of_ne hf _ _)

theorem entry_zero {r : Ref} (h : s.frames r.frame = fun _ => 0) : (entry P s r).target = none := by
  unfold entry Entry.target
  have hload : load (s.frames r.frame) (4 * r.index.val) 4 = [0, 0, 0, 0] := by rw [h]; rfl
  rw [hload, P.decode_zero]
  rfl

/-- If it is present, its flags let the user write. -/
def Entry.Open (e : Entry) : Prop := e.present = true → e.readWrite = true ∧ e.userSupervisor = true

theorem Entry.pointTo_open (e : Entry) (f : Frame) : (e.pointTo f).Open := fun _ => ⟨rfl, rfl⟩

theorem Entry.open_of_target {e : Entry} (h : e.target = none) : e.Open := by
  intro hp
  rw [target_some hp] at h
  cases h

def Opened (P : Platform) (s : St) (φ : Frames) : Prop :=
  ∀ pid i j r, refOf φ (.page pid i j) = some r → (entry P s r).Open

/-- Entries that have changed are open. -/
theorem Opened.congr {φ' : Frames} (h : Opened P s φ)
    (he : ∀ pid i j r, refOf φ' (.page pid i j) = some r →
      refOf φ (.page pid i j) = some r ∧ entry P s' r = entry P s r ∨ (entry P s' r).Open) : Opened P s' φ' := by
  intro pid i j r hr
  rcases he pid i j r hr with ⟨hold, heq⟩ | hopen
  · rw [heq]
    exact h pid i j r hold
  · exact hopen

theorem Opened.setEntry {r : Ref} {e : Entry} (h : Opened P s φ) (he : e.Open) : Opened P (setEntry P s r e) φ := by
  apply h.congr
  intro pid i j r' hr
  by_cases hrr : r' = r
  · subst hrr
    rcases entry_setEntry (P := P) (s := s) (r := r') (e := e) with ⟨a, d, hset⟩
    apply Or.inr
    rw [hset]
    exact he
  · exact Or.inl ⟨hr, entry_setEntry_of_ne hrr⟩

theorem Opened.evict (h : Opened P s φ) (f : Frame) : Opened P (evict P s f) φ := by
  unfold Mmu.evict
  split
  · exact h
  · rename_i r _
    have hset : Opened P (Mmu.setEntry P s r { entry P s r with present := false }) φ := h.setEntry nofun
    exact hset

theorem Opened.ask {pte : Option Ref} {g : Grant} (h : Opened P s φ) (hask : askKernelForFrame P s pte g = some s') :
    Opened P s' φ := by
  have hevicted : ∀ (l : List Frame) (u : St), Opened P u φ → Opened P (l.foldl (Mmu.evict P) u) φ := by
    intro l
    induction l with
    | nil => exact fun _ hu => hu
    | cons f l ih => exact fun u hu => ih _ (hu.evict f)
  unfold askKernelForFrame at hask
  dsimp only at hask
  split at hask
  · cases hask
  cases hask
  apply (hevicted g.evicted s h).congr
  intro pid i j r hr
  by_cases hrg : r.frame = g.frame
  · refine Or.inr (Entry.open_of_target (entry_zero ?_))
    rw [hrg]
    exact Function.update_self ..
  · exact Or.inl ⟨hr, entry_congr (Function.update_of_ne hrg _ _)⟩

/-! ## Frames in use for other things -/

def Other (inUse : Frame → Bool) (φ : Frames) (f : Frame) : Prop := inUse f = true ∧ ∀ x, φ x ≠ some f

structure Kept (P : Platform) (s : St) (φ : Frames) (s' : St) (φ' : Frames) : Prop where
  opened : Opened P s φ → Opened P s' φ'
  other : ∀ f, Other s'.inUse φ' f ↔ Other s.inUse φ f

theorem Kept.refl : Kept P s φ s φ := ⟨id, fun _ => Iff.rfl⟩

theorem Kept.trans {s1 s2 s3 : St} {φ1 φ2 φ3 : Frames} (h : Kept P s1 φ1 s2 φ2) (h' : Kept P s2 φ2 s3 φ3) :
    Kept P s1 φ1 s3 φ3 := ⟨fun hopened => h'.opened (h.opened hopened), fun f => (h'.other f).trans (h.other f)⟩

section

variable {inUse : Frame → Bool} {x : Slot} {f g : Frame}

/-- A slot's frame goes back. -/
theorem other_drop (hx : φ x = some g) : Other (update inUse g false) (update φ x none) f ↔ Other inUse φ f := by
  unfold Other
  by_cases hfg : f = g
  · subst hfg
    rw [Function.update_self]
    exact ⟨fun h => absurd h.1 Bool.false_ne_true, fun h => absurd hx (h.2 x)⟩
  · rw [Function.update_of_ne hfg]
    refine and_congr_right fun _ => forall_congr' fun y => ?_
    by_cases hyx : y = x
    · subst hyx
      rw [Function.update_self, hx]
      simpa using Ne.symm hfg
    · rw [Function.update_of_ne hyx]

/-- A frame that is in no slot is handed out. -/
theorem other_take (hg : ∀ x, φ x ≠ some g) : Other (update inUse g true) φ f ↔ Other inUse φ f ∨ f = g := by
  unfold Other
  by_cases hfg : f = g
  · subst hfg
    simpa using hg
  · rw [Function.update_of_ne hfg]
    simp [hfg]

theorem other_link (hx : φ x = none) : Other inUse (update φ x (some g)) f ↔ Other inUse φ f ∧ f ≠ g := by
  have hslots : (∀ y, update φ x (some g) y ≠ some f) ↔ (∀ y, φ y ≠ some f) ∧ f ≠ g := by
    constructor
    · intro h
      refine ⟨fun y hy => ?_, fun e => h x (by rw [Function.update_self, e])⟩
      by_cases hyx : y = x
      · rw [hyx, hx] at hy
        cases hy
      · exact h y ((Function.update_of_ne hyx _ _).trans hy)
    · intro h y hy
      by_cases hyx : y = x
      · rw [hyx, Function.update_self] at hy
        exact h.2 (Option.some.inj hy).symm
      · rw [Function.update_of_ne hyx] at hy
        exact h.1 y hy
  unfold Other
  rw [hslots, and_assoc]

end

/-! ## The tree of frames -/

/-- A reference is into a directory or a table. -/
theorem refOf_frame {x : Slot} {r : Ref} (h : refOf φ x = some r) :
    ∃ y, φ y = some r.frame ∧ ∀ pid i j, y ≠ .page pid i j := by
  cases x with
  | directory pid => cases h
  | table pid i =>
    rcases Option.map_eq_some_iff.mp h with ⟨d, hd, e⟩
    subst e
    exact ⟨_, hd, by simp⟩
  | page pid i j =>
    rcases Option.map_eq_some_iff.mp h with ⟨t, ht, e⟩
    subst e
    exact ⟨_, ht, by simp⟩

theorem Tree.ref_ne_page (ht : Tree P s φ) {x : Slot} {r : Ref} {pid : Nat} {i j : Index} {f : Frame}
    (hr : refOf φ x = some r) (hf : φ (.page pid i j) = some f) : r.frame ≠ f := by
  rcases refOf_frame hr with ⟨y, hy, hne⟩
  intro e
  subst e
  exact hne _ _ _ (ht.inj _ _ _ hy hf)

theorem Tree.refOf_inj (ht : Tree P s φ) {x y : Slot} {r : Ref} (hx : refOf φ x = some r) (hy : refOf φ y = some r) :
    x = y := by
  have hpair : ∀ {u v : Slot} {k l : Index}, (φ u).map (fun f => (⟨f, k⟩ : Ref)) = some r →
      (φ v).map (fun f => (⟨f, l⟩ : Ref)) = some r → u = v ∧ k = l := by
    intro u v k l hu hv
    rcases Option.map_eq_some_iff.mp hu with ⟨f, hf, e⟩
    rcases Option.map_eq_some_iff.mp hv with ⟨g, hg, e'⟩
    subst e
    simp only [Ref.mk.injEq] at e'
    exact ⟨ht.inj u v f hf (e'.1 ▸ hg), e'.2.symm⟩
  cases x with
  | directory pid => cases hx
  | table pid i =>
    cases y with
    | directory pid' => cases hy
    | table pid' i' =>
      rcases hpair hx hy with ⟨h, hi⟩
      cases h
      rw [hi]
    | page pid' i' j' => cases (hpair hx hy).1
  | page pid i j =>
    cases y with
    | directory pid' => cases hy
    | table pid' i' => cases (hpair hx hy).1
    | page pid' i' j' =>
      rcases hpair hx hy with ⟨h, hj⟩
      cases h
      rw [hj]

/-- The tree depends on the directories and the entries of the slots alone. -/
theorem Tree.congr (ht : Tree P s φ) (hd : s'.pageDirectories = s.pageDirectories)
    (he : ∀ x r, refOf φ x = some r → (entry P s' r).target = (entry P s r).target) : Tree P s' φ where
  directory := by rw [hd]; exact ht.directory
  table := by
    intro pid i
    rw [ht.table pid i]
    exact Option.bind_congr fun r hr => (he _ r hr).symm
  page := by
    intro pid i j
    rw [ht.page pid i j]
    exact Option.bind_congr fun r hr => (he _ r hr).symm
  inj := ht.inj

theorem inj_update (ht : Tree P s φ) {x : Slot} {g : Option Frame} (hfresh : ∀ f, g = some f → ∀ y, φ y ≠ some f)
    {y z : Slot} {f : Frame} (hy : update φ x g y = some f) (hz : update φ x g z = some f) : y = z := by
  by_cases hyx : y = x
  · by_cases hzx : z = x
    · rw [hyx, hzx]
    · rw [hyx, Function.update_self] at hy
      rw [Function.update_of_ne hzx] at hz
      exact absurd hz (hfresh f hy z)
  · rw [Function.update_of_ne hyx] at hy
    by_cases hzx : z = x
    · rw [hzx, Function.update_self] at hz
      exact absurd hy (hfresh f hz y)
    · rw [Function.update_of_ne hzx] at hz
      exact ht.inj y z f hy hz

/-- A page's entry points elsewhere. -/
theorem Tree.set_page (ht : Tree P s φ) {pid : Nat} {i j : Index} {r : Ref} {g : Option Frame}
    (hr : refOf φ (.page pid i j) = some r) (hd : s'.pageDirectories = s.pageDirectories)
    (hg : (entry P s' r).target = g) (hfresh : ∀ f, g = some f → ∀ x, φ x ≠ some f)
    (he : ∀ x r', refOf φ x = some r' → r' ≠ r → (entry P s' r').target = (entry P s r').target) :
    Tree P s' (update φ (.page pid i j) g) := by
  have hne : ∀ x, x ≠ .page pid i j → ∀ r', refOf φ x = some r' → (entry P s' r').target = (entry P s r').target := by
    intro x hx r' hr'
    apply he x r' hr'
    intro e
    exact hx (ht.refOf_inj hr' (e ▸ hr))
  constructor
  · intro p
    rw [hd]
    exact ht.directory p
  · intro p k
    apply (ht.table p k).trans
    exact Option.bind_congr fun r' hr' => (hne (.table p k) (by simp) r' hr').symm
  · intro p k m
    by_cases hx : Slot.page p k m = .page pid i j
    · rw [hx, Function.update_self]
      show g = (refOf φ (.page pid i j)).bind _
      rw [hr]
      exact hg.symm
    · rw [Function.update_of_ne hx]
      apply (ht.page p k m).trans
      exact Option.bind_congr fun r' hr' => (hne _ hx r' hr').symm
  · intro x y f hx hy
    exact inj_update ht hfresh hx hy

/-- A table with no page is added. -/
theorem Tree.set_table (ht : Tree P s φ) {pid : Nat} {i : Index} {r : Ref} {g : Frame}
    (hr : refOf φ (.table pid i) = some r) (hnone : φ (.table pid i) = none)
    (hd : s'.pageDirectories = s.pageDirectories) (hg : (entry P s' r).target = some g) (hfresh : ∀ x, φ x ≠ some g)
    (hzero : ∀ j, (entry P s' ⟨g, j⟩).target = none)
    (he : ∀ x r', refOf φ x = some r' → r' ≠ r → (entry P s' r').target = (entry P s r').target) :
    Tree P s' (update φ (.table pid i) (some g)) := by
  have hne : ∀ x, x ≠ .table pid i → ∀ r', refOf φ x = some r' → (entry P s' r').target = (entry P s r').target := by
    intro x hx r' hr'
    apply he x r' hr'
    intro e
    exact hx (ht.refOf_inj hr' (e ▸ hr))
  constructor
  · intro p
    rw [hd]
    exact ht.directory p
  · intro p k
    by_cases hx : Slot.table p k = .table pid i
    · rw [hx, Function.update_self]
      show some g = (refOf φ (.table pid i)).bind _
      rw [hr]
      exact hg.symm
    · rw [Function.update_of_ne hx]
      apply (ht.table p k).trans
      exact Option.bind_congr fun r' hr' => (hne _ hx r' hr').symm
  · intro p k m
    by_cases hx : Slot.table p k = .table pid i
    · cases hx
      have hpage : φ (.page pid i m) = none := by rw [ht.page, refOf_page, hnone]; rfl
      rw [Function.update_of_ne (by simp), hpage, refOf_page, Function.update_self]
      exact (hzero m).symm
    · have href : refOf (update φ (.table pid i) (some g)) (.page p k m) = refOf φ (.page p k m) := by
        rw [refOf_page, refOf_page, Function.update_of_ne hx]
      rw [Function.update_of_ne (by simp), href]
      apply (ht.page p k m).trans
      exact Option.bind_congr fun r' hr' => (hne (.page p k m) (by simp) r' hr').symm
  · intro x y f hx hy
    refine inj_update ht ?_ hx hy
    intro f hf
    exact Option.some.inj hf ▸ hfresh

/-! ## Pages -/

theorem pageOf_congr {φ' : Frames} {pid : Nat} {i j : Index} (hp : φ' (.page pid i j) = φ (.page pid i j))
    (hr : refOf φ' (.page pid i j) = refOf φ (.page pid i j))
    (hf : ∀ f, φ (.page pid i j) = some f → s'.frames f = s.frames f)
    (hs : ∀ r, refOf φ (.page pid i j) = some r → s'.swap r = s.swap r) :
    pageOf s' φ' pid i j = pageOf s φ pid i j := by
  unfold pageOf
  rw [hp, hr]
  cases hφ : φ (.page pid i j) with
  | some f => exact hf f hφ
  | none =>
    dsimp only
    rw [Option.bind_congr hs]

/-- The flags of an entry changed. -/
theorem Rep.touch (hr : Rep P s φ M) {x : Slot} {r : Ref} {e : Entry} (hx : refOf φ x = some r)
    (he : e.target = (entry P s r).target) : Rep P (setEntry P s r e) φ M := by
  have htree : Tree P (setEntry P s r e) φ := by
    refine hr.congr rfl ?_
    intro y r' _
    by_cases hne : r' = r
    · subst hne
      rcases entry_setEntry (P := P) (s := s) (r := r') (e := e) with ⟨a, d, h⟩
      rw [h, ← he]
      rfl
    · rw [entry_setEntry_of_ne hne]
  refine ⟨htree, hr.used, hr.evictable, hr.swap, hr.tlb, ?_⟩
  intro pid i j
  refine Eq.trans ?_ (hr.mem pid i j)
  refine pageOf_congr rfl rfl ?_ fun _ _ => rfl
  intro f hf
  exact Function.update_of_ne (hr.ref_ne_page hx hf).symm _ _

def Space.set (M : Space) (pid : Nat) (i j : Index) (m : Mem) : Space :=
  fun p k l => if p = pid ∧ k = i ∧ l = j then m else M p k l

theorem Space.set_self {pid : Nat} {i j : Index} {m : Mem} (h : M pid i j = m) : M.set pid i j m = M := by
  funext p k l
  unfold Space.set
  split
  · rename_i hp
    rw [hp.1, hp.2.1, hp.2.2, h]
  · rfl

theorem Space.set_set {pid : Nat} {i j : Index} {m n : Mem} : (M.set pid i j m).set pid i j n = M.set pid i j n := by
  funext p k l
  unfold Space.set
  split <;> rfl

/-- A page's frame written. -/
theorem Rep.setPage (hr : Rep P s φ M) {pid : Nat} {i j : Index} {f : Frame} (hf : φ (.page pid i j) = some f)
    (m : Mem) :
    Rep P { s with frames := update s.frames f m } φ (M.set pid i j m) := by
  have htree : Tree P { s with frames := update s.frames f m } φ := by
    refine hr.congr rfl ?_
    intro x r hx
    rw [entry_congr (Function.update_of_ne (hr.ref_ne_page hx hf) _ _)]
  refine ⟨htree, hr.used, hr.evictable, hr.swap, hr.tlb, ?_⟩
  intro p k l
  unfold Space.set
  split
  · rename_i h
    rcases h with ⟨hp, hk, hl⟩
    subst hp hk hl
    unfold pageOf
    rw [hf]
    exact Function.update_self ..
  · rename_i h
    refine Eq.trans ?_ (hr.mem p k l)
    refine pageOf_congr rfl rfl ?_ fun _ _ => rfl
    intro g hg
    refine Function.update_of_ne ?_ _ _
    intro e
    subst e
    have hslot := hr.inj _ _ _ hg hf
    simp only [Slot.page.injEq] at hslot
    exact h hslot

/-! ## Frames obtained from the kernel -/

theorem Opened.refs {φ' : Frames} (h : Opened P s φ) (hr : refOf φ' = refOf φ) : Opened P s φ' := by
  unfold Opened
  rw [hr]
  exact h

theorem Opened.touch {pid : Nat} {i j : Index} {r : Ref} {e : Entry} (h : Opened P s φ)
    (hr : refOf φ (.page pid i j) = some r) (hp : e.present = (entry P s r).present)
    (hf : (e.readWrite, e.userSupervisor) = ((entry P s r).readWrite, (entry P s r).userSupervisor)) :
    Opened P (Mmu.setEntry P s r e) φ := by
  apply h.setEntry
  unfold Entry.Open
  rw [(Prod.mk.inj hf).1, (Prod.mk.inj hf).2, hp]
  exact h pid i j r hr

theorem Opened.setPage {pid : Nat} {i j : Index} {f : Frame} (h : Opened P s φ) (ht : Tree P s φ)
    (hf : φ (.page pid i j) = some f) (m : Mem) : Opened P { s with frames := update s.frames f m } φ := by
  apply h.congr
  intro p k l r hr
  exact Or.inl ⟨hr, entry_congr (Function.update_of_ne (ht.ref_ne_page hr hf) _ _)⟩

structure Shrinks (φ φ' : Frames) : Prop where
  sub : ∀ x f, φ' x = some f → φ x = some f
  keep : ∀ x, (∀ pid i j, x ≠ .page pid i j) → φ' x = φ x

theorem Shrinks.refOf_eq {φ' : Frames} (h : Shrinks φ φ') : refOf φ' = refOf φ := by
  funext x
  cases x with
  | directory pid => rfl
  | table pid i => rw [refOf_table, refOf_table, h.keep _ (by simp)]
  | page pid i j => rw [refOf_page, refOf_page, h.keep _ (by simp)]

theorem Rep.evict (hr : Rep P s φ M) (f : Frame) :
    ∃ φ', Rep P (evict P s f) φ' M ∧ Shrinks φ φ' ∧ ∀ g, Other (evict P s f).inUse φ' g ↔ Other s.inUse φ g := by
  unfold Mmu.evict
  cases hev : s.evictable f with
  | none => exact ⟨φ, hr, ⟨fun _ _ h => h, fun _ _ => rfl⟩, fun _ => Iff.rfl⟩
  | some r =>
    dsimp only
    rcases hr.evictable f r hev with ⟨pid, i, j, hf, href⟩
    have hne : ∀ x g, update φ (.page pid i j) none x = some g → φ x = some g ∧ g ≠ f := by
      intro x g hx
      by_cases hxp : x = .page pid i j
      · rw [hxp, Function.update_self] at hx
        cases hx
      · rw [Function.update_of_ne hxp] at hx
        refine ⟨hx, ?_⟩
        intro e
        exact hxp (hr.inj _ _ _ hx (e ▸ hf))
    refine ⟨update φ (.page pid i j) none, ⟨?_, ?_, ?_, ?_, ?_, ?_⟩, ⟨fun x g hx => (hne x g hx).1, ?_⟩,
      fun _ => other_drop hf⟩
    · refine hr.set_page href rfl ?_ (by simp) ?_
      · rcases entry_setEntry (P := P) (s := s) (r := r) (e := { entry P s r with present := false }) with ⟨a, d, h⟩
        exact (congrArg Entry.target h).trans rfl
      · intro x r' _ hr'
        exact congrArg Entry.target (entry_setEntry_of_ne hr')
    · intro x g hx
      rcases hne x g hx with ⟨hx, hg⟩
      exact (Function.update_of_ne hg _ _).trans (hr.used x g hx)
    · intro g r' hg
      by_cases hgf : g = f
      · rw [hgf] at hg
        dsimp only at hg
        rw [Function.update_self] at hg
        cases hg
      · dsimp only at hg
        rw [Function.update_of_ne hgf] at hg
        rcases hr.evictable g r' hg with ⟨p, k, l, hp, hp'⟩
        refine ⟨p, k, l, ?_, by rw [refOf_update_page]; exact hp'⟩
        rw [Function.update_of_ne ?_]
        · exact hp
        · intro e
          rw [e, hf] at hp
          exact hgf (Option.some.inj hp).symm
    · intro r' q hq
      by_cases hrr : r' = r
      · subst hrr
        rcases Option.map_eq_some_iff.mp href with ⟨t, ht, e⟩
        exact ⟨pid, i, by rw [Function.update_of_ne (by simp), ← e]; exact ht⟩
      · dsimp only at hq
        rw [Function.update_of_ne hrr] at hq
        rcases hr.swap r' q hq with ⟨p, k, hp⟩
        exact ⟨p, k, by rw [Function.update_of_ne (by simp)]; exact hp⟩
    · intro v r' hv va hva
      rw [refOf_update_page]
      exact hr.tlb v r' hv va hva
    · intro p k l
      refine Eq.trans ?_ (hr.mem p k l)
      by_cases hx : Slot.page p k l = .page pid i j
      · cases hx
        unfold pageOf
        rw [Function.update_self, refOf_update_page, href, hf, Option.bind_some]
        dsimp only
        rw [Function.update_self, Option.getD_some]
      · refine pageOf_congr (Function.update_of_ne hx _ _) (by rw [refOf_update_page]) ?_ ?_
        · intro g hg
          exact Function.update_of_ne (hr.ref_ne_page href hg).symm _ _
        · intro r' hr'
          refine Function.update_of_ne ?_ _ _
          intro e
          exact hx (hr.refOf_inj hr' (e ▸ href))
    · intro x hx
      exact Function.update_of_ne (hx pid i j) _ _

theorem evict_currPid (f : Frame) : (evict P s f).currPid = s.currPid := by
  unfold evict
  cases s.evictable f <;> rfl

theorem Rep.evictAll (hr : Rep P s φ M) (l : List Frame) :
    ∃ φ', Rep P (l.foldl (Mmu.evict P) s) φ' M ∧ Shrinks φ φ' ∧ (l.foldl (Mmu.evict P) s).currPid = s.currPid ∧
      ∀ g, Other (l.foldl (Mmu.evict P) s).inUse φ' g ↔ Other s.inUse φ g := by
  induction l generalizing s φ with
  | nil => exact ⟨φ, hr, ⟨fun _ _ h => h, fun _ _ => rfl⟩, rfl, fun _ => Iff.rfl⟩
  | cons f l ih =>
    rcases hr.evict f with ⟨φ1, hr1, h1, hother1⟩
    rcases ih hr1 with ⟨φ2, hr2, h2, hpid, hother2⟩
    refine ⟨φ2, hr2, ⟨?_, ?_⟩, hpid.trans (evict_currPid f), fun g => (hother2 g).trans (hother1 g)⟩
    · intro x g hx
      exact h1.sub x g (h2.sub x g hx)
    · intro x hx
      exact (h2.keep x hx).trans (h1.keep x hx)

structure Fresh (s : St) (φ : Frames) (g : Frame) : Prop where
  inUse : s.inUse g = true
  noSlot : ∀ x, φ x ≠ some g
  zero : s.frames g = fun _ => 0
  notEvictable : s.evictable g = none

theorem Rep.grant (hr : Rep P s φ M) {g : Frame} (hg : s.inUse g = false) :
    let s1 : St := { s with
      frames := update s.frames g fun _ => 0
      inUse := update s.inUse g true
      evictable := update s.evictable g none }
    Rep P s1 φ M ∧ Fresh s1 φ g := by
  have hno : ∀ x, φ x ≠ some g := by
    intro x hx
    rw [hr.used x g hx] at hg
    cases hg
  have hne : ∀ x f, φ x = some f → f ≠ g := by
    intro x f hx e
    exact hno x (e ▸ hx)
  refine ⟨⟨?_, ?_, ?_, hr.swap, hr.tlb, ?_⟩,
    ⟨Function.update_self .., hno, Function.update_self .., Function.update_self ..⟩⟩
  · refine hr.congr rfl ?_
    intro x r hx
    rcases refOf_frame hx with ⟨y, hy, -⟩
    exact congrArg Entry.target (entry_congr (Function.update_of_ne (hne y _ hy) _ _))
  · intro x f hx
    exact (Function.update_of_ne (hne x f hx) _ _).trans (hr.used x f hx)
  · intro f r hf
    by_cases hfg : f = g
    · rw [hfg] at hf
      dsimp only at hf
      rw [Function.update_self] at hf
      cases hf
    · dsimp only at hf
      rw [Function.update_of_ne hfg] at hf
      exact hr.evictable f r hf
  · intro pid i j
    refine Eq.trans ?_ (hr.mem pid i j)
    refine pageOf_congr rfl rfl ?_ fun _ _ => rfl
    intro f hf
    exact Function.update_of_ne (hne _ f hf) _ _

/-- What the kernel's answer leaves: the memory of the processes is the same, and the
    frame is fresh until it may be evicted for its entry. -/
theorem Rep.ask (hr : Rep P s φ M) {pte : Option Ref} {g : Grant} (h : askKernelForFrame P s pte g = some s') :
    ∃ φ' s1, Rep P s1 φ' M ∧ Fresh s1 φ' g.frame ∧ Shrinks φ φ' ∧ s1.currPid = s.currPid ∧
      s' = { s1 with evictable := update s1.evictable g.frame pte } ∧
      ∀ x, φ' x = none → ∀ f, Other s'.inUse (update φ' x (some g.frame)) f ↔ Other s.inUse φ f := by
  rcases hr.evictAll g.evicted with ⟨φ', hr', hshrinks, hpid, hother⟩
  unfold askKernelForFrame at h
  dsimp only at h
  split at h
  · cases h
  · rename_i huse
    rcases hr'.grant (Bool.eq_false_iff.mpr huse) with ⟨hr1, hfresh⟩
    refine ⟨φ', _, hr1, hfresh, hshrinks, hpid, ?_, ?_⟩
    · rw [← Option.some.inj h]
      simp only [Function.update_idem]
    · intro x hx f
      have hno : ¬ Other s.inUse φ g.frame := fun hg => huse ((hother g.frame).mpr hg).1
      rw [← Option.some.inj h, other_link hx, other_take hfresh.noSlot, hother]
      constructor
      · intro hf
        exact hf.1.resolve_right hf.2
      · intro hf
        exact ⟨Or.inl hf, fun e => hno (e ▸ hf)⟩

/-! ## Frames linked -/

theorem Fresh.entry_none {g : Frame} (hf : Fresh s φ g) (j : Index) : (entry P s ⟨g, j⟩).target = none :=
  entry_zero hf.zero

/-- A table is given a fresh frame. -/
theorem Rep.link_table (hr : Rep P s φ M) {pid : Nat} {i : Index} {r : Ref} {g : Frame} (hf : Fresh s φ g)
    (href : refOf φ (.table pid i) = some r) (hnone : φ (.table pid i) = none) :
    Rep P (setEntry P s r ((entry P s r).pointTo g)) (update φ (.table pid i) (some g)) M := by
  have hrg : r.frame ≠ g := by
    rcases refOf_frame href with ⟨y, hy, -⟩
    intro e
    exact hf.noSlot y (e ▸ hy)
  have hsub : ∀ x f, φ x = some f → update φ (.table pid i) (some g) x = some f := by
    intro x f hx
    rw [Function.update_of_ne ?_]
    · exact hx
    · intro e
      rw [e, hnone] at hx
      cases hx
  have hrefs : ∀ p k l r', refOf φ (.page p k l) = some r' →
      refOf (update φ (.table pid i) (some g)) (.page p k l) = some r' := by
    intro p k l r' h
    rw [refOf_page] at h ⊢
    rcases Option.map_eq_some_iff.mp h with ⟨t, ht, e⟩
    rw [hsub _ t ht, ← e]
    rfl
  refine ⟨?_, ?_, ?_, ?_, ?_, ?_⟩
  · refine hr.set_table href hnone rfl ?_ hf.noSlot ?_ ?_
    · rcases entry_setEntry (P := P) (s := s) (r := r) (e := (entry P s r).pointTo g) with ⟨a, d, h⟩
      exact (congrArg Entry.target h).trans rfl
    · intro j
      rw [entry_congr (s := s) (Function.update_of_ne (fun e => hrg e.symm) _ _)]
      exact hf.entry_none j
    · intro x r' _ hr'
      exact congrArg Entry.target (entry_setEntry_of_ne hr')
  · intro x f hx
    by_cases hxt : x = .table pid i
    · rw [hxt, Function.update_self] at hx
      exact Option.some.inj hx ▸ hf.inUse
    · rw [Function.update_of_ne hxt] at hx
      exact hr.used x f hx
  · intro f r' h
    rcases hr.evictable f r' h with ⟨p, k, l, hp, hp'⟩
    exact ⟨p, k, l, hsub _ f hp, hrefs p k l r' hp'⟩
  · intro r' q hq
    rcases hr.swap r' q hq with ⟨p, k, hp⟩
    exact ⟨p, k, hsub _ _ hp⟩
  · intro v r' hv va hva
    exact hrefs _ _ _ r' (hr.tlb v r' hv va hva)
  · intro p k l
    refine Eq.trans ?_ (hr.mem p k l)
    by_cases hx : Slot.table p k = .table pid i
    · -- The table's pages are zero: no swap file names a frame that had no slot.
      cases hx
      have hpage : φ (.page pid i l) = none := by rw [hr.page, refOf_page, hnone]; rfl
      have hswap : s.swap ⟨g, l⟩ = none := by
        cases hq : s.swap ⟨g, l⟩ with
        | none => rfl
        | some q =>
          rcases hr.swap _ q hq with ⟨p, k, hp⟩
          exact absurd hp (hf.noSlot _)
      unfold pageOf
      rw [Function.update_of_ne (by simp), hpage, refOf_page, refOf_page, Function.update_self, hnone]
      dsimp only [Option.map_some, Option.bind_some, Option.map_none, Option.bind_none, setEntry]
      rw [hswap]
    · refine pageOf_congr (Function.update_of_ne (by simp) _ _) ?_ ?_ fun _ _ => rfl
      · rw [refOf_page, refOf_page, Function.update_of_ne hx]
      · intro f hp
        exact Function.update_of_ne (hr.ref_ne_page href hp).symm _ _

/-- The pages of a new table are not present. -/
theorem Opened.link_table {pid : Nat} {i : Index} {r : Ref} {g : Frame} (h : Opened P s φ) (hf : Fresh s φ g) :
    Opened P (Mmu.setEntry P s r ((entry P s r).pointTo g)) (update φ (.table pid i) (some g)) := by
  have hnew : Opened P s (update φ (.table pid i) (some g)) := by
    apply h.congr
    intro p k l r' hr
    by_cases hx : Slot.table p k = .table pid i
    · rw [refOf_page, hx, Function.update_self] at hr
      rw [← Option.some.inj hr]
      exact Or.inr (Entry.open_of_target (hf.entry_none l))
    · rw [refOf_page, Function.update_of_ne hx, ← refOf_page] at hr
      exact Or.inl ⟨hr, rfl⟩
  exact hnew.setEntry ((entry P s r).pointTo_open g)

/-- A page is given a fresh frame, which the kernel may or may not evict. -/
theorem Rep.link_page (hr : Rep P s φ M) {pid : Nat} {i j : Index} {r : Ref} {g : Frame} {o : Option Ref}
    (hf : Fresh s φ g) (href : refOf φ (.page pid i j) = some r) (hnone : φ (.page pid i j) = none)
    (ho : ∀ r', o = some r' → r' = r) :
    Rep P (setEntry P { s with evictable := update s.evictable g o } r ((entry P s r).pointTo g))
      (update φ (.page pid i j) (some g)) (M.set pid i j fun _ => 0) := by
  have hrg : g ≠ r.frame := by
    rcases refOf_frame href with ⟨y, hy, -⟩
    intro e
    exact hf.noSlot y (e ▸ hy)
  have hsub : ∀ x f, φ x = some f → update φ (.page pid i j) (some g) x = some f := by
    intro x f hx
    rw [Function.update_of_ne ?_]
    · exact hx
    · intro e
      rw [e, hnone] at hx
      cases hx
  refine ⟨?_, ?_, ?_, ?_, ?_, ?_⟩
  · refine hr.set_page href rfl ?_ ?_ ?_
    · rcases entry_setEntry (P := P) (s := { s with evictable := update s.evictable g o }) (r := r)
        (e := (entry P s r).pointTo g) with ⟨a, d, h⟩
      exact (congrArg Entry.target h).trans rfl
    · intro f hg
      exact Option.some.inj hg ▸ hf.noSlot
    · intro x r' _ hr'
      exact congrArg Entry.target (entry_setEntry_of_ne hr')
  · intro x f hx
    by_cases hxp : x = .page pid i j
    · rw [hxp, Function.update_self] at hx
      exact Option.some.inj hx ▸ hf.inUse
    · rw [Function.update_of_ne hxp] at hx
      exact hr.used x f hx
  · intro f r' h
    rw [refOf_update_page]
    by_cases hfg : f = g
    · subst hfg
      have hor : o = some r' := by simpa [setEntry] using h
      exact ⟨pid, i, j, Function.update_self .., ho r' hor ▸ href⟩
    · rcases hr.evictable f r' ((Function.update_of_ne hfg _ _).symm.trans h) with ⟨p, k, l, hp, hp'⟩
      exact ⟨p, k, l, hsub _ f hp, hp'⟩
  · intro r' q hq
    rcases hr.swap r' q hq with ⟨p, k, hp⟩
    exact ⟨p, k, hsub _ _ hp⟩
  · intro v r' hv va hva
    rw [refOf_update_page]
    exact hr.tlb v r' hv va hva
  · intro p k l
    unfold Space.set
    split
    · rename_i h
      rcases h with ⟨hp, hk, hl⟩
      subst hp hk hl
      unfold pageOf
      rw [Function.update_self]
      exact (Function.update_of_ne hrg _ _).trans hf.zero
    · rename_i h
      have hx : Slot.page p k l ≠ .page pid i j := by
        intro e
        simp only [Slot.page.injEq] at e
        exact h e
      refine Eq.trans ?_ (hr.mem p k l)
      refine pageOf_congr (Function.update_of_ne hx _ _) (by rw [refOf_update_page]) ?_ fun _ _ => rfl
      intro f hp
      exact Function.update_of_ne (hr.ref_ne_page href hp).symm _ _

end SysProg.Mmu
