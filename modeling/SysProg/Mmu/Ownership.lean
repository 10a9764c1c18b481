/-
  SysProg.Mmu.Ownership — every frame has one slot.

  A frame is in use from when the kernel hands it out until it is evicted or returned.
  No call takes a frame out of its slot or puts one into a second slot without the
  kernel's books (`Kept`), so along every run the frames in use that are in no slot are
  those that were in use at the start (`step_owned`).

  `mmu_remove_process` makes a list of calls to the kernel that its tables give
  (`processCalls`, `removeProcess_calls`): the frames that it returns are those of the
  slots of the process, in the order of its loops (`returned_eq`), and a slot is met once.

  Main result: `frames_owned_once`, over every run.
-/

import SysProg.Mmu.Isolation

namespace SysProg.Mmu

open Function (update)

variable {P : Platform} {s s' u : St} {φ : Frames} {M : Space}

def held (P : Platform) (s : St) : Slot → Option Frame
  | .directory pid => s.pageDirectories pid
  | .table pid i => (s.pageDirectories pid).bind fun d => (entry P s ⟨d, i⟩).target
  | .page pid i j => ((s.pageDirectories pid).bind fun d => (entry P s ⟨d, i⟩).target).bind fun t =>
      (entry P s ⟨t, j⟩).target

theorem held_table {pid : Nat} {i : Index} :
    held P s (.table pid i) = (s.pageDirectories pid).bind fun d => (entry P s ⟨d, i⟩).target := rfl

theorem held_page {pid : Nat} {i j : Index} :
    held P s (.page pid i j) = (held P s (.table pid i)).bind fun t => (entry P s ⟨t, j⟩).target := rfl

/-- A process without a directory has no frames. -/
theorem held_absent {x : Slot} (h : s.pageDirectories x.pid = none) : held P s x = none := by
  have htable : ∀ {pid : Nat} {i : Index}, s.pageDirectories pid = none → held P s (.table pid i) = none := by
    intro pid i hd
    rw [held_table, hd]
    rfl
  cases x with
  | directory pid => exact h
  | table pid i => exact htable h
  | page pid i j =>
    have hd : s.pageDirectories pid = none := h
    rw [held_page, htable hd]
    rfl

/-- What a process holds depends on its directory and on memory. -/
theorem held_congr {x : Slot} (hd : s'.pageDirectories x.pid = s.pageDirectories x.pid) (hf : s'.frames = s.frames) :
    held P s' x = held P s x := by
  have he : ∀ r, entry P s' r = entry P s r := fun r => entry_congr (congrFun hf _)
  have htable : ∀ {pid : Nat} {i : Index}, s'.pageDirectories pid = s.pageDirectories pid →
      held P s' (.table pid i) = held P s (.table pid i) := by
    intro pid i hd
    rw [held_table, held_table, hd]
    simp only [he]
  cases x with
  | directory pid => exact hd
  | table pid i => exact htable hd
  | page pid i j =>
    have hd : s'.pageDirectories pid = s.pageDirectories pid := hd
    rw [held_page, held_page, htable hd]
    simp only [he]

theorem Tree.held_eq (ht : Tree P s φ) (x : Slot) : held P s x = φ x := by
  have htable : ∀ pid i, held P s (.table pid i) = φ (.table pid i) := by
    intro pid i
    rw [ht.table, refOf_table, ht.directory, Option.bind_map]
    rfl
  cases x with
  | directory pid => exact (ht.directory pid).symm
  | table pid i => exact htable pid i
  | page pid i j =>
    rw [ht.page, refOf_page, ← htable pid i, Option.bind_map, held_page]
    rfl

/-! ## The calls of a removal -/

inductive KernelCall where
  | returnFrame (f : Frame)
  | removeSwap (pte : Ref)

def KernelCall.run (s : St) : KernelCall → St
  | .returnFrame f => returnFrameToKernel s f
  | .removeSwap pte => removeSwapFile s pte

def KernelCall.frame : KernelCall → Option Frame
  | .returnFrame f => some f
  | .removeSwap _ => none

def entryCalls (P : Platform) (s : St) (pt : Frame) (vpn2 : Index) : List KernelCall :=
  (if (entry P s ⟨pt, vpn2⟩).present = true then [.returnFrame (entry P s ⟨pt, vpn2⟩).baseAddr] else []) ++
    [.removeSwap ⟨pt, vpn2⟩]

def tableCalls (P : Platform) (s : St) (pd : Frame) (vpn1 : Index) : List KernelCall :=
  let pde := entry P s ⟨pd, vpn1⟩
  if pde.present = true then (List.finRange 1024).flatMap (entryCalls P s pde.baseAddr) ++ [.returnFrame pde.baseAddr]
  else []

def processCalls (P : Platform) (s : St) (pid : Nat) : List KernelCall :=
  match s.pageDirectories pid with
  | none => []
  | some pd => (List.finRange 1024).flatMap (tableCalls P s pd) ++ [.returnFrame pd]

def returned (P : Platform) (s : St) (pid : Nat) : List Frame := (processCalls P s pid).filterMap KernelCall.frame

/-- The calls change the kernel's books alone. -/
theorem runs_keep (l : List KernelCall) : ∃ inUse evictable swap,
    l.foldl KernelCall.run s = { s with inUse := inUse, evictable := evictable, swap := swap } := by
  induction l generalizing s with
  | nil => exact ⟨_, _, _, rfl⟩
  | cons c l ih =>
    rcases ih (s := c.run s) with ⟨i, e, w, h⟩
    refine ⟨i, e, w, h.trans ?_⟩
    cases c with
    | returnFrame f => rfl
    | removeSwap pte => rfl

theorem runs_frames (l : List KernelCall) : (l.foldl KernelCall.run s).frames = s.frames := by
  rcases runs_keep (s := s) l with ⟨i, e, w, h⟩
  rw [h]

/-- A frame is in use after the calls if it was and is not returned. -/
theorem runs_inUse (l : List KernelCall) (f : Frame) :
    (l.foldl KernelCall.run s).inUse f = true ↔ s.inUse f = true ∧ f ∉ l.filterMap KernelCall.frame := by
  induction l generalizing s with
  | nil => simp
  | cons c l ih =>
    rw [List.foldl_cons, ih]
    cases c with
    | removeSwap pte => rfl
    | returnFrame g =>
      have hcons : (KernelCall.returnFrame g :: l).filterMap KernelCall.frame = g :: l.filterMap KernelCall.frame := rfl
      rw [hcons, List.mem_cons, not_or, ← and_assoc]
      refine and_congr_left fun _ => ?_
      unfold KernelCall.run returnFrameToKernel
      dsimp only
      by_cases hfg : f = g
      · rw [hfg, Function.update_self]
        simp
      · rw [Function.update_of_ne hfg]
        simp [hfg]

/-- Two loops whose bodies agree as long as memory is as it was. -/
theorem foldl_calls {f : St → Index → St} {calls : Index → List KernelCall}
    (hbody : ∀ v i, v.frames = s.frames → f v i = (calls i).foldl KernelCall.run v) (l : List Index)
    (hu : u.frames = s.frames) : l.foldl f u = (l.flatMap calls).foldl KernelCall.run u := by
  induction l generalizing u with
  | nil => rfl
  | cons i l ih =>
    rw [List.foldl_cons, List.flatMap_cons, List.foldl_append, hbody u i hu]
    exact ih ((runs_frames _).trans hu)

theorem removeEntry_calls {pt : Frame} (j : Index) (hu : u.frames = s.frames) :
    removeEntry P pt u j = (entryCalls P s pt j).foldl KernelCall.run u := by
  have he : entry P u ⟨pt, j⟩ = entry P s ⟨pt, j⟩ := entry_congr (congrFun hu _)
  unfold removeEntry entryCalls
  dsimp only
  rw [he]
  split
  · rfl
  · rfl

theorem removeTable_calls {pd : Frame} (i : Index) (hu : u.frames = s.frames) :
    removeTable P pd u i = (tableCalls P s pd i).foldl KernelCall.run u := by
  have he : entry P u ⟨pd, i⟩ = entry P s ⟨pd, i⟩ := entry_congr (congrFun hu _)
  unfold removeTable tableCalls
  dsimp only
  rw [he]
  split
  · rw [foldl_calls (fun v j hv => removeEntry_calls j hv) _ hu, List.foldl_append]
    rfl
  · rfl

theorem removeProcess_calls {pid : Nat} (hpid : pid < P.maxProcessId) :
    removeProcess P s pid = some
      { (processCalls P s pid).foldl KernelCall.run s with
        pageDirectories := update s.pageDirectories pid none
        segmentations := update s.segmentations pid none
        tlb := if s.currPid = pid then [] else s.tlb } := by
  unfold removeProcess processCalls
  rw [if_pos hpid]
  cases hd : s.pageDirectories pid with
  | none => rfl
  | some pd =>
    dsimp only
    rw [foldl_calls (fun v i hv => removeTable_calls i hv) _ rfl, List.foldl_append]
    rcases runs_keep (s := s) ((List.finRange 1024).flatMap (tableCalls P s pd)) with ⟨i, e, w, h⟩
    rw [h]
    rfl

/-! ## The slots of a process -/

def slots (pid : Nat) : List Slot :=
  (List.finRange 1024).flatMap (fun i => (List.finRange 1024).map (.page pid i) ++ [.table pid i]) ++ [.directory pid]

theorem mem_slots {pid : Nat} {x : Slot} : x ∈ slots pid ↔ x.pid = pid := by
  unfold slots
  cases x with
  | directory p => simp [Slot.pid]
  | table p i => simp [Slot.pid, eq_comm]
  | page p i j => simp [Slot.pid, eq_comm]

theorem slots_nodup (pid : Nat) : (slots pid).Nodup := by
  have hrow : ∀ {x : Slot} {i : Index}, x ∈ (List.finRange 1024).map (Slot.page pid i) ++ [Slot.table pid i] →
      (∃ j, x = .page pid i j) ∨ x = .table pid i := by
    intro x i hx
    rcases List.mem_append.mp hx with hx | hx
    · rcases List.mem_map.mp hx with ⟨j, -, e⟩
      exact Or.inl ⟨j, e.symm⟩
    · exact Or.inr (List.mem_singleton.mp hx)
  unfold slots
  refine List.nodup_append.mpr ⟨List.nodup_flatMap.mpr ⟨?_, ?_⟩, List.nodup_singleton _, ?_⟩
  · intro i _
    refine List.nodup_append.mpr ⟨(List.nodup_finRange _).map ?_, List.nodup_singleton _, by simp⟩
    intro j k e
    exact (Slot.page.inj e).2.2
  · apply (List.nodup_finRange _).imp
    intro i k hik x hx hy
    rcases hrow hx with ⟨j, e⟩ | e
    · rcases hrow hy with ⟨l, e'⟩ | e'
      · exact hik (Slot.page.inj (e.symm.trans e')).2.1
      · cases e.symm.trans e'
    · rcases hrow hy with ⟨l, e'⟩ | e'
      · cases e.symm.trans e'
      · exact hik (Slot.table.inj (e.symm.trans e')).2
  · intro x hx y hy e
    rcases List.mem_flatMap.mp hx with ⟨i, -, hx⟩
    rw [e, List.mem_singleton.mp hy] at hx
    rcases hrow hx with ⟨j, e'⟩ | e'
    · cases e'
    · cases e'

theorem entryCalls_frames (pt : Frame) (j : Index) :
    (entryCalls P s pt j).filterMap KernelCall.frame = (entry P s ⟨pt, j⟩).target.toList := by
  unfold entryCalls Entry.target
  split
  · rfl
  · rfl

theorem filterMap_held_singleton (x : Slot) : [x].filterMap (held P s) = (held P s x).toList := by
  cases h : held P s x with
  | none => simp [h]
  | some f => simp [h]

theorem tableCalls_frames {pid : Nat} {pd : Frame} (hd : s.pageDirectories pid = some pd) (i : Index) :
    (tableCalls P s pd i).filterMap KernelCall.frame =
      ((List.finRange 1024).map (Slot.page pid i) ++ [Slot.table pid i]).filterMap (held P s) := by
  have htable : held P s (.table pid i) = (entry P s ⟨pd, i⟩).target := by rw [held_table, hd, Option.bind_some]
  rw [List.filterMap_append, List.filterMap_map, List.filterMap_eq_flatMap_toList (held P s ∘ Slot.page pid i),
    filterMap_held_singleton]
  dsimp only [Function.comp]
  simp only [held_page, htable]
  unfold tableCalls
  dsimp only
  split
  · rename_i hp
    rw [target_some hp, List.filterMap_append, List.filterMap_flatMap]
    simp only [entryCalls_frames]
    rfl
  · rename_i hp
    rw [target_none hp]
    simp

/-- The frames that are returned are those of the slots. -/
theorem returned_eq (pid : Nat) : returned P s pid = (slots pid).filterMap (held P s) := by
  unfold returned processCalls slots
  cases hd : s.pageDirectories pid with
  | none =>
    have hnone : ∀ x ∈ slots pid, held P s x = none := by
      intro x hx
      exact held_absent (by rw [mem_slots.mp hx]; exact hd)
    exact (List.filterMap_eq_nil_iff.mpr hnone).symm
  | some pd =>
    dsimp only
    have hdir : held P s (.directory pid) = some pd := hd
    rw [List.filterMap_append, List.filterMap_append, List.filterMap_flatMap, List.filterMap_flatMap,
      filterMap_held_singleton, hdir]
    simp only [tableCalls_frames hd]
    rfl

/-! ## A removal -/

/-- What `mmu_remove_process` does: the calls that its tables give, of which those that
    return a frame are one for each frame of the process; its slots are empty after it,
    and the others', the directories and the memory with the tables are as before. -/
structure Removes (P : Platform) (s : St) (pid : Nat) (s' : St) : Prop where
  call : removeProcess P s pid = some s'
  books : s'.inUse = ((processCalls P s pid).foldl KernelCall.run s).inUse
  once : (returned P s pid).Nodup
  exact : ∀ f, f ∈ returned P s pid ↔ ∃ x, x.pid = pid ∧ held P s x = some f
  gone : ∀ x, x.pid = pid → held P s' x = none
  others : ∀ x, x.pid ≠ pid → held P s' x = held P s x
  directories : ∀ p, p ≠ pid → s'.pageDirectories p = s.pageDirectories p
  memory : s'.frames = s.frames

theorem Tree.returned_nodup (ht : Tree P s φ) (pid : Nat) : (returned P s pid).Nodup := by
  rw [returned_eq]
  apply (slots_nodup pid).filterMap
  intro x y f hx hy
  rw [Option.mem_def, ht.held_eq] at hx hy
  exact ht.inj x y f hx hy

theorem mem_returned {pid : Nat} {f : Frame} : f ∈ returned P s pid ↔ ∃ x, x.pid = pid ∧ held P s x = some f := by
  rw [returned_eq, List.mem_filterMap]
  simp only [mem_slots]

theorem Tree.removes (ht : Tree P s φ) {pid : Nat} (hpid : pid < P.maxProcessId) : ∃ s', Removes P s pid s' := by
  refine ⟨_, removeProcess_calls hpid, rfl, ht.returned_nodup pid, fun _ => mem_returned, ?_, ?_, ?_, runs_frames _⟩
  · intro x hx
    exact held_absent (by rw [hx]; exact Function.update_self ..)
  · intro x hx
    exact held_congr (Function.update_of_ne hx _ _) (runs_frames _)
  · intro p hp
    exact Function.update_of_ne hp _ _

/-- The frames in use for other things are what they were. -/
theorem Removes.other {pid : Nat} (h : Removes P s pid s') (ht : Tree P s φ) {φ' : Frames} (ht' : Tree P s' φ')
    (f : Frame) : Other s'.inUse φ' f ↔ Other s.inUse φ f := by
  unfold Other
  rw [h.books, runs_inUse, and_assoc]
  refine and_congr_right fun _ => ?_
  have hno : f ∉ (processCalls P s pid).filterMap KernelCall.frame ↔ ∀ x, x.pid = pid → φ x ≠ some f := by
    refine (not_congr (h.exact f)).trans ?_
    simp only [ht.held_eq, not_exists, not_and, ne_eq]
  rw [hno]
  constructor
  · intro hf x hx
    by_cases hp : x.pid = pid
    · exact hf.1 x hp hx
    · apply hf.2 x
      rw [← ht'.held_eq, h.others x hp, ht.held_eq]
      exact hx
  · intro hf
    refine ⟨fun x _ => hf x, fun x hx => ?_⟩
    by_cases hp : x.pid = pid
    · rw [← ht'.held_eq, h.gone x hp] at hx
      cases hx
    · rw [← ht'.held_eq, h.others x hp, ht.held_eq] at hx
      exact hf x hx

/-! ## Runs -/

def runsFrom (P : Platform) (t0 : Trace) : Run.Sys Trace Act := Run.ofFun (fun t => t = t0) (step P)

/-- The frames in use that are in no slot are those that were in use at the start. -/
def Owned (P : Platform) (t0 t : Trace) : Prop :=
  ∃ φ M, Rep P t.mmu φ M ∧ ∀ f, Other t.mmu.inUse φ f ↔ t0.mmu.inUse f = true

theorem initial_owned {t0 : Trace} (h0 : Initial t0) : Owned P t0 t0 := by
  rcases initial_inv (P := P) h0 with ⟨φ, M, hr, -, -⟩
  refine ⟨φ, M, hr, fun f => ⟨fun h => h.1, fun h => ⟨h, fun x => ?_⟩⟩⟩
  rw [← hr.held_eq, held_absent (h0.2.1 _)]
  exact (Option.some_ne_none f).symm

theorem step_owned {t0 t t' : Trace} {a : Act} (ho : Owned P t0 t) (hs : step P t a = some t') : Owned P t0 t' := by
  rcases ho with ⟨φ, M, hr, hother⟩
  cases a with
  | addProcess pid g =>
    rw [step, Option.ite_none_right_eq_some] at hs
    rcases Option.map_eq_some_iff.mp hs.2 with ⟨s, hadd, e⟩
    subst e
    rcases hr.addProcess ((hr.directory pid).trans hs.1) hadd with ⟨φ', hr', -, hkept⟩
    exact ⟨φ', M, hr', fun f => (hkept.other f).trans (hother f)⟩
  | removeProcess pid =>
    rcases Option.map_eq_some_iff.mp hs with ⟨s, hremove, e⟩
    subst e
    rcases hr.removeProcess hremove with ⟨φ', M', hr', -⟩
    have hpid : pid < P.maxProcessId := by
      unfold removeProcess at hremove
      rw [Option.ite_none_right_eq_some] at hremove
      exact hremove.1
    rcases hr.removes hpid with ⟨s', hremoves⟩
    have hss : s' = s := Option.some.inj (hremoves.call.symm.trans hremove)
    subst hss
    exact ⟨φ', M', hr', fun f => (hremoves.other hr.toTree hr'.toTree f).trans (hother f)⟩
  | read va pid n c =>
    rw [step, Option.ite_none_left_eq_some] at hs
    rcases Option.map_eq_some_iff.mp hs.2 with ⟨⟨s, o⟩, hread, e⟩
    rcases hr.read hread with ⟨φ', hr', -, hkept, -⟩
    cases o <;> subst e <;> exact ⟨φ', M, hr', fun f => (hkept.other f).trans (hother f)⟩
  | write va pid buffer c =>
    rw [step, Option.ite_none_left_eq_some] at hs
    rcases Option.map_eq_some_iff.mp hs.2 with ⟨⟨s, done⟩, hwrite, e⟩
    rcases hr.write hwrite with ⟨φ', hr', -, hkept⟩
    cases done <;> subst e <;> exact ⟨φ', _, hr', fun f => (hkept.other f).trans (hother f)⟩

/-- Handed out by the kernel in the run, and neither evicted nor returned since. -/
def Outstanding (t0 t : Trace) (f : Frame) : Prop := t.mmu.inUse f = true ∧ t0.mmu.inUse f = false

/-- The frames that the kernel has handed out are those of the slots, each of one slot,
    and a removal returns those of its process, once each. -/
theorem frames_owned_once (P : Platform) {t0 t : Trace} (h0 : Initial t0) (h : (runsFrom P t0).Reach t) :
    (∀ f, Outstanding t0 t f → ∃! x, held P t.mmu x = some f) ∧
      (∀ x f, held P t.mmu x = some f → Outstanding t0 t f) ∧
      ∀ pid, pid < P.maxProcessId → ∃ s', Removes P t.mmu pid s' := by
  have howned : Owned P t0 t := by
    refine h.inv (I := Owned P t0) ?_ (fun _ _ _ => step_owned)
    intro t' ht'
    rw [ht']
    exact initial_owned h0
  rcases howned with ⟨φ, M, hr, hother⟩
  refine ⟨?_, ?_, fun pid hpid => hr.removes hpid⟩
  · intro f hf
    have hslot : ∃ x, φ x = some f := by
      by_contra hno
      have hstart := (hother f).mp ⟨hf.1, fun x hx => hno ⟨x, hx⟩⟩
      rw [hf.2] at hstart
      cases hstart
    rcases hslot with ⟨x, hx⟩
    refine ⟨x, (hr.held_eq x).trans hx, ?_⟩
    intro y hy
    exact hr.inj y x f ((hr.held_eq y).symm.trans hy) hx
  · intro x f hx
    rw [hr.held_eq] at hx
    refine ⟨hr.used x f hx, ?_⟩
    by_contra hstart
    exact ((hother f).mpr (Bool.eq_true_of_not_eq_false hstart)).2 x hx

/-- The page of a process is evicted, another process gets its frame, and the first one
    is removed. -/
theorem frames_owned_once_reused : ∃ t, (runsFrom bitFields twoStart).Reach t ∧ Outstanding twoStart t 2 ∧
    (∃! x, held bitFields t.mmu x = some 2) ∧ ∃ s', Removes bitFields t.mmu 1 s' := by
  have ht : (Run.exec (step bitFields) twoStart [.addProcess 1 firstFrames, .addProcess 2 secondFrames]).map
      (fun t => t.mmu.inUse 2) = some true := by
    decide +kernel
  rcases Option.map_eq_some_iff.mp ht with ⟨t, ht, huse⟩
  have h0 : Initial twoStart := ⟨rfl, fun _ => rfl, rfl, fun _ => rfl, fun _ => rfl, rfl⟩
  have hstart : (runsFrom bitFields twoStart).Reach twoStart := .init rfl
  have hreach : (runsFrom bitFields twoStart).Reach t := Run.via_exec hstart (fun _ _ _ => trivial) ht
  rcases frames_owned_once bitFields h0 hreach with ⟨hone, -, hremoves⟩
  exact ⟨t, hreach, ⟨huse, rfl⟩, hone 2 ⟨huse, rfl⟩, hremoves 1 (by decide)⟩

end SysProg.Mmu
