/-
  SysProg.MiniMemcheck.Ledger — the list and the counters agree with the calls made
  (see `SysProg.MiniMemcheck.MiniMemcheck`).

  What the checker is for is a ledger of the calls: which payloads are live, with the
  sizes they were requested with, and how many addresses were invalid. It knows nothing
  of the list. After every sequence of calls in which no size wraps with the
  `meta_data` in front, whatever pointers are freed and whichever fresh addresses are
  handed out, the list is the live payloads of the ledger in order, the counters are what
  its sizes and its invalid addresses come to, and a further call returns exactly when its
  size does not wrap either (`list_tracks_live`). A request of 2^64 - 16 bytes gets a block
  of 16 and writes past it (`a_block_shorter_than_its_header`).

  `Blocks s l` says that the list is `l` and that no other block is allocated. One lemma
  says what each loop and each edit of the list does to it.
-/

import Mathlib.Algebra.GroupWithZero.Nat
import Mathlib.Data.List.Perm.Subperm
import SysProg.Lib.Chain
import SysProg.MiniMemcheck.MiniMemcheck

namespace SysProg.MiniMemcheck

open Function (update)
open SysProg.Chain (Seg)

/-! ## The ledger -/

structure Ledger where
  live : List (Addr × Nat)
  invalid : Nat

def Ledger.record (r : Ledger) : Call × Option Addr → Ledger
  | (.malloc requestSize _ _ _, some p) => { r with live := r.live ++ [(p, requestSize)] }
  | (.calloc numElements elementSize _ _ _, some p) =>
    { r with live := r.live ++ [(p, numElements * elementSize % wordSize)] }
  | (.free (some p), _) =>
    if p ∈ r.live.map Prod.fst then { r with live := r.live.filter fun x => x.1 ≠ p }
    else { r with invalid := r.invalid + 1 }
  | _ => r

def ledger (log : List (Call × Option Addr)) : Ledger := log.foldl Ledger.record ⟨[], 0⟩

theorem ledger_snoc (log : List (Call × Option Addr)) (x : Call × Option Addr) :
    ledger (log ++ [x]) = (ledger log).record x := List.foldl_concat ..

/-! ## The list -/

def entry (x : Addr × MetaData) : Addr × Nat := (payload x.1, x.2.requestSize)

structure Blocks (s : St) (l : List (Addr × MetaData)) : Prop where
  seg : Seg MetaData.next s.node s.head l none
  rest : ∀ a, a ∉ l.map Prod.fst → s.node a = none
  bound : ∀ a ∈ l.map Prod.fst, a < wordSize

def Lists (s : St) (live : List (Addr × Nat)) : Prop := ∃ l, Blocks s l ∧ l.map entry = live

/-- `total_memory_requested - total_memory_freed` is the sum of the sizes. -/
def Balanced (s : St) (live : List (Addr × Nat)) : Prop :=
  ((s.totalMemoryRequested : Int) - s.totalMemoryFreed) % wordSize = ((live.map Prod.snd).sum : Int) % wordSize

variable {s : St} {l l' : List (Addr × MetaData)} {a b tmp : Addr} {m n : MetaData} {p prev : Option Addr} {fuel : Nat}

theorem payload_inj (h : payload a = payload b) : a = b := Nat.add_right_cancel h

theorem Blocks.length_le (h : Blocks s l) : l.length ≤ wordSize := by
  have hsub : l.map Prod.fst ⊆ List.range wordSize := by
    intro a ha
    exact List.mem_range.mpr (h.bound a ha)
  have hle := (List.subperm_of_subset h.seg.nodup hsub).length_le
  rwa [List.length_map, List.length_range] at hle

theorem Blocks.fresh (h : Blocks s l) (hf : s.node tmp = none) : tmp ∉ l.map Prod.fst := by
  intro hm
  rcases List.mem_map.mp hm with ⟨⟨b, n⟩, hx, e⟩
  have hn := h.seg.mem hx
  rw [show b = tmp from e, hf] at hn
  cases hn

theorem Blocks.head_some {x : Addr × MetaData} (h : Blocks s (l ++ [x])) : ∃ c, s.head = some c := by
  have hs := h.seg
  cases hhead : s.head with
  | none =>
    rw [hhead] at hs
    cases l with
    | nil => cases hs.1
    | cons y l => cases hs.1
  | some c => exact ⟨c, rfl⟩

/-- Payloads are distinct. -/
theorem Blocks.payloads_nodup (h : Blocks s l) : ((l.map entry).map Prod.fst).Nodup := by
  have hcomp : (l.map entry).map Prod.fst = (l.map Prod.fst).map payload := by
    rw [List.map_map, List.map_map]
    rfl
  rw [hcomp]
  exact h.seg.nodup.map fun _ _ e => payload_inj e

/-- A payload of the list is that of a block of it. -/
theorem mem_payloads {p : Addr} (h : p ∈ (l.map entry).map Prod.fst) :
    ∃ l₁ a m l₂, l = l₁ ++ (a, m) :: l₂ ∧ p = payload a := by
  rw [List.map_map] at h
  rcases List.mem_map.mp h with ⟨⟨a, m⟩, hx, e⟩
  rcases List.append_of_mem hx with ⟨l₁, l₂, hl⟩
  exact ⟨l₁, a, m, l₂, hl, e.symm⟩

/-! ## The loops -/

theorem lastNode_spec (hs : Seg MetaData.next s.node (some a) (l ++ [(b, n)]) none) (hf : l.length < fuel) :
    lastNode s.node fuel a = some b := by
  induction l generalizing a fuel with
  | nil =>
    cases fuel with
    | zero => cases hf
    | succ fuel =>
      obtain ⟨ha, hb, hn⟩ := hs
      cases ha
      simp only [lastNode, hb, Option.bind_some, show n.next = none from hn]
  | cons x l ih =>
    obtain ⟨c, k⟩ := x
    cases fuel with
    | zero => cases hf
    | succ fuel =>
      obtain ⟨hc, hk, hrest⟩ := hs
      cases hc
      cases hnext : k.next with
      | none =>
        rw [show MetaData.next k = none from hnext] at hrest
        cases l with
        | nil => cases hrest.1
        | cons y l => cases hrest.1
      | some d =>
        rw [show MetaData.next k = some d from hnext] at hrest
        simp only [lastNode, hk, Option.bind_some, hnext]
        exact ih hrest (Nat.lt_of_succ_lt_succ hf)

def lastAddr (prev : Option Addr) (l : List (Addr × MetaData)) : Option Addr := l.foldl (fun _ x => some x.1) prev

theorem findNode_some (hs : Seg MetaData.next s.node p (l ++ (a, m) :: l') none) (hl : ∀ x ∈ l, x.1 ≠ a)
    (hf : l.length < fuel) : findNode s.node (payload a) fuel prev p = some (lastAddr prev l, some a) := by
  induction l generalizing p prev fuel with
  | nil =>
    cases fuel with
    | zero => cases hf
    | succ fuel =>
      obtain ⟨hp, -, -⟩ := hs
      rw [hp]
      exact if_pos rfl
  | cons x l ih =>
    obtain ⟨c, k⟩ := x
    cases fuel with
    | zero => cases hf
    | succ fuel =>
      obtain ⟨hp, hk, hrest⟩ := hs
      have hne : payload c ≠ payload a := fun e => hl (c, k) (by simp) (payload_inj e)
      rw [hp, findNode, if_neg hne, hk, Option.bind_some]
      exact ih hrest (fun x hx => hl x (List.mem_cons_of_mem _ hx)) (Nat.lt_of_succ_lt_succ hf)

theorem findNode_none {q : Addr} (hs : Seg MetaData.next s.node p l none) (hl : ∀ x ∈ l, payload x.1 ≠ q)
    (hf : l.length < fuel) : ∃ prev', findNode s.node q fuel prev p = some (prev', none) := by
  induction l generalizing p prev fuel with
  | nil =>
    cases fuel with
    | zero => cases hf
    | succ fuel =>
      rw [show p = none from hs]
      exact ⟨prev, rfl⟩
  | cons x l ih =>
    obtain ⟨c, k⟩ := x
    cases fuel with
    | zero => cases hf
    | succ fuel =>
      obtain ⟨hp, hk, hrest⟩ := hs
      rw [hp, findNode, if_neg (hl (c, k) (by simp)), hk, Option.bind_some]
      exact ih hrest (fun x hx => hl x (List.mem_cons_of_mem _ hx)) (Nat.lt_of_succ_lt_succ hf)

/-- The block of a listed payload is found, with the one before it. -/
theorem Blocks.find (h : Blocks s (l ++ (a, m) :: l')) :
    findNode s.node (payload a) (wordSize + 1) none s.head = some (lastAddr none l, some a) := by
  have hlen := h.length_le
  rw [List.length_append, List.length_cons] at hlen
  refine findNode_some h.seg ?_ (by omega)
  intro x hx e
  have hnd := h.seg.nodup
  rw [List.map_append, List.nodup_append] at hnd
  exact hnd.2.2 _ (List.mem_map_of_mem hx) a (by simp) e

theorem Blocks.find_none {q : Addr} (h : Blocks s l) (hq : q ∉ (l.map entry).map Prod.fst) :
    ∃ prev', findNode s.node q (wordSize + 1) none s.head = some (prev', none) := by
  refine findNode_none h.seg ?_ (Nat.lt_succ_of_le h.length_le)
  intro x hx e
  apply hq
  rw [List.map_map]
  exact List.mem_map.mpr ⟨x, hx, e⟩

/-! ## The edits -/

structure SameCounters (s s' : St) : Prop where
  requested : s'.totalMemoryRequested = s.totalMemoryRequested
  freed : s'.totalMemoryFreed = s.totalMemoryFreed
  invalid : s'.invalidAddresses = s.invalidAddresses

theorem allocSize_eq {size : Nat} (h : metaSize + size < wordSize) : allocSize size = metaSize + size :=
  Nat.mod_eq_of_lt h

/-- A size that wraps. -/
theorem allocSize_lt {size : Nat} (h : size < wordSize) (hw : ¬ metaSize + size < wordSize) :
    allocSize size < metaSize := by
  unfold allocSize metaSize wordSize at *
  omega

theorem Blocks.grow (h : Blocks s l) (hf : Fresh s tmp) {size : Nat} (hfit : metaSize + size < wordSize)
    (filename instruction : Addr) :
    ∃ s', append s tmp (allocSize size) size filename instruction = some s' ∧ SameCounters s s' ∧
      Lists s' (l.map entry ++ [(payload tmp, size)]) := by
  have hnot := h.fresh hf.1
  have hlen := h.length_le
  unfold append
  rw [if_neg (show ¬ allocSize size < metaSize by rw [allocSize_eq hfit]; omega)]
  rcases List.eq_nil_or_concat l with hl | ⟨l₁, ⟨b, n⟩, hl⟩
  · rw [hl] at h ⊢
    rw [show s.head = none from h.seg]
    refine ⟨_, rfl, ⟨rfl, rfl, rfl⟩, [(tmp, ⟨size, filename, instruction, none⟩)], ⟨?_, ?_, ?_⟩, rfl⟩
    · exact ⟨rfl, Function.update_self .., rfl⟩
    · intro a ha
      have hne : a ≠ tmp := by simpa using ha
      exact (Function.update_of_ne hne ..).trans (h.rest a (by simp))
    · simpa using hf.2
  · rw [List.concat_eq_append] at hl
    rw [hl] at h hnot hlen ⊢
    rw [List.length_append, List.length_singleton] at hlen
    have hb := (Chain.seg_snoc.mp h.seg).2.1
    rcases h.head_some with ⟨c, hhead⟩
    have hs := h.seg
    rw [hhead] at hs ⊢
    have hfuel : l₁.length < wordSize := by omega
    have hlast := lastNode_spec hs hfuel
    simp only [hlast, hb, Option.bind_some, Option.map_some]
    refine ⟨_, rfl, ⟨rfl, rfl, rfl⟩, l₁ ++ [(b, { n with next := some tmp }),
      (tmp, ⟨size, filename, instruction, none⟩)], ⟨?_, ?_, ?_⟩, by simp [entry]⟩
    · exact hs.link hnot rfl rfl
    · intro a ha
      simp only [List.map_append, List.map_cons, List.map_nil, List.mem_append, List.mem_cons, List.not_mem_nil,
        or_false, not_or] at ha
      dsimp only
      rw [Function.update_of_ne ha.2.2, Function.update_of_ne ha.2.1]
      apply h.rest a
      rw [List.map_append, List.mem_append, List.map_singleton, List.mem_singleton, not_or]
      exact ⟨ha.1, ha.2.1⟩
    · intro a ha
      have hmem : a ∈ (l₁ ++ [(b, n)]).map Prod.fst ∨ a = tmp := by simpa [or_assoc] using ha
      rcases hmem with ha | ha
      · exact h.bound a ha
      · exact ha ▸ hf.2

/-- The block of a listed payload is taken out and its size counted as freed. -/
theorem Blocks.free (h : Blocks s (l ++ (a, m) :: l')) : ∃ s', miniFree s (some (payload a)) = some s' ∧
    Lists s' ((l ++ l').map entry) ∧ s'.totalMemoryRequested = s.totalMemoryRequested ∧
    s'.totalMemoryFreed = (s.totalMemoryFreed + m.requestSize) % wordSize ∧
    s'.invalidAddresses = s.invalidAddresses := by
  have ha : s.node a = some m := h.seg.mem (by simp)
  have hbound : ∀ c ∈ (l ++ l').map Prod.fst, c < wordSize := by
    intro c hc
    apply h.bound c
    rw [List.map_append, List.mem_append] at hc
    rw [List.map_append, List.map_cons, List.mem_append, List.mem_cons]
    exact hc.imp_right Or.inr
  have hrest : ∀ c, c ∉ (l ++ l').map Prod.fst → c ≠ a → s.node c = none := by
    intro c hc hne
    apply h.rest c
    rw [List.map_append, List.mem_append] at hc
    rw [List.map_append, List.map_cons, List.mem_append, List.mem_cons]
    rintro (hm | hm | hm)
    · exact hc (Or.inl hm)
    · exact hne hm
    · exact hc (Or.inr hm)
  unfold miniFree
  rcases List.eq_nil_or_concat l with hl | ⟨l₁, ⟨b, n⟩, hl⟩
  · rw [hl] at h hbound hrest ⊢
    simp only [h.find, lastAddr, List.foldl_nil, Option.bind_some, ha, Option.map_some]
    refine ⟨_, rfl, ⟨l', ⟨h.seg.unlink_first, ?_, hbound⟩, rfl⟩, rfl, rfl, rfl⟩
    intro c hc
    by_cases e : c = a
    · rw [e]
      exact Function.update_self ..
    · exact (Function.update_of_ne e ..).trans (hrest c hc e)
  · rw [List.concat_eq_append] at hl
    rw [hl] at h hbound hrest ⊢
    have hb : s.node b = some n := h.seg.mem (by simp)
    simp only [h.find, lastAddr, List.foldl_append, List.foldl_cons, List.foldl_nil, Option.bind_some, ha, hb,
      Option.map_some]
    rw [List.append_assoc, List.singleton_append] at h
    refine ⟨_, rfl, ⟨l₁ ++ (b, { n with next := m.next }) :: l', ⟨h.seg.unlink rfl, ?_, ?_⟩, ?_⟩, rfl, rfl, rfl⟩
    · intro c hc
      dsimp only
      by_cases e : c = a
      · rw [e]
        exact Function.update_self ..
      · have hne : c ≠ b := fun e => hc (by simp [e])
        rw [Function.update_of_ne e, Function.update_of_ne hne]
        exact hrest c (by simpa using hc) e
    · intro c hc
      exact hbound c (by simpa using hc)
    · simp [entry]

/-! ## One call -/

/-- The list, the sizes and the invalid addresses are those of the ledger. -/
structure Tracks (s : St) (r : Ledger) : Prop where
  lists : Lists s r.live
  balanced : Balanced s r.live
  invalid : s.invalidAddresses = r.invalid

variable {r : Ledger}

theorem balanced_snoc {s' : St} {live : List (Addr × Nat)} {q size : Nat} (h : Balanced s live)
    (hr : s'.totalMemoryRequested = (s.totalMemoryRequested + size) % wordSize)
    (hf : s'.totalMemoryFreed = s.totalMemoryFreed) : Balanced s' (live ++ [(q, size)]) := by
  unfold Balanced wordSize at *
  rw [hr, hf, List.map_append, List.sum_append, List.map_singleton, List.sum_singleton]
  omega

theorem balanced_drop {s' : St} {l l' : List (Addr × Nat)} {q size : Nat} (h : Balanced s (l ++ (q, size) :: l'))
    (hr : s'.totalMemoryRequested = s.totalMemoryRequested)
    (hf : s'.totalMemoryFreed = (s.totalMemoryFreed + size) % wordSize) : Balanced s' (l ++ l') := by
  unfold Balanced wordSize at *
  rw [List.map_append, List.sum_append, List.map_cons, List.sum_cons] at h
  rw [hr, hf, List.map_append, List.sum_append]
  omega

/-- A block of this size joins the list; what `mini_malloc` and `mini_calloc` do when they allocate. -/
theorem Tracks.grow (h : Tracks s r) (hf : Fresh s tmp) {size : Nat} (hfit : metaSize + size < wordSize)
    (filename instruction : Addr) :
    ∃ s', append { s with totalMemoryRequested := (s.totalMemoryRequested + size) % wordSize } tmp (allocSize size)
        size filename instruction = some s' ∧ Tracks s' { r with live := r.live ++ [(payload tmp, size)] } := by
  rcases h.lists with ⟨l, hb, hl⟩
  have hb' : Blocks { s with totalMemoryRequested := (s.totalMemoryRequested + size) % wordSize } l :=
    ⟨hb.seg, hb.rest, hb.bound⟩
  rcases hb'.grow hf hfit filename instruction with ⟨s', happ, hsame, hlists⟩
  rw [hl] at hlists
  exact ⟨s', happ, hlists, balanced_snoc h.balanced hsame.requested hsame.freed, hsame.invalid.trans h.invalid⟩

/-- The other payloads. -/
theorem Blocks.others (h : Blocks s (l ++ (a, m) :: l')) {x : Addr × Nat} (hx : x ∈ l.map entry ∨ x ∈ l'.map entry) :
    x.1 ≠ payload a := by
  have hnd := h.payloads_nodup
  rw [List.map_append, List.map_cons, List.map_append, List.map_cons, List.nodup_append, List.nodup_cons] at hnd
  obtain ⟨-, ⟨hl', -⟩, hl⟩ := hnd
  rcases hx with hx | hx
  · exact hl _ (List.mem_map_of_mem hx) _ (by simp [entry])
  · intro e
    apply hl'
    rw [show (entry (a, m)).1 = x.1 from e.symm]
    exact List.mem_map_of_mem hx

theorem Blocks.filter (h : Blocks s (l ++ (a, m) :: l')) :
    ((l ++ (a, m) :: l').map entry).filter (fun x => x.1 ≠ payload a) = (l ++ l').map entry := by
  rw [List.map_append, List.map_cons, List.filter_append, List.filter_cons_of_neg (by simp [entry]), List.map_append]
  refine congr (congrArg _ (List.filter_eq_self.mpr ?_)) (List.filter_eq_self.mpr ?_)
  · intro x hx
    exact decide_eq_true (h.others (Or.inl hx))
  · intro x hx
    exact decide_eq_true (h.others (Or.inr hx))

theorem Tracks.free (h : Tracks s r) (q : Option Addr) :
    ∃ s', miniFree s q = some s' ∧ Tracks s' (r.record (.free q, none)) := by
  cases q with
  | none => exact ⟨s, rfl, h⟩
  | some q =>
    rcases h.lists with ⟨l, hb, hl⟩
    by_cases hq : q ∈ r.live.map Prod.fst
    · have hrec : r.record (.free (some q), none) = { r with live := r.live.filter fun x => x.1 ≠ q } := if_pos hq
      rw [← hl] at hq
      rcases mem_payloads hq with ⟨l₁, a, m, l₂, hsplit, hqa⟩
      rw [hsplit] at hb hl
      rcases hb.free with ⟨s', hfree, hlists, hreq, hfreed, hinv⟩
      have hbal := h.balanced
      rw [← hl, List.map_append, List.map_cons] at hbal
      rw [hrec, hqa, ← hl, hb.filter]
      refine ⟨s', hfree, hlists, ?_, hinv.trans h.invalid⟩
      rw [List.map_append]
      exact balanced_drop hbal hreq hfreed
    · have hrec : r.record (.free (some q), none) = { r with invalid := r.invalid + 1 } := if_neg hq
      rw [← hl] at hq
      rcases hb.find_none hq with ⟨prev, hfind⟩
      rw [hrec]
      refine ⟨{ s with invalidAddresses := s.invalidAddresses + 1 }, ?_, ⟨l, ⟨hb.seg, hb.rest, hb.bound⟩, hl⟩,
        h.balanced, congrArg (· + 1) h.invalid⟩
      simp only [miniFree, hfind, Option.bind_some]

/-- A call whose size does not wrap returns, and is recorded. -/
theorem Tracks.exec (h : Tracks s r) {c : Call} (hc : ∀ tmp ∈ c.tmp, Fresh s tmp) (hfit : c.Fits) :
    ∃ s' q, exec s c = some (s', q) ∧ Tracks s' (r.record (c, q)) := by
  cases c with
  | malloc size filename instruction tmp =>
    by_cases h0 : size = 0
    · exact ⟨s, none, if_pos h0, h⟩
    · have hf : Fresh s tmp := hc tmp (if_neg h0)
      have hsize : metaSize + size < wordSize := hfit size (if_neg h0)
      rcases h.grow hf hsize filename instruction with ⟨s', happ, ht⟩
      refine ⟨s', some (payload tmp), ?_, ht⟩
      simp only [MiniMemcheck.exec, miniMalloc, if_neg h0, happ, Option.map_some]
  | calloc n e filename instruction tmp =>
    by_cases h0 : n = 0 ∨ e = 0
    · exact ⟨s, none, if_pos h0, h⟩
    · have hf : Fresh s tmp := hc tmp (if_neg h0)
      have hsize : metaSize + n * e % wordSize < wordSize := hfit _ (if_neg h0)
      rcases h.grow hf hsize filename instruction with ⟨s', happ, ht⟩
      refine ⟨s', some (payload tmp), ?_, ht⟩
      simp only [MiniMemcheck.exec, miniCalloc, if_neg h0, happ, Option.map_some]
  | free q =>
    rcases h.free q with ⟨s', hfree, ht⟩
    exact ⟨s', none, by simp only [MiniMemcheck.exec, hfree, Option.map_some], ht⟩

/-- A call whose size wraps writes past the block that it gets. -/
theorem exec_wraps {c : Call} (hword : ∀ requestSize ∈ c.requested, requestSize < wordSize) (hfit : ¬ c.Fits) :
    exec s c = none := by
  have happ : ∀ s : St, ∀ tmp size filename instruction, size < wordSize → ¬ metaSize + size < wordSize →
      append s tmp (allocSize size) size filename instruction = none :=
    fun s tmp size filename instruction hsize hwrap => if_pos (allocSize_lt hsize hwrap)
  unfold Call.Fits at hfit
  cases c with
  | malloc size filename instruction tmp =>
    by_cases h0 : size = 0
    · exact absurd (fun n hn => by simp [Call.requested, h0] at hn) hfit
    · have hreq : (Call.malloc size filename instruction tmp).requested = some size := if_neg h0
      simp only [hreq, Option.mem_def, Option.some.injEq, forall_eq'] at hfit hword
      simp only [MiniMemcheck.exec, miniMalloc, if_neg h0, happ _ _ _ _ _ hword hfit, Option.map_none]
  | calloc n e filename instruction tmp =>
    by_cases h0 : n = 0 ∨ e = 0
    · exact absurd (fun n hn => by simp [Call.requested, h0] at hn) hfit
    · have hreq : (Call.calloc n e filename instruction tmp).requested = some (n * e % wordSize) := if_neg h0
      simp only [hreq, Option.mem_def, Option.some.injEq, forall_eq'] at hfit hword
      simp only [MiniMemcheck.exec, miniCalloc, if_neg h0, happ _ _ _ _ _ hword hfit, Option.map_none]
  | free q => exact absurd (fun n hn => nomatch hn) hfit

/-! ## Every sequence of calls -/

theorem start_tracks : Tracks start ⟨[], 0⟩ :=
  ⟨⟨[], ⟨rfl, fun _ _ => rfl, fun _ h => by cases h⟩, rfl⟩, rfl, rfl⟩

theorem reach_tracks {log : List (Call × Option Addr)} (hr : sys.Via (fun _ c => c.Fits) (s, log)) :
    Tracks s (ledger log) := by
  refine Run.Sys.Via.inv (M := sys) (I := fun x => Tracks x.1 (ledger x.2)) ?_ ?_ hr
  · intro x hx
    rw [hx]
    exact start_tracks
  · intro x c x' hi hfit hs
    rcases Run.logged_some hs with ⟨q, hstep, hlog⟩
    unfold step at hstep
    split at hstep
    · rename_i hc
      rcases hi.exec hc hfit with ⟨s', q', hexec, ht⟩
      rw [hexec] at hstep
      cases hstep
      rw [hlog, ledger_snoc]
      exact ht
    · cases hstep

/-- An address of no block in the list is one the backing allocator may return. -/
theorem Lists.fresh_iff {live : List (Addr × Nat)} (h : Lists s live) :
    Fresh s tmp ↔ tmp < wordSize ∧ payload tmp ∉ live.map Prod.fst := by
  rcases h with ⟨l, hb, hl⟩
  have hmem : payload tmp ∈ live.map Prod.fst ↔ tmp ∈ l.map Prod.fst := by
    rw [← hl, List.map_map]
    constructor
    · intro hm
      rcases List.mem_map.mp hm with ⟨x, hx, e⟩
      rw [← payload_inj e]
      exact List.mem_map_of_mem hx
    · intro hm
      rcases List.mem_map.mp hm with ⟨x, hx, e⟩
      exact List.mem_map.mpr ⟨x, hx, congrArg payload e⟩
  rw [hmem]
  constructor
  · intro hf
    exact ⟨hf.2, hb.fresh hf.1⟩
  · intro hf
    exact ⟨hb.rest _ hf.2, hf.1⟩

theorem list_tracks_live {log : List (Call × Option Addr)} (hr : sys.Via (fun _ c => c.Fits) (s, log)) :
    Lists s (ledger log).live ∧ ((ledger log).live.map Prod.fst).Nodup ∧ Balanced s (ledger log).live ∧
      s.invalidAddresses = (ledger log).invalid ∧
      ∀ c, (∀ requestSize ∈ c.requested, requestSize < wordSize) → (∀ tmp ∈ c.tmp, Fresh s tmp) →
        ((step s c).isSome = true ↔ c.Fits) := by
  have ht := reach_tracks hr
  refine ⟨ht.lists, ?_, ht.balanced, ht.invalid, ?_⟩
  · rcases ht.lists with ⟨l, hb, hl⟩
    rw [← hl]
    exact hb.payloads_nodup
  · intro c hword hc
    unfold step
    rw [if_pos hc]
    constructor
    · intro hsome
      by_cases hfit : c.Fits
      · exact hfit
      · rw [exec_wraps hword hfit] at hsome
        cases hsome
    · intro hfit
      rcases ht.exec hc hfit with ⟨s', q, hexec, -⟩
      rw [hexec]
      rfl

/-- Three blocks, the middle one freed twice and its address handed out again. -/
theorem list_tracks_live_reused : ∃ s log, sys.Reach (s, log) ∧
    (ledger log).live = [(4128, 10), (12320, 30), (8224, 0)] ∧ (ledger log).invalid = 1 ∧
      Lists s (ledger log).live := by
  have hrun : (Run.exec (Run.guard (fun (_ : St × List (Call × Option Addr)) c => c.Fits) (Run.logged step)) (start, [])
      [.malloc 10 1 2 4096, .malloc 20 1 2 8192, .calloc 5 6 1 2 12288, .free (some 8224), .free (some 8224),
        .free none, .malloc 0 1 2 4096, .calloc (2 ^ 32) (2 ^ 32) 1 2 8192]).map
          (fun x => ((ledger x.2).live, (ledger x.2).invalid)) =
      some ([(4128, 10), (12320, 30), (8224, 0)], 1) := by
    decide +kernel
  rcases Option.map_eq_some_iff.mp hrun with ⟨⟨s, log⟩, hexec, hledger⟩
  have h0 : sys.Via (fun _ c => c.Fits) (start, []) := .init rfl
  have hr : sys.Via (fun _ c => c.Fits) (s, log) := Run.via_guard h0 hexec
  exact ⟨s, log, hr.reach, congrArg Prod.fst hledger, congrArg Prod.snd hledger, (list_tracks_live hr).1⟩

/-- `mini_malloc` of 2^64 - 16 bytes as the first call: whatever block of 16 bytes it gets,
    its `meta_data` is written past the end. -/
theorem a_block_shorter_than_its_header : allocSize (2 ^ 64 - 16) = 16 ∧
    (∀ tmp ∈ (Call.malloc (2 ^ 64 - 16) 1 2 4096).tmp, Fresh start tmp) ∧
      ¬ (step start (.malloc (2 ^ 64 - 16) 1 2 4096)).isSome = true := by
  refine ⟨by decide, ?_, by decide +kernel⟩
  intro tmp ht
  have h0 : ¬ 2 ^ 64 - 16 = 0 := by decide
  simp only [Call.tmp, if_neg h0, Option.mem_def, Option.some.injEq] at ht
  subst ht
  exact ⟨rfl, by decide⟩

end SysProg.MiniMemcheck
