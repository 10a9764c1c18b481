/-
  SysProg.Malloc.AllocSafety — live allocations do not overlap.

  A live pointer is the payload of an allocated block of the list, and the blocks lie
  apart, so payloads overlap neither each other nor a header (`LiveIn`, `Rep`). The
  calls keep this, and with it any property of the list that each change of the list
  keeps (`Stable`, `step_keeps`), as long as no block is split that has a successor: `split`
  does not link the successor back to the new block, so a later `free` of the
  successor merges it into the block before the new one, over what the new one holds.

  Main results: `live_apart`, over every run that splits only the last block, and
  `live_overlap`, a run that splits another one.
-/

import Mathlib.Order.CompletePartialOrder
import Mathlib.Order.Interval.Set.Disjoint
import SysProg.Malloc.Blocks

namespace SysProg.Malloc

open SysProg.Dll (first last_append)

inductive Listed (h : Heap) : Nat → Prop
  | head {a : Nat} : h.head = some a → Listed h a
  | next {a c : Nat} {b : Metadata} : Listed h a → h.block a = some b → b.next = some c → Listed h c

def payload (h : Heap) (p : Nat) : Set Nat := Set.Ico p (p + (h.block (p - headerSize)).elim 0 Metadata.size)

def header (a : Nat) : Set Nat := Set.Ico a (a + headerSize)

/-- Each live pointer has the room that was asked for, and its payload overlaps neither
    another one's nor the header of a live or listed block. -/
structure Safe (s : St) : Prop where
  nodup : (s.live.map Prod.fst).Nodup
  room : ∀ x ∈ s.live, Set.Ico x.1 (x.1 + x.2) ⊆ payload s.heap x.1
  payloads : ∀ x ∈ s.live, ∀ y ∈ s.live, x.1 ≠ y.1 → Disjoint (payload s.heap x.1) (payload s.heap y.1)
  headers : ∀ x ∈ s.live, ∀ a, Listed s.heap a ∨ (∃ y ∈ s.live, y.1 = a + headerSize) →
    Disjoint (payload s.heap x.1) (header a)

structure LiveIn (l : List Blk) (live : List (Nat × Nat)) : Prop where
  nodup : (live.map Prod.fst).Nodup
  block : ∀ x ∈ live, ∃ b ∈ l, b.free = false ∧ x.1 = b.addr + headerSize ∧ x.2 ≤ b.size

def Inv (h : Heap) (live : List (Nat × Nat)) : Prop := ∃ l, IsHeap h l ∧ LiveIn l live

/-! ## What the invariant gives -/

theorem Listed.mem {h : Heap} {l : List Blk} {a : Nat} (hr : Rep h l) (ha : Listed h a) : a ∈ l.map Blk.addr := by
  induction ha with
  | head hhead =>
    rw [hr.head] at hhead
    cases l with
    | nil => cases hhead
    | cons b l => exact Option.some.inj hhead ▸ List.mem_cons_self
  | next _ hb hnext ih =>
    rcases List.mem_map.mp ih with ⟨c, hc, e⟩
    rcases List.append_of_mem hc with ⟨s, t, e'⟩
    subst e e'
    rw [hr.block_at] at hb
    rw [← Option.some.inj hb] at hnext
    cases t with
    | nil => cases hnext
    | cons d t =>
      rw [← Option.some.inj hnext]
      simp

theorem payload_eq {h : Heap} {l : List Blk} {b : Blk} (hr : Rep h l) (hb : b ∈ l) :
    payload h (b.addr + headerSize) = Set.Ico (b.addr + headerSize) b.fin := by
  rcases List.append_of_mem hb with ⟨s, t, e⟩
  subst e
  unfold payload
  rw [Nat.add_sub_cancel, hr.block_at]
  rfl

/-- Of two blocks of the list one ends before the other begins. -/
theorem Rep.apart {h : Heap} {l : List Blk} {b c : Blk} (hr : Rep h l) (hb : b ∈ l) (hc : c ∈ l)
    (hne : b.addr ≠ c.addr) : b.fin ≤ c.addr ∨ c.fin ≤ b.addr := by
  rcases List.append_of_mem hb with ⟨s, t, e⟩
  subst e
  have hpair := List.pairwise_append.mp hr.fits.pairwise
  rcases List.mem_append.mp hc with hc | hc
  · exact Or.inr (hpair.2.2 c hc b List.mem_cons_self)
  · rcases List.mem_cons.mp hc with hc | hc
    · exact absurd (congrArg Blk.addr hc).symm hne
    · exact Or.inl ((List.pairwise_cons.mp hpair.2.1).1 c hc)

theorem LiveIn.nil {live : List (Nat × Nat)} (hlive : LiveIn [] live) : live = [] := by
  apply List.eq_nil_iff_forall_not_mem.mpr
  intro x hx
  rcases hlive.block x hx with ⟨b, hb, -⟩
  cases hb

theorem Inv.safe {s : St} (hi : Inv s.heap s.live) : Safe s := by
  rcases hi with ⟨l, ⟨-, -, hl⟩ | hr, hlive⟩
  · rw [hl] at hlive
    have hnil := hlive.nil
    refine ⟨hlive.nodup, ?_, ?_, ?_⟩ <;> intro x hx <;> rw [hnil] at hx <;> cases hx
  · refine ⟨hlive.nodup, ?_, ?_, ?_⟩
    · intro x hx
      rcases hlive.block x hx with ⟨b, hb, -, hp, hsize⟩
      rw [hp, payload_eq hr hb]
      apply Set.Ico_subset_Ico_right
      unfold Blk.fin
      omega
    · intro x hx y hy hne
      rcases hlive.block x hx with ⟨b, hb, -, hp, -⟩
      rcases hlive.block y hy with ⟨c, hc, -, hq, -⟩
      rw [hp, hq] at hne ⊢
      rw [payload_eq hr hb, payload_eq hr hc, Set.Ico_disjoint_Ico]
      have hapart := hr.apart hb hc (fun e => hne (congrArg (· + headerSize) e))
      unfold Blk.fin at hapart ⊢
      omega
    · intro x hx a ha
      have hmem : ∃ c ∈ l, c.addr = a := by
        rcases ha with ha | ⟨y, hy, e⟩
        · exact List.mem_map.mp (ha.mem hr)
        · rcases hlive.block y hy with ⟨c, hc, -, hq, -⟩
          exact ⟨c, hc, by omega⟩
      rcases hlive.block x hx with ⟨b, hb, -, hp, -⟩
      rcases hmem with ⟨c, hc, hca⟩
      unfold header
      rw [hp, payload_eq hr hb, Set.Ico_disjoint_Ico]
      by_cases hbc : b.addr = c.addr
      · omega
      · have hapart := hr.apart hb hc hbc
        unfold Blk.fin at hapart ⊢
        omega

/-! ## What the calls keep -/

theorem IsHeap.data {h : Heap} {l : List Blk} (hh : IsHeap h l) (d : Bytes.Mem) : IsHeap { h with data := d } l := by
  rcases hh with hh | hr
  · exact Or.inl hh
  · exact Or.inr ⟨hr.ne, hr.head, hr.tail, hr.seg, hr.fits⟩

theorem LiveIn.serve {size brk brk' n k : Nat} {l l' : List Blk} {live : List (Nat × Nat)} {r : Option Nat}
    (hlive : LiveIn l live) (hf : Fits 0 l brk) (hserve : Serve size brk l l' r brk' n) (hk : k ≤ size) :
    LiveIn l' (grant live k r) := by
  have hkept : ∀ x ∈ live, ∃ b ∈ l', b.free = false ∧ x.1 = b.addr + headerSize ∧ x.2 ≤ b.size := by
    intro x hx
    rcases hlive.block x hx with ⟨b, hb, hfree, hrest⟩
    exact ⟨b, hserve.keeps b hb hfree, hfree, hrest⟩
  cases r with
  | none => exact ⟨hlive.nodup, hkept⟩
  | some p =>
    rcases hserve.serves hf with ⟨a, ha, hserves⟩
    subst ha
    refine ⟨List.nodup_cons.mpr ⟨?_, hlive.nodup⟩, ?_⟩
    · intro hmem
      rcases List.mem_map.mp hmem with ⟨x, hx, e⟩
      rcases hlive.block x hx with ⟨b, hb, hfree, hp, -⟩
      exact hserves.fresh b hb hfree (Nat.add_right_cancel (hp.symm.trans e))
    · intro x hx
      rcases List.mem_cons.mp hx with hx | hx
      · rcases hserves.block with ⟨b, hb, ha, hfree, hsize⟩
        subst hx ha
        exact ⟨b, hb, hfree, rfl, hsize ▸ hk⟩
      · exact hkept x hx

theorem drop_nodup {live : List (Nat × Nat)} (h : (live.map Prod.fst).Nodup) (ptr : Option Nat) :
    ((drop live ptr).map Prod.fst).Nodup := h.sublist (List.filter_sublist.map _)

theorem LiveIn.release {l m l' : List Blk} {b : Blk} {live : List (Nat × Nat)} (hlive : LiveIn (l ++ b :: m) live)
    (hrelease : Release b l m l') : LiveIn l' (drop live (some (b.addr + headerSize))) := by
  refine ⟨drop_nodup hlive.nodup _, ?_⟩
  intro y hy
  unfold drop at hy
  rw [List.mem_filter, decide_eq_true_eq] at hy
  rcases hlive.block y hy.1 with ⟨c, hc, hcfree, hyc, hsize⟩
  refine ⟨c, hrelease.keeps hc hcfree ?_, hcfree, hyc, hsize⟩
  intro e
  exact hy.2 (by rw [hyc, e])

theorem LiveIn.resize {l : List Blk} {b : Blk} {live : List (Nat × Nat)} {size : Nat} (hlive : LiveIn l live)
    (hb : b ∈ l) (hfree : b.free = false) (hsize : size ≤ b.size) :
    LiveIn l (grant (drop live (some (b.addr + headerSize))) size (some (b.addr + headerSize))) := by
  refine ⟨List.nodup_cons.mpr ⟨?_, drop_nodup hlive.nodup _⟩, ?_⟩
  · intro hmem
    rcases List.mem_map.mp hmem with ⟨x, hx, e⟩
    unfold drop at hx
    rw [List.mem_filter, decide_eq_true_eq] at hx
    exact hx.2 (congrArg some e)
  · intro x hx
    rcases List.mem_cons.mp hx with hx | hx
    · subst hx
      exact ⟨b, hb, hfree, rfl, hsize⟩
    · exact hlive.block x (List.mem_filter.mp hx).1

/-- A property of the break, the list of blocks, the live pointers and the bytes lost so
    far that each change of the list keeps. -/
structure Stable (Q : Nat → List Blk → List (Nat × Nat) → Nat → Prop) : Prop where
  init : ∀ {brk lost : Nat}, Q brk [] [] lost →
    Q (brk + initialHeapSize) [⟨brk, initialHeapSize - headerSize, true⟩] [] lost
  serve : ∀ {size brk brk' n k lost : Nat} {l l' : List Blk} {live : List (Nat × Nat)} {r : Option Nat},
    Q brk l live lost → Serve size brk l l' r brk' n → Q brk' l' (grant live k r) (lost + n)
  release : ∀ {brk lost : Nat} {l m l' : List Blk} {b : Blk} {live : List (Nat × Nat)},
    Q brk (l ++ b :: m) live lost → Fits 0 (l ++ b :: m) brk → b.free = false → Release b l m l' →
    Q brk l' (drop live (some (b.addr + headerSize))) lost
  resize : ∀ {brk lost k p : Nat} {l : List Blk} {live : List (Nat × Nat)}, p ∈ live.map Prod.fst →
    Q brk l live lost → Q brk l (grant (drop live (some p)) k (some p)) lost

def InvWith (Q : Nat → List Blk → List (Nat × Nat) → Nat → Prop) (h : Heap) (live : List (Nat × Nat)) (lost : Nat) :
    Prop := ∃ l, IsHeap h l ∧ LiveIn l live ∧ Q h.brk l live lost

theorem stable_true : Stable fun _ _ _ _ => True :=
  ⟨fun _ => trivial, fun _ _ => trivial, fun _ _ _ _ => trivial, fun _ _ => trivial⟩

section

variable {Q : Nat → List Blk → List (Nat × Nat) → Nat → Prop} {h h' : Heap} {live : List (Nat × Nat)} {lost : Nat}

theorem Inv.with (hi : Inv h live) :
    InvWith (fun _ _ _ _ => True) h live 0 := by
  rcases hi with ⟨l, hh, hlive⟩
  exact ⟨l, hh, hlive, trivial⟩

theorem InvWith.inv (hi : InvWith Q h live lost) : Inv h live := by
  rcases hi with ⟨l, hh, hlive, -⟩
  exact ⟨l, hh, hlive⟩

theorem InvWith.data (hi : InvWith Q h live lost) (d : Bytes.Mem) : InvWith Q { h with data := d } live lost := by
  rcases hi with ⟨l, hh, hlive, hq⟩
  exact ⟨l, hh.data d, hlive, hq⟩

/-- The block of a live pointer. -/
theorem InvWith.locate {p : Nat} (hi : InvWith Q h live lost) (hp : p ∈ live.map Prod.fst) :
    ∃ s b t, Rep h (s ++ b :: t) ∧ LiveIn (s ++ b :: t) live ∧ Q h.brk (s ++ b :: t) live lost ∧ b.free = false ∧
      p = b.addr + headerSize := by
  rcases hi with ⟨l, hh, hlive, hq⟩
  rcases List.mem_map.mp hp with ⟨x, hx, e⟩
  rcases hlive.block x hx with ⟨b, hb, hfree, hxb, -⟩
  rcases hh with ⟨-, -, hl⟩ | hr
  · rw [hl] at hb
    cases hb
  · rcases List.append_of_mem hb with ⟨s, t, e'⟩
    subst e e'
    exact ⟨s, b, t, hr, hlive, hq, hfree, hxb⟩

theorem malloc_keeps {size : Nat} {ok : Sbrk} {r : Option Nat} (hQ : Stable Q) (hi : InvWith Q h live lost)
    (hmax : size ≤ maxHeapSize) (hsplit : splitsLast h (roundUp size) = true) (hm : malloc h size ok = some (h', r)) :
    InvWith Q h' (grant live size r) (lost + slack (ready h) (roundUp size)) := by
  rcases hi with ⟨l, hh, hlive, hq⟩
  rcases malloc_spec hh hmax hsplit hm with ⟨l0, l', hready, hr0, hrep, hserve⟩
  have h0 : LiveIn l0 live ∧ Q (ready h).brk l0 live lost := by
    generalize (ready h).brk = brk0 at hready
    cases hready with
    | kept => exact ⟨hlive, hq⟩
    | init =>
      rw [hlive.nil] at hq ⊢
      exact ⟨⟨List.nodup_nil, by simp⟩, hQ.init hq⟩
  exact ⟨l', Or.inr hrep, h0.1.serve hr0.fits hserve (roundUp_spec hmax).1, hQ.serve h0.2 hserve⟩

theorem free_keeps {p : Nat} (hQ : Stable Q) (hi : InvWith Q h live lost) (hp : p ∈ live.map Prod.fst)
    (hf : free h (some p) = some h') : InvWith Q h' (drop live (some p)) lost := by
  rcases hi.locate hp with ⟨s, b, t, hr, hlive, hq, hfree, e⟩
  subst e
  rcases free_spec hr with ⟨h2, l', hfree', hrep, hbrk, hrelease⟩
  rw [hfree'] at hf
  cases hf
  refine ⟨l', Or.inr hrep, hlive.release hrelease, ?_⟩
  rw [hbrk]
  exact hQ.release hq hr.fits hfree hrelease

theorem realloc_stays {p size : Nat} {cur : Metadata} (hQ : Stable Q) (hi : InvWith Q h live lost)
    (hp : p ∈ live.map Prod.fst) (hcur : h.block (p - headerSize) = some cur) (hsize : size ≤ cur.size) :
    InvWith Q h (grant (drop live (some p)) size (some p)) lost := by
  rcases hi.locate hp with ⟨s, b, t, hr, hlive, hq, hfree, e⟩
  subst e
  rw [Nat.add_sub_cancel, hr.block_at] at hcur
  have hsize' : size ≤ b.size := by
    rw [← Option.some.inj hcur] at hsize
    exact hsize
  exact ⟨_, Or.inr hr, hlive.resize (by simp) hfree hsize', hQ.resize hp hq⟩

end

/-! ## Runs -/

def request (h : Heap) : Act → Option Nat
  | .malloc size _ => some size
  | .calloc num size _ => some (num * size)
  | .realloc none size _ => some size
  | .realloc (some p) size _ =>
    if size = 0 then none
    else (h.block (p - headerSize)).bind fun cur => if size ≤ cur.size then none else some size
  | .free _ => none

def careful (s : St) (a : Act) : Bool := (request s.heap a).all fun size => splitsLast s.heap (roundUp size)

def lostBy (s : St) (a : Act) : Nat := (request s.heap a).elim 0 fun size => slack (ready s.heap) (roundUp size)

section

variable {Q : Nat → List Blk → List (Nat × Nat) → Nat → Prop} {s s' : St} {lost : Nat}

theorem realloc_keeps {p size : Nat} {ok : Sbrk} (hQ : Stable Q) (hi : InvWith Q s.heap s.live lost)
    (hp : p ∈ s.live.map Prod.fst) (hmax : size ≤ maxHeapSize)
    (hsplit : careful s (.realloc (some p) size ok) = true) (hs : step s (.realloc (some p) size ok) = some s') :
    InvWith Q s'.heap s'.live (lost + lostBy s (.realloc (some p) size ok)) := by
  rcases Option.map_eq_some_iff.mp hs with ⟨⟨h', r⟩, hm, e⟩
  subst e
  unfold careful at hsplit
  unfold lostBy
  unfold request at hsplit ⊢
  unfold realloc at hm
  dsimp only at hsplit hm ⊢
  by_cases h0 : size = 0
  · rw [if_pos h0] at hm ⊢
    rcases Option.map_eq_some_iff.mp hm with ⟨h1, hf, e⟩
    cases e
    rw [if_neg (fun hc => hc.2 h0)]
    exact free_keeps hQ hi hp hf
  rw [if_neg h0] at hsplit hm ⊢
  rcases Option.bind_eq_some_iff.mp hm with ⟨cur, hcur, hm⟩
  rw [hcur, Option.bind_some] at hsplit ⊢
  by_cases hle : size ≤ cur.size
  · rw [if_pos hle] at hm ⊢
    cases hm
    rw [if_neg (fun hc => Option.some_ne_none _ hc.1)]
    exact realloc_stays hQ hi hp hcur hle
  rw [if_neg hle] at hsplit hm ⊢
  rcases Option.bind_eq_some_iff.mp hm with ⟨⟨h1, r1⟩, hmalloc, hm⟩
  have hi1 := malloc_keeps hQ hi hmax hsplit hmalloc
  cases r1 with
  | none =>
    cases hm
    rw [if_pos ⟨rfl, h0⟩]
    exact hi1
  | some new =>
    dsimp only at hm
    rcases Option.bind_eq_some_iff.mp hm with ⟨cur1, -, hm⟩
    rcases Option.map_eq_some_iff.mp hm with ⟨h2, hf, e⟩
    cases e
    have hnew : new ≠ p := by
      rcases hi1 with ⟨l1, -, hlive1, -⟩
      exact fun e => (List.nodup_cons.mp hlive1.nodup).1 (e ▸ hp)
    have hi2 := free_keeps hQ (hi1.data _) (List.mem_cons_of_mem _ hp) hf
    rw [if_neg (fun hc => Option.some_ne_none _ hc.1)]
    have hdrop : drop (grant s.live size (some new)) (some p) = grant (drop s.live (some p)) size (some new) :=
      List.filter_cons_of_pos (by simpa using hnew)
    rw [hdrop] at hi2
    exact hi2

theorem step_keeps {a : Act} (hQ : Stable Q) (hi : InvWith Q s.heap s.live lost) (hv : valid s a = true)
    (hc : careful s a = true) (hs : step s a = some s') : InvWith Q s'.heap s'.live (lost + lostBy s a) := by
  cases a with
  | malloc size ok =>
    rcases Option.map_eq_some_iff.mp hs with ⟨⟨h, r⟩, hm, e⟩
    subst e
    exact malloc_keeps hQ hi (of_decide_eq_true hv) hc hm
  | calloc num size ok =>
    rcases Option.map_eq_some_iff.mp hs with ⟨⟨h, r⟩, hm, e⟩
    subst e
    have hmax : num * size ≤ maxHeapSize := of_decide_eq_true hv
    have hword : num * size < wordSize := Nat.lt_of_le_of_lt hmax (by decide)
    unfold calloc at hm
    split at hm
    · rename_i hover
      have hnum : 0 < num := Nat.pos_of_ne_zero hover.1
      have hbig := (Nat.div_lt_iff_lt_mul hnum).mp hover.2
      rw [Nat.mul_comm] at hbig
      omega
    · dsimp only at hm
      rw [Nat.mod_eq_of_lt hword] at hm
      rcases Option.map_eq_some_iff.mp hm with ⟨⟨h1, r1⟩, hm, e⟩
      have hi1 := malloc_keeps hQ hi hmax hc hm
      cases r1 with
      | none =>
        cases e
        exact hi1
      | some p =>
        cases e
        exact hi1.data _
  | realloc ptr size ok =>
    have hmax : size ≤ maxHeapSize := of_decide_eq_true (Bool.and_eq_true_iff.mp hv).2
    cases ptr with
    | none =>
      rcases Option.map_eq_some_iff.mp hs with ⟨⟨h, r⟩, hm, e⟩
      subst e
      have hi1 := malloc_keeps hQ hi hmax hc hm
      have hdrop : drop s.live none = s.live := by simp [drop]
      dsimp only
      rw [hdrop]
      split
      · rename_i hr
        rw [hr.1] at hi1
        exact hi1
      · exact hi1
    | some p =>
      have hp : p ∈ s.live.map Prod.fst := List.contains_iff_mem.mp (Bool.and_eq_true_iff.mp hv).1
      exact realloc_keeps hQ hi hp hmax hc hs
  | free ptr =>
    rcases Option.map_eq_some_iff.mp hs with ⟨h, hf, e⟩
    subst e
    cases ptr with
    | none =>
      cases hf
      have hdrop : drop s.live none = s.live := by simp [drop]
      dsimp only
      rw [hdrop]
      exact hi
    | some p => exact free_keeps hQ hi (List.contains_iff_mem.mp hv) hf

end

theorem step_inv {s s' : St} {a : Act} (hi : Inv s.heap s.live) (hv : valid s a = true) (hc : careful s a = true)
    (hs : step s a = some s') : Inv s'.heap s'.live := (step_keeps stable_true hi.with hv hc hs).inv

theorem initial_inv {s : St} (h : Initial s) : Inv s.heap s.live := by
  rcases h with ⟨hhead, htail, -, hlive⟩
  refine ⟨[], Or.inl ⟨hhead, htail, rfl⟩, ?_⟩
  rw [hlive]
  exact ⟨List.nodup_nil, by simp⟩

/-- The calls of a program that never has a block split that is followed by another. -/
def Allowed (s : St) (a : Act) : Prop := valid s a = true ∧ careful s a = true

theorem via_inv {s : St} (h : sys.Via Allowed s) : Inv s.heap s.live :=
  h.inv (I := fun s => Inv s.heap s.live) (fun _ => initial_inv) fun _ _ _ hi hc hs => step_inv hi hc.1 hc.2 hs

/-- Live allocations stay apart. -/
theorem live_apart {s : St} (h : sys.Via Allowed s) : Safe s := (via_inv h).safe

def start : St := ⟨⟨none, none, fun _ => none, fun _ => 0, 4096, 0⟩, []⟩

theorem start_initial : Initial start := ⟨rfl, rfl, by decide, rfl⟩

instance instDecidableAllowed (s : St) (a : Act) : Decidable (Allowed s a) := inferInstanceAs (Decidable (_ ∧ _))


/-- A block moved, merges both ways, the heap extended, and the merged block reused. -/
theorem live_apart_reused :
    ∃ s, sys.Via Allowed s ∧ s.live = [(5304, 40), (4128, 1140), (268439584, initialHeapSize)] ∧ Safe s := by
  have hs : (Run.exec (Run.guard Allowed step) start
      [.malloc 1000 ⟨true, true⟩, .calloc 3 8 ⟨true, true⟩, .malloc 50 ⟨true, true⟩,
        .realloc (some 4128) 1001 ⟨true, true⟩, .free (some 5160), .free (some 5216),
        .malloc initialHeapSize ⟨true, true⟩, .malloc 1140 ⟨true, true⟩, .realloc (some 5304) 40 ⟨true, true⟩]).map
      (fun s => s.live) = some [(5304, 40), (4128, 1140), (268439584, initialHeapSize)] := by
    decide +kernel
  rcases Option.map_eq_some_iff.mp hs with ⟨s, hs, e⟩
  have h0 : sys.Via Allowed start := .init start_initial
  have hvia : sys.Via Allowed s := Run.via_guard h0 hs
  exact ⟨s, hvia, e, live_apart hvia⟩

/-- A block is split that has a successor, at 5160; the successor and the new block's
    predecessor are freed, which merges them over the new block, at 4264; what they then
    give to another request overlaps it. -/
theorem live_overlap : ∃ s, sys.Via (fun s a => valid s a = true) s ∧
    ∃ x ∈ s.live, ∃ y ∈ s.live, x.1 ≠ y.1 ∧ ¬ Disjoint (Set.Ico x.1 (x.1 + x.2)) (Set.Ico y.1 (y.1 + y.2)) := by
  have hs : (Run.exec (Run.guard (fun s a => valid s a = true) step) start
      [.malloc 1000 ⟨true, true⟩, .malloc 16 ⟨true, true⟩, .malloc 268434344 ⟨true, true⟩, .free (some 4128),
        .malloc 100 ⟨true, true⟩, .malloc 864 ⟨true, true⟩, .free (some 4128), .free (some 5160),
        .malloc 152 ⟨true, true⟩]).map (fun s => s.live) = some [(4128, 152), (4264, 864), (5208, 268434344)] := by
    decide +kernel
  rcases Option.map_eq_some_iff.mp hs with ⟨s, hs, e⟩
  have h0 : sys.Via (fun s a => valid s a = true) start := .init start_initial
  refine ⟨s, Run.via_guard h0 hs, (4128, 152), by simp [e], (4264, 864), by simp [e],
    by decide, ?_⟩
  exact Set.not_disjoint_iff.mpr ⟨4264, by decide, by decide⟩

/-! ## No call faults -/

theorem free_defined {h : Heap} {live : List (Nat × Nat)} {p : Nat} (hi : Inv h live) (hp : p ∈ live.map Prod.fst) :
    ∃ h', free h (some p) = some h' := by
  rcases hi.with.locate hp with ⟨s, b, t, hr, -, -, -, e⟩
  rcases free_spec hr with ⟨h', -, hf, -⟩
  exact ⟨h', e ▸ hf⟩

theorem block_defined {h : Heap} {live : List (Nat × Nat)} {p : Nat} (hi : Inv h live) (hp : p ∈ live.map Prod.fst) :
    ∃ cur, h.block (p - headerSize) = some cur := by
  rcases hi.with.locate hp with ⟨s, b, t, hr, -, -, -, e⟩
  rw [e, Nat.add_sub_cancel]
  exact ⟨_, hr.block_at⟩

theorem realloc_defined {h : Heap} {live : List (Nat × Nat)} {p size : Nat} {ok : Sbrk} (hi : Inv h live)
    (hp : p ∈ live.map Prod.fst) (hmalloc : ∀ cur, h.block (p - headerSize) = some cur → size ≠ 0 → cur.size < size →
      ∃ h' r, malloc h size ok = some (h', r) ∧ Inv h' (grant live size r)) :
    ∃ x, realloc h (some p) size ok = some x := by
  unfold realloc
  dsimp only
  by_cases h0 : size = 0
  · rcases free_defined hi hp with ⟨h', hf⟩
    rw [if_pos h0, hf]
    exact ⟨_, rfl⟩
  rcases block_defined hi hp with ⟨cur, hcur⟩
  rw [if_neg h0, hcur, Option.bind_some]
  by_cases hle : size ≤ cur.size
  · rw [if_pos hle]
    exact ⟨_, rfl⟩
  rw [if_neg hle]
  rcases hmalloc cur hcur h0 (Nat.lt_of_not_le hle) with ⟨h1, r, hm, hi1⟩
  rw [hm, Option.bind_some]
  cases r with
  | none => exact ⟨_, rfl⟩
  | some new =>
    have hp1 : p ∈ (grant live size (some new)).map Prod.fst := List.mem_cons_of_mem _ hp
    rcases block_defined hi1 hp1 with ⟨cur1, hcur1⟩
    dsimp only
    rw [hcur1, Option.bind_some]
    rcases hi1 with ⟨l, hh, hlive⟩
    rcases free_defined ⟨l, hh.data (Bytes.store h1.data new (Bytes.load h1.data p cur1.size)), hlive⟩ hp1 with ⟨h2, hf⟩
    rw [hf]
    exact ⟨_, rfl⟩

/-- A call a program may make returns, once the heap is initialised. -/
theorem step_defined {s : St} {a : Act} (hi : Inv s.heap s.live) (hhead : s.heap.head ≠ none) (ha : Allowed s a) :
    ∃ s', step s a = some s' := by
  rcases ha with ⟨hv, hc⟩
  have hmalloc : ∀ size ok, request s.heap a = some size → size ≤ maxHeapSize →
      ∃ h' r, malloc s.heap size ok = some (h', r) ∧ Inv h' (grant s.live size r) := by
    intro size ok hreq hmax
    unfold careful at hc
    rw [hreq] at hc
    rcases hi with ⟨l, ⟨hnone, -⟩ | hr, hlive⟩
    · exact absurd hnone hhead
    · rcases malloc_defined hr hmax hc ok with ⟨⟨h', r⟩, hm⟩
      have hi : Inv s.heap s.live := ⟨l, Or.inr hr, hlive⟩
      exact ⟨h', r, hm, (malloc_keeps stable_true hi.with hmax hc hm).inv⟩
  cases a with
  | malloc size ok =>
    rcases hmalloc size ok rfl (of_decide_eq_true hv) with ⟨h', r, hm, -⟩
    exact ⟨_, Option.map_eq_some_iff.mpr ⟨_, hm, rfl⟩⟩
  | calloc num size ok =>
    have hmax : num * size ≤ maxHeapSize := of_decide_eq_true hv
    have hmod : num * size % wordSize = num * size := Nat.mod_eq_of_lt (Nat.lt_of_le_of_lt hmax (by decide))
    rcases hmalloc (num * size) ok rfl hmax with ⟨h', r, hm, -⟩
    unfold step calloc
    dsimp only
    rw [hmod, hm]
    split
    · exact ⟨_, rfl⟩
    · exact ⟨_, rfl⟩
  | realloc ptr size ok =>
    have hv := Bool.and_eq_true_iff.mp hv
    have hmax : size ≤ maxHeapSize := of_decide_eq_true hv.2
    cases ptr with
    | none =>
      rcases hmalloc size ok rfl hmax with ⟨h', r, hm, -⟩
      exact ⟨_, Option.map_eq_some_iff.mpr ⟨_, hm, rfl⟩⟩
    | some p =>
      have hx : ∃ x, realloc s.heap (some p) size ok = some x := by
        apply realloc_defined hi (List.contains_iff_mem.mp hv.1)
        intro cur hcur h0 hlt
        refine hmalloc size ok ?_ hmax
        unfold request
        dsimp only
        rw [if_neg h0, hcur, Option.bind_some, if_neg (Nat.not_le_of_lt hlt)]
      rcases hx with ⟨x, hx⟩
      exact ⟨_, Option.map_eq_some_iff.mpr ⟨x, hx, rfl⟩⟩
  | free ptr =>
    cases ptr with
    | none => exact ⟨_, rfl⟩
    | some p =>
      rcases free_defined hi (List.contains_iff_mem.mp hv) with ⟨h', hf⟩
      exact ⟨_, Option.map_eq_some_iff.mpr ⟨h', hf, rfl⟩⟩

theorem calls_return {s : St} {a : Act} (h : sys.Via Allowed s) (hhead : s.heap.head ≠ none) (ha : Allowed s a) :
    ∃ s', step s a = some s' :=
  step_defined (via_inv h) hhead ha

end SysProg.Malloc
