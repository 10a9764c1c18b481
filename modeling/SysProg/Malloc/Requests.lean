/-
  SysProg.Malloc.Requests — every request size, on every heap.

  A heap is well formed when the headers along `next` from `head` lie apart, aligned and
  below the break, and `tail` is the last of them (`WellFormed`; `prev` is not read by
  `malloc`, and a split leaves it wrong). Nothing bounds a request but its 64 bits.

  The code rounds a request up with an addition that wraps. The seven largest sizes
  round to 0, which any free block and any extension of the heap satisfies: the pointer
  that is returned has a block of size 0. `calloc` checks its product, not the rounding.
  Below that a request is served from a free block with no other addition in the way: a
  block that large leaves no room for one to wrap. Without a free block the size with
  its header is what `sbrk` gets, as a signed number: from 2^63 on the break goes down,
  or up by less than a header, and the new header is written where there is no memory.

  Main results: `requests_served`, for every heap and every size, when a request is
  served or refused with NULL and the heap as it was, and `largest_request`.
-/

import SysProg.Malloc.Linked

namespace SysProg.Malloc

open Function (update)

/-- The list of blocks, as `malloc` follows it; no list before the first call. -/
structure WellFormed (h : Heap) (l : List (Nat × Metadata)) : Prop where
  follows : Follows h h.head l
  tail : h.tail = l.getLast?.map Prod.fst
  apart : l.Pairwise fun x y => x.1 + headerSize + x.2.size ≤ y.1
  below : ∀ x ∈ l, x.1 + headerSize + x.2.size ≤ h.brk
  aligned : ∀ x ∈ l, 0 < x.1 ∧ x.1 % alignTo = 0
  brk : 0 < h.brk ∧ h.brk % alignTo = 0 ∧ h.brk < wordSize

/-- The heap a request meets: the first call sets it up, or the process ends. -/
def begun (h : Heap) (ok : Bool) : Option Heap := if h.head = none then initHead h ok else some h

def Fit (h : Heap) (size : Nat) : Prop := ∃ a b, Listed h a ∧ h.block a = some b ∧ b.free = true ∧ size ≤ b.size

/-- A call returns NULL, and the list is as it was or as the first call sets it up, or an
    aligned pointer to a block of the list whose recorded size is the request or more. -/
def Served (h : Heap) (init : Bool) (size : Nat) (result : Option (Heap × Option Nat)) : Prop :=
  ∃ h' r, result = some (h', r) ∧ (r = none → h' = h ∨ begun h init = some h') ∧
    ∀ p, r = some p → p % alignTo = 0 ∧
      ∃ a b, p = a + headerSize ∧ Listed h' a ∧ h'.block a = some b ∧ size ≤ b.size

/-- A size rounds up without wrapping if a block fits it; if none does, `sbrk` refuses, or
    the size rounds up and makes with its header a positive increment. -/
def Servable (h : Heap) (size : Nat) (ok : Sbrk) : Prop :=
  ∃ g, begun h ok.init = some g ∧ (Fit g (roundUp size) → size + 7 < wordSize) ∧
    (¬ Fit g (roundUp size) → sbrk g ((roundUp size + headerSize) % wordSize) ok.grow = none ∨
      size + 7 < wordSize ∧ roundUp size + headerSize < 2 ^ 63)

/-! ## The list -/

theorem Follows.listed {h h' : Heap} {p : Option Nat} {k m : List (Nat × Metadata)} {x : Nat × Metadata}
    (hf : Follows h p (k ++ x :: m)) (hsame : ∀ y ∈ k, h'.block y.1 = h.block y.1)
    (hp : ∀ a, p = some a → Listed h' a) : Listed h' x.1 := by
  induction k generalizing p with
  | nil =>
    cases hf with
    | cons _ _ => exact hp _ rfl
  | cons y k ih =>
    cases hf with
    | @cons a b _ hb hrest =>
      have ha : h'.block a = some b := (hsame (a, b) List.mem_cons_self).trans hb
      apply ih hrest (fun z hz => hsame z (List.mem_cons_of_mem _ hz))
      intro c hc
      exact .next (hp a rfl) ha hc

theorem Follows.block {h : Heap} {p : Option Nat} {l : List (Nat × Metadata)} (hf : Follows h p l) :
    ∀ x ∈ l, h.block x.1 = some x.2 := by
  induction hf with
  | nil => simp
  | cons hb _ ih =>
    intro x hx
    rcases List.mem_cons.mp hx with e | hx
    · rw [e]
      exact hb
    · exact ih x hx

theorem Follows.head_mem {h : Heap} {p : Option Nat} {l : List (Nat × Metadata)} {a : Nat} (hf : Follows h p l)
    (hp : p = some a) : ∃ b, (a, b) ∈ l := by
  cases hf with
  | nil => cases hp
  | @cons c b l _ _ =>
    cases hp
    exact ⟨b, List.mem_cons_self⟩

/-- A block's successor is in the list. -/
theorem Follows.next_mem {h : Heap} {p : Option Nat} {l : List (Nat × Metadata)} {x : Nat × Metadata} {c : Nat}
    (hf : Follows h p l) (hx : x ∈ l) (hc : x.2.next = some c) : ∃ b, (c, b) ∈ l := by
  induction hf with
  | nil => cases hx
  | cons _ hrest ih =>
    rcases List.mem_cons.mp hx with e | hx
    · subst e
      rcases hrest.head_mem hc with ⟨b, hb⟩
      exact ⟨b, List.mem_cons_of_mem _ hb⟩
    · rcases ih hx with ⟨b, hb⟩
      exact ⟨b, List.mem_cons_of_mem _ hb⟩

theorem WellFormed.block {h : Heap} {l : List (Nat × Metadata)} (hw : WellFormed h l) {a : Nat} {b : Metadata}
    (hm : (a, b) ∈ l) : h.block a = some b := hw.follows.block _ hm

theorem WellFormed.mem {h : Heap} {l : List (Nat × Metadata)} (hw : WellFormed h l) {a : Nat} (ha : Listed h a) :
    ∃ b, (a, b) ∈ l := by
  induction ha with
  | head hhead => exact hw.follows.head_mem hhead
  | next _ hb hnext ih =>
    rcases ih with ⟨b', hm⟩
    have e : b' = _ := Option.some.inj ((hw.block hm).symm.trans hb)
    subst e
    exact hw.follows.next_mem hm hnext

theorem WellFormed.listed {h h' : Heap} {k m : List (Nat × Metadata)} {x : Nat × Metadata}
    (hw : WellFormed h (k ++ x :: m)) (hhead : h'.head = h.head) (hsame : ∀ y ∈ k, h'.block y.1 = h.block y.1) :
    Listed h' x.1 :=
  hw.follows.listed hsame fun _ ha => .head (hhead.trans ha)

theorem WellFormed.fit_iff {h : Heap} {l : List (Nat × Metadata)} (hw : WellFormed h l) {size : Nat} :
    Fit h size ↔ ∃ x ∈ l, x.2.free = true ∧ size ≤ x.2.size := by
  constructor
  · intro hf
    rcases hf with ⟨a, b, ha, hb, hfree, hsize⟩
    rcases hw.mem ha with ⟨b', hm⟩
    have e : b' = b := Option.some.inj ((hw.block hm).symm.trans hb)
    exact ⟨(a, b'), hm, e ▸ hfree, e ▸ hsize⟩
  · intro hf
    rcases hf with ⟨x, hx, hfree, hsize⟩
    rcases List.append_of_mem hx with ⟨k, m, e⟩
    subst e
    exact ⟨x.1, x.2, hw.listed rfl fun _ _ => rfl, hw.block hx, hfree, hsize⟩

/-- The addresses before a block on the list are below its own. -/
theorem WellFormed.before {h : Heap} {k m : List (Nat × Metadata)} {x : Nat × Metadata}
    (hw : WellFormed h (k ++ x :: m)) : ∀ y ∈ k, y.1 < x.1 := by
  intro y hy
  have hyx := (List.pairwise_append.mp hw.apart).2.2 y hy x List.mem_cons_self
  unfold headerSize at hyx
  omega

/-- As many addresses as the list is long lie below the break. -/
theorem apart_length {l : List (Nat × Metadata)} {hi : Nat}
    (hp : l.Pairwise fun x y => x.1 + headerSize + x.2.size ≤ y.1)
    (hb : ∀ x ∈ l, x.1 + headerSize + x.2.size ≤ hi) : ∀ x ∈ l.head?, x.1 + l.length ≤ hi := by
  induction l with
  | nil => simp
  | cons x l ih =>
    intro y hy
    cases hy
    have hx := hb x List.mem_cons_self
    rw [List.pairwise_cons] at hp
    cases l with
    | nil =>
      unfold headerSize at hx
      simp only [List.length_cons, List.length_nil]
      omega
    | cons z l =>
      have hz := ih hp.2 (fun w hw => hb w (List.mem_cons_of_mem _ hw)) z rfl
      have hxz := hp.1 z List.mem_cons_self
      unfold headerSize at hxz
      simp only [List.length_cons] at hz ⊢
      omega

theorem WellFormed.length {h : Heap} {l : List (Nat × Metadata)} (hw : WellFormed h l) : l.length ≤ h.brk := by
  cases l with
  | nil => exact Nat.zero_le _
  | cons x l => exact Nat.le_trans (Nat.le_add_left _ _) (apart_length hw.apart hw.below x rfl)

/-! ## The block a request is served from -/

theorem firstFit_follows {h : Heap} {p : Option Nat} {l : List (Nat × Metadata)} (size : Nat) {fuel : Nat}
    (hf : Follows h p l) (hfuel : l.length < fuel) :
    ∃ r, firstFit h size fuel p = some r ∧ (r = none → ∀ x ∈ l, ¬ (x.2.free = true ∧ size ≤ x.2.size)) ∧
      ∀ a, r = some a → ∃ b, (a, b) ∈ l ∧ b.free = true ∧ size ≤ b.size := by
  induction hf generalizing fuel with
  | nil =>
    cases fuel with
    | zero => cases hfuel
    | succ fuel => exact ⟨none, rfl, by simp, by simp⟩
  | @cons a b l hb _ ih =>
    cases fuel with
    | zero => cases hfuel
    | succ fuel =>
      unfold firstFit
      rw [hb, Option.bind_some]
      by_cases hfit : b.free = true ∧ size ≤ b.size
      · refine ⟨some a, if_pos hfit, by simp, ?_⟩
        intro c hc
        cases hc
        exact ⟨b, List.mem_cons_self, hfit⟩
      · rcases ih (Nat.lt_of_succ_lt_succ hfuel) with ⟨r, hr, hnone, hsome⟩
        refine ⟨r, (if_neg hfit).trans hr, ?_, ?_⟩
        · intro e x hx
          rcases List.mem_cons.mp hx with hx | hx
          · rw [hx]
            exact hfit
          · exact hnone e x hx
        · intro c hc
          rcases hsome c hc with ⟨d, hd, hrest⟩
          exact ⟨d, List.mem_cons_of_mem _ hd, hrest⟩

/-- `malloc` finds a block that fits if there is one. -/
theorem bestBlock_follows {h : Heap} {l : List (Nat × Metadata)} (hw : WellFormed h l) (hl : l ≠ []) (size : Nat) :
    ∃ r, bestBlock h size = some r ∧ (r = none → ¬ Fit h size) ∧
      ∀ a, r = some a → ∃ b, (a, b) ∈ l ∧ b.free = true ∧ size ≤ b.size := by
  have hlast := List.getLast?_eq_some_getLast hl
  have htail : h.tail = some (l.getLast hl).1 := by rw [hw.tail, hlast]; rfl
  have hmem := List.getLast_mem hl
  unfold bestBlock
  rw [htail, Option.bind_some, hw.block hmem, Option.bind_some]
  by_cases hfit : (l.getLast hl).2.free = true ∧ size ≤ (l.getLast hl).2.size
  · refine ⟨_, if_pos hfit, by simp, ?_⟩
    intro a ha
    cases ha
    exact ⟨_, hmem, hfit⟩
  · rcases firstFit_follows size hw.follows (Nat.lt_succ_of_le hw.length) with ⟨r, hr, hnone, hsome⟩
    refine ⟨r, (if_neg hfit).trans hr, ?_, hsome⟩
    intro e hfit
    rcases hw.fit_iff.mp hfit with ⟨x, hx, hx'⟩
    exact hnone e x hx hx'

/-- What is returned is a block of the list with the rounded size. -/
theorem place_listed {h : Heap} {l : List (Nat × Metadata)} (hw : WellFormed h l) {a : Nat} {b : Metadata}
    (hm : (a, b) ∈ l) (size : Nat) :
    ∃ h' b', place h a size = some h' ∧ Listed h' a ∧ h'.block a = some b' ∧ b'.size = size := by
  rcases List.append_of_mem hm with ⟨k, m, e⟩
  subst e
  have hbefore := hw.before
  unfold place
  rw [hw.block hm, Option.map_some]
  by_cases hcan : canSplit b size = true
  · rw [if_pos hcan]
    refine ⟨_, { b with next := some (a + headerSize + size), size := size, free := false }, rfl, ?_,
      Function.update_self .., rfl⟩
    refine hw.listed rfl ?_
    intro y hy
    have hy := hbefore y hy
    have hya : y.1 ≠ a := by omega
    have hyn : y.1 ≠ a + headerSize + size := by omega
    exact (Function.update_of_ne hya _ _).trans (Function.update_of_ne hyn _ _)
  · rw [if_neg hcan]
    refine ⟨_, { b with size := size, free := false }, rfl, ?_, Function.update_self .., rfl⟩
    refine hw.listed rfl ?_
    intro y hy
    have hy := hbefore y hy
    have hya : y.1 ≠ a := by omega
    exact Function.update_of_ne hya _ _

theorem sbrk_brk {h grown : Heap} {n : Nat} {ok : Bool} (hs : sbrk h n ok = some grown) :
    ∃ brk, grown = { h with brk := brk } := by
  unfold sbrk at hs
  dsimp only at hs
  rw [Option.ite_none_right_eq_some] at hs
  exact ⟨_, (Option.some.inj hs.2).symm⟩

/-- A negative increment moves the break down. -/
theorem sbrk_down {h grown : Heap} {n : Nat} {ok : Bool} (hn : 2 ^ 63 ≤ n) (hw : n < wordSize)
    (hs : sbrk h n ok = some grown) : grown.brk < h.brk := by
  unfold wordSize at hw
  unfold sbrk at hs
  dsimp only at hs
  rw [if_neg (Nat.not_lt.mpr hn), Option.ite_none_right_eq_some] at hs
  rcases hs with ⟨hbrk, e⟩
  rw [← Option.some.inj e]
  dsimp only
  omega

/-- The new block is on the list after the tail, if the break is above its header. -/
theorem extend_listed {h grown : Heap} {l : List (Nat × Metadata)} (hw : WellFormed h l) (hl : l ≠ []) {size : Nat}
    {ok : Bool} (hs : sbrk h ((size + headerSize) % wordSize) ok = some grown)
    (hroom : h.brk + headerSize ≤ grown.brk) :
    ∃ h' b', extend h size ok = some (h', some (h.brk + headerSize)) ∧ Listed h' h.brk ∧
      h'.block h.brk = some b' ∧ b'.size = size := by
  rcases List.eq_nil_or_concat l with e | ⟨k, x, e⟩
  · exact absurd e hl
  rw [List.concat_eq_append] at e
  subst e
  rcases sbrk_brk hs with ⟨brk, hgrown⟩
  have htail : h.tail = some x.1 := by rw [hw.tail, List.getLast?_concat]; rfl
  have hx := hw.below x (by simp)
  have hne : x.1 ≠ h.brk := by
    unfold headerSize at hx
    omega
  have hcur : (grown.set h.brk ⟨size, none, h.tail, false⟩).block x.1 = some x.2 := by
    rw [hgrown]
    exact (Function.update_of_ne hne _ _).trans (hw.block (by simp))
  have hnew : ∀ t : Metadata, ((grown.set h.brk ⟨size, none, h.tail, false⟩).set x.1 t).block h.brk
      = some ⟨size, none, h.tail, false⟩ :=
    fun t => (Function.update_of_ne hne.symm _ _).trans (Function.update_self ..)
  unfold extend
  rw [hs]
  dsimp only
  rw [if_neg (by omega), htail, Option.bind_some, ← htail, hcur, Option.map_some]
  refine ⟨_, _, rfl, ?_, hnew _, rfl⟩
  refine Listed.next (a := x.1) (b := { x.2 with next := some h.brk }) ?_ (Function.update_self ..) rfl
  apply hw.listed (by rw [hgrown]; rfl)
  intro y hy
  have hyx := hw.before y hy
  have hyt : y.1 ≠ x.1 := by omega
  have hyb : y.1 ≠ h.brk := by
    unfold headerSize at hx
    omega
  rw [hgrown]
  exact (Function.update_of_ne hyt _ _).trans (Function.update_of_ne hyb _ _)

/-! ## A rounded request -/

/-- A call that returns a block is right if the block is large enough. -/
theorem served_block {h h' : Heap} {init : Bool} {size a : Nat} {b : Metadata} {result : Option (Heap × Option Nat)}
    (he : result = some (h', some (a + headerSize))) (ha : a % alignTo = 0) (hlisted : Listed h' a)
    (hb : h'.block a = some b) : Served h init size result ↔ size ≤ b.size := by
  constructor
  · intro hs
    rcases hs with ⟨_, _, e, -, hptr⟩
    cases he.symm.trans e
    rcases (hptr _ rfl).2 with ⟨a', b', hp, -, hb', hsize⟩
    have haa : a' = a := by omega
    subst haa
    cases hb.symm.trans hb'
    exact hsize
  · intro hsize
    refine ⟨_, _, he, by simp, ?_⟩
    intro p hp
    cases hp
    refine ⟨?_, a, b, rfl, hlisted, hb, hsize⟩
    unfold alignTo headerSize at *
    omega

/-- A call that faults is not right. -/
theorem not_served_none {h : Heap} {init : Bool} {size : Nat} : ¬ Served h init size none := by
  intro hs
  rcases hs with ⟨_, _, e, -⟩
  cases e

/-- A request that a block fits has a block of just the rounded size. -/
theorem serve_fit {h : Heap} {l : List (Nat × Metadata)} (hw : WellFormed h l) (hl : l ≠ []) {n : Nat} (hfit : Fit h n)
    (ok : Bool) :
    ∃ h' a b, serve h n ok = some (h', some (a + headerSize)) ∧ a % alignTo = 0 ∧ Listed h' a ∧
      h'.block a = some b ∧ b.size = n := by
  rcases bestBlock_follows hw hl n with ⟨r, hr, hnone, hsome⟩
  cases r with
  | none => exact absurd hfit (hnone rfl)
  | some a =>
    rcases hsome a rfl with ⟨b, hm, -⟩
    rcases place_listed hw hm n with ⟨h', b', hplace, hrest⟩
    refine ⟨h', a, b', ?_, (hw.aligned _ hm).2, hrest⟩
    unfold serve
    rw [hr, Option.bind_some]
    dsimp only
    rw [hplace, Option.map_some]

theorem serve_extend {h : Heap} {l : List (Nat × Metadata)} (hw : WellFormed h l) (hl : l ≠ []) {n : Nat}
    (hfit : ¬ Fit h n) (ok : Bool) : serve h n ok = extend h n ok := by
  rcases bestBlock_follows hw hl n with ⟨r, hr, -, hsome⟩
  unfold serve
  rw [hr, Option.bind_some]
  cases r with
  | none => rfl
  | some a =>
    rcases hsome a rfl with ⟨b, hm, hb⟩
    exact absurd (hw.fit_iff.mpr ⟨_, hm, hb⟩) hfit

/-- A header does not fit below the break when its size makes the increment negative or
    wrap. -/
theorem extend_fault {h grown : Heap} {n : Nat} {ok : Bool} (hn : 2 ^ 63 ≤ n + headerSize) (hword : n < wordSize)
    (hs : sbrk h ((n + headerSize) % wordSize) ok = some grown) : extend h n ok = none := by
  have hroom : grown.brk < h.brk + headerSize := by
    by_cases hwrap : n + headerSize < wordSize
    · rw [Nat.mod_eq_of_lt hwrap] at hs
      exact Nat.lt_of_lt_of_le (sbrk_down hn hwrap hs) (Nat.le_add_right _ _)
    · have hsmall : (n + headerSize) % wordSize < headerSize := by
        unfold wordSize headerSize at *
        omega
      have hlow : (n + headerSize) % wordSize < 2 ^ 63 := Nat.lt_of_lt_of_le hsmall (by decide)
      rw [sbrk_of_lt hlow hs]
      exact Nat.add_lt_add_left hsmall _
  unfold extend
  rw [hs]
  exact if_pos hroom

/-! ## Rounding -/

theorem roundUp_lt (size : Nat) : roundUp size < wordSize := by
  unfold roundUp wordSize alignTo
  omega

theorem le_roundUp_iff {size : Nat} (hsize : size < wordSize) : size ≤ roundUp size ↔ size + 7 < wordSize := by
  unfold roundUp wordSize alignTo at *
  omega

/-! ## The first call -/

theorem WellFormed.begun {h g : Heap} {l : List (Nat × Metadata)} (hw : WellFormed h l) {ok : Bool}
    (hb : begun h ok = some g) : ∃ l', l' ≠ [] ∧ WellFormed g l' := by
  unfold Malloc.begun at hb
  by_cases hhead : h.head = none
  · rw [if_pos hhead] at hb
    unfold initHead at hb
    rcases Option.map_eq_some_iff.mp hb with ⟨grown, hs, e⟩
    have hlt : h.brk + initialHeapSize < wordSize := by
      unfold sbrk initialHeapSize at hs
      unfold initialHeapSize wordSize
      dsimp only at hs
      rw [Option.ite_none_right_eq_some] at hs
      omega
    have hgrown := sbrk_of_lt (by decide) hs
    subst e hgrown
    refine ⟨[(h.brk, ⟨initialHeapSize - headerSize, none, none, true⟩)], by simp, ?_, rfl, List.pairwise_singleton _ _,
      ?_, ?_, ?_⟩
    · exact .cons (Function.update_self ..) .nil
    · intro x hx
      rw [List.mem_singleton.mp hx]
      unfold headerSize initialHeapSize
      dsimp only [Heap.set]
      omega
    · intro x hx
      rw [List.mem_singleton.mp hx]
      exact ⟨hw.brk.1, hw.brk.2.1⟩
    · have hbrk := hw.brk
      refine ⟨Nat.lt_of_lt_of_le hbrk.1 (Nat.le_add_right _ _), ?_, hlt⟩
      unfold alignTo initialHeapSize at *
      dsimp only [Heap.set]
      omega
  · rw [if_neg hhead] at hb
    cases hb
    refine ⟨l, ?_, hw⟩
    intro e
    subst e
    have hf := hw.follows
    generalize hp : h.head = p at hf
    cases hf
    exact hhead hp

theorem malloc_begun (h : Heap) (size : Nat) (ok : Sbrk) :
    malloc h size ok = (begun h ok.init).bind fun g => serve g (roundUp size) ok.grow := rfl

/-! ## Requests -/

theorem malloc_served_iff {h : Heap} {l : List (Nat × Metadata)} (hw : WellFormed h l) {size : Nat}
    (hsize : size < wordSize) (ok : Sbrk) :
    Served h ok.init size (malloc h size ok) ↔ Servable h size ok := by
  unfold Servable
  rw [malloc_begun]
  cases hb : begun h ok.init with
  | none => simp [not_served_none]
  | some g =>
    rcases hw.begun hb with ⟨l', hl', hw'⟩
    simp only [Option.bind_some, Option.some.injEq, exists_eq_left']
    by_cases hfit : Fit g (roundUp size)
    · rcases serve_fit hw' hl' hfit ok.grow with ⟨h', a, b, he, ha, hlisted, hblock, hn⟩
      rw [served_block he ha hlisted hblock, hn, le_roundUp_iff hsize]
      exact ⟨fun hle => ⟨fun _ => hle, fun hno => absurd hfit hno⟩, fun hc => hc.1 hfit⟩
    · rw [serve_extend hw' hl' hfit]
      simp only [hfit, false_implies, not_false_eq_true, true_implies, true_and]
      cases hs : sbrk g ((roundUp size + headerSize) % wordSize) ok.grow with
      | none =>
        refine ⟨fun _ => Or.inl rfl, fun _ => ⟨g, none, ?_, fun _ => Or.inr hb, by simp⟩⟩
        unfold extend
        rw [hs]
      | some grown =>
        simp only [reduceCtorEq, false_or]
        by_cases hmax : roundUp size + headerSize < 2 ^ 63
        · have hroom : g.brk + headerSize ≤ grown.brk := by
            have hmod : (roundUp size + headerSize) % wordSize = roundUp size + headerSize :=
              Nat.mod_eq_of_lt (Nat.lt_of_lt_of_le hmax (by decide))
            rw [hmod] at hs
            rw [sbrk_of_lt hmax hs]
            dsimp only
            omega
          rcases extend_listed hw' hl' hs hroom with ⟨h', b, he, hlisted, hblock, hn⟩
          rw [served_block he hw'.brk.2.1 hlisted hblock, hn, le_roundUp_iff hsize]
          exact ⟨fun hle => ⟨hle, hmax⟩, fun hc => hc.1⟩
        · rw [extend_fault (Nat.le_of_not_lt hmax) (roundUp_lt size) hs]
          exact ⟨fun hserved => absurd hserved not_served_none, fun hc => absurd hc.2 hmax⟩

/-- The check of `calloc` is that the product overflows. -/
theorem product_overflows (num size : Nat) : num ≠ 0 ∧ (wordSize - 1) / num < size ↔ wordSize ≤ num * size := by
  constructor
  · intro h
    have hlt := (Nat.div_lt_iff_lt_mul (Nat.pos_of_ne_zero h.1)).mp h.2
    rw [Nat.mul_comm]
    unfold wordSize at *
    omega
  · intro h
    have hnum : num ≠ 0 := by
      intro e
      rw [e, Nat.zero_mul] at h
      exact absurd h (by decide)
    refine ⟨hnum, (Nat.div_lt_iff_lt_mul (Nat.pos_of_ne_zero hnum)).mpr ?_⟩
    rw [Nat.mul_comm]
    unfold wordSize at *
    omega

/-- Clearing the payload changes no header. -/
theorem Listed.clear {h : Heap} {a : Nat} (d : SysProg.Bytes.Mem) : Listed { h with data := d } a ↔ Listed h a := by
  constructor
  · intro ha
    induction ha with
    | head hhead => exact .head hhead
    | next _ hb hnext ih => exact .next ih hb hnext
  · intro ha
    induction ha with
    | head hhead => exact .head hhead
    | next _ hb hnext ih => exact .next ih hb hnext

theorem calloc_served_iff {h : Heap} {l : List (Nat × Metadata)} (hw : WellFormed h l) (num size : Nat) (ok : Sbrk) :
    Served h ok.init (num * size) (calloc h num size ok) ↔ wordSize ≤ num * size ∨ Servable h (num * size) ok := by
  unfold calloc
  by_cases hover : wordSize ≤ num * size
  · rw [if_pos ((product_overflows num size).mpr hover)]
    exact ⟨fun _ => Or.inl hover, fun _ => ⟨h, none, rfl, fun _ => Or.inl rfl, by simp⟩⟩
  · rw [if_neg fun hc => hover ((product_overflows num size).mp hc)]
    have hlt := Nat.lt_of_not_le hover
    simp only [hover, false_or, Nat.mod_eq_of_lt hlt]
    rw [← malloc_served_iff hw hlt ok]
    constructor
    · intro hs
      rcases hs with ⟨h', r, e, hnull, hptr⟩
      rcases Option.map_eq_some_iff.mp e with ⟨⟨g, r'⟩, hg, e⟩
      cases r' with
      | none =>
        cases e
        exact ⟨_, none, hg, hnull, hptr⟩
      | some p =>
        cases e
        refine ⟨g, some p, hg, by simp, ?_⟩
        intro q hq
        rcases hptr q hq with ⟨hq8, a, b, hqa, hlisted, hblock⟩
        exact ⟨hq8, a, b, hqa, (Listed.clear _).mp hlisted, hblock⟩
    · intro hs
      rcases hs with ⟨g, r, hg, hnull, hptr⟩
      rw [hg, Option.map_some]
      cases r with
      | none => exact ⟨g, none, rfl, hnull, hptr⟩
      | some p =>
        refine ⟨_, some p, rfl, by simp, ?_⟩
        intro q hq
        rcases hptr q hq with ⟨hq8, a, b, hqa, hlisted, hblock⟩
        exact ⟨hq8, a, b, hqa, (Listed.clear _).mpr hlisted, hblock⟩

/-- Every request of 64 bits, on every heap. -/
theorem requests_served {h : Heap} {l : List (Nat × Metadata)} (hw : WellFormed h l) {size : Nat}
    (hsize : size < wordSize) (num : Nat) (ok : Sbrk) :
    (Served h ok.init size (malloc h size ok) ↔ Servable h size ok) ∧
      (Served h ok.init (num * size) (calloc h num size ok) ↔ wordSize ≤ num * size ∨ Servable h (num * size) ok) :=
  ⟨malloc_served_iff hw hsize ok, calloc_served_iff hw num size ok⟩

theorem start_wellFormed : WellFormed start.heap [] := ⟨.nil, rfl, .nil, by simp, by simp, by decide⟩

/-- A free block between two in use. -/
def hole : Heap where
  head := some 64
  tail := some 160
  block
    | 64 => some ⟨16, some 112, none, false⟩
    | 112 => some ⟨16, some 160, some 64, true⟩
    | 160 => some ⟨16, none, some 112, false⟩
    | _ => none
  data := fun _ => 0
  brk := 208
  totalMemoryUse := 144

theorem hole_wellFormed : WellFormed hole [(64, ⟨16, some 112, none, false⟩), (112, ⟨16, some 160, some 64, true⟩),
    (160, ⟨16, none, some 112, false⟩)] where
  follows := .cons rfl (.cons rfl (.cons rfl .nil))
  tail := rfl
  apart := by decide
  below := by decide
  aligned := by decide
  brk := by decide

/-- Twelve bytes fit into the hole, and three times twelve need new memory. -/
theorem requests_served_hole : Served hole true 12 (malloc hole 12 ⟨true, true⟩) ∧
    Served hole true (3 * 12) (calloc hole 3 12 ⟨true, true⟩) := by
  have hsize : 12 < wordSize := by decide
  obtain ⟨hmalloc, hcalloc⟩ := requests_served hole_wellFormed hsize 3 ⟨true, true⟩
  refine ⟨hmalloc.mpr ?_, hcalloc.mpr (Or.inr ?_)⟩
  · exact ⟨hole, rfl, fun _ => by decide, fun _ => Or.inr ⟨by decide, by decide⟩⟩
  · exact ⟨hole, rfl, fun _ => by decide, fun _ => Or.inr ⟨by decide, by decide⟩⟩

/-- A request for all but one byte of the address space is served with no bytes. -/
theorem largest_request :
    ∃ h l size, WellFormed h l ∧ size < wordSize ∧ ¬ Served h true size (malloc h size ⟨true, true⟩) := by
  refine ⟨start.heap, [], wordSize - 1, start_wellFormed, by decide, ?_⟩
  have hs : (malloc start.heap (wordSize - 1) ⟨true, true⟩).map (fun x => (x.2, x.1.block 4096)) =
      some (some 4128, some ⟨0, some 4128, none, false⟩) := by
    decide +kernel
  intro hserved
  rcases hserved with ⟨h', r, e, -, hptr⟩
  rw [e, Option.map_some] at hs
  have hpair := Prod.mk.inj (Option.some.inj hs)
  rcases (hptr 4128 hpair.1).2 with ⟨a, b, hp, -, hb, hsize⟩
  have ha : a = 4096 := by
    unfold headerSize at hp
    omega
  rw [ha, hpair.2] at hb
  cases hb
  exact absurd hsize (by decide)

end SysProg.Malloc
