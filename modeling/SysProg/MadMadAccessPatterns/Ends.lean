/-
  SysProg.MadMadAccessPatterns.Ends — when findWord ends, on any file and whatever the heap
  holds (see `SysProg.MadMadAccessPatterns.Block`).

  The word of a block has no terminator, so `strcmp` goes on into what the heap holds after
  the block as long as it agrees with the word looked for. `searchIn` is the loop of
  `findWord` with the heap of each round; with a zero after every block it is the search of
  the words of the file (`searchIn_search`). Where the word begins with that of the node,
  the search may go to the left child too, which nothing in the file says; and an offset
  may lead back to a node the search came from.
  - `findWord_ends_iff`: each program returns, with readNode reading bytes of the file
    only, whatever the heap holds, exactly when the search can come to whole nodes only
    and to none of them twice.
  - `a_node_below_itself` and `a_word_and_leftovers` are the traces.
-/

import Mathlib.Data.Finite.Defs
import SysProg.Lib.Follow
import SysProg.MadMadAccessPatterns.Block

namespace SysProg.MadMadAccessPatterns

open Relation (ReflTransGen TransGen)
open SysProg.CString (CStr)
open SysProg.Follow (Next Goes MayGo follow follow_mono choose choose_iff)
open SysProg.Lib (ReachesCycle)

abbrev Heap := Nat → UInt8

def strcmpAt : Text → Heap → Int
  | [], m => - ((m 0).toNat : Int)
  | a :: s, m => if a = m 0 then strcmpAt s fun i => m (i + 1) else a.toNat - (m 0).toNat

/-- The bytes at `node->word`: those of the block, and those after it. -/
def wordAt (L : Layout) (block : Text) (heap : Heap) : Heap := fun i =>
  ((block.drop L.size)[i]?).getD (heap (L.size + i))

/-- The loop of `findWord`, with what the heap holds in each round and a bound on the rounds. -/
def searchIn (L : Layout) (readBlock : Heap → UInt32 → Option Text) (word : Text) :
    Nat → Stream' Heap → UInt32 → Option UInt32
  | 0, _, _ => none
  | fuel + 1, heap, cur =>
    if cur = 0 then some 0
    else (readBlock heap.head cur).bind fun block =>
      let cmp := strcmpAt word (wordAt L block heap.head)
      let left_child := L.left_child (block.take L.size)
      let right_child := L.right_child (block.take L.size)
      if cmp = 0 then some cur
      else if cmp < 0 ∧ left_child ≠ 0 then searchIn L readBlock word fuel heap.tail left_child
      else if right_child ≠ 0 then searchIn L readBlock word fuel heap.tail right_child
      else some 0

def Lookup1.findWordIn (L : Layout) (fd word : Text) (heap : Stream' Heap) (fuel : Nat) : Option UInt32 :=
  searchIn L (fun fill => Lookup1.block L fill fd) word fuel heap L.root

def Lookup2.findWordIn (L : Layout) (fd word : Text) (heap : Stream' Heap) (fuel : Nat) : Option UInt32 :=
  searchIn L (fun fill => Lookup2.block L fill fd) word fuel heap L.root

def roundIn (L : Layout) (readBlock : Heap → UInt32 → Option Text) (word : Text) (heap : Heap) (cur : UInt32) :
    Option (Next UInt32 UInt32) :=
  if cur = 0 then some (.done 0)
  else (readBlock heap cur).map fun block =>
    let cmp := strcmpAt word (wordAt L block heap)
    let left_child := L.left_child (block.take L.size)
    let right_child := L.right_child (block.take L.size)
    if cmp = 0 then .done cur
    else if cmp < 0 ∧ left_child ≠ 0 then .on left_child
    else if right_child ≠ 0 then .on right_child
    else .done 0

/-- The offset to which the search may go on: to the left also where the word begins with
    that of the node. -/
inductive Turns (L : Layout) (file word : Text) (offset : UInt32) : UInt32 → Prop
  | left {header x : Text} : NodeAt L file offset header x → strcmp word x < 0 ∨ x <+: word → L.left_child header ≠ 0 →
      Turns L file word offset (L.left_child header)
  | right {header x : Text} : NodeAt L file offset header x →
      0 < strcmp word x ∨ (strcmp word x < 0 ∨ x <+: word) ∧ L.left_child header = 0 → L.right_child header ≠ 0 →
      Turns L file word offset (L.right_child header)

/-- Whole nodes only, and none of them twice. -/
def EndsInside (L : Layout) (file word : Text) : Prop :=
  (∀ offset, ReflTransGen (Turns L file word) L.root offset → ∃ header x, NodeAt L file offset header x) ∧
    ¬ ReachesCycle (Turns L file word) L.root

variable {L : Layout} {file header word x : Text} {offset offset' : UInt32} {page fuel : Nat} {heap : Stream' Heap}
  {m : Heap} {readBlock : Heap → UInt32 → Option Text}

/-! ## Comparing with what a block holds -/

def thenHeap (x : Text) (m : Heap) : Heap := fun i => (x[i]?).getD (m i)

/-- The bytes after the word are looked at only if the word goes on as it does. -/
theorem strcmpAt_apart (h : ¬ x <+: word) : strcmpAt word (thenHeap x m) = strcmp word x := by
  induction word generalizing x m with
  | nil =>
    cases x with
    | nil => exact absurd List.nil_prefix h
    | cons b x => rfl
  | cons a word ih =>
    cases x with
    | nil => exact absurd List.nil_prefix h
    | cons b x =>
      show (if a = b then strcmpAt word (thenHeap x fun i => m (i + 1)) else (a.toNat : Int) - b.toNat) = _
      rw [strcmp]
      by_cases e : a = b
      · rw [if_pos e, if_pos e]
        refine ih fun hp => h ?_
        rw [e, List.prefix_cons_inj]
        exact hp
      · rw [if_neg e, if_neg e]

/-- With a zero after it, the block is the word of the file. -/
theorem strcmpAt_zeros (hword : 0 ∉ word) (hm : m x.length = 0) : strcmpAt word (thenHeap x m) = strcmp word x := by
  induction word generalizing x m with
  | nil =>
    cases x with
    | nil =>
      have hzero : m 0 = 0 := hm
      show - ((m 0).toNat : Int) = 0
      rw [hzero]
      rfl
    | cons b x => rfl
  | cons a word ih =>
    rw [List.mem_cons, not_or] at hword
    cases x with
    | nil =>
      have hzero : thenHeap [] m 0 = 0 := hm
      have hne : ¬ a = 0 := Ne.symm hword.1
      rw [strcmpAt, hzero, if_neg hne]
      simp [strcmp]
    | cons b x =>
      have hrest := ih (x := x) (m := fun i => m (i + 1)) hword.2 hm
      show (if a = b then strcmpAt word (thenHeap x fun i => m (i + 1)) else (a.toNat : Int) - b.toNat) = _
      rw [strcmp, hrest]

/-- A heap that goes on as the word does, past its end. -/
theorem strcmpAt_past (h : x <+: word) : strcmpAt word (thenHeap x fun i => (word[i]?).getD 1) < 0 := by
  have hsame : thenHeap x (fun i => (word[i]?).getD 1) = fun i => (word[i]?).getD 1 := by
    obtain ⟨rest, rfl⟩ := h
    funext i
    unfold thenHeap
    cases hi : x[i]? with
    | none => rfl
    | some b =>
      rw [List.getElem?_append_left (List.getElem?_eq_some_iff.mp hi).1, hi]
      rfl
  rw [hsame]
  clear hsame h
  induction word with
  | nil => decide
  | cons a word ih =>
    show (if a = a then strcmpAt word (fun i => (word[i]?).getD 1) else _) < 0
    rw [if_pos rfl]
    exact ih

theorem strcmp_prefix (hword : 0 ∉ word) (h : x <+: word) : x = word ∨ 0 < strcmp word x := by
  obtain ⟨rest, rfl⟩ := h
  induction x with
  | nil =>
    cases rest with
    | nil => exact Or.inl rfl
    | cons a rest =>
      apply Or.inr
      have hne : a.toNat ≠ 0 := fun e => hword (by rw [← UInt8.toNat_inj.mp (e.trans UInt8.toNat_zero.symm)]; simp)
      show (0 : Int) < a.toNat
      omega
  | cons a x ih =>
    rw [List.cons_append, List.mem_cons, not_or] at hword
    rcases ih hword.2 with e | hlt
    · exact Or.inl (congrArg (a :: ·) e)
    · apply Or.inr
      show 0 < if a = a then strcmp (x ++ rest) x else _
      rw [if_pos rfl]
      exact hlt

/-- What a comparison can come to, one way and the other. -/
theorem strcmpAt_neg (h : strcmpAt word (thenHeap x m) < 0) : strcmp word x < 0 ∨ x <+: word := by
  by_cases hp : x <+: word
  · exact Or.inr hp
  · rw [strcmpAt_apart hp] at h
    exact Or.inl h

theorem strcmpAt_self_nonpos : ∀ {word : Text} {m : Heap}, strcmpAt word (thenHeap word m) ≤ 0
  | [], m => by
    show - ((m 0).toNat : Int) ≤ 0
    omega
  | a :: word, m => by
    show (if a = a then strcmpAt word (thenHeap word fun i => m (i + 1)) else _) ≤ 0
    rw [if_pos rfl]
    exact strcmpAt_self_nonpos

theorem strcmpAt_pos (hword : 0 ∉ word) (h : 0 < strcmpAt word (thenHeap x m)) : 0 < strcmp word x := by
  by_cases hp : x <+: word
  · rcases strcmp_prefix hword hp with e | hlt
    · subst e
      exact absurd h (Int.not_lt.mpr strcmpAt_self_nonpos)
    · exact hlt
  · rwa [strcmpAt_apart hp] at h

/-! ## A round at a node -/

def ReadsBlock (readBlock : Heap → UInt32 → Option Text) (L : Layout) (file : Text) : Prop :=
  ∀ m offset header x, NodeAt L file offset header x → readBlock m offset = some (header ++ x)

theorem lookup1_readsBlock : ReadsBlock (fun fill => Lookup1.block L fill file) L file := by
  intro m offset header x hnode
  obtain ⟨rest, hbytes⟩ := hnode.bytes
  show Lookup1.block L m file offset = _
  rw [block_eq hbytes hnode.size hnode.terminated, if_pos hnode.short]

theorem lookup2_readsBlock (page : Nat) : ReadsBlock (fun fill => Lookup2.block L fill (mapped page file)) L file := by
  intro m offset header x hnode
  obtain ⟨rest, hbytes⟩ := hnode.bytes
  have hle : offset.toNat ≤ file.length := by
    by_contra hlt
    rw [List.drop_of_length_le (by omega)] at hbytes
    simp at hbytes
  have hmapped : (mapped page file).drop offset.toNat =
      header ++ (x ++ 0 :: (rest ++ List.replicate ((page - file.length % page) % page) 0)) := by
    rw [mapped_drop hle, hbytes]
    simp
  show Lookup2.block L m (mapped page file) offset = _
  rw [lookup2_block, block_eq hmapped hnode.size hnode.terminated, if_pos hnode.short]

theorem wordAt_node (hsize : header.length = L.size) :
    wordAt L (header ++ x) m = thenHeap x fun i => m (L.size + i) := by
  funext i
  rw [wordAt, ← hsize, List.drop_left]
  rfl

/-- What a round comes to at a whole node. -/
theorem roundIn_node (hread : ReadsBlock readBlock L file) (hnode : NodeAt L file offset header x) :
    roundIn L readBlock word m offset =
      let cmp := strcmpAt word (thenHeap x fun i => m (L.size + i))
      some (if cmp = 0 then .done offset
        else if cmp < 0 ∧ L.left_child header ≠ 0 then .on (L.left_child header)
        else if L.right_child header ≠ 0 then .on (L.right_child header)
        else .done 0) := by
  have htake : (header ++ x).take L.size = header := by rw [← hnode.size, List.take_left]
  unfold roundIn
  rw [if_neg hnode.offset_ne, hread m offset header x hnode, Option.map_some, wordAt_node hnode.size, htake]

/-- A heap for what the word compares to, from the word of the block on. -/
theorem at_word (m : Heap) : ∃ m' : Heap, (fun i => m' (L.size + i)) = m :=
  ⟨fun i => m (i - L.size), funext fun _ => congrArg m (Nat.add_sub_cancel_left ..)⟩

theorem Turns.mayGo (hread : ReadsBlock readBlock L file) (hword : 0 ∉ word) (h : Turns L file word offset offset') :
    MayGo (roundIn L readBlock word) offset offset' := by
  have hless : ∀ {x : Text}, strcmp word x < 0 ∨ x <+: word → ∃ m : Heap,
      strcmpAt word (thenHeap x fun i => m (L.size + i)) < 0 := by
    intro x hx
    rcases hx with hlt | hp
    · obtain ⟨m, hm⟩ := at_word (L := L) fun _ => 0
      exact ⟨m, by rw [hm, strcmpAt_zeros hword rfl]; exact hlt⟩
    · obtain ⟨m, hm⟩ := at_word (L := L) fun i => (word[i]?).getD 1
      exact ⟨m, by rw [hm]; exact strcmpAt_past hp⟩
  cases h with
  | left hnode hx hleft =>
    obtain ⟨m, hm⟩ := hless hx
    refine ⟨m, ?_⟩
    rw [roundIn_node hread hnode]
    simp only
    rw [if_neg (Int.ne_of_lt hm), if_pos ⟨hm, hleft⟩]
  | @right header x hnode hx hright =>
    rcases hx with hlt | ⟨hx, hleft⟩
    · obtain ⟨m, hm⟩ := at_word (L := L) fun _ => 0
      refine ⟨m, ?_⟩
      rw [roundIn_node hread hnode, hm, strcmpAt_zeros hword rfl]
      simp only
      rw [if_neg (Int.ne_of_gt hlt), if_neg fun h => Int.lt_asymm hlt h.1, if_pos hright]
    · obtain ⟨m, hm⟩ := hless hx
      refine ⟨m, ?_⟩
      rw [roundIn_node hread hnode]
      simp only
      rw [if_neg (Int.ne_of_lt hm), if_neg fun h => h.2 hleft, if_pos hright]

/-- A round goes nowhere else from a whole node. -/
theorem mayGo_turns (hread : ReadsBlock readBlock L file) (hword : 0 ∉ word) (hnode : NodeAt L file offset header x)
    (h : MayGo (roundIn L readBlock word) offset offset') : Turns L file word offset offset' := by
  obtain ⟨m, hm⟩ := h
  rw [roundIn_node hread hnode] at hm
  simp only [Option.some.injEq] at hm
  split at hm
  · cases hm
  · rename_i hcmp
    split at hm
    · rename_i hleft
      cases hm
      exact .left hnode (strcmpAt_neg hleft.1) hleft.2
    · rename_i hleft
      split at hm
      · rename_i hright
        cases hm
        refine .right hnode ?_ hright
        rcases Int.lt_or_gt_of_ne hcmp with hlt | hgt
        · exact Or.inr ⟨strcmpAt_neg hlt, by_contra fun hne => hleft ⟨hlt, hne⟩⟩
        · exact Or.inl (strcmpAt_pos hword hgt)
      · cases hm

/-! ## The loop and its rounds -/

theorem searchIn_follow : searchIn L readBlock word fuel heap offset =
    follow (choose (roundIn L readBlock word)) fuel (heap, offset) := by
  induction fuel generalizing heap offset with
  | zero => rfl
  | succ n ih =>
    unfold searchIn follow choose roundIn
    by_cases hzero : offset = 0
    · rw [if_pos hzero, if_pos hzero]
      rfl
    · rw [if_neg hzero, if_neg hzero]
      cases readBlock heap.head offset with
      | none => rfl
      | some block =>
        simp only [Option.bind_some, Option.map_some]
        split_ifs <;> first | rfl | exact ih

theorem searchIn_returns : (∃ r, Returns (fun fuel => searchIn L readBlock word fuel heap offset) r) ↔
    ∃ r n, follow (choose (roundIn L readBlock word)) n (heap, offset) = some r := by
  constructor
  · intro ⟨r, n, h⟩
    exact ⟨r, n, by rw [← searchIn_follow]; exact h n (Nat.le_refl n)⟩
  · intro ⟨r, n, h⟩
    refine ⟨r, n, ?_⟩
    intro fuel hfuel
    show searchIn L readBlock word fuel heap offset = some r
    rw [searchIn_follow]
    exact follow_mono h hfuel

/-- With a zero after every block, the search compares with the words as the file has them. -/
theorem searchIn_search (hword : 0 ∉ word) :
    searchIn L readBlock word fuel (Stream'.const fun _ => 0) offset =
      search (fun cur => (readBlock (fun _ => 0) cur).map L.node) word fuel offset := by
  induction fuel generalizing offset with
  | zero => rfl
  | succ n ih =>
    unfold searchIn search
    by_cases hzero : offset = 0
    · rw [if_pos hzero, if_pos hzero]
    · rw [if_neg hzero, if_neg hzero]
      have hhead : (Stream'.const fun _ => 0 : Stream' Heap).head = fun _ => 0 := rfl
      rw [hhead]
      cases readBlock (fun _ => 0) offset with
      | none => rfl
      | some block =>
        have hcmp : strcmpAt word (wordAt L block fun _ => 0) = strcmp word (L.node block).word :=
          strcmpAt_zeros (x := block.drop L.size) (m := fun _ => 0) hword rfl
        simp only [Option.bind_some, Option.map_some, hcmp, Stream'.tail_const, ih]
        rfl

theorem findWordIn_zeros (hword : 0 ∉ word) :
    Lookup1.findWordIn L file word (Stream'.const fun _ => 0) = Lookup1.findWord L file word ∧
      Lookup2.findWordIn L file word (Stream'.const fun _ => 0) = Lookup2.findWord L file word := by
  have h1 : (fun cur => (Lookup1.block L (fun _ => 0) file cur).map L.node) = Lookup1.readNode L file :=
    funext fun _ => block_node _
  have h2 : (fun cur => (Lookup2.block L (fun _ => 0) file cur).map L.node) = Lookup2.readNode L file :=
    funext fun _ => by rw [lookup2_block, block_node, lookup2_readNode]
  refine ⟨funext fun fuel => ?_, funext fun fuel => ?_⟩
  · rw [Lookup1.findWordIn, searchIn_search hword, h1]
    rfl
  · rw [Lookup2.findWordIn, searchIn_search hword, h2]
    rfl

/-! ## Results -/

theorem UInt32.finite : Finite UInt32 := Finite.of_injective UInt32.toFin fun _ _ h => UInt32.toFin_inj.mp h

theorem mayGo_ne (h : ReflTransGen (MayGo (roundIn L readBlock word)) L.root offset) : offset ≠ 0 := by
  cases h with
  | refl => exact L.root_ne
  | tail _ hg =>
    obtain ⟨m, hm⟩ := hg
    unfold roundIn at hm
    split at hm
    · cases hm
    · obtain ⟨block, _, hm⟩ := Option.map_eq_some_iff.mp hm
      simp only at hm
      split at hm
      · cases hm
      · split at hm
        · rename_i hleft
          cases hm
          exact hleft.2
        · split at hm
          · rename_i hright
            cases hm
            exact hright
          · cases hm

theorem roundIn_isSome (hne : offset ≠ 0) :
    (roundIn L readBlock word m offset).isSome = (readBlock m offset).isSome := by
  rw [roundIn, if_neg hne, Option.isSome_map]

/-- `fine` says what else is asked of an offset that the search may come to. -/
theorem ends_iff (hread : ReadsBlock readBlock L file) (hword : 0 ∉ word) (fine : UInt32 → Prop)
    (hwhole : ∀ offset, offset ≠ 0 →
      ((∀ m, (readBlock m offset).isSome = true) ∧ fine offset ↔ ∃ header x, NodeAt L file offset header x)) :
    (∀ heap, ∃ r, Returns (fun fuel => searchIn L readBlock word fuel heap L.root) r) ∧
      (∀ offset, ReflTransGen (MayGo (roundIn L readBlock word)) L.root offset → fine offset) ↔
    EndsInside L file word := by
  have hends : (∀ heap, ∃ r, Returns (fun fuel => searchIn L readBlock word fuel heap L.root) r) ↔
      (∀ offset, ReflTransGen (MayGo (roundIn L readBlock word)) L.root offset →
        ∀ m, (readBlock m offset).isSome = true) ∧
        ¬ ReachesCycle (MayGo (roundIn L readBlock word)) L.root := by
    have hfinite := UInt32.finite
    simp only [searchIn_returns]
    rw [choose_iff (Set.toFinite _)]
    apply and_congr_left'
    constructor
    · intro h offset hreach m
      rw [← roundIn_isSome (mayGo_ne hreach)]
      exact h offset hreach m
    · intro h offset hreach m
      rw [roundIn_isSome (mayGo_ne hreach)]
      exact h offset hreach m
  have hto : ∀ s t, True → Turns L file word s t → MayGo (roundIn L readBlock word) s t ∧ True :=
    fun s t _ h => ⟨h.mayGo hread hword, trivial⟩
  rw [hends]
  constructor
  · intro ⟨⟨hsome, hno⟩, hfine⟩
    refine ⟨?_, fun hc => hno (hc.mono_on hto trivial)⟩
    intro offset hp
    have hreach := (Lib.path_mono_on hto trivial hp).1
    exact (hwhole offset (mayGo_ne hreach)).mp ⟨hsome offset hreach, hfine offset hreach⟩
  · intro ⟨hnodes, hno⟩
    have hfrom : ∀ s t, ReflTransGen (Turns L file word) L.root s → MayGo (roundIn L readBlock word) s t →
        Turns L file word s t ∧ ReflTransGen (Turns L file word) L.root t := by
      intro s t hs hg
      obtain ⟨header, x, hnode⟩ := hnodes s hs
      have ht := mayGo_turns hread hword hnode hg
      exact ⟨ht, hs.tail ht⟩
    have hall : ∀ offset, ReflTransGen (MayGo (roundIn L readBlock word)) L.root offset →
        (∀ m, (readBlock m offset).isSome = true) ∧ fine offset := by
      intro offset hreach
      exact (hwhole offset (mayGo_ne hreach)).mpr (hnodes offset (Lib.path_mono_on hfrom .refl hreach).2)
    exact ⟨⟨fun offset hreach => (hall offset hreach).1, fun hc => hno (hc.mono_on hfrom .refl)⟩,
      fun offset hreach => (hall offset hreach).2⟩

/-- What lookup2 reads of the mapping, as far as its search may come. -/
def Lookup2.ReadsInside (L : Layout) (page : Nat) (file word : Text) : Prop :=
  ∀ offset, ReflTransGen (MayGo (roundIn L (fun fill => Lookup2.block L fill (mapped page file)) word)) L.root offset →
    ∀ i ∈ Lookup2.reads L (mapped page file) offset, i < file.length

theorem block_isSome {fd : Text} : (Lookup1.block L m fd offset).isSome = (Lookup1.readNode L fd offset).isSome := by
  rw [← block_node m, Option.isSome_map]

/-- A stream gives no bytes but those of the file. -/
theorem findWord_ends_iff (L : Layout) (page : Nat) (file : Text) (word : CStr) :
    ((∀ heap, ∃ r, Returns (Lookup1.findWordIn L file word.1 heap) r) ↔ EndsInside L file word.1) ∧
      ((∀ heap, ∃ r, Returns (Lookup2.findWordIn L (mapped page file) word.1 heap) r) ∧
          Lookup2.ReadsInside L page file word.1 ↔
        EndsInside L file word.1) := by
  constructor
  · have h : ((∀ heap, ∃ r, Returns (Lookup1.findWordIn L file word.1 heap) r) ∧ _) ↔ EndsInside L file word.1 :=
      ends_iff lookup1_readsBlock word.2 (fun _ => True) fun offset hne => by
        simp only [block_isSome, forall_const, and_true]
        exact lookup1_nodeAt hne
    rw [← h]
    exact ⟨fun hr => ⟨hr, fun _ _ => trivial⟩, fun hr => hr.1⟩
  · refine ends_iff (lookup2_readsBlock page) word.2
      (fun offset => ∀ i ∈ Lookup2.reads L (mapped page file) offset, i < file.length) fun offset hne => ?_
    simp only [lookup2_block, block_isSome, forall_const]
    rw [← lookup2_readNode]
    exact lookup2_nodeAt hne

/-- The node "b", at 4, is its own right child. -/
def belowItself : Text := [66, 84, 82, 69, 0, 4, 98, 0]

def unended : Text := [66, 84, 82, 69, 0, 0, 98]

def leftOut : Text := [66, 84, 82, 69, 100, 0, 99, 0]

theorem belowItself_node : NodeAt bytesLayout belowItself 4 [0, 4] [98] :=
  ⟨by decide, ⟨[], rfl⟩, rfl, by decide, by decide⟩

theorem leftOut_node : NodeAt bytesLayout leftOut 4 [100, 0] [99] := ⟨by decide, ⟨[], rfl⟩, rfl, by decide, by decide⟩

/-- Round and round. -/
theorem belowItself_round (hread : ReadsBlock readBlock bytesLayout belowItself) :
    searchIn bytesLayout readBlock [99] fuel heap 4 = none := by
  induction fuel generalizing heap with
  | zero => rfl
  | succ n ih =>
    have hroot : ¬ (4 : UInt32) = 0 := by decide
    rw [searchIn, if_neg hroot, hread _ _ _ _ belowItself_node]
    exact ih

theorem searchIn_nowhere (hne : offset ≠ 0) (h : readBlock heap.head offset = none) :
    searchIn L readBlock word fuel heap offset = none := by
  cases fuel with
  | zero => rfl
  | succ n => rw [searchIn, if_neg hne, h, Option.bind_none]

theorem not_returns {run : Nat → Option UInt32} (h : ∀ fuel, run fuel = none) (r : UInt32) : ¬ Returns run r := by
  intro ⟨n, hr⟩
  have hn := hr n (Nat.le_refl n)
  rw [h n] at hn
  cases hn

theorem a_node_below_itself :
    (∀ heap r, ¬ Returns (Lookup1.findWordIn bytesLayout belowItself [99] heap) r) ∧
    (∀ heap r, ¬ Returns (Lookup2.findWordIn bytesLayout (mapped 4096 belowItself) [99] heap) r) ∧
    (∀ heap r, ¬ Returns (Lookup1.findWordIn bytesLayout unended [98] heap) r) ∧
    ¬ Lookup2.ReadsInside bytesLayout 4096 unended [98] := by
  refine ⟨?_, ?_, ?_, ?_⟩
  · intro heap
    exact not_returns fun fuel => belowItself_round lookup1_readsBlock
  · intro heap
    exact not_returns fun fuel => belowItself_round (lookup2_readsBlock _)
  · intro heap
    exact not_returns fun fuel => searchIn_nowhere (by decide) rfl
  · intro hin
    have hahead : (mapped 4096 unended).drop (6 + 0) = [98] ++ 0 :: List.replicate 4088 0 := rfl
    have hlook : 7 ∈ Lookup2.scanned (mapped 4096 unended) 6 0 :=
      (mem_scanned hahead (by decide) (by decide)).mpr ⟨by decide, by decide⟩
    exact absurd (hin 4 .refl 7 (List.mem_append_left _ hlook)) (by decide)

def leftovers : Heap := fun i => if i = 3 then 97 else 0

/-- The block goes on as "ca" does, and the search for "c" goes to the left. -/
theorem a_word_and_leftovers :
    Returns (Lookup1.findWordIn bytesLayout leftOut [99] (Stream'.const fun _ => 0)) 4 ∧
    (∀ r, ¬ Returns (Lookup1.findWordIn bytesLayout leftOut [99] (Stream'.const leftovers)) r) ∧
    ¬ Lookup2.ReadsInside bytesLayout 4096 leftOut [99] := by
  have hroot : ¬ (4 : UInt32) = 0 := by decide
  have hblock : ∀ m, Lookup1.block bytesLayout m leftOut 4 = some [100, 0, 99] :=
    fun m => lookup1_readsBlock m 4 _ _ leftOut_node
  refine ⟨⟨1, ?_⟩, ?_, ?_⟩
  · intro fuel hfuel
    obtain ⟨n, rfl⟩ : ∃ n, fuel = n + 1 := ⟨fuel - 1, by omega⟩
    show searchIn bytesLayout _ [99] (n + 1) (Stream'.const fun _ => 0) 4 = some 4
    rw [searchIn, if_neg hroot, hblock]
    rfl
  · apply not_returns
    intro fuel
    cases fuel with
    | zero => rfl
    | succ n =>
      show searchIn bytesLayout _ [99] (n + 1) (Stream'.const leftovers) 4 = none
      rw [searchIn, if_neg hroot, hblock]
      exact searchIn_nowhere (by decide) rfl
  · intro hin
    have hturn : Turns bytesLayout leftOut [99] 4 100 :=
      .left leftOut_node (Or.inr (List.prefix_refl _)) (by decide)
    have hahead : (mapped 4096 leftOut).drop (102 + 0) = [] ++ 0 :: List.replicate 3993 0 := rfl
    have hlook : 102 ∈ Lookup2.scanned (mapped 4096 leftOut) 102 0 :=
      (mem_scanned hahead (by decide) (by decide)).mpr ⟨by decide, by decide⟩
    have hreach := ReflTransGen.single (hturn.mayGo (lookup2_readsBlock 4096) (by decide))
    exact absurd (hin 100 hreach 102 (List.mem_append_left _ hlook)) (by decide)

end SysProg.MadMadAccessPatterns
