/-
  SysProg.MadMadAccessPatterns.Search — what findWord returns on a search tree (see
  `SysProg.MadMadAccessPatterns.Lookup`).

  A file encodes a tree when every child offset is zero or leads to a header, a word and
  its terminator (`Encodes`). Where a word is smaller than the one of the node and there
  is no left child the search goes on to the right; the word is not there, so all that
  comes of it is a later 0 (`search_finds`). The search ends at the first word it reads
  whose length is no `int`.

  Main results: `findWord_iff`, for every tree and word and for the stream and the mapped
  file, and `long_word`.
-/

import SysProg.MadMadAccessPatterns.Lookup

namespace SysProg.MadMadAccessPatterns

inductive Tree where
  | leaf
  | node (offset : UInt32) (word : Text) (left right : Tree)

def Tree.nodes : Tree → List (UInt32 × Text)
  | .leaf => []
  | .node offset word left right => (offset, word) :: (left.nodes ++ right.nodes)

def Tree.Ordered : Tree → Prop
  | .leaf => True
  | .node _ word left right => left.Ordered ∧ right.Ordered ∧ (∀ x ∈ left.nodes, strcmp x.2 word < 0) ∧
      ∀ x ∈ right.nodes, strcmp word x.2 < 0

inductive Encodes (L : Layout) (file : Text) : UInt32 → Tree → Prop
  | leaf : Encodes L file 0 .leaf
  | node {offset : UInt32} {header word rest : Text} {left right : Tree} : offset ≠ 0 →
      file.drop offset.toNat = header ++ (word ++ 0 :: rest) → header.length = L.size → 0 ∉ word →
      Encodes L file (L.left_child header) left → Encodes L file (L.right_child header) right →
      Encodes L file offset (.node offset word left right)

/-- The offset of the node that has the word, or 0 if no node has it. -/
def Tree.Finds (t : Tree) (word : Text) (r : UInt32) : Prop :=
  (r, word) ∈ t.nodes ∨ r = 0 ∧ ∀ x ∈ t.nodes, x.2 ≠ word

/-- The words a search comes to: where there is no left child it goes to the right. -/
def Tree.path (word : Text) : Tree → List Text
  | .leaf => []
  | .node _ x left right =>
    x :: if strcmp word x = 0 then []
      else if strcmp word x < 0 ∧ left.nodes ≠ [] then left.path word
      else right.path word

/-- From some bound on, the run comes to this result. -/
def Returns {R : Type} (run : Nat → Option R) (r : R) : Prop := ∃ n, ∀ fuel, n ≤ fuel → run fuel = some r

variable {L : Layout} {file header word x rest s t : Text} {offset r : UInt32} {page n fuel : Nat}

/-! ## Comparing words -/

theorem strcmp_swap : strcmp t s = - strcmp s t := by
  induction s generalizing t with
  | nil =>
    cases t with
    | nil => rfl
    | cons b t => simp [strcmp]
  | cons a s ih =>
    cases t with
    | nil => simp [strcmp]
    | cons b t =>
      simp only [strcmp]
      by_cases h : a = b
      · rw [if_pos h, if_pos h.symm, ih]
      · rw [if_neg h, if_neg (Ne.symm h)]
        omega

theorem strcmp_self : strcmp s s = 0 := by
  have h := strcmp_swap (s := s) (t := s)
  omega

theorem strcmp_eq_zero (hs : 0 ∉ s) (ht : 0 ∉ t) : strcmp s t = 0 ↔ s = t := by
  induction s generalizing t with
  | nil =>
    cases t with
    | nil => simp [strcmp]
    | cons b t =>
      have hb : b.toNat ≠ 0 := fun e => ht (by simp [← UInt8.toNat_inj, e])
      simp [strcmp]
      omega
  | cons a s ih =>
    cases t with
    | nil =>
      have ha : a.toNat ≠ 0 := fun e => hs (by simp [← UInt8.toNat_inj, e])
      simp [strcmp]
      omega
    | cons b t =>
      rw [List.mem_cons, not_or] at hs ht
      simp only [strcmp, List.cons.injEq]
      by_cases h : a = b
      · rw [if_pos h, ih hs.2 ht.2]
        simp [h]
      · have hne : a.toNat ≠ b.toNat := fun e => h (UInt8.toNat_inj.mp e)
        rw [if_neg h]
        refine ⟨fun e => by omega, fun e => absurd e.1 h⟩

/-! ## Reading nodes -/

def Reads (readNode : UInt32 → Option Node) (L : Layout) (file : Text) : Prop :=
  ∀ offset header word rest, file.drop offset.toNat = header ++ (word ++ 0 :: rest) → header.length = L.size →
    0 ∉ word → readNode offset =
      if word.length < 2 ^ 31 then some ⟨L.left_child header, L.right_child header, word⟩ else none

theorem wordLength_eq (h : 0 ∉ word) (hn : n < 2 ^ 31) : Lookup1.wordLength n (word ++ 0 :: rest) =
    if n + word.length < 2 ^ 31 then some (n + word.length) else none := by
  induction word generalizing n with
  | nil => exact (if_pos hn).symm
  | cons b word ih =>
    rw [List.mem_cons, not_or] at h
    rw [List.cons_append, Lookup1.wordLength, if_neg (Ne.symm h.1), List.length_cons]
    by_cases hlt : n + 1 < 2 ^ 31
    · have hnext : n + 1 + word.length = n + (word.length + 1) := by omega
      rw [if_pos hlt, ih h.2 hlt, hnext]
    · rw [if_neg hlt, if_neg (by omega)]

/-- The memory at an index is what is ahead in the stream. -/
theorem wordLength_mapped {fd : Text} {start : Nat} :
    Lookup2.wordLength fd start n = Lookup1.wordLength n (fd.drop (start + n)) := by
  fun_induction Lookup2.wordLength fd start n with
  | case1 n h hb =>
    rw [List.drop_eq_getElem_cons h, Lookup1.wordLength, if_pos hb]
  | case2 n h hb hlt ih =>
    rw [List.drop_eq_getElem_cons h, Lookup1.wordLength, if_neg hb, if_pos hlt, ih]
    rfl
  | case3 n h hb hlt =>
    rw [List.drop_eq_getElem_cons h, Lookup1.wordLength, if_neg hb, if_neg hlt]
  | case4 n h =>
    rw [List.drop_of_length_le (Nat.le_of_not_lt h)]
    rfl

theorem lookup1_reads : Reads (Lookup1.readNode L file) L file := by
  intro offset header word rest hdrop hsize hword
  have hahead : file.drop (offset.toNat + L.size) = word ++ 0 :: rest := by
    rw [← List.drop_drop, hdrop, ← hsize, List.drop_left]
  have htake : (header ++ (word ++ 0 :: rest)).take (L.size + word.length) = header ++ word := by
    rw [← hsize, List.take_length_add_append, List.take_left]
  unfold Lookup1.readNode
  rw [hahead, wordLength_eq hword (by omega), Nat.zero_add, hdrop]
  split
  · rw [Option.map_some, htake, Layout.node, ← hsize, List.take_left, List.drop_left]
  · rfl

theorem lookup2_readNode {fd : Text} : Lookup2.readNode L fd = Lookup1.readNode L fd := by
  funext offset
  unfold Lookup2.readNode Lookup1.readNode
  rw [wordLength_mapped]
  rfl

/-- The zeros after a file add nothing to a node. -/
theorem lookup2_reads : Reads (Lookup2.readNode L (mapped page file)) L file := by
  intro offset header word rest hdrop hsize hword
  rw [lookup2_readNode]
  refine lookup1_reads offset header word (rest ++ List.replicate ((page - file.length % page) % page) 0) ?_ hsize hword
  have hle : offset.toNat ≤ file.length := by
    by_contra hlt
    rw [List.drop_of_length_le (by omega)] at hdrop
    simp at hdrop
  rw [mapped, List.drop_append_of_le_length hle, hdrop]
  simp

/-! ## The search -/

/-- A child is there when its offset is not zero. -/
theorem Encodes.nodes {tree : Tree} (h : Encodes L file offset tree) : tree.nodes ≠ [] ↔ offset ≠ 0 := by
  cases h with
  | leaf => simp [Tree.nodes]
  | node hne _ _ _ _ _ => simp [Tree.nodes, hne]

theorem Tree.path_nil {tree : Tree} (h : tree.nodes = []) : tree.path word = [] := by
  cases tree with
  | leaf => rfl
  | node _ _ _ _ => cases h

theorem Encodes.path {child : UInt32} {left right : Tree} (h : Encodes L file child left) :
    (Tree.node offset x left right).path word =
      x :: if strcmp word x = 0 then []
        else if strcmp word x < 0 ∧ child ≠ 0 then left.path word
        else right.path word := by
  simp only [Tree.path, h.nodes]

variable {readNode : UInt32 → Option Node} {tree : Tree}

theorem search_node {left right : UInt32} (hne : offset ≠ 0) (hnode : readNode offset = some ⟨left, right, x⟩) :
    search readNode word (fuel + 1) offset =
      if strcmp word x = 0 then some offset
      else if strcmp word x < 0 ∧ left ≠ 0 then search readNode word fuel left
      else if right ≠ 0 then search readNode word fuel right
      else some 0 := by
  rw [search, if_neg hne, hnode]
  rfl

/-- A search that ends has read words whose lengths are ints. -/
theorem search_path (hread : Reads readNode L file) (h : Encodes L file offset tree)
    (hs : search readNode word fuel offset = some r) : ∀ x ∈ tree.path word, x.length < 2 ^ 31 := by
  induction h generalizing fuel with
  | leaf => simp [Tree.path]
  | @node offset header x rest left right hne hdrop hsize hx hleft hright ihl ihr =>
    cases fuel with
    | zero => cases hs
    | succ fuel =>
      have hnode := hread offset header x rest hdrop hsize hx
      by_cases hshort : x.length < 2 ^ 31
      · rw [if_pos hshort] at hnode
        rw [search_node hne hnode] at hs
        rw [hleft.path, List.forall_mem_cons]
        refine ⟨hshort, ?_⟩
        split at hs
        · rename_i hcmp
          rw [if_pos hcmp]
          simp
        · rename_i hcmp
          rw [if_neg hcmp]
          split at hs
          · rename_i hturn
            rw [if_pos hturn]
            exact ihl hs
          · rename_i hturn
            rw [if_neg hturn]
            split at hs
            · exact ihr hs
            · rename_i hzero
              have hnone : right.nodes = [] := not_not.mp fun hn => hzero (hright.nodes.mp hn)
              rw [Tree.path_nil hnone]
              simp
      · rw [if_neg hshort] at hnode
        rw [search, if_neg hne, hnode] at hs
        cases hs

theorem Tree.Finds.of_left {left right : Tree} (h : left.Finds word r) (hx : x ≠ word)
    (hright : ∀ y ∈ right.nodes, y.2 ≠ word) : (Tree.node offset x left right).Finds word r := by
  rcases h with h | ⟨hr, h⟩
  · left
    simp [Tree.nodes, h]
  · right
    refine ⟨hr, ?_⟩
    rw [Tree.nodes, List.forall_mem_cons, List.forall_mem_append]
    exact ⟨hx, h, hright⟩

theorem Tree.Finds.of_right {left right : Tree} (h : right.Finds word r) (hx : x ≠ word)
    (hleft : ∀ y ∈ left.nodes, y.2 ≠ word) : (Tree.node offset x left right).Finds word r := by
  rcases h with h | ⟨hr, h⟩
  · left
    simp [Tree.nodes, h]
  · right
    refine ⟨hr, ?_⟩
    rw [Tree.nodes, List.forall_mem_cons, List.forall_mem_append]
    exact ⟨hx, hleft, h⟩

/-- The search finds the word, if it is there, also after a turn to the right where the
    word is smaller: nothing to the right is the word. -/
theorem search_finds (h : Encodes L file offset tree) (hord : tree.Ordered) (hword : 0 ∉ word)
    (hpath : ∀ x ∈ tree.path word, x.length < 2 ^ 31) : ∃ r, tree.Finds word r ∧ ∀ readNode, Reads readNode L file →
      ∀ fuel, tree.nodes.length < fuel → search readNode word fuel offset = some r := by
  induction h with
  | leaf =>
    refine ⟨0, Or.inr ⟨rfl, by simp [Tree.nodes]⟩, ?_⟩
    intro readNode _ fuel hfuel
    cases fuel with
    | zero => cases hfuel
    | succ fuel => rfl
  | @node offset header x rest left right hne hdrop hsize hx hleft hright ihl ihr =>
    rcases hord with ⟨hol, hor, hlt, hgt⟩
    rw [hleft.path, List.forall_mem_cons] at hpath
    rcases hpath with ⟨hshort, hpath⟩
    have hnode : ∀ {readNode}, Reads readNode L file →
        readNode offset = some ⟨L.left_child header, L.right_child header, x⟩ := by
      intro readNode hread
      rw [hread offset header x rest hdrop hsize hx, if_pos hshort]
    have hswap := strcmp_swap (s := x) (t := word)
    have hself := strcmp_self (s := word)
    have hnodes : (Tree.node offset x left right).nodes.length = left.nodes.length + right.nodes.length + 1 := by
      rw [Tree.nodes, List.length_cons, List.length_append]
    have hrun : ∀ {readNode} {r : UInt32}, (∀ fuel, left.nodes.length + right.nodes.length < fuel →
        search readNode word (fuel + 1) offset = some r) →
        ∀ fuel, (Tree.node offset x left right).nodes.length < fuel → search readNode word fuel offset = some r := by
      intro readNode r hr fuel hfuel
      cases fuel with
      | zero => cases hfuel
      | succ fuel => exact hr fuel (by omega)
    by_cases hcmp : strcmp word x = 0
    · have heq : word = x := (strcmp_eq_zero hword hx).mp hcmp
      refine ⟨offset, Or.inl (by simp [Tree.nodes, heq]), fun readNode hread => hrun fun fuel _ => ?_⟩
      rw [search_node hne (hnode hread), if_pos hcmp]
    have hxw : x ≠ word := fun e => hcmp (e ▸ strcmp_self)
    rw [if_neg hcmp] at hpath
    by_cases hturn : strcmp word x < 0 ∧ L.left_child header ≠ 0
    · rw [if_pos hturn] at hpath
      rcases ihl hol hpath with ⟨r, hr, hgo⟩
      refine ⟨r, hr.of_left hxw fun y hy e => ?_, fun readNode hread => hrun fun fuel hfuel => ?_⟩
      · have hy := hgt y hy
        rw [e] at hy
        omega
      · rw [search_node hne (hnode hread), if_neg hcmp, if_pos hturn]
        exact hgo readNode hread fuel (by omega)
    · rw [if_neg hturn] at hpath
      rcases ihr hor hpath with ⟨r, hr, hgo⟩
      refine ⟨r, hr.of_right hxw fun y hy e => ?_, fun readNode hread => hrun fun fuel hfuel => ?_⟩
      · have hchild : L.left_child header ≠ 0 := hleft.nodes.mp (List.ne_nil_of_mem hy)
        have hy := hlt y hy
        rw [e] at hy
        exact hturn ⟨hy, hchild⟩
      · rw [search_node hne (hnode hread), if_neg hcmp, if_neg hturn]
        by_cases hzero : L.right_child header ≠ 0
        · rw [if_pos hzero]
          exact hgo readNode hread fuel (by omega)
        · rw [if_neg hzero]
          have hend := hgo readNode hread (right.nodes.length + 1) (Nat.lt_succ_self _)
          rw [not_not.mp hzero, search, if_pos rfl] at hend
          exact hend

/-- Both programs return the offset of the node that has the word, or 0 if there is none,
    exactly when the lengths of the words on the way are ints. -/
theorem findWord_iff (h : Encodes L file L.root tree) (hord : tree.Ordered) (hword : 0 ∉ word) :
    (∃ r, tree.Finds word r ∧ Returns (Lookup1.findWord L file word) r ∧
      Returns (Lookup2.findWord L (mapped page file) word) r) ↔ ∀ x ∈ tree.path word, x.length < 2 ^ 31 := by
  constructor
  · intro ⟨r, _, ⟨n, hreturns⟩, _⟩
    exact search_path lookup1_reads h (hreturns n (Nat.le_refl n))
  · intro hpath
    rcases search_finds h hord hword hpath with ⟨r, hr, hgo⟩
    exact ⟨r, hr, ⟨_, hgo _ lookup1_reads⟩, ⟨_, hgo _ lookup2_reads⟩⟩

/-- Headers of two bytes, each the offset of a child, from offset 4. -/
def bytesLayout : Layout where
  size := 2
  left_child header := (header.headD 0).toUInt32
  right_child header := (header.tail.headD 0).toUInt32
  root := 4
  root_ne := by decide

/-- The node "b", at 4, has "c" at 8 to the right. "a" is smaller, but not there. -/
def twoWords : Text := [66, 84, 82, 69, 0, 8, 98, 0, 0, 0, 99, 0]

theorem twoWords_encodes : Encodes bytesLayout twoWords bytesLayout.root
    (.node 4 [98] .leaf (.node 8 [99] .leaf .leaf)) :=
  .node (by decide) (show twoWords.drop 4 = [0, 8] ++ ([98] ++ 0 :: [0, 0, 99, 0]) from rfl) rfl (by decide) .leaf
    (.node (by decide) (show twoWords.drop 8 = [0, 0] ++ ([99] ++ 0 :: []) from rfl) rfl (by decide) .leaf .leaf)

theorem findWord_wrong_turn : ∃ r, (Tree.node 4 [98] .leaf (.node 8 [99] .leaf .leaf)).Finds [97] r ∧
    Returns (Lookup1.findWord bytesLayout twoWords [97]) r ∧
      Returns (Lookup2.findWord bytesLayout (mapped 4096 twoWords) [97]) r := by
  refine (findWord_iff twoWords_encodes ?_ (by decide)).mpr (by decide)
  simp [Tree.Ordered, Tree.nodes, strcmp]

def oneWord (n : Nat) : Text := [66, 84, 82, 69] ++ ([0, 0] ++ (List.replicate n 97 ++ 0 :: []))

theorem oneWord_encodes (n : Nat) : Encodes bytesLayout (oneWord n) bytesLayout.root
    (.node 4 (List.replicate n 97) .leaf .leaf) := by
  have hdrop : (oneWord n).drop 4 = [0, 0] ++ (List.replicate n 97 ++ 0 :: []) := rfl
  refine .node (by decide) hdrop rfl ?_ .leaf .leaf
  intro h
  cases List.eq_of_mem_replicate h

theorem oneWord_ordered (n : Nat) : (Tree.node 4 (List.replicate n 97) .leaf .leaf).Ordered :=
  ⟨trivial, trivial, fun _ h => absurd h List.not_mem_nil, fun _ h => absurd h List.not_mem_nil⟩

theorem long_word : ∃ (file : Text) (tree : Tree), Encodes bytesLayout file bytesLayout.root tree ∧ tree.Ordered ∧
    ¬ ∃ r, tree.Finds [97] r ∧ Returns (Lookup1.findWord bytesLayout file [97]) r ∧
      Returns (Lookup2.findWord bytesLayout (mapped 4096 file) [97]) r := by
  have hlong : ∀ n, n = 2 ^ 31 → ∀ r, ¬ Returns (Lookup1.findWord bytesLayout (oneWord n) [97]) r := by
    intro n hn r ⟨fuel, hreturns⟩
    have hpath := search_path lookup1_reads (oneWord_encodes n) (hreturns fuel (Nat.le_refl fuel))
    have hlen := hpath (List.replicate n 97) List.mem_cons_self
    rw [List.length_replicate] at hlen
    omega
  refine ⟨oneWord (2 ^ 31), _, oneWord_encodes _, oneWord_ordered _, ?_⟩
  intro ⟨r, _, hreturns, _⟩
  exact hlong _ rfl r hreturns

end SysProg.MadMadAccessPatterns
