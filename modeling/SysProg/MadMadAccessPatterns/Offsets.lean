/-
  SysProg.MadMadAccessPatterns.Offsets — where readNode reads a node, on any file (see
  `SysProg.MadMadAccessPatterns.Search`).

  Nothing in a file is checked but its first four bytes. An offset may lead past the end,
  where lookup1 reads EOF for ever and lookup2 leaves the mapping; and a word may end only
  in the zeros after the file, which lookup2 takes for its terminator. `readNode` returns,
  reading bytes of the file only, exactly at a whole node (`lookup1_nodeAt`,
  `lookup2_nodeAt`).
-/

import SysProg.MadMadAccessPatterns.Search

namespace SysProg.MadMadAccessPatterns

namespace Lookup2

def scanned (fd : Text) (start n : Nat) : List Nat :=
  if h : start + n < fd.length then
    (start + n) :: if fd[start + n] = 0 then [] else if n + 1 < 2 ^ 31 then scanned fd start (n + 1) else []
  else [start + n]
termination_by fd.length - (start + n)

variable (L : Layout)

def reads (fd : Text) (offset : UInt32) : List Nat :=
  scanned fd (offset.toNat + L.size) 0 ++ match wordLength fd (offset.toNat + L.size) 0 with
    | some n => (List.range (L.size + n)).map (offset.toNat + ·)
    | none => []

end Lookup2

/-- A header, and a word with its terminator whose length is an int. -/
structure NodeAt (L : Layout) (file : Text) (offset : UInt32) (header word : Text) : Prop where
  offset_ne : offset ≠ 0
  bytes : ∃ rest, file.drop offset.toNat = header ++ (word ++ 0 :: rest)
  size : header.length = L.size
  terminated : 0 ∉ word
  short : word.length < 2 ^ 31

variable {L : Layout} {file header word x rest : Text} {offset : UInt32} {page n m : Nat}

/-! ## Where nodes are read -/

/-- A word is counted to its end if it has one and its length is an int. -/
theorem wordLength_some {ahead : Text} (h : Lookup1.wordLength n ahead = some m) (hn : n < 2 ^ 31) :
    ∃ word rest, ahead = word ++ 0 :: rest ∧ 0 ∉ word ∧ m = n + word.length ∧ m < 2 ^ 31 := by
  induction ahead generalizing n with
  | nil => cases h
  | cons b ahead ih =>
    unfold Lookup1.wordLength at h
    split at h
    · rename_i hb
      cases h
      exact ⟨[], ahead, congrArg (· :: ahead) hb, List.not_mem_nil, rfl, hn⟩
    · rename_i hb
      split at h
      · rename_i hlt
        obtain ⟨word, rest, hahead, h0, hm, hshort⟩ := ih h hlt
        refine ⟨b :: word, rest, by rw [hahead]; rfl, ?_, ?_, hshort⟩
        · rw [List.mem_cons, not_or]
          exact ⟨Ne.symm hb, h0⟩
        · rw [hm, List.length_cons]
          omega
      · cases h

/-- A whole node, from the word that its length was counted of. -/
theorem nodeAt_of_ahead (hne : offset ≠ 0) (hahead : file.drop (offset.toNat + L.size) = word ++ 0 :: rest)
    (h0 : 0 ∉ word) (hshort : word.length < 2 ^ 31) :
    NodeAt L file offset ((file.drop offset.toNat).take L.size) word where
  offset_ne := hne
  bytes := ⟨rest, by rw [← hahead, ← List.drop_drop, List.take_append_drop]⟩
  size := by
    have hlen := congrArg List.length hahead
    simp only [List.length_drop, List.length_append, List.length_cons] at hlen
    rw [List.length_take, List.length_drop]
    omega
  terminated := h0
  short := hshort

theorem lookup1_nodeAt (hne : offset ≠ 0) :
    (Lookup1.readNode L file offset).isSome = true ↔ ∃ header x, NodeAt L file offset header x := by
  constructor
  · intro h
    rw [Lookup1.readNode, Option.isSome_map] at h
    obtain ⟨m, hm⟩ := Option.isSome_iff_exists.mp h
    obtain ⟨word, rest, hahead, h0, hlen, hshort⟩ := wordLength_some hm (by omega)
    exact ⟨_, word, nodeAt_of_ahead hne hahead h0 (by omega)⟩
  · intro ⟨header, x, hnode⟩
    obtain ⟨rest, hbytes⟩ := hnode.bytes
    rw [lookup1_reads offset header x rest hbytes hnode.size hnode.terminated, if_pos hnode.short]
    rfl

/-! ## What lookup2 reads -/

theorem drop_eq_cons {fd l : Text} {b : UInt8} (h : fd.drop n = b :: l) :
    ∃ hn : n < fd.length, fd[n] = b ∧ fd.drop (n + 1) = l := by
  have hlen := congrArg List.length h
  rw [List.length_drop, List.length_cons] at hlen
  have hn : n < fd.length := by omega
  rw [List.drop_eq_getElem_cons hn, List.cons.injEq] at h
  exact ⟨hn, h⟩

/-- The loop looks at a word and at its terminator. -/
theorem mem_scanned {fd : Text} {start i : Nat} (h : fd.drop (start + n) = word ++ 0 :: rest) (h0 : 0 ∉ word)
    (hn : n + word.length < 2 ^ 31) :
    i ∈ Lookup2.scanned fd start n ↔ start + n ≤ i ∧ i ≤ start + n + word.length := by
  induction word generalizing n with
  | nil =>
    obtain ⟨hin, hb, _⟩ := drop_eq_cons h
    rw [Lookup2.scanned, dif_pos hin, if_pos hb, List.mem_singleton, List.length_nil]
    omega
  | cons b word ih =>
    obtain ⟨hin, hb, hrest⟩ := drop_eq_cons h
    rw [List.mem_cons, not_or] at h0
    rw [List.length_cons] at hn ⊢
    rw [Lookup2.scanned, dif_pos hin, hb, if_neg (Ne.symm h0.1), if_pos (by omega), List.mem_cons,
      ih hrest h0.2 (by omega)]
    omega

theorem mapped_drop (h : n ≤ file.length) :
    (mapped page file).drop n = file.drop n ++ List.replicate ((page - file.length % page) % page) 0 :=
  List.drop_append_of_le_length h

/-- What `readNode` of lookup2 reads is in the file exactly when the word ends in it. -/
theorem reads_inside_iff (hahead : (mapped page file).drop (offset.toNat + L.size) = word ++ 0 :: rest) (h0 : 0 ∉ word)
    (hshort : word.length < 2 ^ 31) : (∀ i ∈ Lookup2.reads L (mapped page file) offset, i < file.length) ↔
      offset.toNat + L.size + word.length < file.length := by
  have hlength : Lookup2.wordLength (mapped page file) (offset.toNat + L.size) 0 = some word.length := by
    rw [wordLength_mapped, Nat.add_zero, hahead, wordLength_eq h0 (by omega), Nat.zero_add, if_pos hshort]
  have hscan : ∀ i, i ∈ Lookup2.scanned (mapped page file) (offset.toNat + L.size) 0 ↔
      offset.toNat + L.size ≤ i ∧ i ≤ offset.toNat + L.size + word.length :=
    fun i => mem_scanned hahead h0 (by omega)
  unfold Lookup2.reads
  rw [hlength, List.forall_mem_append]
  constructor
  · intro ⟨h, _⟩
    exact h _ ((hscan _).mpr ⟨by omega, by omega⟩)
  · intro h
    refine ⟨?_, ?_⟩
    · intro i hi
      have hle := ((hscan i).mp hi).2
      omega
    · intro i hi
      obtain ⟨k, hk, rfl⟩ := List.mem_map.mp hi
      have hlt := List.mem_range.mp hk
      omega

/-- Zeros after a file change nothing up to a place inside it. -/
theorem ahead_inside (hahead : (mapped page file).drop n = word ++ 0 :: rest) (hin : n + word.length < file.length) :
    ∃ rest', file.drop n = word ++ 0 :: rest' := by
  rw [mapped_drop (by omega)] at hahead
  have htake := congrArg (List.take (word.length + 1)) hahead
  rw [List.take_append_of_le_length (by rw [List.length_drop]; omega), List.take_length_add_append] at htake
  refine ⟨(file.drop n).drop (word.length + 1), ?_⟩
  conv_lhs => rw [← List.take_append_drop (word.length + 1) (file.drop n), htake]
  simp

theorem lookup2_nodeAt (hne : offset ≠ 0) :
    (Lookup2.readNode L (mapped page file) offset).isSome = true ∧
      (∀ i ∈ Lookup2.reads L (mapped page file) offset, i < file.length) ↔
    ∃ header x, NodeAt L file offset header x := by
  constructor
  · intro ⟨h, hin⟩
    rw [lookup2_readNode, Lookup1.readNode, Option.isSome_map] at h
    obtain ⟨m, hm⟩ := Option.isSome_iff_exists.mp h
    obtain ⟨word, rest, hahead, h0, hlen, hshort⟩ := wordLength_some hm (by omega)
    rw [reads_inside_iff hahead h0 (by omega)] at hin
    obtain ⟨rest', hfile⟩ := ahead_inside hahead hin
    exact ⟨_, word, nodeAt_of_ahead hne hfile h0 (by omega)⟩
  · intro ⟨header, x, hnode⟩
    obtain ⟨rest, hbytes⟩ := hnode.bytes
    have hfile : file.drop (offset.toNat + L.size) = x ++ 0 :: rest := by
      rw [← List.drop_drop, hbytes, ← hnode.size, List.drop_left]
    have hlen := congrArg List.length hfile
    simp only [List.length_drop, List.length_append, List.length_cons] at hlen
    have hahead : (mapped page file).drop (offset.toNat + L.size) =
        x ++ 0 :: (rest ++ List.replicate ((page - file.length % page) % page) 0) := by
      rw [mapped_drop (by omega), hfile, List.append_assoc]
      rfl
    refine ⟨?_, (reads_inside_iff hahead hnode.terminated hnode.short).mpr (by omega)⟩
    rw [lookup2_reads offset header x rest hbytes hnode.size hnode.terminated, if_pos hnode.short]
    rfl

end SysProg.MadMadAccessPatterns
