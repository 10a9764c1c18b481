/-
  SysProg.MadMadAccessPatterns.Block — the block readNode returns (see
  `SysProg.MadMadAccessPatterns.Offsets`).

  `readNode` counts the bytes of the word up to its terminator, asks malloc for the header
  and so many bytes, and copies as many: the terminator has no place in the block
  (`block_eq`). Apart from that the block is the node (`block_node`).
  - `word_unterminated`: the word of a block is no string in it, whatever the file and the
    heap hold.
-/

import SysProg.Lib.CString
import SysProg.MadMadAccessPatterns.Offsets

namespace SysProg.MadMadAccessPatterns

open SysProg.CString (cstr cstr_eq_some put malloc malloc_length)

variable (L : Layout)

/-- `malloc(sizeof(BinaryTreeNode) + wordLength)` and the copy into it; `fill` is what the
    new block holds. -/
def filled (fill : Nat → UInt8) (bytes : Text) (n : Nat) : Option Text := put (malloc (L.size + n) fill) 0 bytes

/-- `fread` fills as much as there is. -/
def Lookup1.block (fill : Nat → UInt8) (fd : Text) (offset : UInt32) : Option Text :=
  (wordLength 0 (fd.drop (offset.toNat + L.size))).bind fun n =>
    filled L fill ((fd.drop offset.toNat).take (L.size + n)) n

/-- `memcpy` does not end at the end of the mapping. -/
def Lookup2.block (fill : Nat → UInt8) (fd : Text) (offset : UInt32) : Option Text :=
  (wordLength fd (offset.toNat + L.size) 0).bind fun n =>
    if offset.toNat + (L.size + n) ≤ fd.length then filled L fill ((fd.drop offset.toNat).take (L.size + n)) n else none

/-- `node->word` -/
def wordOf (block : Text) : Option Text := cstr (block.drop L.size)

variable {L} {file header word rest b : Text} {offset : UInt32} {page n : Nat} {fill : Nat → UInt8}

theorem filled_eq {bytes : Text} (h : bytes.length = L.size + n) : filled L fill bytes n = some bytes := by
  have hlen : (malloc (L.size + n) fill).length = L.size + n := malloc_length
  rw [filled, put, Nat.zero_add, hlen, h, if_pos (Nat.le_refl _), List.take_zero, List.nil_append,
    List.drop_of_length_le (Nat.le_of_eq hlen), List.append_nil]

/-- Where a length was counted the bytes to copy are all there. -/
theorem counted_inside {fd : Text} (h : Lookup1.wordLength 0 (fd.drop (offset.toNat + L.size)) = some n) :
    offset.toNat + (L.size + n) ≤ fd.length := by
  obtain ⟨word, rest, hahead, _, hlen, _⟩ := wordLength_some h (by omega)
  have hlength := congrArg List.length hahead
  simp only [List.length_drop, List.length_append, List.length_cons] at hlength
  omega

theorem lookup1_block {fd : Text} : Lookup1.block L fill fd offset =
    (Lookup1.wordLength 0 (fd.drop (offset.toNat + L.size))).map fun n => (fd.drop offset.toNat).take (L.size + n) := by
  unfold Lookup1.block
  cases hcount : Lookup1.wordLength 0 (fd.drop (offset.toNat + L.size)) with
  | none => rfl
  | some n =>
    have hin := counted_inside hcount
    rw [Option.bind_some, Option.map_some, filled_eq]
    rw [List.length_take, List.length_drop]
    omega

theorem lookup2_block {fd : Text} : Lookup2.block L fill fd offset = Lookup1.block L fill fd offset := by
  unfold Lookup2.block Lookup1.block
  rw [wordLength_mapped, Nat.add_zero]
  cases hcount : Lookup1.wordLength 0 (fd.drop (offset.toNat + L.size)) with
  | none => rfl
  | some n => rw [Option.bind_some, Option.bind_some, if_pos (counted_inside hcount)]

/-- The block is the node. -/
theorem block_node (fill : Nat → UInt8) {fd : Text} :
    (Lookup1.block L fill fd offset).map L.node = Lookup1.readNode L fd offset := by
  rw [lookup1_block, Option.map_map]
  rfl

/-- The block has the header and the word, and nothing after the word. -/
theorem block_eq (hbytes : file.drop offset.toNat = header ++ (word ++ 0 :: rest)) (hsize : header.length = L.size)
    (hword : 0 ∉ word) :
    Lookup1.block L fill file offset = if word.length < 2 ^ 31 then some (header ++ word) else none := by
  have hahead : file.drop (offset.toNat + L.size) = word ++ 0 :: rest := by
    rw [← List.drop_drop, hbytes, ← hsize, List.drop_left]
  rw [lookup1_block, hahead, wordLength_eq hword (by omega), Nat.zero_add, hbytes]
  split
  · rw [Option.map_some, ← hsize, List.take_length_add_append, List.take_left]
  · rfl

theorem cstr_none {l : Text} (h : 0 ∉ l) : cstr l = none := by
  by_contra hne
  obtain ⟨s, hs⟩ := Option.ne_none_iff_exists'.mp hne
  obtain ⟨rest, rfl, _⟩ := cstr_eq_some.mp hs
  exact h (by simp)

theorem wordOf_block (hbytes : file.drop offset.toNat = header ++ (word ++ 0 :: rest)) (hsize : header.length = L.size)
    (hword : 0 ∉ word) (hb : Lookup1.block L fill file offset = some b) : wordOf L b = none := by
  rw [block_eq hbytes hsize hword] at hb
  split at hb
  · cases hb
    rw [wordOf, ← hsize, List.drop_left]
    exact cstr_none hword
  · cases hb

/-- A node of a file: its word is not the string at `node->word`, for either program. -/
theorem word_unterminated (hbytes : file.drop offset.toNat = header ++ (word ++ 0 :: rest))
    (hsize : header.length = L.size) (hword : 0 ∉ word) (fill : Nat → UInt8) (page : Nat) :
    (¬ ∃ b, Lookup1.block L fill file offset = some b ∧ wordOf L b = some word) ∧
      ¬ ∃ b, Lookup2.block L fill (mapped page file) offset = some b ∧ wordOf L b = some word := by
  have hle : offset.toNat ≤ file.length := by
    by_contra hlt
    rw [List.drop_of_length_le (by omega)] at hbytes
    simp at hbytes
  refine ⟨?_, ?_⟩
  · intro ⟨b, hb, hw⟩
    rw [wordOf_block hbytes hsize hword hb] at hw
    cases hw
  · intro ⟨b, hb, hw⟩
    have hmapped : (mapped page file).drop offset.toNat =
        header ++ (word ++ 0 :: (rest ++ List.replicate ((page - file.length % page) % page) 0)) := by
      rw [mapped_drop hle, hbytes]
      simp
    rw [lookup2_block] at hb
    rw [wordOf_block hmapped hsize hword hb] at hw
    cases hw

/-- The node "b" at 4. -/
theorem word_unterminated_b :
    (¬ ∃ b, Lookup1.block bytesLayout (fun _ => 0) twoWords 4 = some b ∧ wordOf bytesLayout b = some [98]) ∧
      ¬ ∃ b, Lookup2.block bytesLayout (fun _ => 0) (mapped 4096 twoWords) 4 = some b ∧
        wordOf bytesLayout b = some [98] := by
  have hbytes : twoWords.drop (4 : UInt32).toNat = [0, 8] ++ ([98] ++ 0 :: [0, 0, 99, 0]) := rfl
  exact word_unterminated hbytes rfl (by decide) (fun _ => 0) 4096

/-- Its block ends with the letter. -/
theorem block_without_terminator :
    Lookup1.block bytesLayout (fun _ => 0) twoWords 4 = some [0, 8, 98] ∧ wordOf bytesLayout [0, 8, 98] = none := by
  decide

end SysProg.MadMadAccessPatterns
