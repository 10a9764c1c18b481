/-
  SysProg.Vector.SstringPieces — what `sstring_split` and `sstring_substitute` return
  (see `SysProg.Vector.Sstring`, `SysProg.Vector.SstringValues`).

  `sstring_split` walks the string and writes a NUL over each delimiter, so that the piece
  before it is a string of its own; at the end a flag (the last byte was a delimiter) and a
  comparison of pointers decide about the last piece. Only a string without a byte takes
  the exit with neither.
  - `split_pieces`: NULL exactly when there is no memory for the vector, and else the
    pieces have no delimiter, joined they are the string, and there is one more than it
    has delimiters; none for the empty string.
  - `substitute_first`: the first occurrence at or after the offset is replaced, and what
    is not found changes nothing. Every copy fits into the block: a write outside one has
    no result.
-/

import SysProg.Vector.SstringValues

namespace SysProg.Sstrings

open SysProg.CString (Text CStr cstr put strcpy strncpy strstr malloc cstr_append cstr_eq_some cstr_drop put_append
  malloc_length)

variable {x : Sstring} {v : Text} {delimiter : UInt8}

/-! ## Lists cut at an element -/

theorem mem_splitOn {p : Text} (h : p ∈ v.splitOn delimiter) : delimiter ∉ p := by
  induction v generalizing p with
  | nil =>
    rw [List.splitOn_nil, List.mem_singleton] at h
    rw [h]
    exact List.not_mem_nil
  | cons b v ih =>
    rw [List.splitOn_cons_eq_if_modifyHead] at h
    split at h
    · rcases List.mem_cons.mp h with rfl | h
      · exact List.not_mem_nil
      · exact ih h
    · rename_i hb
      obtain ⟨q, l, hq⟩ := List.exists_cons_of_ne_nil (List.splitOn_ne_nil delimiter v)
      rw [hq] at h ih
      rcases List.mem_cons.mp h with rfl | h
      · have hbd : delimiter ≠ b := fun e => hb (beq_iff_eq.mpr e.symm)
        rw [List.mem_cons, not_or]
        exact ⟨hbd, ih List.mem_cons_self⟩
      · exact ih (List.mem_cons_of_mem _ h)

theorem length_splitOn : (v.splitOn delimiter).length = v.count delimiter + 1 := by
  induction v with
  | nil => simp
  | cons b v ih =>
    rw [List.splitOn_cons_eq_if_modifyHead, List.count_cons]
    split
    · rw [List.length_cons, ih]
    · rw [List.length_modifyHead, ih]

/-! ## The loop of `sstring_split` -/

/-- What `end` points at, with `before` in front of the current piece. -/
theorem getElem?_piece (before piece rest : Text) :
    (before ++ (piece ++ rest))[before.length + piece.length]? = rest[0]? := by
  rw [List.getElem?_append_right (by omega), List.getElem?_append_right (by omega)]
  congr 1
  omega

/-- At the terminator the last piece is taken, unless nothing came after the start of the string. -/
theorem splitLoop_end {fuel : Nat} {tail : Text} (before piece : Text) (f : Bool) (v : List Text) (hpiece : 0 ∉ piece) :
    splitLoop delimiter (fuel + 1) (before ++ (piece ++ 0 :: tail)) before.length (before.length + piece.length) f v =
      some (before ++ (piece ++ 0 :: tail), v ++ if f = false ∧ piece = [] then [] else [piece]) := by
  unfold splitLoop
  rw [getElem?_piece, List.getElem?_cons_zero, Option.bind_some, if_pos rfl]
  by_cases hlast : f = false ∧ piece = []
  · obtain ⟨rfl, rfl⟩ := hlast
    rw [if_neg (by simp), if_pos ⟨rfl, rfl⟩, List.append_nil]
  · have hpush : f = true ∨ before.length ≠ before.length + piece.length := by
      rcases Bool.eq_false_or_eq_true f with hf | hf
      · exact Or.inl hf
      · have := List.length_pos_iff.mpr fun hp => hlast ⟨hf, hp⟩
        omega
    rw [if_pos hpush, if_neg hlast, List.drop_left, cstr_append hpiece]
    rfl

/-- The delimiter is overwritten, and the piece is a string. -/
theorem splitLoop_cut {fuel : Nat} {rest : Text} (before piece : Text) (f : Bool) (v : List Text) (hpiece : 0 ∉ piece)
    (hd : delimiter ≠ 0) :
    splitLoop delimiter (fuel + 1) (before ++ (piece ++ delimiter :: rest)) before.length
        (before.length + piece.length) f v =
      splitLoop delimiter fuel ((before ++ (piece ++ [0])) ++ ([] ++ rest)) (before ++ (piece ++ [0])).length
        ((before ++ (piece ++ [0])).length + ([] : Text).length) true (v ++ [piece]) := by
  have hone : [(0 : UInt8)].length ≤ (delimiter :: rest).length := by simp
  have hput := put_append (before ++ piece) hone
  rw [List.length_append, List.append_assoc] at hput
  have hstr : cstr (piece ++ ([0] ++ rest)) = some piece := cstr_append hpiece
  have hlen : (before ++ (piece ++ [0])).length = before.length + piece.length + 1 := by simp; omega
  conv_lhs => unfold splitLoop
  rw [getElem?_piece, List.getElem?_cons_zero, Option.bind_some, if_neg hd, if_pos rfl, hput, Option.bind_some, hlen]
  simp only [List.length_singleton, List.drop_succ_cons, List.drop_zero, List.append_assoc, List.drop_left, hstr,
    Option.bind_some, List.nil_append, List.length_nil, Nat.add_zero]

theorem splitLoop_skip {fuel : Nat} {b : UInt8} {rest : Text} (before piece : Text) (f : Bool) (v : List Text)
    (hb : b ≠ 0) (hd : b ≠ delimiter) :
    splitLoop delimiter (fuel + 1) (before ++ (piece ++ b :: rest)) before.length (before.length + piece.length) f v =
      splitLoop delimiter fuel (before ++ ((piece ++ [b]) ++ rest)) before.length
        (before.length + (piece ++ [b]).length) false v := by
  conv_lhs => unfold splitLoop
  rw [getElem?_piece, List.getElem?_cons_zero, Option.bind_some, if_neg hb, if_neg hd, List.append_assoc,
    List.length_append, List.length_singleton]
  rfl

/-- From a place with `piece` read of the current piece and `rest` to come. -/
theorem splitLoop_pieces {fuel : Nat} {rest tail : Text} (before piece : Text) (f : Bool) (v : List Text)
    (hpiece : 0 ∉ piece) (hrest : 0 ∉ rest) (hfuel : rest.length < fuel) :
    ∃ l, splitLoop delimiter fuel (before ++ (piece ++ (rest ++ 0 :: tail))) before.length
        (before.length + piece.length) f v =
      some (l, v ++ if rest = [] ∧ f = false ∧ piece = [] then []
        else List.splitOnPPrepend (· == delimiter) rest piece.reverse) := by
  induction fuel generalizing before piece rest f v with
  | zero => omega
  | succ fuel ih =>
    cases rest with
    | nil =>
      refine ⟨before ++ (piece ++ 0 :: tail), ?_⟩
      rw [List.nil_append, splitLoop_end before piece f v hpiece]
      simp
    | cons b rest =>
      rw [List.mem_cons, not_or] at hrest
      rw [List.length_cons] at hfuel
      rw [if_neg (by simp), List.cons_append]
      by_cases hbd : b = delimiter
      · subst hbd
        obtain ⟨l, hl⟩ := ih (before ++ (piece ++ [0])) [] true (v ++ [piece]) List.not_mem_nil hrest.2 (by omega)
        refine ⟨l, ?_⟩
        rw [splitLoop_cut before piece f v hpiece (Ne.symm hrest.1), hl]
        simp [List.splitOnPPrepend]
      · have hpiece' : 0 ∉ piece ++ [b] := by
          rw [List.mem_append, not_or]
          exact ⟨hpiece, by simpa using hrest.1⟩
        obtain ⟨l, hl⟩ := ih before (piece ++ [b]) false v hpiece' hrest.2 (by omega)
        refine ⟨l, ?_⟩
        rw [splitLoop_skip before piece f v (Ne.symm hrest.1) hbd, hl, if_neg (by simp)]
        simp [List.splitOnPPrepend, hbd]

/-- The pieces are the string cut at the delimiter, or none. -/
theorem sstringSplit_pieces (h : cstr x.str = some v) :
    ∃ y, sstringSplit x delimiter true = some (y, some (if v = [] then [] else v.splitOn delimiter)) := by
  obtain ⟨tail, hstr, h0⟩ := cstr_eq_some.mp h
  have hfuel : v.length < x.str.length + 1 := by
    rw [hstr, List.length_append]
    omega
  obtain ⟨l, hl⟩ : ∃ l, splitLoop delimiter (x.str.length + 1) ([] ++ ([] ++ (v ++ 0 :: tail))) 0 0 false [] = _ :=
    splitLoop_pieces [] [] false [] List.not_mem_nil h0 hfuel
  simp only [List.nil_append, ← hstr, and_true] at hl
  refine ⟨{ x with str := l }, ?_⟩
  simp only [sstringSplit, Bool.true_eq_false, if_false, hl]
  rfl

def PiecesOf (v : Text) (delimiter : UInt8) (pieces : List Text) : Prop :=
  (∀ p ∈ pieces, delimiter ∉ p) ∧ [delimiter].intercalate pieces = v ∧
    (v ≠ [] → pieces.length = v.count delimiter + 1) ∧ (v = [] → pieces = [])

/-- For a string and a delimiter. -/
theorem split_pieces (h : cstr x.str = some v) (delimiter : UInt8) (ok : Bool) :
    ∃ y r, sstringSplit x delimiter ok = some (y, r) ∧ (∀ pieces, r = some pieces → PiecesOf v delimiter pieces) ∧
      (r = none → y = x) ∧ (r = none ↔ ok = false) := by
  cases ok with
  | false =>
    refine ⟨x, none, rfl, ?_, fun _ => rfl, fun _ => rfl, fun _ => rfl⟩
    intro pieces hp
    cases hp
  | true =>
    obtain ⟨y, hy⟩ : ∃ y, sstringSplit x delimiter true = some (y, _) := sstringSplit_pieces h
    refine ⟨y, _, hy, ?_, ?_, ?_⟩
    · intro pieces hp
      cases hp
      by_cases hv : v = []
      · subst hv
        exact ⟨fun p hp => absurd hp List.not_mem_nil, rfl, fun hne => absurd rfl hne, fun _ => rfl⟩
      · rw [if_neg hv]
        exact ⟨fun p hp => mem_splitOn hp, List.intercalate_splitOn delimiter, fun _ => length_splitOn,
          fun he => absurd he hv⟩
    · intro hr
      cases hr
    · constructor
      · intro hr
        cases hr
      · intro hok
        cases hok

/-- ",a,," has three delimiters and four pieces. -/
theorem split_pieces_commas :
    ∃ y, sstringSplit ⟨[44, 97, 44, 44, 0], 4⟩ 44 true = some (y, some [[], [97], [], []]) ∧
      PiecesOf [44, 97, 44, 44] 44 [[], [97], [], []] := by
  have h : cstr (Sstring.mk [44, 97, 44, 44, 0] 4).str = some [44, 97, 44, 44] := rfl
  obtain ⟨y, r, hrun, hpieces, -⟩ := split_pieces h 44 true
  have hval : (sstringSplit ⟨[44, 97, 44, 44, 0], 4⟩ 44 true).map Prod.snd = some (some [[], [97], [], []]) := rfl
  rw [hrun] at hval
  cases hval
  exact ⟨y, hrun, hpieces _ rfl⟩

/-- "a,b" without memory for the vector: NULL is returned, and not two pieces. -/
theorem split_without_memory :
    sstringSplit ⟨[97, 44, 98, 0], 3⟩ 44 false = some (⟨[97, 44, 98, 0], 3⟩, none) ∧
      ¬ ∃ y pieces, sstringSplit ⟨[97, 44, 98, 0], 3⟩ 44 false = some (y, some pieces) ∧
        PiecesOf [97, 44, 98] 44 pieces := by
  refine ⟨rfl, ?_⟩
  intro ⟨y, pieces, h, _⟩
  cases h

/-! ## Where a string occurs -/

def OccursAt (target v : Text) (i : Nat) : Prop := i ≤ v.length ∧ target <+: v.drop i

def FirstAt (target v : Text) (offset i : Nat) : Prop :=
  offset ≤ i ∧ OccursAt target v i ∧ ∀ j, offset ≤ j → j < i → ¬ OccursAt target v j

theorem strstr_some {target : Text} {i : Nat} (h : strstr target v = some i) :
    OccursAt target v i ∧ ∀ j, j < i → ¬ OccursAt target v j := by
  induction v generalizing i with
  | nil =>
    unfold strstr at h
    split at h
    · rename_i ht
      cases h
      exact ⟨⟨Nat.le_refl _, by rw [ht]; exact List.nil_prefix⟩, fun j hj => absurd hj (Nat.not_lt_zero j)⟩
    · cases h
  | cons b v ih =>
    unfold strstr at h
    split at h
    · rename_i hp
      cases h
      exact ⟨⟨Nat.zero_le _, List.isPrefixOf_iff_prefix.mp hp⟩, fun j hj => absurd hj (Nat.not_lt_zero j)⟩
    · rename_i hp
      obtain ⟨k, hk, rfl⟩ := Option.map_eq_some_iff.mp h
      obtain ⟨⟨hle, hpre⟩, hfirst⟩ := ih hk
      refine ⟨⟨Nat.succ_le_succ hle, hpre⟩, fun j hj hocc => ?_⟩
      cases j with
      | zero => exact hp (List.isPrefixOf_iff_prefix.mpr hocc.2)
      | succ j => exact hfirst j (Nat.lt_of_succ_lt_succ hj) ⟨Nat.le_of_succ_le_succ hocc.1, hocc.2⟩

theorem strstr_none {target : Text} (h : strstr target v = none) (i : Nat) : ¬ OccursAt target v i := by
  induction v generalizing i with
  | nil =>
    unfold strstr at h
    split at h
    · cases h
    · rename_i ht
      intro hocc
      have hpre := hocc.2
      rw [List.drop_nil, List.prefix_nil] at hpre
      exact ht hpre
  | cons b v ih =>
    unfold strstr at h
    split at h
    · cases h
    · rename_i hp
      intro hocc
      cases i with
      | zero => exact hp (List.isPrefixOf_iff_prefix.mpr hocc.2)
      | succ i => exact ih (Option.map_eq_none_iff.mp h) i ⟨Nat.le_of_succ_le_succ hocc.1, hocc.2⟩

theorem occursAt_drop {target : Text} {offset i : Nat} (hoff : offset ≤ v.length) :
    OccursAt target (v.drop offset) i ↔ OccursAt target v (offset + i) := by
  unfold OccursAt
  rw [List.drop_drop, List.length_drop]
  constructor
  · intro ⟨hle, hp⟩
    exact ⟨by omega, hp⟩
  · intro ⟨hle, hp⟩
    exact ⟨by omega, hp⟩

/-! ## A string replaced -/

theorem put_length {l l' bytes : Text} {i : Nat} (h : put l i bytes = some l') : l'.length = l.length := by
  unfold put at h
  split at h
  · cases h
    simp only [List.length_append, List.length_take, List.length_drop]
    omega
  · cases h

theorem strcpy_length {l l' src : Text} {i : Nat} (h : strcpy l i src = some l') : l'.length = l.length := by
  obtain ⟨s, -, hput⟩ := Option.bind_eq_some_iff.mp h
  exact put_length hput

theorem strncpy_length {l l' src : Text} {i n : Nat} (h : strncpy l i src n = some l') : l'.length = l.length := by
  obtain ⟨s, -, hput⟩ := Option.bind_eq_some_iff.mp h
  exact put_length hput

variable {offset : Nat}

/-- An occurrence is found and there is a block for the new string. -/
theorem sstringSubstitute_found {i : Nat} (fill : Nat → UInt8) (target u : CStr) (hx : Holds x v)
    (hoff : offset ≤ v.length) (hs : strstr target.1 (v.drop offset) = some i) :
    ∃ z, sstringSubstitute x offset target u true fill = some (z, 0) ∧
      Holds z (v.take (offset + i) ++ (u.1 ++ v.drop (offset + i + target.1.length))) ∧ z.str.length = z.size + 1 := by
  have hb := strstr_bound hs
  rw [List.length_drop] at hb
  have hn : x.size - target.1.length + u.1.length = v.length - target.1.length + u.1.length := by rw [hx.2]
  have hpos : offset + i + target.1.length ≤ v.length := by omega
  obtain ⟨a, b, c, h1, h2, h3, hc⟩ := substitute_copies fill target.1 u hx hpos hn
  refine ⟨⟨c, x.size - target.1.length + u.1.length⟩, ?_, ⟨hc, ?_⟩, ?_⟩
  · unfold sstringSubstitute
    rw [cstr_drop hx.1 hoff, Option.bind_some, hs]
    simp only [Bool.true_eq_false, if_false, h1, h2, h3, Option.bind_some, Option.map_some]
  · show x.size - target.1.length + u.1.length = _
    rw [List.length_append, List.length_append, List.length_drop, List.length_take, hx.2]
    omega
  · show c.length = _
    rw [strcpy_length h3, strcpy_length h2, strncpy_length h1, malloc_length]

/-- The first occurrence at or after the offset is replaced; when there is none, or no
    memory, nothing changes. -/
theorem substitute_first (ok : Bool) (fill : Nat → UInt8) (target u : CStr) (hx : Holds x v)
    (hoff : offset ≤ v.length) :
    ∃ z r, sstringSubstitute x offset target u ok fill = some (z, r) ∧
      (r = 0 ∧ z.str.length = z.size + 1 ∧ (∃ i, FirstAt target.1 v offset i ∧
        Holds z (v.take i ++ (u.1 ++ v.drop (i + target.1.length)))) ∨ r = -1 ∧ z = x) ∧
      (r = -1 ↔ (∀ i, offset ≤ i → ¬ OccursAt target.1 v i) ∨ ok = false) := by
  have hrest := cstr_drop hx.1 hoff
  cases hs : strstr target.1 (v.drop offset) with
  | none =>
    have hnone : ∀ i, offset ≤ i → ¬ OccursAt target.1 v i := by
      intro i hi hocc
      obtain ⟨j, rfl⟩ : ∃ j, i = offset + j := ⟨i - offset, by omega⟩
      exact strstr_none hs j ((occursAt_drop hoff).mpr hocc)
    refine ⟨x, -1, ?_, Or.inr ⟨rfl, rfl⟩, fun _ => Or.inl hnone, fun _ => rfl⟩
    rw [sstringSubstitute, hrest, Option.bind_some, hs]
  | some i =>
    obtain ⟨hocc, hfirst⟩ := strstr_some hs
    have hat : FirstAt target.1 v offset (offset + i) := by
      refine ⟨by omega, (occursAt_drop hoff).mp hocc, fun j hj hlt hno => ?_⟩
      obtain ⟨k, rfl⟩ : ∃ k, j = offset + k := ⟨j - offset, by omega⟩
      exact hfirst k (by omega) ((occursAt_drop hoff).mpr hno)
    cases ok with
    | false =>
      refine ⟨x, -1, ?_, Or.inr ⟨rfl, rfl⟩, fun _ => Or.inr rfl, fun _ => rfl⟩
      rw [sstringSubstitute, hrest, Option.bind_some, hs]
      rfl
    | true =>
      obtain ⟨z, hrun, hz, hlen⟩ := sstringSubstitute_found fill target u hx hoff hs
      refine ⟨z, 0, hrun, Or.inl ⟨rfl, hlen, offset + i, hat, hz⟩, fun h => (by cases h), fun h => ?_⟩
      rcases h with hno | hfalse
      · exact absurd hat.2.1 (hno _ hat.1)
      · cases hfalse

/-- "aba" in "ababa" from offset 1: the one at 2 is replaced by "". -/
theorem substitute_first_overlapping :
    ∃ z, sstringSubstitute ⟨[97, 98, 97, 98, 97, 0], 5⟩ 1 ⟨[97, 98, 97], by decide⟩ ⟨[], by decide⟩ true (fun _ => 0) =
      some (z, 0) ∧ Holds z [97, 98] ∧ z.str.length = z.size + 1 := by
  have hx : Holds ⟨[97, 98, 97, 98, 97, 0], 5⟩ [97, 98, 97, 98, 97] := ⟨rfl, rfl⟩
  obtain ⟨z, r, hrun, hcases, -⟩ := substitute_first true (fun _ => 0) ⟨[97, 98, 97], by decide⟩ ⟨[], by decide⟩ hx
    (show 1 ≤ 5 by decide)
  have hval : (sstringSubstitute ⟨[97, 98, 97, 98, 97, 0], 5⟩ 1 ⟨[97, 98, 97], by decide⟩ ⟨[], by decide⟩ true
    (fun _ => 0)) = some (⟨[97, 98, 0], 2⟩, 0) := rfl
  rw [hrun] at hval
  cases hval
  rcases hcases with ⟨-, hlen, -⟩ | ⟨hr, -⟩
  · exact ⟨_, hrun, ⟨rfl, rfl⟩, hlen⟩
  · cases hr

/-- With no memory for the new string "a" stays, though it occurs in "a". -/
theorem substitute_without_memory :
    sstringSubstitute ⟨[97, 0], 1⟩ 0 ⟨[97], by decide⟩ ⟨[98], by decide⟩ false (fun _ => 0) = some (⟨[97, 0], 1⟩, -1) ∧
    ¬ ((-1 : Int) = -1 ↔ ∀ i, 0 ≤ i → ¬ OccursAt [97] [97] i) :=
  ⟨rfl, fun h => h.mp rfl 0 (Nat.le_refl 0) ⟨Nat.zero_le _, List.prefix_rfl⟩⟩

end SysProg.Sstrings
