/-
  SysProg.DeepfriedDd.Dd — deepfried_dd/dd.c: the seeks and the copy loop.

  A stream is the bytes of a file or a pipe and a position in it; the two are not the same
  file. On a pipe `fseek` fails and the position stays, which the code does not look at; a
  pipe, and a file opened to append, is written at its end. `fread` fills a block except
  at the end of the file; `fwrite` writes all its bytes, after zeros if the position is
  past the end. `totalBlocks` counts down to 0 from a limit, or stays at -1.
  - `dd_copies_iff`: the loop ends, and what is written at the place to be skipped to is
    the input from the place to be skipped to, up to the limit, with the five counters of
    its length, exactly when the streams come to these places;
  - `a_pipe_is_copied_from_its_start`: standard input on a pipe does not.
-/

import Mathlib.Data.List.Basic

namespace SysProg.Dd

structure Stream where
  bytes : List UInt8
  pos : Nat
  seekable : Bool
  appends : Bool
  deriving DecidableEq

/-- `fseek` with SEEK_SET, its result not looked at. -/
def Stream.seek (f : Stream) (offset : Nat) : Stream := if f.seekable then { f with pos := offset } else f

def Stream.fread (f : Stream) (n : Nat) : List UInt8 × Stream :=
  let got := (f.bytes.drop f.pos).take n
  (got, { f with pos := f.pos + got.length })

def overwrite (bytes : List UInt8) (pos : Nat) (l : List UInt8) : List UInt8 :=
  if l = [] then bytes
  else bytes.take pos ++ List.replicate (pos - bytes.length) 0 ++ l ++ bytes.drop (pos + l.length)

def Stream.place (f : Stream) : Nat := if f.appends then f.bytes.length else f.pos

def Stream.fwrite (f : Stream) (l : List UInt8) : Stream :=
  if l = [] then f else { f with bytes := overwrite f.bytes f.place l, pos := f.place + l.length }

structure Counters where
  fullBlocksIn : Nat
  partialBlocksIn : Nat
  fullBlocksOut : Nat
  partialBlocksOut : Nat
  totalBytesCopied : Nat
  deriving DecidableEq

structure St where
  input : Stream
  output : Stream
  totalBlocks : Int
  counters : Counters
  deriving DecidableEq

def Counters.read (c : Counters) (blockSize byteRead : Nat) : Counters :=
  if byteRead = blockSize then { c with fullBlocksIn := c.fullBlocksIn + 1 }
  else { c with partialBlocksIn := c.partialBlocksIn + 1 }

def Counters.written (c : Counters) (blockSize byteWritten : Nat) : Counters :=
  let c := if byteWritten = blockSize then { c with fullBlocksOut := c.fullBlocksOut + 1 }
    else { c with partialBlocksOut := c.partialBlocksOut + 1 }
  { c with totalBytesCopied := c.totalBytesCopied + byteWritten }

/-- `while (total_blocks != 0)`, with a bound on the rounds. -/
def copyLoop (blockSize : Nat) : Nat → St → Option St
  | 0, _ => none
  | fuel + 1, s =>
    if s.totalBlocks = 0 then some s
    else
      let (buffer, input) := s.input.fread blockSize
      if buffer.length = 0 then some { s with input := input }
      else copyLoop blockSize fuel
        { input := input
          output := s.output.fwrite buffer
          totalBlocks := if 0 < s.totalBlocks then s.totalBlocks - 1 else s.totalBlocks
          counters := (s.counters.read blockSize buffer.length).written blockSize buffer.length }

/-- From the seeks on. -/
def dd (input output : Stream) (blockSize : Nat) (totalBlocks : Int) (skipInputBlocks skipOutputBlocks : Nat)
    (fuel : Nat) : Option St :=
  copyLoop blockSize fuel
    { input := if 0 < skipInputBlocks then input.seek (skipInputBlocks * blockSize) else input
      output := if skipOutputBlocks ≠ 0 then output.seek (skipOutputBlocks * blockSize) else output
      totalBlocks := totalBlocks
      counters := ⟨0, 0, 0, 0, 0⟩ }

/-! ## What is to be copied -/

def copied (blockSize : Nat) (limit : Int) (data : List UInt8) : List UInt8 :=
  if limit < 0 then data else data.take (limit.toNat * blockSize)

def Counters.add (c : Counters) (blockSize n : Nat) : Counters where
  fullBlocksIn := c.fullBlocksIn + n / blockSize
  partialBlocksIn := c.partialBlocksIn + if n % blockSize = 0 then 0 else 1
  fullBlocksOut := c.fullBlocksOut + n / blockSize
  partialBlocksOut := c.partialBlocksOut + if n % blockSize = 0 then 0 else 1
  totalBytesCopied := c.totalBytesCopied + n

variable {bytes l r data : List UInt8} {pos blockSize n m fuel : Nat} {limit : Int} {c : Counters} {s : St}

/-! ## Writes -/

theorem overwrite_nil : overwrite bytes pos [] = bytes := if_pos rfl

/-- A write that goes on where another one ended. -/
theorem overwrite_append : overwrite (overwrite bytes pos l) (pos + l.length) r = overwrite bytes pos (l ++ r) := by
  by_cases hl : l = []
  · simp [hl, overwrite_nil]
  by_cases hr : r = []
  · simp [hr, overwrite_nil]
  have hlr : l ++ r ≠ [] := fun h => hl (List.append_eq_nil_iff.mp h).1
  have hfront : (bytes.take pos ++ List.replicate (pos - bytes.length) 0 ++ l).length = pos + l.length := by
    simp only [List.length_append, List.length_take, List.length_replicate]
    omega
  have hfull : pos + l.length - (bytes.take pos ++ List.replicate (pos - bytes.length) 0 ++ l ++
      bytes.drop (pos + l.length)).length = 0 := by
    rw [List.length_append, hfront]
    omega
  rw [overwrite, if_neg hr, overwrite, if_neg hl, overwrite, if_neg hlr, hfull, List.take_left' hfront,
    List.drop_append, List.drop_of_length_le (by omega), hfront, List.drop_drop, List.length_append]
  simp only [List.replicate_zero, List.append_nil, List.nil_append, List.append_assoc]
  congr 5
  omega

theorem length_overwrite : (overwrite bytes bytes.length l).length = bytes.length + l.length := by
  unfold overwrite
  split
  · next h => simp [h]
  · simp

theorem Stream.fwrite_nil {f : Stream} : f.fwrite [] = f := if_pos rfl

/-- A stream that appends is then at its new end. -/
theorem Stream.place_fwrite {f : Stream} : (f.fwrite l).place = f.place + l.length := by
  by_cases hl : l = []
  · simp [hl, fwrite_nil]
  unfold Stream.fwrite Stream.place
  rw [if_neg hl]
  by_cases h : f.appends
  · simp only [h, if_true]
    exact length_overwrite
  · simp only [h, if_false, Bool.false_eq_true]

theorem Stream.fwrite_append {f : Stream} : (f.fwrite l).fwrite r = f.fwrite (l ++ r) := by
  by_cases hl : l = []
  · simp [hl, fwrite_nil]
  by_cases hr : r = []
  · simp [hr, fwrite_nil]
  have hlr : l ++ r ≠ [] := fun h => hl (List.append_eq_nil_iff.mp h).1
  rw [Stream.fwrite, if_neg hr, Stream.place_fwrite, Stream.fwrite, if_neg hl, Stream.fwrite, if_neg hlr,
    overwrite_append, List.length_append, Nat.add_assoc]

theorem Stream.fwrite_bytes {f : Stream} : (f.fwrite l).bytes = overwrite f.bytes f.place l := by
  by_cases hl : l = []
  · simp [hl, fwrite_nil, overwrite_nil]
  · rw [Stream.fwrite, if_neg hl]

theorem Stream.fwrite_pos {f : Stream} (hl : l ≠ []) : (f.fwrite l).pos = f.place + l.length := by
  rw [Stream.fwrite, if_neg hl]

/-- As many bytes at the same place of the same file leave different files if they differ. -/
theorem overwrite_cancel (hlen : l.length = r.length) (h : overwrite bytes pos l = overwrite bytes pos r) : l = r := by
  by_cases hl : l = []
  · rw [hl, List.eq_nil_of_length_eq_zero (hlen.symm.trans (by rw [hl, List.length_nil]))]
  have hr : r ≠ [] := fun hr => hl (List.eq_nil_of_length_eq_zero (hlen.trans (by rw [hr, List.length_nil])))
  rw [overwrite, if_neg hl, overwrite, if_neg hr, List.append_assoc, List.append_assoc _ r] at h
  exact (List.append_inj (List.append_cancel_left h) hlen).1

/-! ## A round -/

/-- A block and then the rest, with one block less to go. -/
theorem copied_block (hlimit : limit ≠ 0) : copied blockSize limit data = data.take blockSize ++
    copied blockSize (if 0 < limit then limit - 1 else limit) (data.drop blockSize) := by
  unfold copied
  by_cases hneg : limit < 0
  · have hpos : ¬ 0 < limit := by omega
    rw [if_neg hpos, if_pos hneg, if_pos hneg, List.take_append_drop]
  · have hpos : 0 < limit := by omega
    have hnext : ¬ limit - 1 < 0 := by omega
    have hcount : limit.toNat * blockSize = blockSize + (limit - 1).toNat * blockSize := by
      obtain ⟨k, rfl⟩ : ∃ k : Nat, limit = k + 1 := ⟨(limit - 1).toNat, by omega⟩
      have hk : ((k : Int) + 1).toNat = k + 1 := by omega
      rw [hk, Int.add_sub_cancel, Int.toNat_natCast, Nat.succ_mul, Nat.add_comm]
    rw [if_pos hpos, if_neg hneg, if_neg hnext, hcount, List.take_add]

theorem copied_nil : copied blockSize limit [] = [] := by
  unfold copied
  split
  · rfl
  · exact List.take_nil

theorem copied_zero : copied blockSize 0 data = [] := by
  rw [copied, if_neg (Int.lt_irrefl 0), Int.toNat_zero, Nat.zero_mul, List.take_zero]

theorem Counters.add_zero : c.add blockSize 0 = c := by simp [Counters.add]

/-- A full block, or the last of the file. -/
theorem Counters.add_block (hpos : 0 < n) (hn : n = blockSize ∨ n < blockSize ∧ m = 0) :
    ((c.read blockSize n).written blockSize n).add blockSize m = c.add blockSize (n + m) := by
  rcases hn with rfl | ⟨hlt, rfl⟩
  · have hdiv : (n + m) / n = m / n + 1 := Nat.add_div_left m hpos
    simp only [Counters.read, Counters.written, Counters.add, if_true, hdiv, Nat.add_mod_left, Counters.mk.injEq,
      true_and]
    refine ⟨by omega, by omega, by omega⟩
  · have hne : n ≠ blockSize := Nat.ne_of_lt hlt
    have hmod : n % blockSize ≠ 0 := by
      rw [Nat.mod_eq_of_lt hlt]
      omega
    simp [Counters.read, Counters.written, Counters.add, hne, Nat.mod_eq_of_lt hlt, Nat.div_eq_of_lt hlt,
      Nat.ne_of_gt hpos]

def Stream.rest (f : Stream) : List UInt8 := f.bytes.drop f.pos

theorem Stream.fread_eq (f : Stream) (n : Nat) :
    ∃ f', f.fread n = (f.rest.take n, f') ∧ f'.rest = f.rest.drop n := by
  refine ⟨_, rfl, ?_⟩
  show f.bytes.drop (f.pos + (f.rest.take n).length) = _
  rw [← List.drop_drop, List.length_take]
  show f.rest.drop (min n f.rest.length) = _
  rcases Nat.le_total n f.rest.length with h | h
  · rw [Nat.min_eq_left h]
  · rw [Nat.min_eq_right h, List.drop_length, List.drop_of_length_le h]

theorem copyLoop_copies (hb : 0 < blockSize) (hfuel : s.input.rest.length < fuel) :
    ∃ t, copyLoop blockSize fuel s = some t ∧
      t.output = s.output.fwrite (copied blockSize s.totalBlocks s.input.rest) ∧
      t.counters = s.counters.add blockSize (copied blockSize s.totalBlocks s.input.rest).length := by
  induction fuel generalizing s with
  | zero => cases hfuel
  | succ fuel ih =>
    unfold copyLoop
    by_cases hzero : s.totalBlocks = 0
    · rw [if_pos hzero, hzero, copied_zero]
      refine ⟨s, rfl, ?_, ?_⟩
      · exact Stream.fwrite_nil.symm
      · exact Counters.add_zero.symm
    rw [if_neg hzero]
    obtain ⟨input, hread, hrest⟩ := s.input.fread_eq blockSize
    rw [hread]
    dsimp only
    by_cases hend : (s.input.rest.take blockSize).length = 0
    · -- the end of the file
      have hnil : s.input.rest = [] := by
        rw [List.length_take] at hend
        exact List.length_eq_zero_iff.mp (by omega)
      rw [if_pos hend, hnil, copied_nil]
      refine ⟨_, rfl, ?_, ?_⟩
      · exact Stream.fwrite_nil.symm
      · exact Counters.add_zero.symm
    · rw [if_neg hend, copied_block hzero, ← hrest]
      have hlen := hend
      rw [List.length_take] at hlen
      obtain ⟨t, hrun, hout, hcount⟩ := ih (s := ⟨input, s.output.fwrite (s.input.rest.take blockSize),
        if 0 < s.totalBlocks then s.totalBlocks - 1 else s.totalBlocks,
        (s.counters.read blockSize (s.input.rest.take blockSize).length).written blockSize
          (s.input.rest.take blockSize).length⟩) (by dsimp only; rw [hrest, List.length_drop]; omega)
      refine ⟨t, hrun, ?_, ?_⟩
      · rw [hout, Stream.fwrite_append]
      · rw [hcount, List.length_append]
        apply Counters.add_block (Nat.pos_of_ne_zero hend)
        rw [List.length_take]
        rcases Nat.lt_or_ge s.input.rest.length blockSize with hlt | hge
        · refine Or.inr ⟨by omega, ?_⟩
          rw [hrest, List.drop_of_length_le (Nat.le_of_lt hlt), copied_nil, List.length_nil]
        · exact Or.inl (Nat.min_eq_left hge)

/-! ## What dd is for -/

def Stream.skipped (f : Stream) (blocks blockSize : Nat) : Stream :=
  if 0 < blocks then f.seek (blocks * blockSize) else f

/-- The input from one place is in the output from another, where the last byte written ends. -/
structure Copies (input output : Stream) (blockSize : Nat) (limit : Int) (p k : Nat) (t : St) (l : List UInt8) :
    Prop where
  wanted : l = copied blockSize limit (input.bytes.drop (p * blockSize))
  bytes : t.output.bytes = overwrite output.bytes (k * blockSize) l
  ends : l ≠ [] → t.output.pos = k * blockSize + l.length
  total : t.counters.totalBytesCopied = l.length
  out : t.counters.fullBlocksOut = t.counters.fullBlocksIn ∧ t.counters.partialBlocksOut = t.counters.partialBlocksIn
  full : t.counters.fullBlocksIn = l.length / blockSize
  part : t.counters.partialBlocksIn = if l.length % blockSize = 0 then 0 else 1

theorem Stream.skipped_bytes {f : Stream} {blocks : Nat} : (f.skipped blocks blockSize).bytes = f.bytes := by
  unfold Stream.skipped Stream.seek
  split
  · split <;> rfl
  · rfl

theorem dd_eq {input output : Stream} {p k : Nat} : dd input output blockSize limit p k fuel = copyLoop blockSize fuel
    ⟨input.skipped p blockSize, output.skipped k blockSize, limit, ⟨0, 0, 0, 0, 0⟩⟩ := by
  simp only [dd, Stream.skipped, Nat.pos_iff_ne_zero]

/-- A limit of -1 is none. The places are those of the streams after the seeks. -/
theorem dd_copies_iff (input output : Stream) {blockSize : Nat} (totalBlocks : Int)
    (skipInputBlocks skipOutputBlocks : Nat) (hb : 1 ≤ blockSize) {fuel : Nat} (hfuel : input.bytes.length < fuel) :
    ∃ t, dd input output blockSize totalBlocks skipInputBlocks skipOutputBlocks fuel = some t ∧
      ((∃ l, Copies input output blockSize totalBlocks skipInputBlocks skipOutputBlocks t l) ↔
        copied blockSize totalBlocks (input.bytes.drop (input.skipped skipInputBlocks blockSize).pos) =
            copied blockSize totalBlocks (input.bytes.drop (skipInputBlocks * blockSize)) ∧
          ((output.skipped skipOutputBlocks blockSize).place = skipOutputBlocks * blockSize ∨
            copied blockSize totalBlocks (input.bytes.drop (skipInputBlocks * blockSize)) = [])) := by
  have hrest : (input.skipped skipInputBlocks blockSize).rest =
      input.bytes.drop (input.skipped skipInputBlocks blockSize).pos := by
    rw [Stream.rest, Stream.skipped_bytes]
  have hlen : (input.skipped skipInputBlocks blockSize).rest.length < fuel := by
    rw [hrest, List.length_drop]
    omega
  obtain ⟨t, hrun, hout, hcount⟩ := copyLoop_copies (s := ⟨input.skipped skipInputBlocks blockSize,
    output.skipped skipOutputBlocks blockSize, totalBlocks, ⟨0, 0, 0, 0, 0⟩⟩) hb hlen
  refine ⟨t, dd_eq.trans hrun, ?_⟩
  simp only [hrest] at hout hcount
  have hbytes := congrArg Stream.bytes hout
  simp only [Stream.fwrite_bytes, Stream.skipped_bytes] at hbytes
  -- what is copied, from where the input stands and from where it should
  generalize copied blockSize totalBlocks (input.bytes.drop (input.skipped skipInputBlocks blockSize).pos) = got at *
  constructor
  · intro ⟨l, h⟩
    have htotal := h.total
    rw [hcount] at htotal
    have hsame : got.length = l.length := (Nat.zero_add _).symm.trans htotal
    rw [← h.wanted]
    by_cases hl : l = []
    · refine ⟨?_, Or.inr hl⟩
      rw [hl]
      exact List.eq_nil_of_length_eq_zero (hsame.trans (by rw [hl, List.length_nil]))
    · have hgot : got ≠ [] := fun hg => hl (List.eq_nil_of_length_eq_zero (by rw [← hsame, hg, List.length_nil]))
      have hend := h.ends hl
      rw [hout, Stream.fwrite_pos hgot, hsame] at hend
      have hplace := Nat.add_right_cancel hend
      refine ⟨overwrite_cancel hsame (hbytes.symm.trans ?_), Or.inl hplace⟩
      rw [h.bytes, hplace]
  · intro ⟨hgot, hplace⟩
    subst hgot
    refine ⟨_, rfl, ?_, ?_, ?_, ?_, ?_, ?_⟩
    · rcases hplace with hplace | hnil
      · rw [hbytes, hplace]
      · rw [hbytes, hnil, overwrite_nil, overwrite_nil]
    · intro hne
      rw [hout, Stream.fwrite_pos hne, hplace.resolve_right hne]
    all_goals rw [hcount]
    · exact Nat.zero_add _
    · exact ⟨rfl, rfl⟩
    · exact Nat.zero_add _
    · exact Nat.zero_add _

/-- Three blocks of two bytes at most, from the second on, of a file of three and a half. -/
theorem dd_copies_three_blocks :
    ∃ t, dd ⟨[1, 2, 3, 4, 5, 6, 7], 0, true, false⟩ ⟨[], 0, true, false⟩ 2 3 1 1 8 = some t ∧
      ∃ l, Copies ⟨[1, 2, 3, 4, 5, 6, 7], 0, true, false⟩ ⟨[], 0, true, false⟩ 2 3 1 1 t l := by
  obtain ⟨t, hrun, hiff⟩ := dd_copies_iff ⟨[1, 2, 3, 4, 5, 6, 7], 0, true, false⟩ ⟨[], 0, true, false⟩ 3 1 1
    (show 1 ≤ 2 by decide) (show 7 < 8 by decide)
  exact ⟨t, hrun, hiff.mpr ⟨rfl, Or.inl rfl⟩⟩

/-- `printf abcd | dd -b 1 -p 2`: all four bytes are copied. -/
theorem a_pipe_is_copied_from_its_start :
    ∃ t, dd ⟨[97, 98, 99, 100], 0, false, false⟩ ⟨[], 0, false, true⟩ 1 (-1) 2 0 5 = some t ∧
      t.output.bytes = [97, 98, 99, 100] ∧
      ¬ ∃ l, Copies ⟨[97, 98, 99, 100], 0, false, false⟩ ⟨[], 0, false, true⟩ 1 (-1) 2 0 t l := by
  refine ⟨⟨⟨[97, 98, 99, 100], 4, false, false⟩, ⟨[97, 98, 99, 100], 4, false, true⟩, -1, ⟨4, 0, 4, 0, 4⟩⟩, by decide,
    rfl, ?_⟩
  intro ⟨l, h⟩
  have hl : l = [99, 100] := h.wanted
  have htotal : 4 = l.length := h.total
  rw [hl] at htotal
  cases htotal

end SysProg.Dd
