/-
  SysProg.TeachingThreads.ParReduce — teaching_threads/par_reduce.c.

  The list is cut into chunks by the quotient and the remainder of its length by the
  number of threads, with a running start; both are kept in ints, and nothing looks at
  the case that there is no element and so no thread. `cut` is the loop that creates the
  threads, `Step` what the threads and `par_reduce` do in any order: a thread reduces its
  chunk, and `par_reduce` joins them one by one and then reduces their results.

  `reduce` (reduce.h) is not in the repository; it is assumed to be the left fold from the
  base case. The threads can be created, and the stack has room for the arrays of them and
  their tasks.
  - `par_reduce_iff`: the chunks are consecutive pieces that are the list, and every run
    stops with the value of `reduce`, exactly when the list is not empty and its chunks
    and their places fit in ints; every list of fewer than 2^31 elements does (`fits_int`).
  - `no_elements`: the list without elements is divided by zero.
-/

import Mathlib.Algebra.Ring.Int.Defs
import Mathlib.Algebra.Ring.Nat
import Mathlib.Data.Finset.Card
import Mathlib.Data.List.Basic
import Mathlib.Logic.Function.Basic
import SysProg.Lib.Run

namespace SysProg.TeachingThreads

open Function (update)
open SysProg.Run (Sys)

def toInt (n : Int) : Int := if n % 2 ^ 32 < 2 ^ 31 then n % 2 ^ 32 else n % 2 ^ 32 - 2 ^ 32

def toSize (i : Int) : Nat := (i % 2 ^ 64).toNat

/-- Where the chunk of a task starts, and its length. -/
abbrev Chunk := Int × Nat

/-- The loop that creates the threads, with `k` of them to come: the tasks. An `int` that
    overflows has no value. -/
def cut (chunk remainder : Int) : Nat → Int → Int → Option (List Chunk)
  | 0, _, _ => some []
  | k + 1, i, start =>
    let len := chunk + if i < remainder then 1 else 0
    if len < 2 ^ 31 then
      (cut chunk remainder k (i + 1) (toInt (start + toSize len))).map ((start, toSize len) :: ·)
    else none

/-- An array has a positive number of elements, and nothing is divided by zero. -/
def tasks (listLen numThreads : Nat) : Option (List Chunk) :=
  let nThreads := toInt (if numThreads < listLen then numThreads else listLen : Nat)
  if nThreads ≤ 0 then none
  else cut (toInt (listLen / nThreads.toNat : Nat)) (toInt (listLen % nThreads.toNat : Nat)) nThreads.toNat 0 0

def slice {α : Type} (list : List α) (chunk : Chunk) : Option (List α) :=
  if 0 ≤ chunk.1 ∧ chunk.1.toNat + chunk.2 ≤ list.length then some ((list.drop chunk.1.toNat).take chunk.2) else none

/-! ## The threads -/

inductive Main where
  | create (i : Nat)
  | join (i : Nat)
  | returned (result : Int32)

structure St where
  main : Main
  /-- `tasks[i].result`, once the thread has ended. -/
  results : Nat → Option Int32

def St.created (s : St) (n : Nat) : Nat :=
  match s.main with
  | .create i => i
  | _ => n

variable (reduce : List Int32 → (Int32 → Int32 → Int32) → Int32 → Int32) (list : List Int32)
  (reduceFunc : Int32 → Int32 → Int32) (baseCase : Int32) (chunks : List Chunk)

inductive Step : St → Option Nat → St → Prop
  | create {s : St} {i : Nat} : s.main = .create i → i < chunks.length →
      Step s none { s with main := .create (i + 1) }
  | created {s : St} : s.main = .create chunks.length → Step s none { s with main := .join 0 }
  /-- `handler` -/
  | handler {s : St} {i : Nat} {chunk : Chunk} {piece : List Int32} : i < s.created chunks.length → s.results i = none →
      chunks[i]? = some chunk → slice list chunk = some piece →
      Step s (some i) { s with results := update s.results i (some (reduce piece reduceFunc baseCase)) }
  | join {s : St} {i : Nat} : s.main = .join i → i < chunks.length → (s.results i).isSome = true →
      Step s none { s with main := .join (i + 1) }
  | gather {s : St} {results : List Int32} : s.main = .join chunks.length →
      (List.range chunks.length).mapM s.results = some results →
      Step s none { s with main := .returned (results.foldl reduceFunc baseCase) }

def start : St := ⟨.create 0, fun _ => none⟩

def parReduce : Sys St (Option Nat) := ⟨fun s => s = start, Step reduce list reduceFunc baseCase chunks⟩

/-! ## What is asked of it -/

def Tiles : Nat → List Chunk → Nat → Prop
  | a, [], b => a = b
  | a, chunk :: rest, b => chunk.1 = a ∧ Tiles (a + chunk.2) rest b

/-- The chunks are the list, in pieces, and however the threads run the value of `reduce`
    is returned. -/
def Reduces (numThreads : Nat) : Prop := ∃ chunks pieces,
  tasks list.length numThreads = some chunks ∧ Tiles 0 chunks list.length ∧
    chunks.mapM (slice list) = some pieces ∧ pieces.flatten = list ∧
    (parReduce reduce list reduceFunc baseCase chunks).Rests
      (fun s => s.main = .returned (reduce list reduceFunc baseCase)) start

/-- What is kept in ints fits: the number of threads, the length of a chunk, and the place
    where the last one starts. -/
def FitsInt (listLen numThreads : Nat) : Prop :=
  let n := min numThreads listLen
  n < 2 ^ 31 ∧ listLen / n < 2 ^ 31 ∧ listLen - listLen / n < 2 ^ 31

variable {reduce list reduceFunc baseCase chunks} {n r c k a b i listLen numThreads : Nat} {chunk remainder place : Int}

/-! ## Numbers in ints -/

theorem toInt_of_lt {x : Nat} (h : x < 2 ^ 31) : toInt x = x := by
  unfold toInt
  split <;> omega

theorem toInt_lt (x : Int) : toInt x < 2 ^ 31 := by
  unfold toInt
  split <;> omega

theorem toInt_ge (x : Int) : -2 ^ 31 ≤ toInt x := by
  unfold toInt
  split <;> omega

theorem le_toSize_of_neg (hge : -2 ^ 31 ≤ chunk) (h : chunk < 0) : 2 ^ 63 ≤ toSize chunk := by
  unfold toSize
  omega

theorem toSize_of_nonneg (h : 0 ≤ chunk) (hlt : chunk < 2 ^ 31) : (toSize chunk : Int) = chunk := by
  unfold toSize
  omega

/-! ## The chunks -/

theorem cut_succ : cut chunk remainder (k + 1) i place =
    if chunk + (if (i : Int) < remainder then 1 else 0) < 2 ^ 31 then
      (cut chunk remainder k (i + 1 : Nat)
        (toInt (place + toSize (chunk + if (i : Int) < remainder then 1 else 0)))).map
        ((place, toSize (chunk + if (i : Int) < remainder then 1 else 0)) :: ·)
    else none := rfl

/-- With `k` threads to come, from place `a` on: the longer chunks come first, and no place
    but the end is past that of the last chunk. -/
theorem cut_tiles (hk : i + k = n) (hr : r < n) (hc : c < 2 ^ 31) (hlong : i < r → c + 1 < 2 ^ 31)
    (hlen : a + k * c + (r - i) = listLen) (hlast : listLen - c < 2 ^ 31) (ha : k = 0 ∨ place = a) :
    ∃ chunks, cut c r k i place = some chunks ∧ Tiles a chunks listLen ∧ chunks.length = k := by
  induction k generalizing i a place with
  | zero =>
    refine ⟨[], rfl, ?_, rfl⟩
    show a = listLen
    omega
  | succ k ih =>
    obtain rfl : place = a := by omega
    obtain ⟨e, he, hsize⟩ : ∃ e : Nat, (e = if i < r then 1 else 0) ∧
        (c : Int) + (if (i : Int) < (r : Int) then 1 else 0) = (c + e : Nat) := by
      refine ⟨_, rfl, ?_⟩
      by_cases h : i < r
      · rw [if_pos h, if_pos (by omega)]
        rfl
      · rw [if_neg h, if_neg (by omega)]
        rfl
    have hshort : c + e < 2 ^ 31 := by
      rw [he]
      split
      · exact hlong ‹_›
      · exact hc
    have hextra : r - i = e + (r - (i + 1)) := by
      rw [he]
      split <;> omega
    rw [Nat.succ_mul] at hlen
    have hnext : k = 0 ∨ toInt ((a : Int) + (c + e : Nat)) = (a + (c + e) : Nat) := by
      cases k with
      | zero => exact Or.inl rfl
      | succ k =>
        rw [Nat.succ_mul] at hlen
        exact Or.inr (toInt_of_lt (by omega))
    obtain ⟨rest, hrest, htiles, hcount⟩ :=
      ih (i := i + 1) (a := a + (c + e)) (by omega) (fun h => hlong (by omega)) (by omega) hnext
    have hto : toSize (c + e : Nat) = c + e := by
      have h : (toSize (c + e : Nat) : Int) = (c + e : Nat) := toSize_of_nonneg (by omega) (by omega)
      omega
    refine ⟨((a : Int), c + e) :: rest, ?_, ⟨rfl, htiles⟩, by rw [List.length_cons, hcount]⟩
    rw [cut_succ, hsize, if_pos (by omega), hto, hrest]
    rfl

theorem cut_some (h : cut chunk remainder (k + 1) i place = some chunks) : ∃ rest,
    cut chunk remainder k (i + 1 : Nat) (toInt (place + toSize (chunk + if (i : Int) < remainder then 1 else 0))) =
      some rest ∧ chunks = (place, toSize (chunk + if (i : Int) < remainder then 1 else 0)) :: rest := by
  rw [cut_succ] at h
  by_cases hlt : chunk + (if (i : Int) < remainder then 1 else 0) < 2 ^ 31
  · rw [if_pos hlt] at h
    obtain ⟨rest, hrest, e⟩ := Option.map_eq_some_iff.mp h
    exact ⟨rest, hrest, e.symm⟩
  · rw [if_neg hlt] at h
    cases h

/-- The chunk of the last thread. -/
theorem cut_last (h : cut chunk remainder (k + 1) i place = some chunks) (hplace : place < 2 ^ 31) :
    ∃ front last, chunks = front ++ [(last, toSize (chunk + if ((i + k : Nat) : Int) < remainder then 1 else 0))] ∧
      last < 2 ^ 31 := by
  induction k generalizing i place chunks with
  | zero =>
    obtain ⟨rest, hrest, rfl⟩ := cut_some h
    cases hrest
    exact ⟨[], place, rfl, hplace⟩
  | succ k ih =>
    obtain ⟨rest, hrest, rfl⟩ := cut_some h
    obtain ⟨front, last, rfl, hlast⟩ := ih hrest (toInt_lt _)
    have hindex : i + 1 + k = i + (k + 1) := by omega
    rw [hindex]
    exact ⟨_ :: front, last, rfl, hlast⟩

theorem Tiles.last {front : List Chunk} {last : Int} (h : Tiles a (front ++ [(last, n)]) b) :
    ∃ p : Nat, last = p ∧ p + n = b := by
  induction front generalizing a with
  | nil => exact ⟨a, h.1, h.2⟩
  | cons chunk front ih => exact ih h.2

theorem Tiles.le (h : Tiles a chunks b) : a ≤ b := by
  induction chunks generalizing a with
  | nil => exact Nat.le_of_eq h
  | cons chunk rest ih => exact Nat.le_trans (Nat.le_add_right a chunk.2) (ih h.2)

/-- Chunks of the right lengths, where no length is negative. -/
theorem cut_sum (h : cut (c : Nat) (r : Nat) k i place = some chunks) (hc : c < 2 ^ 31) (hk : i + k = n) (hr : r < n)
    (htiles : Tiles a chunks b) : b = a + k * c + (r - i) := by
  induction k generalizing i place chunks a with
  | zero =>
    cases h
    have hab : a = b := htiles
    omega
  | succ k ih =>
    obtain ⟨rest, hrest, rfl⟩ := cut_some h
    have hb := ih hrest (by omega) htiles.2
    have hsize : toSize (c + if (i : Int) < (r : Int) then 1 else 0) = c + if i < r then 1 else 0 := by
      unfold toSize
      by_cases hlt : i < r
      · rw [if_pos (by omega), if_pos hlt]
        omega
      · rw [if_neg (by omega), if_neg hlt]
        omega
    rw [hb, hsize, Nat.succ_mul]
    split <;> omega

/-- With a last chunk that starts in an int and ends where the list does, nothing was cut off. -/
theorem fits_of_tiles (hn : min numThreads listLen = n) (hpos : 0 < toInt n) (hmem : 4 * listLen < 2 ^ 64)
    (hcut : cut (toInt (listLen / (toInt n).toNat : Nat)) (toInt (listLen % (toInt n).toNat : Nat)) (toInt n).toNat
      0 0 = some chunks) (htiles : Tiles 0 chunks listLen) :
    n < 2 ^ 31 ∧ listLen / n < 2 ^ 31 ∧ listLen - listLen / n < 2 ^ 31 := by
  obtain ⟨k, hk⟩ : ∃ k, (toInt n).toNat = k + 1 := ⟨(toInt n).toNat - 1, by omega⟩
  have hklt : k + 1 < 2 ^ 31 := by
    have hlt := toInt_lt n
    omega
  rw [hk] at hcut
  have hmod : listLen % (k + 1) < k + 1 := Nat.mod_lt listLen (Nat.succ_pos k)
  have hdiv := Nat.div_add_mod listLen (k + 1)
  rw [toInt_of_lt (by omega : listLen % (k + 1) < 2 ^ 31)] at hcut
  obtain ⟨front, last, hchunks, hlast⟩ := cut_last (i := 0) hcut (by omega)
  rw [if_neg (by omega), Int.add_zero] at hchunks
  obtain ⟨q, rfl, hend⟩ := (hchunks ▸ htiles).last
  -- the last chunk has no extra element, so a negative length is one past all memory
  have hnonneg : 0 ≤ toInt (listLen / (k + 1) : Nat) := by
    by_contra hneg
    have hlarge := le_toSize_of_neg (toInt_ge _) (Int.not_le.mp hneg)
    omega
  obtain ⟨c, hc⟩ := Int.eq_ofNat_of_zero_le hnonneg
  have hclt : (c : Int) < 2 ^ 31 := by
    rw [← hc]
    exact toInt_lt _
  rw [hc] at hcut hend
  have hsize := toSize_of_nonneg (Int.natCast_nonneg c) hclt
  have hsum := cut_sum (i := 0) hcut (by omega) (Nat.zero_add (k + 1)) hmod htiles
  have hprod : (k + 1) * (listLen / (k + 1)) = (k + 1) * c := by omega
  have hquot : listLen / (k + 1) = c := Nat.eq_of_mul_eq_mul_left (Nat.succ_pos k) hprod
  have hle : c ≤ listLen := hquot ▸ Nat.div_le_self listLen (k + 1)
  obtain rfl : n = k + 1 := by
    unfold toInt at hk
    split at hk <;> omega
  rw [hquot]
  refine ⟨hklt, by omega, by omega⟩

/-- What is cut covers the list exactly when it fits in ints. -/
theorem tasks_iff (hthreads : 1 ≤ numThreads) (hmem : 4 * listLen < 2 ^ 64) :
    (∃ chunks, tasks listLen numThreads = some chunks ∧ Tiles 0 chunks listLen) ↔
      0 < listLen ∧ FitsInt listLen numThreads := by
  have hmin : (if numThreads < listLen then numThreads else listLen) = min numThreads listLen := by
    split <;> omega
  unfold tasks FitsInt
  rw [hmin]
  dsimp only
  generalize hn : min numThreads listLen = n
  constructor
  · intro ⟨chunks, htasks, htiles⟩
    by_cases hpos : toInt n ≤ 0
    · rw [if_pos hpos] at htasks
      cases htasks
    · rw [if_neg hpos] at htasks
      refine ⟨?_, fits_of_tiles hn (by omega) hmem htasks htiles⟩
      by_contra h
      obtain rfl : n = 0 := by omega
      exact hpos (Int.le_of_eq (toInt_of_lt (by omega)))
  · intro ⟨hpos, hfit, hchunk, hlast⟩
    have hnpos : 0 < n := by omega
    have hnle : n ≤ listLen := by omega
    have hmod := Nat.mod_lt listLen hnpos
    have hdiv := Nat.div_add_mod listLen n
    rw [toInt_of_lt hfit, if_neg (by omega), Int.toNat_natCast, toInt_of_lt hchunk, toInt_of_lt (by omega)]
    have hlong : 0 < listLen % n → listLen / n + 1 < 2 ^ 31 := by
      intro hr
      have htwo : 2 * (listLen / n) ≤ n * (listLen / n) := Nat.mul_le_mul_right _ (by omega)
      omega
    have hsum : 0 + n * (listLen / n) + (listLen % n - 0) = listLen := by omega
    obtain ⟨chunks, hcut, htiles, _⟩ :=
      cut_tiles (Nat.zero_add n) hmod hchunk hlong hsum hlast (Or.inr (rfl : (0 : Int) = (0 : Nat)))
    exact ⟨chunks, hcut, htiles⟩

/-! ## The pieces -/

theorem mapM_get {α β : Type} {f : α → Option β} {as : List α} {bs : List β} (h : as.mapM f = some bs) (i : Nat) :
    as[i]?.bind f = bs[i]? := by
  induction as generalizing bs i with
  | nil =>
    cases h
    rfl
  | cons a as ih =>
    rw [List.mapM_cons] at h
    obtain ⟨b, hb, h⟩ := Option.bind_eq_some_iff.mp h
    obtain ⟨rest, hrest, h⟩ := Option.bind_eq_some_iff.mp h
    cases h
    cases i with
    | zero => exact hb
    | succ i => exact ih hrest i

theorem mapM_of_all {α β : Type} {f : α → Option β} {g : α → β} {as : List α} (h : ∀ a ∈ as, f a = some (g a)) :
    as.mapM f = some (as.map g) := by
  induction as with
  | nil => rfl
  | cons a as ih =>
    rw [List.mapM_cons, h a List.mem_cons_self, ih fun b hb => h b (List.mem_cons_of_mem a hb)]
    rfl

/-- Consecutive chunks of the list are cut from it and are what is between their ends. -/
theorem slices_of_tiles {α : Type} {list : List α} (h : Tiles a chunks list.length) (hle : a ≤ list.length) :
    ∃ pieces, chunks.mapM (slice list) = some pieces ∧ pieces.flatten = list.drop a ∧
      pieces.length = chunks.length := by
  induction chunks generalizing a with
  | nil =>
    obtain rfl : a = list.length := h
    exact ⟨[], rfl, List.drop_length.symm, rfl⟩
  | cons chunk rest ih =>
    obtain ⟨place, len⟩ := chunk
    obtain ⟨rfl, htiles⟩ := h
    have hend : a + len ≤ list.length := htiles.le
    obtain ⟨pieces, hpieces, hflat, hlen⟩ := ih htiles hend
    refine ⟨(list.drop a).take len :: pieces, ?_, ?_, by rw [List.length_cons, List.length_cons, hlen]⟩
    · have hslice : slice list ((a : Int), len) = some ((list.drop a).take len) :=
        if_pos ⟨Int.natCast_nonneg a, hend⟩
      rw [List.mapM_cons, hslice, hpieces]
      rfl
    · rw [List.flatten_cons, hflat, ← List.drop_drop, List.take_append_drop]

/-- Reducing the results of the pieces reduces the whole. -/
theorem fold_pieces [Std.Associative reduceFunc] [Std.LawfulIdentity reduceFunc baseCase] (acc : Int32)
    (pieces : List (List Int32)) : (pieces.map (·.foldl reduceFunc baseCase)).foldl reduceFunc acc =
      pieces.flatten.foldl reduceFunc acc := by
  induction pieces generalizing acc with
  | nil => rfl
  | cons piece rest ih =>
    have hid : reduceFunc acc baseCase = acc := Std.LawfulRightIdentity.right_id acc
    have hpiece : piece.foldl reduceFunc (reduceFunc acc baseCase) = reduceFunc acc (piece.foldl reduceFunc baseCase) :=
      List.foldl_assoc
    rw [hid] at hpiece
    rw [List.map_cons, List.foldl_cons, List.flatten_cons, List.foldl_append, ih, hpiece]

/-! ## However the threads run -/

def pending (results : Nat → Option Int32) (n : Nat) : Finset Nat := (Finset.range n).filter fun i => results i = none

def Main.rank (n : Nat) : Main → Nat
  | .create i => 2 * n + 2 - i
  | .join i => n + 1 - i
  | .returned _ => 0

def St.cost (n : Nat) (s : St) : Nat := s.main.rank n + (pending s.results n).card

variable (reduceFunc baseCase) in
/-- The threads that have ended have their values, and those that are joined have ended. -/
structure Inv (values : List Int32) (s : St) : Prop where
  reduced : ∀ i v, s.results i = some v → values[i]? = some v
  joined : match s.main with
    | .create i => i ≤ values.length
    | .join i => i ≤ values.length ∧ ∀ j < i, (s.results j).isSome = true
    | .returned v => v = values.foldl reduceFunc baseCase

variable {results : Nat → Option Int32} {v : Int32} {values : List Int32} {s s' : St} {t : Option Nat}

theorem pending_update (h : results i = none) (hi : i < n) :
    (pending (update results i (some v)) n).card < (pending results n).card := by
  refine Finset.card_lt_card ((Finset.ssubset_iff_of_subset ?_).mpr ⟨i, ?_, ?_⟩)
  · intro j hj
    obtain ⟨hlt, hnone⟩ := Finset.mem_filter.mp hj
    refine Finset.mem_filter.mpr ⟨hlt, ?_⟩
    by_cases hji : j = i
    · rw [hji]
      exact h
    · rwa [Function.update_of_ne hji] at hnone
  · exact Finset.mem_filter.mpr ⟨Finset.mem_range.mpr hi, h⟩
  · intro hmem
    have hnone := (Finset.mem_filter.mp hmem).2
    rw [Function.update_self] at hnone
    cases hnone

theorem cost_main {m : Main} (h : m.rank n < s.main.rank n) : St.cost n { s with main := m } < s.cost n :=
  Nat.add_lt_add_right h _

theorem update_isSome {j : Nat} (h : (results j).isSome = true) : (update results i (some v) j).isSome = true := by
  by_cases hji : j = i
  · rw [hji, Function.update_self]
    rfl
  · rwa [Function.update_of_ne hji]

theorem Inv.start : Inv reduceFunc baseCase values start := by
  refine ⟨?_, Nat.zero_le _⟩
  intro i v h
  cases h

/-- The results that `par_reduce` reduces are the values. -/
theorem Inv.gathered (hi : Inv reduceFunc baseCase values s) (hall : ∀ j < values.length, (s.results j).isSome = true) :
    (List.range values.length).mapM s.results = some values := by
  have hresults : ∀ j ∈ List.range values.length, s.results j = some (values.getD j 0) := by
    intro j hj
    obtain ⟨v, hv⟩ := Option.isSome_iff_exists.mp (hall j (List.mem_range.mp hj))
    rw [hv, List.getD, hi.reduced j v hv, Option.getD_some]
  have hvalues : (List.range values.length).map (values.getD · 0) = values := by
    apply List.ext_getElem (by simp)
    intro j hj hlt
    simp [hlt]
  rw [mapM_of_all hresults, hvalues]

theorem Inv.step (hcut : chunks.mapM (slice list) = some pieces) (hn : values.length = chunks.length)
    (hvalues : pieces.map (reduce · reduceFunc baseCase) = values) (hi : Inv reduceFunc baseCase values s)
    (h : Step reduce list reduceFunc baseCase chunks s t s') :
    Inv reduceFunc baseCase values s' ∧ s'.cost chunks.length < s.cost chunks.length := by
  have hjoined := hi.joined
  cases h with
  | @create i hmain hlt =>
    rw [hmain] at hjoined
    refine ⟨⟨hi.reduced, ?_⟩, ?_⟩
    · show i + 1 ≤ values.length
      omega
    · apply cost_main
      rw [hmain]
      show 2 * chunks.length + 2 - (i + 1) < 2 * chunks.length + 2 - i
      omega
  | created hmain =>
    refine ⟨⟨hi.reduced, Nat.zero_le _, ?_⟩, ?_⟩
    · intro j hj
      cases hj
    · apply cost_main
      rw [hmain]
      show chunks.length + 1 - 0 < 2 * chunks.length + 2 - chunks.length
      omega
  | @handler i chunk piece hcreated hnone hchunk hpiece =>
    have hlt : i < chunks.length := (List.getElem?_eq_some_iff.mp hchunk).1
    have hi' : pieces[i]? = some piece := by rw [← mapM_get hcut i, hchunk, Option.bind_some, hpiece]
    refine ⟨⟨?_, ?_⟩, Nat.add_lt_add_left (pending_update hnone hlt) _⟩
    · intro j v hv
      replace hv : update s.results i (some (reduce piece reduceFunc baseCase)) j = some v := hv
      by_cases hji : j = i
      · subst hji
        rw [Function.update_self] at hv
        rw [← hvalues, List.getElem?_map, hi', ← hv]
        rfl
      · rw [Function.update_of_ne hji] at hv
        exact hi.reduced j v hv
    · cases hmain : s.main with
      | create k => rwa [hmain] at hjoined
      | join k =>
        rw [hmain] at hjoined
        exact ⟨hjoined.1, fun j hj => update_isSome (hjoined.2 j hj)⟩
      | returned v => rwa [hmain] at hjoined
  | @join i hmain hlt hsome =>
    rw [hmain] at hjoined
    refine ⟨⟨hi.reduced, ?_, ?_⟩, ?_⟩
    · show i + 1 ≤ values.length
      omega
    · intro j hj
      rcases Nat.lt_succ_iff_lt_or_eq.mp hj with hj | rfl
      · exact hjoined.2 j hj
      · exact hsome
    · apply cost_main
      rw [hmain]
      show chunks.length + 1 - (i + 1) < chunks.length + 1 - i
      omega
  | @gather results hmain hresults =>
    rw [hmain, ← hn] at hjoined
    rw [← hn, hi.gathered hjoined.2] at hresults
    cases hresults
    refine ⟨⟨hi.reduced, rfl⟩, ?_⟩
    apply cost_main
    rw [hmain]
    show 0 < chunks.length + 1 - chunks.length
    omega

/-- Where nothing can go on the value of all results is returned. -/
theorem Inv.stopped (hcut : chunks.mapM (slice list) = some pieces) (hn : values.length = chunks.length)
    (hpieces : pieces.length = chunks.length) (hi : Inv reduceFunc baseCase values s)
    (h : ∀ t s', ¬ Step reduce list reduceFunc baseCase chunks s t s') :
    s.main = .returned (values.foldl reduceFunc baseCase) := by
  have hjoined := hi.joined
  cases hmain : s.main with
  | create i =>
    rw [hmain] at hjoined
    rcases Nat.lt_or_eq_of_le hjoined with hlt | rfl
    · exact absurd (.create hmain (by omega)) (h none _)
    · rw [hn] at hmain
      exact absurd (.created hmain) (h none _)
  | join i =>
    rw [hmain] at hjoined
    rcases Nat.lt_or_eq_of_le hjoined.1 with hlt | rfl
    · cases hi' : s.results i with
      | some v => exact absurd (.join hmain (by omega) (by rw [hi']; rfl)) (h none _)
      | none =>
        have hlen : i < chunks.length := by omega
        have hget := mapM_get hcut i
        rw [List.getElem?_eq_getElem hlen, List.getElem?_eq_getElem (by omega), Option.bind_some] at hget
        have hcreated : i < s.created chunks.length := by
          unfold St.created
          rwa [hmain]
        exact absurd (.handler hcreated hi' (List.getElem?_eq_getElem hlen) hget) (h (some i) _)
    · have hall := hi.gathered hjoined.2
      rw [hn] at hmain hall
      exact absurd (.gather hmain hall) (h none _)
  | returned v =>
    rw [hmain] at hjoined
    rw [hjoined]

/-- For every list of integers in memory, every positive number of threads and every
    associative reducer with the base case as identity. -/
theorem par_reduce_iff [Std.Associative reduceFunc] [Std.LawfulIdentity reduceFunc baseCase]
    (hreduce : ∀ l f b, reduce l f b = l.foldl f b) (hmem : 4 * list.length < 2 ^ 64) (hthreads : 1 ≤ numThreads) :
    Reduces reduce list reduceFunc baseCase numThreads ↔ 0 < list.length ∧ FitsInt list.length numThreads := by
  rw [← tasks_iff hthreads hmem]
  constructor
  · intro ⟨chunks, _, htasks, htiles, _⟩
    exact ⟨chunks, htasks, htiles⟩
  · intro ⟨chunks, htasks, htiles⟩
    obtain ⟨pieces, hcut, hflat, hpieces⟩ := slices_of_tiles htiles (Nat.zero_le _)
    refine ⟨chunks, pieces, htasks, htiles, hcut, hflat, ?_⟩
    have hfolds : (reduce · reduceFunc baseCase) = (·.foldl reduceFunc baseCase) := funext fun l => hreduce l _ _
    have hvalues : list.foldl reduceFunc baseCase =
        (pieces.map (reduce · reduceFunc baseCase)).foldl reduceFunc baseCase := by
      rw [hfolds, fold_pieces, hflat, List.drop_zero]
    have hn : (pieces.map (reduce · reduceFunc baseCase)).length = chunks.length := by rw [List.length_map, hpieces]
    rw [hreduce list, hvalues]
    exact Run.Sys.Rests.of_measure (St.cost chunks.length) (fun _ _ _ hi h => hi.step hcut hn rfl h)
      (fun _ hi h => hi.stopped hcut hn hpieces h) Inv.start

theorem par_reduce_three_numbers :
    Reduces (fun l f b => l.foldl f b) [5, 6, 7] (· + ·) 0 2 ↔ 0 < [5, 6, 7].length ∧ FitsInt [5, 6, 7].length 2 :=
  par_reduce_iff (fun _ _ _ => rfl) (by decide) (by decide)

/-- No thread for no element: the quotient by the number of threads has no value. -/
theorem no_elements : tasks 0 4 = none ∧ ¬ Reduces (fun l f b => l.foldl f b) [] (· + ·) 0 4 := by
  refine ⟨rfl, ?_⟩
  intro ⟨chunks, _, htasks, _⟩
  cases htasks

theorem fits_int (h : listLen < 2 ^ 31) : FitsInt listLen numThreads := by
  have hdiv := Nat.div_le_self listLen (min numThreads listLen)
  exact ⟨by omega, Nat.lt_of_le_of_lt hdiv h, Nat.lt_of_le_of_lt (Nat.sub_le _ _) h⟩

end SysProg.TeachingThreads
