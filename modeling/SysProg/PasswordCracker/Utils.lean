/-
  SysProg.PasswordCracker.Utils — what both crackers use.

  The functions of utils.c, which is not in the repository, and `crypt_r` with the salt
  "xx" are parameters (`Utils`). The unknown letters of a password are at its end and
  have completions, which `incrementString` goes through from position 0 (`Enumerates`)
  and `getSubrange` divides among the threads (`Splits`).

  `start` reads the input word by word into blocks of 256 bytes, with no bound on a word
  (`readUsers`); a record has its three words. Then it creates the threads one by one and
  joins them one by one (`Main`); the threads can be created.
-/

import Mathlib.Algebra.Group.Nat.Defs
import Mathlib.Data.List.Basic

namespace SysProg.PasswordCracker

abbrev Text := List UInt8

/-- A line of the input: the known letters of the password and dots for the others. -/
structure User where
  username : Text
  hash : Text
  password : Text
  deriving DecidableEq

/-! ## The input -/

/-- `scanf("%s", ..)` into a block: the word and its terminator, or an access past the end. -/
def scanWord (size : Nat) (word : Text) : Option Text := if word.length + 1 ≤ size then some word else none

def wordSize : Nat := 256

/-- The loop `while (scanf("%s %s %s", username, hash, password) != EOF)`. -/
def readUsers : List User → Option (List User)
  | [] => some []
  | u :: users =>
    (scanWord wordSize u.username).bind fun username => (scanWord wordSize u.hash).bind fun hash =>
      (scanWord wordSize u.password).bind fun password => (readUsers users).map fun users =>
        ⟨username, hash, password⟩ :: users

def User.Fits (u : User) : Prop := u.username.length ≤ 255 ∧ u.hash.length ≤ 255 ∧ u.password.length ≤ 255

theorem scanWord_some {size : Nat} {word w : Text} :
    scanWord size word = some w ↔ word.length + 1 ≤ size ∧ word = w := by
  unfold scanWord
  rw [Option.ite_none_right_eq_some, Option.some.injEq]

/-- The input is read as it is, or not at all. -/
theorem readUsers_some {users l : List User} : readUsers users = some l ↔ l = users ∧ ∀ u ∈ users, u.Fits := by
  induction users generalizing l with
  | nil => simp [readUsers, eq_comm]
  | cons u users ih =>
    unfold readUsers
    constructor
    · intro h
      obtain ⟨username, hname, h⟩ := Option.bind_eq_some_iff.mp h
      obtain ⟨hash, hhash, h⟩ := Option.bind_eq_some_iff.mp h
      obtain ⟨password, hpassword, h⟩ := Option.bind_eq_some_iff.mp h
      obtain ⟨rest, hrest, hl⟩ := Option.map_eq_some_iff.mp h
      obtain ⟨hn, rfl⟩ := scanWord_some.mp hname
      obtain ⟨hh, rfl⟩ := scanWord_some.mp hhash
      obtain ⟨hp, rfl⟩ := scanWord_some.mp hpassword
      obtain ⟨rfl, hfits⟩ := ih.mp hrest
      unfold wordSize at hn hh hp
      exact ⟨hl.symm, List.forall_mem_cons.mpr ⟨⟨by omega, by omega, by omega⟩, hfits⟩⟩
    · intro ⟨hl, hfits⟩
      obtain ⟨⟨hn, hh, hp⟩, hrest⟩ := List.forall_mem_cons.mp hfits
      have hword : ∀ {w : Text}, w.length ≤ 255 → scanWord wordSize w = some w := fun hw =>
        scanWord_some.mpr ⟨Nat.succ_le_succ hw, rfl⟩
      rw [hword hn, hword hh, hword hp, ih.mpr ⟨rfl, hrest⟩, hl]
      rfl

/-! ## What is outside -/

structure Utils where
  getPrefixLength : Text → Nat
  /-- The string at a position. -/
  setStringPosition : Text → Nat → Text
  /-- The next string, and whether the value returned is not 0. -/
  incrementString : Text → Text × Bool
  /-- The start and the count of a thread's range, for a number of unknown letters, a
      number of threads and a thread from 1 on. -/
  getSubrange : Nat → Nat → Nat → Nat × Nat
  crypt : Text → Text

variable (U : Utils)

def User.known (u : User) : Text := u.password.take (U.getPrefixLength u.password)

def User.unknown (u : User) : Text := u.password.drop (U.getPrefixLength u.password)

structure Enumerates (completions : Nat → List Text) : Prop where
  some_ : ∀ n, completions n ≠ []
  position : ∀ s k c, (completions s.length)[k]? = some c → U.setStringPosition s k = c
  next : ∀ n k c c', (completions n)[k]? = some c → (completions n)[k + 1]? = some c' →
    U.incrementString c = (c', true)
  last : ∀ n k c, (completions n)[k]? = some c → k + 1 = (completions n).length → (U.incrementString c).2 = false

structure Splits (completions : Nat → List Text) (threads : Nat) : Prop where
  first : ∀ n, (U.getSubrange n threads 1).1 = 0
  next : ∀ n i, 0 < i → i < threads →
    (U.getSubrange n threads (i + 1)).1 = (U.getSubrange n threads i).1 + (U.getSubrange n threads i).2
  last : ∀ n, (U.getSubrange n threads threads).1 + (U.getSubrange n threads threads).2 = (completions n).length

def User.Crackable (completions : Nat → List Text) (u : User) : Prop :=
  ∃ c ∈ completions (u.unknown U).length, U.crypt (u.known U ++ c) = u.hash

/-! ## Ranges -/

section
variable {U} {completions : Nat → List Text} {threads : Nat}

/-- No range goes past the last completion. -/
theorem Splits.end_le (h : Splits U completions threads) (n : Nat) {i : Nat} (hi : 0 < i) (hle : i ≤ threads) :
    (U.getSubrange n threads i).1 + (U.getSubrange n threads i).2 ≤ (completions n).length := by
  induction hd : threads - i generalizing i with
  | zero =>
    have e : i = threads := by omega
    rw [e]
    exact Nat.le_of_eq (h.last n)
  | succ d ih =>
    have hnext := h.next n i hi (by omega)
    have hend := ih (i := i + 1) (by omega) (by omega) (by omega)
    omega

/-- The ranges up to a thread's leave nothing out. -/
theorem Splits.covers_below (h : Splits U completions threads) (n : Nat) {i k : Nat} (hi : 0 < i) (hle : i ≤ threads)
    (hk : k < (U.getSubrange n threads i).1 + (U.getSubrange n threads i).2) :
    ∃ j, 0 < j ∧ j ≤ i ∧ (U.getSubrange n threads j).1 ≤ k ∧
      k < (U.getSubrange n threads j).1 + (U.getSubrange n threads j).2 := by
  induction i with
  | zero => exact absurd hi (Nat.lt_irrefl 0)
  | succ i ih =>
    by_cases hge : (U.getSubrange n threads (i + 1)).1 ≤ k
    · exact ⟨i + 1, hi, Nat.le_refl _, hge, hk⟩
    · have hpos : 0 < i := by
        apply Nat.pos_of_ne_zero
        intro e
        rw [e, Nat.zero_add, h.first n] at hge
        exact hge (Nat.zero_le k)
      have hnext := h.next n i hpos (by omega)
      rcases ih hpos (by omega) (by omega) with ⟨j, hj, hji, hrange⟩
      exact ⟨j, hj, by omega, hrange⟩

theorem Splits.covers (h : Splits U completions threads) (ht : 0 < threads) (n : Nat) {k : Nat}
    (hk : k < (completions n).length) :
    ∃ i < threads, (U.getSubrange n threads (i + 1)).1 ≤ k ∧
      k < (U.getSubrange n threads (i + 1)).1 + (U.getSubrange n threads (i + 1)).2 := by
  rw [← h.last n] at hk
  rcases h.covers_below n ht (Nat.le_refl _) hk with ⟨j, hj, hle, hrange⟩
  refine ⟨j - 1, by omega, ?_⟩
  rwa [Nat.sub_add_cancel hj]

end

/-! ## The main thread -/

structure Main where
  created : Nat
  joined : Nat
  deriving DecidableEq

/-- The loops of `pthread_create` and of `pthread_join`; blocked at a thread that runs, and
    over when all are joined. -/
def Main.step {threads : Nat} (m : Main) (stopped : Fin threads → Bool) : Option Main :=
  if m.created < threads then some { m with created := m.created + 1 }
  else if h : m.joined < threads then
    if stopped ⟨m.joined, h⟩ then some { m with joined := m.joined + 1 } else none
  else none

def Main.left (m : Main) (threads : Nat) : Nat := (threads - m.created) + (threads - m.joined)

/-- Threads are joined when all are created, and only when they have stopped. -/
structure Main.Ok {threads : Nat} (m : Main) (stopped : Fin threads → Bool) : Prop where
  created : m.created ≤ threads
  joined : m.joined ≤ threads
  first : m.joined = 0 ∨ m.created = threads
  stopped : ∀ t : Fin threads, t.val < m.joined → stopped t = true

variable {threads : Nat} {m m' : Main} {stopped : Fin threads → Bool}

theorem Main.Ok.start : Main.Ok ⟨0, 0⟩ stopped :=
  ⟨Nat.zero_le _, Nat.zero_le _, Or.inl rfl, fun _ h => absurd h (Nat.not_lt_zero _)⟩

theorem Main.Ok.step (h : m.Ok stopped) (hs : m.step stopped = some m') :
    m'.Ok stopped ∧ m.created ≤ m'.created ∧ m'.left threads < m.left threads := by
  have hc := h.created
  have hj := h.joined
  unfold Main.step at hs
  unfold Main.left
  split at hs
  · rename_i hlt
    cases hs
    refine ⟨⟨hlt, h.joined, ?_, h.stopped⟩, Nat.le_succ _, ?_⟩
    · rcases h.first with e | e
      · exact Or.inl e
      · omega
    · dsimp only
      omega
  · rename_i hge
    split at hs
    · rename_i hlt
      rw [Option.ite_none_right_eq_some] at hs
      rcases hs with ⟨hstop, e⟩
      cases e
      have hall := Nat.le_antisymm hc (Nat.le_of_not_lt hge)
      refine ⟨⟨h.created, hlt, Or.inr hall, ?_⟩, Nat.le_refl _, by dsimp only; omega⟩
      intro t ht
      by_cases e : t.val = m.joined
      · have ht : t = ⟨m.joined, hlt⟩ := Fin.ext e
        rw [ht]
        exact hstop
      · exact h.stopped t (by dsimp only at ht; omega)
    · cases hs

/-- A thread that moves is not one that has stopped. -/
theorem Main.Ok.moves {stopped' : Fin threads → Bool} (h : m.Ok stopped)
    (hkeep : ∀ t, stopped t = true → stopped' t = true) : m.Ok stopped' :=
  ⟨h.created, h.joined, h.first, fun t ht => hkeep t (h.stopped t ht)⟩

/-- `start` is blocked only at a thread that runs. -/
theorem Main.Ok.blocked (h : m.Ok stopped) (hs : m.step stopped = none) :
    m.created = threads ∧ ((∀ t, stopped t = true) → m.joined = threads) := by
  have hc := h.created
  have hj := h.joined
  unfold Main.step at hs
  split at hs
  · cases hs
  · refine ⟨by omega, ?_⟩
    intro hall
    split at hs
    · rw [if_pos (hall _)] at hs
      cases hs
    · omega

/-! ## Lower-case letters

A position is a number in base 26 whose digits are the letters. -/

def lettersAt : Nat → Nat → Text
  | 0, _ => []
  | n + 1, k => lettersAt n (k / 26) ++ [UInt8.ofNat (97 + k % 26)]

def positionOf (s : Text) : Nat := s.foldl (fun k b => k * 26 + (b.toNat - 97)) 0

theorem length_lettersAt {n k : Nat} : (lettersAt n k).length = n := by
  induction n generalizing k with
  | zero => rfl
  | succ n ih => rw [lettersAt, List.length_append, ih, List.length_singleton]

theorem positionOf_lettersAt {n k : Nat} (h : k < 26 ^ n) : positionOf (lettersAt n k) = k := by
  induction n generalizing k with
  | zero =>
    rw [Nat.pow_zero, Nat.lt_one_iff] at h
    rw [h]
    rfl
  | succ n ih =>
    have hdiv : k / 26 < 26 ^ n := Nat.div_lt_of_lt_mul (by rwa [Nat.pow_succ, Nat.mul_comm] at h)
    have hbyte : (UInt8.ofNat (97 + k % 26)).toNat = 97 + k % 26 := Nat.mod_eq_of_lt (by omega)
    have hrest := ih hdiv
    unfold positionOf at hrest ⊢
    rw [lettersAt, List.foldl_append, hrest, List.foldl_cons, List.foldl_nil, hbyte]
    omega

def letterCompletions (n : Nat) : List Text := (List.range (26 ^ n)).map (lettersAt n)

theorem letterCompletions_at {n k : Nat} {c : Text} (h : (letterCompletions n)[k]? = some c) :
    k < 26 ^ n ∧ c = lettersAt n k := by
  unfold letterCompletions at h
  rw [List.getElem?_map] at h
  rcases Option.map_eq_some_iff.mp h with ⟨i, hi, e⟩
  rcases List.getElem?_eq_some_iff.mp hi with ⟨hlt, hi⟩
  rw [List.length_range] at hlt
  rw [List.getElem_range] at hi
  exact ⟨hlt, by rw [← e, hi]⟩

def letterUtils (crypt : Text → Text) : Utils where
  getPrefixLength s := (s.takeWhile (· != 46)).length
  setStringPosition s k := lettersAt s.length k
  incrementString s :=
    let k := positionOf s + 1
    if k < 26 ^ s.length then (lettersAt s.length k, true) else (lettersAt s.length 0, false)
  getSubrange n threads i :=
    let bound := fun i => 26 ^ n * i / threads
    (bound (i - 1), bound i - bound (i - 1))
  crypt := crypt

theorem letterUtils_enumerates (crypt : Text → Text) : Enumerates (letterUtils crypt) letterCompletions where
  some_ n e := by
    have hlen := congrArg List.length e
    unfold letterCompletions at hlen
    rw [List.length_map, List.length_range, List.length_nil] at hlen
    exact absurd hlen (Nat.pos_iff_ne_zero.mp (Nat.pow_pos (by decide)))
  position s k c h := (letterCompletions_at h).2.symm
  next n k c c' h h' := by
    rcases letterCompletions_at h with ⟨hk, hc⟩
    rcases letterCompletions_at h' with ⟨hk', hc'⟩
    unfold letterUtils
    dsimp only
    rw [hc, positionOf_lettersAt hk, length_lettersAt, if_pos hk', hc']
  last n k c h hlast := by
    rcases letterCompletions_at h with ⟨hk, hc⟩
    unfold letterCompletions at hlast
    rw [List.length_map, List.length_range] at hlast
    unfold letterUtils
    dsimp only
    rw [hc, positionOf_lettersAt hk, length_lettersAt, if_neg (by omega)]

theorem letterUtils_splits (crypt : Text → Text) {threads : Nat} (h : 0 < threads) :
    Splits (letterUtils crypt) letterCompletions threads where
  first n := by simp [letterUtils]
  next n i hi _ := by
    have hmono : 26 ^ n * (i - 1) / threads ≤ 26 ^ n * i / threads :=
      Nat.div_le_div_right (Nat.mul_le_mul_left _ (Nat.sub_le i 1))
    unfold letterUtils
    dsimp only
    rw [Nat.add_sub_cancel, Nat.add_sub_cancel' hmono]
  last n := by
    have hmono : 26 ^ n * (threads - 1) / threads ≤ 26 ^ n * threads / threads :=
      Nat.div_le_div_right (Nat.mul_le_mul_left _ (Nat.sub_le threads 1))
    unfold letterUtils letterCompletions
    dsimp only
    rw [Nat.add_sub_cancel' hmono, Nat.mul_div_cancel _ h, List.length_map, List.length_range]

end SysProg.PasswordCracker
