/-
  SysProg.Shell.Tokens — how `run` of shell/shell.c cuts a line into words, and the
  indices it uses.

  `run` has two arrays of 30 words. `strtok` cuts the line at blanks and newlines; the
  words go to the first array until one of them is an operator or ends in a semicolon,
  then to the second, but a word that ends in a semicolon always goes to the first. After
  that both arrays are looked at one place back, for a trailing "&", and ended with NULL.
  No index is checked. `runIndices` lists the indices in the order in which they are used,
  up to a read at -1, whose value is not known; `arrays` is what the arrays hold in the end,
  when every index is inside.
  - `indices_inside_iff`: they lie between 0 and 29 exactly when the first array gets 1 to
    29 words, or 30 with "&" as the last, and so does the second when there is an operator
    or a semicolon.
  - `blank_line`: a blank is no word, and `words[-1]` is compared with "&".

  `run` is called again for a command of the history, with arrays of its own.
-/

import Mathlib.Data.List.TakeWhile
import SysProg.Lib.CString

namespace SysProg.Shell

open SysProg.CString (Text)

/-! ## The words of a line -/

/-- `strtok` until it returns NULL, with the bytes of the word so far. -/
def strtokAll (delim : UInt8 → Bool) (word : Text) : Text → List Text
  | [] => if word = [] then [] else [word]
  | b :: rest =>
    if delim b = true then
      if word = [] then strtokAll delim [] rest else word :: strtokAll delim [] rest
    else strtokAll delim (word ++ [b]) rest

/-- `" \n"` -/
def isDelim (b : UInt8) : Bool := b == 32 || b == 10

def tokens (input : Text) : List Text := strtokAll isDelim [] input

inductive Mode where
  | single
  /-- `;` -/
  | seq
  /-- `&&` -/
  | and
  /-- `||` -/
  | or
  /-- `>` -/
  | write
  /-- `<` -/
  | read
  /-- `>>` -/
  | append
  deriving DecidableEq

def operator (word : Text) : Option Mode :=
  if word = [38, 38] then some .and
  else if word = [124, 124] then some .or
  else if word = [62] then some .write
  else if word = [60] then some .read
  else if word = [62, 62] then some .append
  else none

def endsSemicolon (word : Text) : Bool := word.getLast? == some 59

/-- `words`, `words1` up to `n` and `m`, and `mode`. -/
structure Line where
  words : List Text
  words1 : List Text
  mode : Mode

/-- A round of the loop: the index of `words` or `words1` it writes, if any. -/
def place (s : Line) (word : Text) : Line × List Int :=
  if endsSemicolon word = true then
    ({ s with words := s.words ++ [word.dropLast], mode := .seq }, [s.words.length])
  else match operator word with
    | some mode => ({ s with mode := mode }, [])
    | none =>
      if s.mode ≠ .single then ({ s with words1 := s.words1 ++ [word] }, [s.words1.length])
      else ({ s with words := s.words ++ [word] }, [s.words.length])

def placeAll : Line → List Text → Line × List Int
  | s, [] => (s, [])
  | s, word :: rest =>
    let (s, i) := place s word
    let (s, is) := placeAll s rest
    (s, i ++ is)

def ampersand : Text := [38]

/-- `if (strcmp(a[n - 1], "&") == 0) n--; a[n] = NULL;` with the indices used: the array
    afterwards, unless there is no word before it. -/
def terminate (a : List Text) : Option (List Text) × List Int :=
  match a.getLast? with
  | none => (none, [-1])
  | some last =>
    let a' := if last = ampersand then a.dropLast else a
    (some a', [(a.length : Int) - 1, (a'.length : Int)])

/-- `run_cmd`: a NULL command stops the shell. -/
def runCmdIndices (a : List Text) : List Int :=
  match a with
  | [] => [0]
  | word :: _ => if word = [99, 100] then [0, 1] else [0]

/-- What comes after the arrays are ended; `failed` says whether the first command failed. -/
def dispatchIndices (mode : Mode) (words words1 : List Text) (failed : Bool) : List Int :=
  match words with
  | [] => [0]
  | word :: _ =>
    -- "!history", "#n" and "!prefix"
    if word.head? = some 35 ∨ word.head? = some 33 then [0]
    -- "kill", "stop", "cont"
    else if word = [107, 105, 108, 108] ∨ word = [115, 116, 111, 112] ∨ word = [99, 111, 110, 116] then [0, 1]
    else match mode with
      | .single => runCmdIndices words
      | .seq => runCmdIndices words ++ runCmdIndices words1
      | .and => runCmdIndices words ++ if failed = true then [] else runCmdIndices words1
      | .or => runCmdIndices words ++ if failed = true then runCmdIndices words1 else []
      | .write | .read | .append => [0, 0]

def runIndices (input : Text) (failed : Bool) : List Int :=
  let (s, split) := placeAll ⟨[], [], .single⟩ (tokens input)
  match terminate s.words with
  | (none, look) => split ++ look
  | (some words, look) =>
    if s.mode ≠ .single then
      match terminate s.words1 with
      | (none, look1) => split ++ look ++ look1
      | (some words1, look1) => split ++ look ++ look1 ++ dispatchIndices s.mode words words1 failed
    else split ++ look ++ dispatchIndices s.mode words [] failed

def Inside (i : Int) : Prop := 0 ≤ i ∧ i ≤ 29

instance (i : Int) : Decidable (Inside i) := inferInstanceAs (Decidable (_ ∧ _))

/-- What the arrays hold when they are ended, and `mode`, if no index before that is outside. -/
def arrays (input : Text) : Option Line :=
  let (s, split) := placeAll ⟨[], [], .single⟩ (tokens input)
  match terminate s.words with
  | (none, _) => none
  | (some words, look) =>
    if s.mode ≠ .single then
      match terminate s.words1 with
      | (none, _) => none
      | (some words1, look1) =>
        if ∀ i ∈ split ++ look ++ look1, Inside i then some ⟨words, words1, s.mode⟩ else none
    else if ∀ i ∈ split ++ look, Inside i then some ⟨words, [], s.mode⟩ else none

/-! ## Where the words go -/

/-- An operator, or a word that ends in a semicolon. -/
def separates (word : Text) : Bool := endsSemicolon word || (operator word).isSome

/-- The words of the first array: those before the first separator, and the ones that end
    in a semicolon. -/
def firstWords (l : List Text) : List Text :=
  l.takeWhile (fun w => !separates w) ++
    ((l.dropWhile fun w => !separates w).filter endsSemicolon).map List.dropLast

/-- The words of the second: those after the first separator that are none. -/
def secondWords (l : List Text) : List Text := (l.dropWhile fun w => !separates w).filter fun w => !separates w

/-- An array of 30 has room for the words and the NULL, and there is a word to look at. -/
def Fits (l : List Text) : Prop := 0 < l.length ∧ (l.length ≤ 29 ∨ l.length = 30 ∧ l.getLast? = some ampersand)

def FitsArrays (input : Text) : Prop :=
  Fits (firstWords (tokens input)) ∧ ((tokens input).any separates = true → Fits (secondWords (tokens input)))

variable {l : List Text} {s : Line} {word input : Text}

/-! ## What a round of the loop does -/

theorem place_semicolon (h : endsSemicolon word = true) :
    place s word = ({ s with words := s.words ++ [word.dropLast], mode := .seq }, [(s.words.length : Int)]) := by
  rw [place, if_pos h]

theorem place_operator {mode : Mode} (h : endsSemicolon word = false) (ho : operator word = some mode) :
    place s word = ({ s with mode := mode }, []) := by
  simp only [place, h, ho, Bool.false_eq_true, if_false]

theorem place_second (h : separates word = false) (hs : s.mode ≠ .single) :
    place s word = ({ s with words1 := s.words1 ++ [word] }, [(s.words1.length : Int)]) := by
  obtain ⟨he, ho⟩ := Bool.or_eq_false_iff.mp h
  simp only [place, he, Option.not_isSome_iff_eq_none.mp (Bool.eq_false_iff.mp ho), Bool.false_eq_true, if_false, hs,
    ne_eq, not_false_eq_true, if_true]

theorem place_first (h : separates word = false) (hs : s.mode = .single) :
    place s word = ({ s with words := s.words ++ [word] }, [(s.words.length : Int)]) := by
  obtain ⟨he, ho⟩ := Bool.or_eq_false_iff.mp h
  simp only [place, he, Option.not_isSome_iff_eq_none.mp (Bool.eq_false_iff.mp ho), Bool.false_eq_true, if_false, hs,
    ne_eq, not_true_eq_false]

theorem operator_ne_single {mode : Mode} (h : operator word = some mode) : mode ≠ .single := by
  unfold operator at h
  split_ifs at h <;> cases h <;> simp

/-- A separator is a word that ends in a semicolon, or an operator. -/
theorem separates_cases (h : separates word = true) :
    endsSemicolon word = true ∨ endsSemicolon word = false ∧ ∃ mode, operator word = some mode := by
  cases he : endsSemicolon word with
  | true => exact Or.inl rfl
  | false =>
    rw [separates, he, Bool.false_or] at h
    exact Or.inr ⟨rfl, Option.isSome_iff_exists.mp h⟩

/-! ## Where the loop puts the words -/

/-- After a separator. -/
theorem placeAll_second (hs : s.mode ≠ .single) :
    (placeAll s l).1.words = s.words ++ (l.filter endsSemicolon).map List.dropLast ∧
    (placeAll s l).1.words1 = s.words1 ++ l.filter (fun w => !separates w) ∧ (placeAll s l).1.mode ≠ .single := by
  induction l generalizing s with
  | nil => simpa [placeAll] using hs
  | cons word l ih =>
    unfold placeAll
    by_cases hsep : separates word = true
    · rcases separates_cases hsep with he | ⟨he, mode, ho⟩
      · obtain ⟨h1, h2, h3⟩ := ih (s := { s with words := s.words ++ [word.dropLast], mode := .seq }) (by simp)
        rw [place_semicolon he]
        exact ⟨by simp [h1, he], by simp [h2, hsep], h3⟩
      · obtain ⟨h1, h2, h3⟩ := ih (s := { s with mode := mode }) (operator_ne_single ho)
        rw [place_operator he ho]
        exact ⟨by simp [h1, he], by simp [h2, hsep], h3⟩
    · have hno := Bool.eq_false_iff.mpr hsep
      obtain ⟨he, -⟩ := Bool.or_eq_false_iff.mp hno
      obtain ⟨h1, h2, h3⟩ := ih (s := { s with words1 := s.words1 ++ [word] }) hs
      rw [place_second hno hs]
      exact ⟨by simp [h1, he], by simp [h2, hno], h3⟩

/-- From the start of the line. -/
theorem placeAll_first (hs : s.mode = .single) :
    (placeAll s l).1.words = s.words ++ firstWords l ∧ (placeAll s l).1.words1 = s.words1 ++ secondWords l ∧
    ((placeAll s l).1.mode ≠ .single ↔ l.any separates = true) := by
  induction l generalizing s with
  | nil => simp [placeAll, firstWords, secondWords, hs]
  | cons word l ih =>
    unfold placeAll
    by_cases hsep : separates word = true
    · rcases separates_cases hsep with he | ⟨he, mode, ho⟩
      · obtain ⟨h1, h2, h3⟩ := placeAll_second (l := l)
          (s := { s with words := s.words ++ [word.dropLast], mode := .seq }) (by simp)
        rw [place_semicolon he]
        exact ⟨by simp [h1, firstWords, hsep, he], by simp [h2, secondWords, hsep], by simp [h3, hsep]⟩
      · obtain ⟨h1, h2, h3⟩ := placeAll_second (l := l) (s := { s with mode := mode }) (operator_ne_single ho)
        rw [place_operator he ho]
        exact ⟨by simp [h1, firstWords, hsep, he], by simp [h2, secondWords, hsep], by simp [h3, hsep]⟩
    · have hno := Bool.eq_false_iff.mpr hsep
      obtain ⟨h1, h2, h3⟩ := ih (s := { s with words := s.words ++ [word] }) hs
      rw [place_first hno hs]
      exact ⟨by simp [h1, firstWords, hno], by simp [h2, secondWords, hno], by simp [h3, hno]⟩

theorem placed_first {i : Int} {a b c d : Nat} (h : a + 1 ≤ b) :
    (i = a ∨ ∃ k : Nat, i = k ∧ (a + 1 ≤ k ∧ k < b ∨ c ≤ k ∧ k < d)) ↔
      ∃ k : Nat, i = k ∧ (a ≤ k ∧ k < b ∨ c ≤ k ∧ k < d) := by
  constructor
  · intro hi
    rcases hi with rfl | ⟨k, rfl, hk⟩
    · exact ⟨a, rfl, by omega⟩
    · exact ⟨k, rfl, by omega⟩
  · intro ⟨k, hik, hk⟩
    by_cases hka : k = a
    · exact Or.inl (hik.trans (congrArg Nat.cast hka))
    · exact Or.inr ⟨k, hik, by omega⟩

theorem placed_second {i : Int} {a b c d : Nat} (h : c + 1 ≤ d) :
    (i = c ∨ ∃ k : Nat, i = k ∧ (a ≤ k ∧ k < b ∨ c + 1 ≤ k ∧ k < d)) ↔
      ∃ k : Nat, i = k ∧ (a ≤ k ∧ k < b ∨ c ≤ k ∧ k < d) := by
  simp only [or_comm (a := a ≤ _ ∧ _)]
  exact placed_first h

/-- The indices the loop writes are those of the words it adds. -/
theorem placeAll_indices {i : Int} : i ∈ (placeAll s l).2 ↔ ∃ k : Nat, i = k ∧
    (s.words.length ≤ k ∧ k < (placeAll s l).1.words.length ∨
      s.words1.length ≤ k ∧ k < (placeAll s l).1.words1.length) := by
  induction l generalizing s with
  | nil => simp [placeAll]
  | cons word l ih =>
    have hgrow : ∀ t : Line, t.words.length ≤ (placeAll t l).1.words.length ∧
        t.words1.length ≤ (placeAll t l).1.words1.length := fun t => by
      by_cases ht : t.mode = .single
      · obtain ⟨h1, h2, -⟩ := placeAll_first (l := l) ht
        simp [h1, h2]
      · obtain ⟨h1, h2, -⟩ := placeAll_second (l := l) ht
        simp [h1, h2]
    unfold placeAll
    by_cases hsep : separates word = true
    · rcases separates_cases hsep with he | ⟨he, mode, ho⟩
      · have hle := hgrow { s with words := s.words ++ [word.dropLast], mode := .seq }
        rw [place_semicolon he]
        simp only [List.mem_append, List.mem_singleton, ih, List.length_append, List.length_singleton] at hle ⊢
        exact placed_first hle.1
      · rw [place_operator he ho]
        simpa using ih
    · have hno := Bool.eq_false_iff.mpr hsep
      by_cases hs : s.mode = .single
      · have hle := hgrow { s with words := s.words ++ [word] }
        rw [place_first hno hs]
        simp only [List.mem_append, List.mem_singleton, ih, List.length_append, List.length_singleton] at hle ⊢
        exact placed_first hle.1
      · have hle := hgrow { s with words1 := s.words1 ++ [word] }
        rw [place_second hno hs]
        simp only [List.mem_append, List.mem_singleton, ih, List.length_append, List.length_singleton] at hle ⊢
        exact placed_second hle.2

/-! ## The end of an array -/

theorem terminate_nil : terminate [] = (none, [-1]) := rfl

/-- The array is looked at and ended inside exactly when it fits. -/
theorem terminate_inside {a : List Text} (ha : a ≠ []) : ∃ a' look, terminate a = (some a', look) ∧
    ((∀ i ∈ look, Inside i) ∧ a.length ≤ 30 ↔ Fits a) := by
  have hpos := List.length_pos_iff.mpr ha
  obtain ⟨last, hlast⟩ := Option.isSome_iff_exists.mp (List.getLast?_isSome.mpr ha)
  unfold terminate Fits
  rw [hlast]
  refine ⟨_, _, rfl, ?_⟩
  by_cases hamp : last = ampersand
  · simp only [hamp, if_true, List.length_dropLast, List.mem_cons, List.not_mem_nil, or_false, forall_eq_or_imp,
      forall_eq, Inside, and_true]
    omega
  · simp only [hamp, if_false, List.mem_cons, List.not_mem_nil, or_false, forall_eq_or_imp, forall_eq, Inside,
      Option.some.injEq, and_false]
    omega

theorem runCmdIndices_inside {a : List Text} : ∀ i ∈ runCmdIndices a, Inside i := by
  intro i hi
  unfold runCmdIndices at hi
  split at hi
  · rw [List.mem_singleton] at hi
    subst hi
    exact ⟨by omega, by omega⟩
  · split at hi <;> simp at hi <;> unfold Inside <;> omega

/-- The dispatch uses 0 and 1. -/
theorem dispatchIndices_inside {mode : Mode} {words words1 : List Text} {failed : Bool} :
    ∀ i ∈ dispatchIndices mode words words1 failed, Inside i := by
  have hcmd := @runCmdIndices_inside
  intro i hi
  unfold dispatchIndices at hi
  split at hi
  · rw [List.mem_singleton] at hi
    subst hi
    exact ⟨by omega, by omega⟩
  split at hi
  · rw [List.mem_singleton] at hi
    subst hi
    exact ⟨by omega, by omega⟩
  split at hi
  · simp at hi
    unfold Inside
    omega
  cases mode with
  | single => exact hcmd i hi
  | seq => exact (List.mem_append.mp hi).elim (hcmd i) (hcmd i)
  | and =>
    rcases List.mem_append.mp hi with hi | hi
    · exact hcmd i hi
    · split at hi
      · cases hi
      · exact hcmd i hi
  | or =>
    rcases List.mem_append.mp hi with hi | hi
    · exact hcmd i hi
    · split at hi
      · exact hcmd i hi
      · cases hi
  | write | read | append =>
    simp at hi
    unfold Inside
    omega

/-! ## The indices of a line -/

/-- The indices written are inside exactly when neither array gets more than 30 words. -/
theorem split_inside (l : List Text) :
    (∀ i ∈ (placeAll ⟨[], [], .single⟩ l).2, Inside i) ↔ (firstWords l).length ≤ 30 ∧ (secondWords l).length ≤ 30 := by
  obtain ⟨h1, h2, -⟩ := placeAll_first (l := l) (s := ⟨[], [], .single⟩) rfl
  simp only [placeAll_indices, h1, h2, List.nil_append, List.length_nil, Inside]
  constructor
  · intro h
    constructor
    · by_contra hgt
      have := h 30 ⟨30, rfl, by omega⟩
      omega
    · by_contra hgt
      have := h 30 ⟨30, rfl, by omega⟩
      omega
  · intro ⟨ha, hb⟩ i ⟨k, hk, hlt⟩
    omega

/-- Without a separator the second array gets no word. -/
theorem secondWords_nil (h : ¬ l.any separates = true) : secondWords l = [] := by
  have hall : ∀ w ∈ l, (!separates w) = true := by
    intro w hw
    by_contra hno
    exact h (List.any_eq_true.mpr ⟨w, hw, by simpa using hno⟩)
  unfold secondWords
  rw [List.dropWhile_eq_nil_iff.mpr hall]
  rfl

/-- The arrays are ended when the words fit in them. -/
theorem arrays_iff : (arrays input).isSome = true ↔ FitsArrays input := by
  have hsplit := split_inside (tokens input)
  obtain ⟨h1, h2, hmode⟩ := placeAll_first (l := tokens input) (s := ⟨[], [], .single⟩) rfl
  rw [List.nil_append] at h1 h2
  unfold arrays FitsArrays
  rcases hplace : placeAll ⟨[], [], .single⟩ (tokens input) with ⟨⟨words, words1, mode⟩, split⟩
  rw [hplace] at h1 h2 hmode hsplit
  simp only at h1 h2 hmode hsplit ⊢
  subst h1 h2
  by_cases hw : firstWords (tokens input) = []
  · -- nothing to look at
    rw [hw, terminate_nil]
    exact ⟨fun h => absurd h Bool.false_ne_true, fun h => absurd h.1.1 (Nat.lt_irrefl 0)⟩
  obtain ⟨a, look, ha, hfit⟩ := terminate_inside hw
  rw [ha]
  by_cases hm : mode ≠ .single
  · have hsep := hmode.mp hm
    simp only [hm, if_true, ne_eq, not_false_eq_true]
    by_cases hw1 : secondWords (tokens input) = []
    · rw [hw1, terminate_nil]
      exact ⟨fun h => absurd h Bool.false_ne_true, fun h => absurd (h.2 hsep).1 (Nat.lt_irrefl 0)⟩
    · obtain ⟨a1, look1, ha1, hfit1⟩ := terminate_inside hw1
      rw [ha1]
      simp only [Option.isSome_ite, List.forall_mem_append, hsplit, hsep, true_implies, ← hfit, ← hfit1]
      constructor
      · intro ⟨⟨hs, hl⟩, hl1⟩
        exact ⟨⟨hl, hs.1⟩, hl1, hs.2⟩
      · intro ⟨⟨hl, hs⟩, hl1, hs1⟩
        exact ⟨⟨⟨hs, hs1⟩, hl⟩, hl1⟩
  · have hsep : ¬ (tokens input).any separates = true := fun h => hm (hmode.mpr h)
    have hnone : (secondWords (tokens input)).length ≤ 30 := by
      rw [secondWords_nil hsep]
      exact Nat.zero_le 30
    dsimp only
    rw [if_neg hm, Option.isSome_ite, List.forall_mem_append, hsplit, ← hfit]
    constructor
    · intro ⟨hs, hl⟩
      exact ⟨⟨hl, hs.1⟩, fun h => absurd h hsep⟩
    · intro ⟨⟨hl, hs⟩, _⟩
      exact ⟨⟨hs, hnone⟩, hl⟩

/-- After that only places inside are used. -/
theorem runIndices_inside (failed : Bool) :
    (∀ i ∈ runIndices input failed, Inside i) ↔ (arrays input).isSome = true := by
  have hoff : ¬ Inside (-1) := by
    unfold Inside
    omega
  unfold runIndices arrays
  rcases placeAll ⟨[], [], .single⟩ (tokens input) with ⟨⟨words, words1, mode⟩, split⟩
  dsimp only
  by_cases hw : words = []
  · rw [hw, terminate_nil]
    exact ⟨fun h => absurd (h (-1) (by simp)) hoff, fun h => absurd h Bool.false_ne_true⟩
  obtain ⟨a, look, ha, -⟩ := terminate_inside hw
  rw [ha]
  dsimp only
  by_cases hm : mode ≠ .single
  · rw [if_pos hm, if_pos hm]
    by_cases hw1 : words1 = []
    · rw [hw1, terminate_nil]
      exact ⟨fun h => absurd (h (-1) (by simp)) hoff, fun h => absurd h Bool.false_ne_true⟩
    · obtain ⟨a1, look1, ha1, -⟩ := terminate_inside hw1
      rw [ha1]
      dsimp only
      rw [Option.isSome_ite, List.forall_mem_append]
      exact and_iff_left dispatchIndices_inside
  · rw [if_neg hm, if_neg hm, Option.isSome_ite, List.forall_mem_append]
    exact and_iff_left dispatchIndices_inside

/-- Every index lies inside exactly when the words fit. -/
theorem indices_inside_iff (input : Text) (failed : Bool) :
    (∀ i ∈ runIndices input failed, Inside i) ↔
      Fits (firstWords (tokens input)) ∧ ((tokens input).any separates = true → Fits (secondWords (tokens input))) :=
  (runIndices_inside failed).trans arrays_iff

/-- "ls -l > x &". -/
example : runIndices [108, 115, 32, 45, 108, 32, 62, 32, 120, 32, 38, 10] false = [0, 1, 0, 1, 1, 2, 1, 1, 0, 0] := by
  decide

/-- A blank and a newline; "&& x"; "x &&"; and 31 words of one letter. -/
theorem blank_line :
    runIndices [32, 10] false = [-1] ∧ ¬ (∀ i ∈ runIndices [32, 10] false, Inside i) ∧
    ¬ (∀ i ∈ runIndices [38, 38, 32, 120, 10] false, Inside i) ∧
    ¬ (∀ i ∈ runIndices [120, 32, 38, 38, 10] false, Inside i) ∧
    ¬ ∀ i ∈ runIndices ((List.range 31).flatMap fun _ => [120, 32]) false, Inside i := by
  have hblank : runIndices [32, 10] false = [-1] := by decide
  have hbad : ¬ Inside (-1) := by unfold Inside; omega
  have hlast : ¬ Inside 30 := by unfold Inside; omega
  refine ⟨hblank, fun h => hbad (h _ (by rw [hblank]; simp)), fun h => hbad (h _ (by decide)),
    fun h => hbad (h _ (by decide)), fun h => hlast (h _ (by decide))⟩

end SysProg.Shell
