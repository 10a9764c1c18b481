/-
  SysProg.Shell.Replay — the history commands of `run`, shell/shell.c.

  `dispatch` is what `run` decides on when a line is cut into words: "#n" runs the entry
  with the number n again, "!prefix" the last entry that starts with the prefix. The number
  is only compared with the size of the history, and that with `>`: the number of entries
  and the negative numbers are used as indices. A read outside the history or outside
  `words` has no result, and neither has `atoi` of a number that is no int.
  - `replays_iff`: "#n" runs entry n or reports an invalid index exactly when n is not
    negative, not the number of entries and below 2^31; "!prefix" runs the last match or
    reports that there is none exactly when the words of the line fit in the arrays and the
    first one is not "!history".
  - `one_past_the_history`: "#1" and "#-1" with one entry.
-/

import Mathlib.Data.List.Forall2
import SysProg.Lib.Atoi
import SysProg.Shell.History
import SysProg.Shell.Tokens

namespace SysProg.Shell

open SysProg.Atoi (Number atoi atoi_number)
open SysProg.CString (Text cstr cstr_eq_some)

/-- "!history" -/
def historyWord : Text := [33, 104, 105, 115, 116, 111, 114, 121]

/-- "kill", "stop" and "cont". -/
def signalWords : List Text := [[107, 105, 108, 108], [115, 116, 111, 112], [99, 111, 110, 116]]

inductive Action where
  | showHistory
  | invalidIndex
  | replay (i : Nat) (command : Text)
  | noMatch
  | signal (line : Line)
  | external (command : Text) (line : Line)

def found : Option (Nat × Text) → Action
  | some (i, command) => .replay i command
  | none => .noMatch

/-- `if (input[strlen(input)-1] == '\n') input[strlen(input)-1] = '\0';` -/
def stripNewline (input : Text) : Option Text :=
  if input = [] then none else if input.getLast? = some 10 then some input.dropLast else some input

/-- `history[num].command`, which is to be an entry. -/
def entry (history : List Process) (num : Int) : Option Text :=
  if 0 ≤ num then history[num.toNat]?.bind fun p => cstr p.command else none

/-- The loop over the bytes of the prefix; it reads the block of the command. -/
def startsWith : Text → Text → Option Bool
  | [], _ => some true
  | _ :: _, [] => none
  | p :: pfx, b :: command => if b ≠ p then some false else startsWith pfx command

/-- The loop over the entries, from the last of the first `i` on. -/
def findPrefix (history : List Process) (pfx : Text) : Nat → Option (Option (Nat × Text))
  | 0 => some none
  | i + 1 => history[i]?.bind fun p => (startsWith pfx p.command).bind fun flag =>
    if flag = true then (cstr p.command).map fun command => some (i, command) else findPrefix history pfx i

def dispatch (history : List Process) (input : Text) : Option Action :=
  (stripNewline input).bind fun command => (arrays input).bind fun line =>
    match line.words with
    -- `words[0]` is NULL
    | [] => none
    | word :: _ =>
      if word = historyWord then some .showHistory
      else if word.head? = some 35 then
        (atoi word.tail).bind fun num =>
          if num > history.length then some .invalidIndex
          else (entry history num).map fun command => .replay num.toNat command
      else if word.head? = some 33 then
        (findPrefix history command.tail history.length).map found
      else if word ∈ signalWords then some (.signal line)
      else some (.external command line)

/-! ## What is asked of it -/

def Latest (cs : List Text) (pfx : Text) (i : Nat) (c : Text) : Prop :=
  cs[i]? = some c ∧ pfx <+: c ∧ ∀ j d, i < j → cs[j]? = some d → ¬ pfx <+: d

/-- Entry `n` is run again, and an index is invalid when there is none. -/
def ReplaysIndex (history : List Process) (cs : List Text) (n : Int) (line : Text) : Prop :=
  (∀ c, 0 ≤ n → cs[n.toNat]? = some c → dispatch history line = some (.replay n.toNat c)) ∧
  (n < 0 ∨ cs.length ≤ n → dispatch history line = some .invalidIndex)

/-- The last entry with the prefix is run again, and it is said when there is none. -/
def ReplaysPrefix (history : List Process) (cs : List Text) (pfx line : Text) : Prop :=
  (∀ i c, Latest cs pfx i c → dispatch history line = some (.replay i c)) ∧
  ((∀ c ∈ cs, ¬ pfx <+: c) → dispatch history line = some .noMatch)

def Newline (nl : Text) : Prop := nl = [] ∨ nl = [10]

variable {history : List Process} {cs : List Text} {pfx t nl block c w l input : Text} {s : Line} {n : Int} {i k : Nat}
  {b : UInt8}

/-! ## The history -/

theorem held_get (hold : HoldsCommands history cs) (h : cs[i]? = some c) :
    ∃ p, history[i]? = some p ∧ cstr p.command = some c := by
  induction hold generalizing i with
  | nil => cases h
  | @cons p d history cs hp _ ih =>
    cases i with
    | zero =>
      cases h
      exact ⟨p, rfl, hp.1⟩
    | succ i => exact ih h

theorem entry_held (hold : HoldsCommands history cs) (h0 : 0 ≤ n) : entry history n = cs[n.toNat]? := by
  unfold entry
  rw [if_pos h0]
  cases h : cs[n.toNat]? with
  | none =>
    rw [List.getElem?_eq_none_iff, ← hold.length_eq, ← List.getElem?_eq_none_iff] at h
    rw [h]
    rfl
  | some c =>
    obtain ⟨p, hp, hc⟩ := held_get hold h
    rw [hp]
    exact hc

/-- The terminator of a shorter command differs from any byte of the prefix. -/
theorem startsWith_block (hc : cstr block = some c) (h0 : 0 ∉ pfx) :
    startsWith pfx block = some (pfx.isPrefixOf c) := by
  obtain ⟨rest, rfl, -⟩ := cstr_eq_some.mp hc
  clear hc
  induction pfx generalizing c with
  | nil => rfl
  | cons p pfx ih =>
    rw [List.mem_cons, not_or] at h0
    cases c with
    | nil => exact if_pos h0.1
    | cons b c =>
      show (if b ≠ p then some false else startsWith pfx (c ++ 0 :: rest)) = some (p == b && pfx.isPrefixOf c)
      by_cases hb : b = p
      · rw [if_neg (not_not.mpr hb), ih h0.2, hb, beq_self_eq_true, Bool.true_and]
      · rw [if_pos hb, beq_false_of_ne (Ne.symm hb), Bool.false_and]

/-- The search finds the last entry with the prefix among those it has looked at. -/
theorem findPrefix_spec (hold : HoldsCommands history cs) (h0 : 0 ∉ pfx) (hk : k ≤ cs.length) :
    (findPrefix history pfx k = some none ∧ ∀ j d, j < k → cs[j]? = some d → ¬ pfx <+: d) ∨
    ∃ i c, findPrefix history pfx k = some (some (i, c)) ∧ cs[i]? = some c ∧ pfx <+: c ∧
      ∀ j d, i < j → j < k → cs[j]? = some d → ¬ pfx <+: d := by
  induction k with
  | zero =>
    refine Or.inl ⟨rfl, ?_⟩
    intro j d hj
    cases hj
  | succ k ih =>
    have hget : cs[k]? = some cs[k] := List.getElem?_eq_getElem hk
    obtain ⟨p, hp, hc⟩ := held_get hold hget
    unfold findPrefix
    rw [hp, Option.bind_some, startsWith_block hc h0, Option.bind_some, hc, Option.map_some]
    by_cases hpfx : pfx <+: cs[k]
    · rw [if_pos (List.isPrefixOf_iff_prefix.mpr hpfx)]
      refine Or.inr ⟨k, cs[k], rfl, hget, hpfx, ?_⟩
      intro j d hkj hj
      omega
    · rw [if_neg (fun h => hpfx (List.isPrefixOf_iff_prefix.mp h))]
      have hlast : ∀ j d, j < k + 1 → ¬ j < k → cs[j]? = some d → ¬ pfx <+: d := by
        intro j d hj hjk hd
        obtain rfl : j = k := by omega
        rw [hget] at hd
        exact Option.some.inj hd ▸ hpfx
      rcases ih (Nat.le_of_succ_le hk) with ⟨hnone, hall⟩ | ⟨i, c, hsome, hi, hc, hall⟩
      · refine Or.inl ⟨hnone, ?_⟩
        intro j d hj hd
        by_cases hjk : j < k
        · exact hall j d hjk hd
        · exact hlast j d hj hjk hd
      · refine Or.inr ⟨i, c, hsome, hi, hc, ?_⟩
        intro j d hij hj hd
        by_cases hjk : j < k
        · exact hall j d hij hjk hd
        · exact hlast j d hj hjk hd

/-! ## The first word -/

theorem strtokAll_word {delim : UInt8 → Bool} (hw : w ≠ []) : strtokAll delim w l =
    (w ++ l.takeWhile (fun b => !delim b)) :: strtokAll delim [] (l.dropWhile fun b => !delim b) := by
  induction l generalizing w with
  | nil => simp [strtokAll, hw]
  | cons b l ih =>
    by_cases hb : delim b = true
    · simp [strtokAll, hw, hb]
    · rw [strtokAll, if_neg hb, ih (by simp)]
      simp [hb]

/-- A line that starts with a byte that is no delimiter has a word that starts with it. -/
theorem tokens_cons (hb : isDelim b = false) : tokens (b :: l) =
    (b :: l.takeWhile fun b => !isDelim b) :: tokens (l.dropWhile fun b => !isDelim b) := by
  unfold tokens
  rw [strtokAll, if_neg (by rw [hb]; exact Bool.false_ne_true), List.nil_append, strtokAll_word (List.cons_ne_nil b [])]
  rfl

/-- '#' and '!', which start no operator. -/
def Marks (b : UInt8) : Prop := b = 35 ∨ b = 33

theorem operator_marks (hb : Marks b) : operator (b :: w) = none := by
  rcases hb with rfl | rfl <;> simp [operator]

/-- A semicolon at its end is cut off, and the word before it is the first one. -/
theorem firstWords_marks {rest : List Text} (hb : Marks b) :
    ∃ w' rest', firstWords ((b :: w) :: rest) = (b :: w') :: rest' := by
  have ho := operator_marks (w := w) hb
  by_cases he : endsSemicolon (b :: w) = true
  · have hw : w ≠ [] := by
      intro hnil
      subst hnil
      rcases hb with rfl | rfl <;> cases he
    refine ⟨w.dropLast, (rest.filter endsSemicolon).map List.dropLast, ?_⟩
    rw [firstWords, List.takeWhile_cons_of_neg (by simp [separates, he]),
      List.dropWhile_cons_of_neg (by simp [separates, he]), List.filter_cons_of_pos he, List.map_cons,
      List.dropLast_cons_of_ne_nil hw]
    rfl
  · refine ⟨w, firstWords rest, ?_⟩
    rw [firstWords, List.takeWhile_cons_of_pos (by simp [separates, he, ho]),
      List.dropWhile_cons_of_pos (by simp [separates, he, ho])]
    rfl

/-- The words that are left when the array is ended. -/
theorem arrays_words (h : arrays input = some s) : (terminate (firstWords (tokens input))).1 = some s.words := by
  obtain ⟨h1, -, -⟩ := placeAll_first (l := tokens input) (s := ⟨[], [], .single⟩) rfl
  rw [List.nil_append] at h1
  unfold arrays at h
  rw [← h1]
  generalize placeAll ⟨[], [], .single⟩ (tokens input) = placed at h ⊢
  obtain ⟨⟨words, words1, mode⟩, split⟩ := placed
  dsimp only at h ⊢
  generalize terminate words = ended at h ⊢
  obtain ⟨_ | a, look⟩ := ended
  · cases h
  dsimp only at h ⊢
  split at h
  · generalize terminate words1 = ended1 at h
    obtain ⟨_ | a1, look1⟩ := ended1
    · cases h
    dsimp only at h
    split at h
    · cases h
      rfl
    · cases h
  · split at h
    · cases h
      rfl
    · cases h

/-- The first word stays, unless the array is nothing but "&". -/
theorem terminate_cons {rest : List Text} (hw : w :: rest ≠ [ampersand]) :
    ∃ rest', (terminate (w :: rest)).1 = some (w :: rest') := by
  obtain ⟨last, hlast⟩ := Option.isSome_iff_exists.mp (List.getLast?_isSome.mpr (List.cons_ne_nil w rest))
  unfold terminate
  rw [hlast]
  dsimp only
  by_cases hamp : last = ampersand
  · rw [if_pos hamp]
    have hrest : rest ≠ [] := by
      intro hnil
      subst hnil
      cases hlast
      exact hw (congrArg (· :: []) hamp)
    exact ⟨rest.dropLast, by rw [List.dropLast_cons_of_ne_nil hrest]⟩
  · rw [if_neg hamp]
    exact ⟨rest, rfl⟩

theorem arrays_first {rest : List Text} (h : arrays input = some s) (hw : w :: rest ≠ [ampersand])
    (hfirst : firstWords (tokens input) = w :: rest) : ∃ rest', s.words = w :: rest' := by
  have hwords := arrays_words h
  obtain ⟨rest', hrest⟩ := terminate_cons hw
  rw [hfirst, hrest] at hwords
  exact ⟨rest', (Option.some.inj hwords).symm⟩

/-! ## A line with "#" or "!" -/

theorem stripNewline_line (hnl : Newline nl) (h10 : 10 ∉ l) (hl : l ++ nl ≠ []) : stripNewline (l ++ nl) = some l := by
  unfold stripNewline
  rcases hnl with rfl | rfl
  · rw [List.append_nil] at hl ⊢
    rw [if_neg hl, if_neg]
    exact fun h => h10 (List.mem_of_getLast? h)
  · simp

/-- A number is the only word of its line. -/
theorem number_line (hnum : Number t n) (hnl : Newline nl) : firstWords (tokens (35 :: t ++ nl)) = [35 :: t] ∧
    FitsArrays (35 :: t ++ nl) ∧ 10 ∉ 35 :: t := by
  obtain ⟨hne, hbytes⟩ := hnum.bytes
  have hclear : ∀ b ∈ t, isDelim b = false ∧ b ≠ 59 ∧ b ≠ 10 := by
    intro b hb
    have hcases : 48 ≤ b.toNat ∧ b.toNat ≤ 57 ∨ b.toNat = 43 ∨ b.toNat = 45 := by
      rcases hbytes b hb with hd | rfl | rfl
      · exact Or.inl (Atoi.digit_range hd)
      · exact Or.inr (Or.inl rfl)
      · exact Or.inr (Or.inr rfl)
    refine ⟨?_, ?_, ?_⟩
    · simp only [isDelim, Bool.or_eq_false_iff, beq_eq_false_iff_ne, ne_eq, ← UInt8.toNat_inj]
      show ¬ b.toNat = 32 ∧ ¬ b.toNat = 10
      omega
    · intro e
      subst e
      exact absurd hcases (by decide)
    · intro e
      subst e
      exact absurd hcases (by decide)
  have hsplit : ∀ b ∈ t, (!isDelim b) = true := by
    intro b hb
    rw [(hclear b hb).1]
    rfl
  have htokens : tokens (35 :: t ++ nl) = [35 :: t] := by
    rw [List.cons_append, tokens_cons rfl, List.takeWhile_append_of_pos hsplit, List.dropWhile_append_of_pos hsplit]
    rcases hnl with rfl | rfl <;> simp [tokens, strtokAll, isDelim]
  have hsep : separates (35 :: t) = false := by
    have hsemi : endsSemicolon (35 :: t) = false := by
      unfold endsSemicolon
      rw [List.getLast?_cons_of_ne_nil hne, beq_eq_false_iff_ne]
      exact fun h => (hclear 59 (List.mem_of_getLast? h)).2.1 rfl
    rw [separates, hsemi, operator_marks (Or.inl rfl)]
    rfl
  have hfirst : firstWords [35 :: t] = [35 :: t] := by simp [firstWords, hsep]
  refine ⟨by rw [htokens, hfirst], ⟨?_, ?_⟩, ?_⟩
  · rw [htokens, hfirst]
    exact ⟨Nat.zero_lt_one, Or.inl (by simp)⟩
  · intro hany
    rw [htokens, List.any_cons, hsep] at hany
    cases hany
  · rw [List.mem_cons, not_or]
    exact ⟨by decide, fun hm => (hclear 10 hm).2.2 rfl⟩

/-- What is decided on for a line that starts with one of the two marks. -/
theorem dispatch_marks {rest : List Text} (hb : Marks b) (hstrip : stripNewline l = some input)
    (harrays : arrays l = some s) (hfirst : firstWords (tokens l) = (b :: w) :: rest) :
    dispatch history l =
      if b :: w = historyWord then some .showHistory
      else if b = 35 then
        (atoi w).bind fun num =>
          if num > history.length then some .invalidIndex
          else (entry history num).map fun command => .replay num.toNat command
      else (findPrefix history input.tail history.length).map found := by
  have hamp : (b :: w) :: rest ≠ [ampersand] := by
    intro e
    cases e
    rcases hb with h | h <;> exact absurd h (by decide)
  obtain ⟨rest', hwords⟩ := arrays_first harrays hamp hfirst
  unfold dispatch
  rw [hstrip, harrays, Option.bind_some, Option.bind_some, hwords]
  dsimp only
  by_cases h : b :: w = historyWord
  · rw [if_pos h, if_pos h]
  · rw [if_neg h, if_neg h]
    rcases hb with rfl | rfl
    · rfl
    · rfl

/-- "#n" -/
theorem dispatch_index {rest : List Text} (hstrip : stripNewline l = some input) (hs : arrays l = some s)
    (hfirst : firstWords (tokens l) = (35 :: t) :: rest) : dispatch history l =
      (atoi t).bind fun num =>
        if num > history.length then some .invalidIndex
        else (entry history num).map fun command => .replay num.toNat command := by
  have hne : 35 :: t ≠ historyWord := by
    intro e
    cases e
  rw [dispatch_marks (Or.inl rfl) hstrip hs hfirst, if_neg hne, if_pos rfl]

/-- "!prefix" -/
theorem dispatch_latest {rest : List Text} (hstrip : stripNewline l = some input) (hs : arrays l = some s)
    (hfirst : firstWords (tokens l) = (33 :: t) :: rest) (hne : 33 :: t ≠ historyWord) :
    dispatch history l = (findPrefix history input.tail history.length).map found := by
  rw [dispatch_marks (Or.inr rfl) hstrip hs hfirst, if_neg hne, if_neg (by decide)]

/-- The number is compared with the size of the history and used as an index. -/
theorem dispatch_number (hnum : Number t n) (hnl : Newline nl) : dispatch history (35 :: t ++ nl) =
    if -2 ^ 31 ≤ n ∧ n < 2 ^ 31 then
      if n > history.length then some .invalidIndex
      else (entry history n).map fun command => .replay n.toNat command
    else none := by
  obtain ⟨hfirst, hfits, h10⟩ := number_line hnum hnl
  obtain ⟨s, hs⟩ := Option.isSome_iff_exists.mp (arrays_iff.mpr hfits)
  rw [dispatch_index (stripNewline_line hnl h10 (List.cons_ne_nil _ _)) hs hfirst, atoi_number hnum]
  split
  · rfl
  · rfl

theorem replaysIndex_iff (hold : HoldsCommands history cs) (hnum : Number t n) (hnl : Newline nl) :
    ReplaysIndex history cs n (35 :: t ++ nl) ↔ 0 ≤ n ∧ n ≠ cs.length ∧ n < 2 ^ 31 := by
  unfold ReplaysIndex
  rw [dispatch_number hnum hnl, hold.length_eq]
  constructor
  · intro ⟨hreplay, hinvalid⟩
    by_contra hbad
    have hnone : (if -2 ^ 31 ≤ n ∧ n < 2 ^ 31 then
        if n > cs.length then some Action.invalidIndex
        else (entry history n).map fun command => Action.replay n.toNat command
      else none) = none := by
      by_cases hint : -2 ^ 31 ≤ n ∧ n < 2 ^ 31
      · have hentry : entry history n = none := by
          by_cases h0 : 0 ≤ n
          · rw [entry_held hold h0, List.getElem?_eq_none_iff]
            omega
          · exact if_neg h0
        rw [if_pos hint, if_neg (by omega), hentry]
        rfl
      · exact if_neg hint
    rw [hnone] at hreplay hinvalid
    by_cases hin : n < 0 ∨ cs.length ≤ n
    · cases hinvalid hin
    · have hlt : n.toNat < cs.length := by omega
      cases hreplay cs[n.toNat] (by omega) (List.getElem?_eq_getElem hlt)
  · intro ⟨h0, hne, hlt⟩
    rw [if_pos ⟨by omega, hlt⟩]
    refine ⟨?_, ?_⟩
    · intro c _ hc
      have hget := (List.getElem?_eq_some_iff.mp hc).1
      rw [if_neg (by omega), entry_held hold h0, hc]
      rfl
    · intro hin
      exact if_pos (by omega)

/-! ## "!prefix" -/

theorem latest_unique {j : Nat} {d : Text} (h : Latest cs pfx i c) (h' : Latest cs pfx j d) : i = j ∧ c = d := by
  obtain ⟨hi, hc, hlast⟩ := h
  obtain ⟨hj, hd, hlast'⟩ := h'
  rcases Nat.lt_trichotomy i j with hlt | rfl | hlt
  · exact absurd hd (hlast j d hlt hj)
  · rw [hi] at hj
    exact ⟨rfl, Option.some.inj hj⟩
  · exact absurd hc (hlast' i c hlt hi)

/-- The search over the whole history. -/
theorem findPrefix_latest (hold : HoldsCommands history cs) (h0 : 0 ∉ pfx) :
    (findPrefix history pfx history.length = some none ∧ ∀ c ∈ cs, ¬ pfx <+: c) ∨
    ∃ i c, findPrefix history pfx history.length = some (some (i, c)) ∧ Latest cs pfx i c := by
  rw [hold.length_eq]
  rcases findPrefix_spec hold h0 (Nat.le_refl _) with ⟨hnone, hall⟩ | ⟨i, c, hsome, hi, hc, hall⟩
  · refine Or.inl ⟨hnone, ?_⟩
    intro c hc
    obtain ⟨j, hj, rfl⟩ := List.getElem_of_mem hc
    exact hall j _ hj (List.getElem?_eq_getElem hj)
  · refine Or.inr ⟨i, c, hsome, hi, hc, ?_⟩
    intro j d hij hd
    exact hall j d hij (List.getElem?_eq_some_iff.mp hd).1 hd

theorem replaysPrefix_iff (hold : HoldsCommands history cs) (hnl : Newline nl) (h0 : 0 ∉ pfx) (h10 : 10 ∉ pfx) :
    ReplaysPrefix history cs pfx (33 :: pfx ++ nl) ↔ FitsArrays (33 :: pfx ++ nl) ∧
      (firstWords (tokens (33 :: pfx ++ nl))).head? ≠ some historyWord := by
  obtain ⟨w, rest, hfirst⟩ : ∃ w rest, firstWords (tokens (33 :: pfx ++ nl)) = (33 :: w) :: rest := by
    rw [List.cons_append, tokens_cons rfl]
    exact firstWords_marks (Or.inr rfl)
  rw [hfirst, List.head?_cons]
  constructor
  · intro ⟨hreplay, hnone⟩
    obtain ⟨a, ha, hshow⟩ : ∃ a, dispatch history (33 :: pfx ++ nl) = some a ∧ a ≠ .showHistory := by
      rcases findPrefix_latest hold h0 with ⟨-, hall⟩ | ⟨i, c, -, hlatest⟩
      · exact ⟨_, hnone hall, Action.noConfusion⟩
      · exact ⟨_, hreplay i c hlatest, Action.noConfusion⟩
    obtain ⟨input, hstrip, harrays⟩ := Option.bind_eq_some_iff.mp ha
    obtain ⟨s, hs, -⟩ := Option.bind_eq_some_iff.mp harrays
    refine ⟨arrays_iff.mp (Option.isSome_iff_exists.mpr ⟨s, hs⟩), ?_⟩
    intro e
    rw [dispatch_marks (Or.inr rfl) hstrip hs hfirst, if_pos (Option.some.inj e)] at ha
    exact hshow (Option.some.inj ha).symm
  · intro ⟨hfits, hne⟩
    obtain ⟨s, hs⟩ := Option.isSome_iff_exists.mp (arrays_iff.mpr hfits)
    have h10' : 10 ∉ 33 :: pfx := by
      rw [List.mem_cons, not_or]
      exact ⟨by decide, h10⟩
    unfold ReplaysPrefix
    rw [dispatch_latest (stripNewline_line hnl h10' (List.cons_ne_nil _ _)) hs hfirst (fun e => hne (congrArg some e)),
      List.tail_cons]
    rcases findPrefix_latest hold h0 with ⟨hfind, hall⟩ | ⟨i, c, hfind, hlatest⟩
    · rw [hfind]
      refine ⟨?_, fun _ => rfl⟩
      intro i c hlatest
      exact absurd hlatest.2.1 (hall c (List.mem_of_getElem? hlatest.1))
    · rw [hfind]
      refine ⟨?_, ?_⟩
      · intro j d hlatest'
        obtain ⟨rfl, rfl⟩ := latest_unique hlatest hlatest'
        rfl
      · intro hall
        exact absurd hlatest.2.1 (hall c (List.mem_of_getElem? hlatest.1))

/-! ## Results -/

/-- For every history and every line of one of the two forms. -/
theorem replays_iff (hold : HoldsCommands history cs) (hnl : Newline nl) :
    (∀ t n, Number t n → (ReplaysIndex history cs n (35 :: t ++ nl) ↔ 0 ≤ n ∧ n ≠ cs.length ∧ n < 2 ^ 31)) ∧
    ∀ pfx, 0 ∉ pfx → 10 ∉ pfx → (ReplaysPrefix history cs pfx (33 :: pfx ++ nl) ↔
      FitsArrays (33 :: pfx ++ nl) ∧ (firstWords (tokens (33 :: pfx ++ nl))).head? ≠ some historyWord) :=
  ⟨fun _ _ hnum => replaysIndex_iff hold hnum hnl, fun _ h0 h10 => replaysPrefix_iff hold hnl h0 h10⟩

/-- The history is "ls", and the lines are "#0" and "!l". -/
theorem replays_ls : ReplaysIndex [lsBlock []] [[108, 115]] 0 [35, 48, 10] ∧
    ReplaysPrefix [lsBlock []] [[108, 115]] [108] [33, 108, 10] := by
  have hold : HoldsCommands [lsBlock []] [[108, 115]] := lsBlock_holds (by simp)
  obtain ⟨hindex, hlatest⟩ := replays_iff hold (Or.inr rfl)
  refine ⟨(hindex [48] 0 (.plain (by simp) (List.forall_mem_singleton.mpr rfl))).mpr (by decide), ?_⟩
  refine (hlatest [108] (by decide) (by decide)).mpr ⟨⟨?_, ?_⟩, by decide⟩
  · exact ⟨by decide, Or.inl (by decide)⟩
  · intro hany
    exact absurd hany (by decide)

/-- With "ls" as the only entry, "#1" and "#-1" read what is no entry. -/
theorem one_past_the_history :
    dispatch [lsBlock []] [35, 49, 10] = none ∧ ¬ ReplaysIndex [lsBlock []] [[108, 115]] 1 [35, 49, 10] ∧
    dispatch [lsBlock []] [35, 45, 49, 10] = none ∧ ¬ ReplaysIndex [lsBlock []] [[108, 115]] (-1) [35, 45, 49, 10] := by
  have hold : HoldsCommands [lsBlock []] [[108, 115]] := lsBlock_holds (by simp)
  have hone : Number [49] 1 := .plain (by simp) (List.forall_mem_singleton.mpr rfl)
  have hminus : Number [45, 49] (-1) := .minus (by simp) (List.forall_mem_singleton.mpr rfl)
  refine ⟨?_, ?_, ?_, ?_⟩
  · exact (dispatch_number hone (Or.inr rfl)).trans rfl
  · intro h
    exact ((replaysIndex_iff hold hone (Or.inr rfl)).mp h).2.1 rfl
  · exact (dispatch_number hminus (Or.inr rfl)).trans rfl
  · intro h
    exact absurd ((replaysIndex_iff hold hminus (Or.inr rfl)).mp h).1 (by decide)

end SysProg.Shell
