/-
  SysProg.Shell.History — the history file of shell/shell.c, written when the shell exits
  and loaded with -h.

  A command of the history is a string in a block of MAX_COMMAND bytes that nothing has
  cleared. The writer puts a newline over the terminator and prints the block as a string,
  so that what is printed goes on to the next NUL in the block. The reader takes a line
  and drops its last byte, which is the newline if there is one.
  - `history_iff`: a history comes back from its file exactly when the byte after each
    terminator is NUL and there is room for the commands; a file is loaded as its lines
    exactly when the last one ends in a newline and the lines are strings that fit.
  - `ls_comes_back_twice`: one command, and a byte after its terminator.

  This is about one file, given with -h once, whose path fits the block of 100 bytes that it
  is copied to. A write outside a block and a read past its end have no result.
-/

import Mathlib.Data.List.Basic
import SysProg.Lib.CString

namespace SysProg.Shell

open SysProg.CString (Text cstr strlen put strcpy malloc cstr_eq_some cstr_append put_append strcpy_append
  malloc_length)

def maxCommand : Nat := 1024

def maxHistory : Nat := 1024

structure Process where
  command : Text
  pid : Nat

/-! ## Loading -/

/-- `fill` is what the new block holds. -/
def storeProcess (history : List Process) (command : Text) (pid : Nat) (fill : Nat → UInt8) : Option (List Process) :=
  if history.length < maxHistory then
    (strcpy (malloc maxCommand fill) 0 command).map fun block => history ++ [⟨block, pid⟩]
  else none

/-- `getline` until it returns -1, with the bytes of the line so far. -/
def getlines (line : Text) : Text → List Text
  | [] => if line = [] then [] else [line]
  | b :: rest => if b = 10 then (line ++ [10]) :: getlines [] rest else getlines (line ++ [b]) rest

/-- `line[strlen(line) - 1] = '\0'` -/
def trimLine (line : Text) : Option Text :=
  (strlen (line ++ [0])).bind fun n => if n = 0 then none else put (line ++ [0]) (n - 1) [0]

def loadLoop (fill : Nat → Nat → UInt8) (pid : Nat) : List Process → List Text → Option (List Process)
  | history, [] => some history
  | history, line :: rest => (trimLine line).bind fun line =>
    (storeProcess history line pid (fill history.length)).bind fun history => loadLoop fill pid history rest

def loadHistory (fill : Nat → Nat → UInt8) (pid : Nat) (file : Text) : Option (List Process) :=
  loadLoop fill pid [] (getlines [] file)

/-! ## Saving -/

/-- `command[strlen(command)] = '\n'; fprintf(file, "%s", command);` -/
def printed (command : Text) : Option Text :=
  (strlen command).bind fun n => (put command n [10]).bind cstr

def saveHistory : List Process → Option Text
  | [] => some []
  | p :: rest => (printed p.command).bind fun s => (saveHistory rest).map (s ++ ·)

/-! ## What is asked of the two -/

def commands (history : List Process) : List (Option Text) := history.map fun p => cstr p.command

/-- The lines of a file, without their newlines; a last line need not have one. -/
def lines (file : Text) : List Text :=
  let pieces := file.splitOn 10
  if pieces.getLast? = some [] then pieces.dropLast else pieces

def HoldsCommands (history : List Process) (cs : List Text) : Prop :=
  List.Forall₂ (fun p c => cstr p.command = some c ∧ p.command.length = maxCommand) history cs

def LoadsAs (fill : Nat → Nat → UInt8) (pid : Nat) (file : Text) (cs : List Text) : Prop :=
  ∃ history, loadHistory fill pid file = some history ∧ commands history = cs.map some

def RoundTrips (fill : Nat → Nat → UInt8) (pid : Nat) (history : List Process) (cs : List Text) : Prop :=
  ∃ file, saveHistory history = some file ∧ LoadsAs fill pid file cs

variable {fill : Nat → Nat → UInt8} {pid : Nat} {file line c s : Text} {history : List Process} {cs : List Text}

/-! ## A line -/

def trimmed (line : Text) : Option Text := (trimLine line).bind cstr

theorem map_some_inj {a b : List Text} (h : a.map some = b.map some) : a = b :=
  List.map_injective_iff.mpr (fun _ _ => Option.some.inj) h

theorem cstr_no_nul {l : Text} (h : cstr l = some s) : 0 ∉ s := (cstr_eq_some.mp h).choose_spec.2

/-- The last byte of a line goes, whatever it is. -/
theorem trimmed_snoc {b : UInt8} (hs : 0 ∉ s) (hb : b ≠ 0) : trimmed (s ++ [b]) = some s := by
  have hsb : 0 ∉ s ++ [b] := by
    rw [List.mem_append, List.mem_singleton, not_or]
    exact ⟨hs, Ne.symm hb⟩
  have hlen : strlen (s ++ [b] ++ [0]) = some (s.length + 1) := by
    rw [strlen, cstr_append hsb, Option.map_some, List.length_append, List.length_singleton]
  have hput : put (s ++ [b] ++ [0]) s.length [0] = some (s ++ 0 :: [0]) := by
    rw [List.append_assoc]
    exact put_append s (by simp)
  unfold trimmed trimLine
  rw [hlen, Option.bind_some, if_neg (Nat.succ_ne_zero _), Nat.add_sub_cancel, hput, Option.bind_some, cstr_append hs]

theorem trimmed_no_nul (h : trimmed line = some s) : 0 ∉ s := by
  obtain ⟨l, -, hl⟩ := Option.bind_eq_some_iff.mp h
  exact cstr_no_nul hl

/-- A line with its newline is stored exactly when it is a string. -/
theorem trimmed_newline : trimmed (line ++ [10]) = some line ↔ 0 ∉ line :=
  ⟨trimmed_no_nul, fun h => trimmed_snoc h (by decide)⟩

/-- A line without one never is. -/
theorem trimmed_ne (hline : line ≠ []) : trimmed line ≠ some line := by
  intro h
  have hno := trimmed_no_nul h
  have hsplit := List.dropLast_concat_getLast hline
  have hb : line.getLast hline ≠ 0 := fun e => hno (e ▸ List.getLast_mem hline)
  have hdrop : trimmed line = some line.dropLast := by
    conv_lhs => rw [← hsplit]
    exact trimmed_snoc (fun hm => hno (List.mem_of_mem_dropLast hm)) hb
  have heq := congrArg List.length (Option.some.inj (hdrop.symm.trans h))
  have hpos := List.length_pos_iff.mpr hline
  rw [List.length_dropLast] at heq
  omega

/-- A string that fits is copied to a new block. -/
theorem copied {block : Text} (f : Nat → UInt8) (h : cstr block = some s) (hlen : s.length < maxCommand) :
    strcpy (malloc maxCommand f) 0 block = some (s ++ 0 :: (malloc maxCommand f).drop (s.length + 1)) := by
  have hrest : s.length < (malloc maxCommand f).length := malloc_length.symm ▸ hlen
  revert hrest
  generalize malloc maxCommand f = rest
  exact strcpy_append [] h

theorem storeProcess_some {block : Text} {f : Nat → UInt8} {history' : List Process}
    (h : storeProcess history block pid f = some history') :
    ∃ s, cstr block = some s ∧ s.length < maxCommand ∧ history.length < maxHistory ∧
      history'.length = history.length + 1 ∧ commands history' = commands history ++ [some s] := by
  unfold storeProcess at h
  split at h
  · rename_i hroom
    obtain ⟨b, hb, rfl⟩ := Option.map_eq_some_iff.mp h
    obtain ⟨s, hs, hput⟩ := Option.bind_eq_some_iff.mp hb
    have hlen : s.length < maxCommand := by
      unfold put at hput
      split at hput
      · rename_i hle
        rw [malloc_length, List.length_append, List.length_singleton] at hle
        omega
      · cases hput
    have hcopy := copied f hs hlen
    rw [hb] at hcopy
    obtain rfl := Option.some.inj hcopy
    refine ⟨s, hs, hlen, hroom, by simp, ?_⟩
    simp [commands, cstr_append (cstr_no_nul hs)]
  · cases h

theorem storeProcess_total {block : Text} {f : Nat → UInt8} (h : cstr block = some s) (hlen : s.length < maxCommand)
    (hroom : history.length < maxHistory) : ∃ history', storeProcess history block pid f = some history' := by
  exact ⟨_, by rw [storeProcess, if_pos hroom, copied f h hlen]; rfl⟩

/-! ## All the lines -/

theorem loadLoop_some {raw : List Text} {history' : List Process}
    (h : loadLoop fill pid history raw = some history') :
    ∃ cs, raw.map trimmed = cs.map some ∧ commands history' = commands history ++ cs.map some ∧
      (∀ s ∈ cs, s.length < maxCommand) ∧ (cs = [] ∨ history.length + cs.length ≤ maxHistory) := by
  induction raw generalizing history with
  | nil =>
    cases h
    exact ⟨[], rfl, by simp, by simp, Or.inl rfl⟩
  | cons line raw ih =>
    obtain ⟨block, hblock, h⟩ := Option.bind_eq_some_iff.mp h
    obtain ⟨history1, hstore, h⟩ := Option.bind_eq_some_iff.mp h
    obtain ⟨s, hs, hlen, hroom, hone, hcom⟩ := storeProcess_some hstore
    obtain ⟨cs, hraw, hcoms, hlens, hrooms⟩ := ih h
    have hline : trimmed line = some s := Option.bind_eq_some_iff.mpr ⟨block, hblock, hs⟩
    refine ⟨s :: cs, ?_, ?_, ?_, ?_⟩
    · rw [List.map_cons, List.map_cons, hline, hraw]
    · rw [hcoms, hcom, List.append_assoc]
      rfl
    · exact List.forall_mem_cons.mpr ⟨hlen, hlens⟩
    · apply Or.inr
      rw [List.length_cons]
      rcases hrooms with rfl | hrooms
      · exact hroom
      · omega

theorem loadLoop_total {raw : List Text} (history : List Process) (hraw : raw.map trimmed = cs.map some)
    (hlens : ∀ s ∈ cs, s.length < maxCommand) (hroom : history.length + cs.length ≤ maxHistory) :
    ∃ history', loadLoop fill pid history raw = some history' := by
  induction raw generalizing history cs with
  | nil => exact ⟨history, rfl⟩
  | cons line raw ih =>
    cases cs with
    | nil => cases hraw
    | cons s cs =>
      rw [List.map_cons, List.map_cons, List.cons.injEq] at hraw
      obtain ⟨hlen, hlens⟩ := List.forall_mem_cons.mp hlens
      obtain ⟨block, hblock, hs⟩ := Option.bind_eq_some_iff.mp hraw.1
      rw [List.length_cons] at hroom
      obtain ⟨history1, hstore⟩ : ∃ history1, storeProcess history block pid (fill history.length) = some history1 :=
        storeProcess_total hs hlen (by omega)
      obtain ⟨_, _, _, _, hone, _⟩ := storeProcess_some hstore
      obtain ⟨history', h⟩ := ih history1 hraw.2 hlens (by omega)
      refine ⟨history', ?_⟩
      rw [loadLoop, hblock, Option.bind_some, hstore]
      exact h

/-- What comes out of a file is what its lines are trimmed to, if they fit. -/
theorem loadsAs_iff : LoadsAs fill pid file cs ↔
    (getlines [] file).map trimmed = cs.map some ∧ (∀ s ∈ cs, s.length < maxCommand) ∧ cs.length ≤ maxHistory := by
  constructor
  · intro ⟨history, hload, hcom⟩
    obtain ⟨cs', hraw, hcom', hlens, hroom⟩ := loadLoop_some hload
    have heq : cs' = cs := map_some_inj (hcom'.symm.trans hcom)
    rw [heq, List.length_nil, Nat.zero_add] at hroom
    refine ⟨heq ▸ hraw, heq ▸ hlens, ?_⟩
    rcases hroom with rfl | hroom
    · exact Nat.zero_le _
    · exact hroom
  · intro ⟨hraw, hlens, hroom⟩
    obtain ⟨history, hload⟩ : ∃ history, loadHistory fill pid file = some history :=
      loadLoop_total [] hraw hlens (by simpa using hroom)
    obtain ⟨cs', hraw', hcom, _, _⟩ := loadLoop_some hload
    have heq : cs' = cs := map_some_inj (hraw'.symm.trans hraw)
    exact ⟨history, hload, heq ▸ hcom⟩

/-! ## The lines of a file -/

def joined (init : List Text) (last : Text) : Text := (init.map (· ++ [10])).flatten ++ last

def ending (last : Text) : List Text := if last = [] then [] else [last]

theorem joined_cons {init : List Text} {last : Text} : joined (s :: init) last = s ++ 10 :: joined init last := by
  simp [joined]

/-- Every file is lines and what comes after them. -/
theorem pieces (file : Text) : ∃ init last, file = joined init last ∧ (∀ s ∈ init, 10 ∉ s) ∧ 10 ∉ last := by
  induction file with
  | nil => exact ⟨[], [], rfl, by simp, by simp⟩
  | cons b file ih =>
    obtain ⟨init, last, rfl, hinit, hlast⟩ := ih
    by_cases hb : b = 10
    · exact ⟨[] :: init, last, by rw [hb, joined_cons]; rfl, List.forall_mem_cons.mpr ⟨by simp, hinit⟩, hlast⟩
    cases init with
    | nil =>
      refine ⟨[], b :: last, rfl, hinit, ?_⟩
      rw [List.mem_cons, not_or]
      exact ⟨Ne.symm hb, hlast⟩
    | cons s init =>
      obtain ⟨hs, hinit⟩ := List.forall_mem_cons.mp hinit
      refine ⟨(b :: s) :: init, last, by simp [joined_cons], List.forall_mem_cons.mpr ⟨?_, hinit⟩, hlast⟩
      rw [List.mem_cons, not_or]
      exact ⟨Ne.symm hb, hs⟩

theorem getlines_line (hs : 10 ∉ s) : getlines line (s ++ 10 :: file) = (line ++ s ++ [10]) :: getlines [] file := by
  induction s generalizing line with
  | nil => simp [getlines]
  | cons b s ih =>
    rw [List.mem_cons, not_or] at hs
    rw [List.cons_append, getlines, if_neg (Ne.symm hs.1), ih hs.2]
    simp

theorem getlines_last (hs : 10 ∉ s) : getlines line s = ending (line ++ s) := by
  induction s generalizing line with
  | nil => simp [getlines, ending]
  | cons b s ih =>
    rw [List.mem_cons, not_or] at hs
    rw [getlines, if_neg (Ne.symm hs.1), ih hs.2]
    simp

variable {init : List Text} {last : Text}

theorem getlines_joined (hinit : ∀ s ∈ init, 10 ∉ s) (hlast : 10 ∉ last) :
    getlines [] (joined init last) = init.map (· ++ [10]) ++ ending last := by
  induction init with
  | nil => exact getlines_last hlast
  | cons s init ih =>
    obtain ⟨hs, hinit⟩ := List.forall_mem_cons.mp hinit
    rw [joined_cons, getlines_line hs, ih hinit]
    rfl

theorem splitOn_joined (hinit : ∀ s ∈ init, 10 ∉ s) (hlast : 10 ∉ last) :
    (joined init last).splitOn 10 = init ++ [last] := by
  induction init with
  | nil => exact List.splitOn_eq_singleton hlast
  | cons s init ih =>
    obtain ⟨hs, hinit⟩ := List.forall_mem_cons.mp hinit
    rw [joined_cons, List.splitOn_append_cons_self_of_not_mem hs, ih hinit]
    rfl

theorem lines_joined (hinit : ∀ s ∈ init, 10 ∉ s) (hlast : 10 ∉ last) :
    lines (joined init last) = init ++ ending last := by
  unfold lines
  simp only [splitOn_joined hinit hlast]
  by_cases h : last = []
  · simp [ending, h]
  · simp [ending, h]

theorem ends_joined (hlast : 10 ∉ last) :
    (joined init last = [] ∨ (joined init last).getLast? = some 10) ↔ last = [] := by
  constructor
  · intro h
    by_contra hne
    have hlen := List.length_pos_iff.mpr hne
    rcases h with h | h
    · exact hne (List.append_eq_nil_iff.mp h).2
    · rw [joined, List.getLast?_append_of_ne_nil _ hne] at h
      exact hlast (List.mem_of_getLast? h)
  · intro h
    rw [h]
    rcases List.eq_nil_or_concat init with rfl | ⟨front, s, rfl⟩
    · exact Or.inl rfl
    · apply Or.inr
      simp [joined]

theorem trimmed_lines : (init.map (· ++ [10])).map trimmed = init.map some ↔ ∀ s ∈ init, 0 ∉ s := by
  rw [List.map_map, List.map_inj_left]
  exact forall₂_congr fun s _ => trimmed_newline

/-- The last line loses its last byte when it has no newline. -/
theorem loads_lines_iff : LoadsAs fill pid file (lines file) ↔
    (file = [] ∨ file.getLast? = some 10) ∧ (∀ s ∈ lines file, 0 ∉ s ∧ s.length < maxCommand) ∧
      (lines file).length ≤ maxHistory := by
  obtain ⟨init, last, rfl, hinit, hlast⟩ := pieces file
  rw [loadsAs_iff, ends_joined hlast, lines_joined hinit hlast, getlines_joined hinit hlast]
  constructor
  · intro ⟨hraw, hlens, hroom⟩
    rw [List.map_append, List.map_append] at hraw
    obtain ⟨hfirst, hend⟩ := List.append_inj hraw (by simp)
    have hnil : last = [] := by
      by_contra hne
      rw [ending, if_neg hne, List.map_singleton, List.map_singleton, List.singleton_inj] at hend
      exact trimmed_ne hne hend
    refine ⟨hnil, ?_, hroom⟩
    rw [hnil, ending, if_pos rfl, List.append_nil] at hlens ⊢
    exact fun s hs => ⟨trimmed_lines.mp hfirst s hs, hlens s hs⟩
  · intro ⟨hnil, hfit, hroom⟩
    refine ⟨?_, fun s hs => (hfit s hs).2, hroom⟩
    rw [hnil, ending, if_pos rfl, List.append_nil] at hfit
    rw [hnil, ending, if_pos rfl, List.append_nil, List.append_nil]
    exact trimmed_lines.mpr fun s hs => (hfit s hs).1

/-! ## A saved history -/

def ClearAfter (p : Process) (c : Text) : Prop := p.command[c.length + 1]? = some 0

variable {p : Process}

/-- What is printed for a command: the command, a newline and the bytes up to the next NUL. -/
theorem printed_eq {rest : Text} (hc : 0 ∉ c) : printed (c ++ 0 :: rest) = (cstr rest).map fun t => c ++ 10 :: t := by
  have hlen : strlen (c ++ 0 :: rest) = some c.length := by rw [strlen, cstr_append hc, Option.map_some]
  have hput : put (c ++ 0 :: rest) c.length [10] = some (c ++ 10 :: rest) := put_append c (by simp)
  unfold printed
  rw [hlen, Option.bind_some, hput, Option.bind_some]
  clear hlen hput
  induction c with
  | nil => rfl
  | cons b c ih =>
    rw [List.mem_cons, not_or] at hc
    rw [List.cons_append, cstr, if_neg (Ne.symm hc.1), ih hc.2, Option.map_map]
    rfl

theorem printed_some (h : cstr p.command = some c) (hs : printed p.command = some s) :
    ∃ t, s = c ++ 10 :: t ∧ 0 ∉ s ∧ (t = [] → ClearAfter p c) := by
  obtain ⟨rest, hp, hc⟩ := cstr_eq_some.mp h
  rw [hp, printed_eq hc] at hs
  obtain ⟨t, ht, rfl⟩ := Option.map_eq_some_iff.mp hs
  refine ⟨t, rfl, ?_, ?_⟩
  · have h0 := cstr_no_nul ht
    simp [hc, h0]
  · intro hnil
    obtain ⟨rest', rfl, _⟩ := cstr_eq_some.mp ht
    simp [ClearAfter, hp, hnil]

theorem printed_clear (h : cstr p.command = some c) (hclear : ClearAfter p c) :
    printed p.command = some (c ++ [10]) := by
  obtain ⟨rest, hp, hc⟩ := cstr_eq_some.mp h
  have hhead : rest[0]? = some 0 := by
    rw [ClearAfter, hp, List.getElem?_append_right (Nat.le_succ _), Nat.succ_sub (Nat.le_refl _), Nat.sub_self,
      List.getElem?_cons_succ] at hclear
    exact hclear
  obtain ⟨rest', rfl⟩ := List.head?_eq_some_iff.mp (List.head?_eq_getElem? ▸ hhead)
  rw [hp, printed_eq hc]
  rfl

theorem held_no_nul (hold : HoldsCommands history cs) : ∀ c ∈ cs, 0 ∉ c := by
  induction hold with
  | nil => simp
  | cons hp hold ih => exact List.forall_mem_cons.mpr ⟨cstr_no_nul hp.1, ih⟩

theorem saved_clear (hold : HoldsCommands history cs) (hclear : List.Forall₂ ClearAfter history cs) :
    saveHistory history = some (joined cs []) := by
  induction hold with
  | nil => rfl
  | cons hp hold ih =>
    obtain ⟨hfirst, hclear⟩ := List.forall₂_cons.mp hclear
    rw [saveHistory, printed_clear hp.1 hfirst, Option.bind_some, ih hclear, joined_cons]
    simp

/-- The file has no NUL and at least a newline for each command; it is longer than the
    commands unless nothing but them is printed. -/
theorem saved_some (hold : HoldsCommands history cs) (h : saveHistory history = some file) :
    0 ∉ file ∧ cs.length ≤ file.count 10 ∧ (joined cs []).length ≤ file.length ∧
      (file.length ≤ (joined cs []).length → List.Forall₂ ClearAfter history cs) := by
  induction hold generalizing file with
  | nil =>
    cases h
    exact ⟨by simp, by simp, by simp [joined], fun _ => .nil⟩
  | @cons p c history cs hp hold ih =>
    obtain ⟨s, hs, h⟩ := Option.bind_eq_some_iff.mp h
    obtain ⟨tail, htail, rfl⟩ := Option.map_eq_some_iff.mp h
    obtain ⟨h0, hcount, hlen, hclear⟩ := ih htail
    obtain ⟨t, rfl, hs0, ht⟩ := printed_some hp.1 hs
    refine ⟨?_, ?_, ?_, ?_⟩
    · rw [List.mem_append, not_or]
      exact ⟨hs0, h0⟩
    · simp only [List.count_append, List.count_cons_self, List.length_cons]
      omega
    · simp only [joined_cons, List.length_append, List.length_cons]
      omega
    · intro hle
      simp only [joined_cons, List.length_append, List.length_cons] at hle
      have hnil : t = [] := List.length_eq_zero_iff.mp (by omega)
      exact .cons (ht hnil) (hclear (by omega))

theorem count_joined (hinit : ∀ s ∈ init, 10 ∉ s) (hlast : 10 ∉ last) : (joined init last).count 10 = init.length := by
  induction init with
  | nil => exact List.count_eq_zero_of_not_mem hlast
  | cons s init ih =>
    obtain ⟨hs, hinit⟩ := List.forall_mem_cons.mp hinit
    rw [joined_cons, List.count_append, List.count_cons_self, ih hinit, List.count_eq_zero_of_not_mem hs,
      List.length_cons, Nat.zero_add]

/-- A file with a newline for each command can only come back as the commands if it is
    nothing else. -/
theorem comes_back (h0 : 0 ∉ file) (hcount : cs.length ≤ file.count 10)
    (hraw : (getlines [] file).map trimmed = cs.map some) : file = joined cs [] := by
  obtain ⟨init, last, rfl, hinit, hlast⟩ := pieces file
  rw [count_joined hinit hlast] at hcount
  rw [getlines_joined hinit hlast, List.map_append] at hraw
  have hlen := congrArg List.length hraw
  simp only [List.length_append, List.length_map] at hlen
  have hend : ending last = [] := List.length_eq_zero_iff.mp (by omega)
  have hnil : last = [] := by
    by_contra hne
    rw [ending, if_neg hne] at hend
    cases hend
  have hstrings : ∀ s ∈ init, 0 ∉ s := by
    intro s hs hm
    refine h0 (List.mem_append_left _ (List.mem_flatten.mpr ⟨s ++ [10], List.mem_map_of_mem hs, ?_⟩))
    exact List.mem_append_left _ hm
  rw [hend, List.map_nil, List.append_nil, trimmed_lines.mpr hstrings] at hraw
  rw [map_some_inj hraw, hnil]

theorem roundTrips_iff (hold : HoldsCommands history cs) (hcs : ∀ c ∈ cs, 10 ∉ c ∧ c.length + 1 < maxCommand) :
    RoundTrips fill pid history cs ↔ List.Forall₂ ClearAfter history cs ∧ cs.length ≤ maxHistory := by
  constructor
  · intro ⟨file, hsave, hload⟩
    obtain ⟨h0, hcount, _, hclear⟩ := saved_some hold hsave
    obtain ⟨hraw, _, hroom⟩ := loadsAs_iff.mp hload
    exact ⟨hclear (comes_back h0 hcount hraw ▸ Nat.le_refl _), hroom⟩
  · intro ⟨hclear, hroom⟩
    refine ⟨joined cs [], saved_clear hold hclear, loadsAs_iff.mpr ⟨?_, ?_, hroom⟩⟩
    · rw [getlines_joined (fun c hc => (hcs c hc).1) (by simp), ending, if_pos rfl, List.append_nil, trimmed_lines]
      exact held_no_nul hold
    · exact fun c hc => Nat.lt_of_succ_lt (hcs c hc).2

/-! ## Results -/

/-- When a history comes back from its file, and when a file is loaded as its lines. -/
theorem history_iff (fill : Nat → Nat → UInt8) (pid : Nat) :
    (∀ history cs, HoldsCommands history cs → (∀ c ∈ cs, 10 ∉ c ∧ c.length + 1 < maxCommand) →
      (RoundTrips fill pid history cs ↔ List.Forall₂ ClearAfter history cs ∧ cs.length ≤ maxHistory)) ∧
    ∀ file, LoadsAs fill pid file (lines file) ↔
      (file = [] ∨ file.getLast? = some 10) ∧ (∀ s ∈ lines file, 0 ∉ s ∧ s.length < maxCommand) ∧
        (lines file).length ≤ maxHistory :=
  ⟨fun _ _ hold hcs => roundTrips_iff hold hcs, fun _ => loads_lines_iff⟩

def lsBlock (rest : Text) : Process := ⟨[108, 115] ++ 0 :: (rest ++ List.replicate (1021 - rest.length) 0), 7⟩

theorem lsBlock_holds {rest : Text} (h : rest.length ≤ 1021) : HoldsCommands [lsBlock rest] [[108, 115]] := by
  refine .cons ⟨cstr_append (by decide), ?_⟩ .nil
  simp only [lsBlock, maxCommand, List.length_append, List.length_cons, List.length_replicate, List.length_nil]
  omega

theorem lsBlock_printed {rest : Text} (h0 : 0 ∉ rest) (h : rest.length < 1021) :
    printed (lsBlock rest).command = some ([108, 115] ++ 10 :: rest) := by
  obtain ⟨k, hk⟩ : ∃ k, 1021 - rest.length = k + 1 := ⟨1020 - rest.length, by omega⟩
  show printed ([108, 115] ++ 0 :: (rest ++ List.replicate (1021 - rest.length) 0)) = _
  rw [hk, List.replicate_succ, printed_eq (by decide), cstr_append h0, Option.map_some]

/-- "ls" in a cleared block comes back, and so does the line "ls" from its file. -/
theorem ls_comes_back :
    RoundTrips (fun _ _ => 0) 7 [lsBlock []] [[108, 115]] ∧ LoadsAs (fun _ _ => 0) 7 [108, 115, 10] [[108, 115]] := by
  obtain ⟨htrip, hload⟩ := history_iff (fun _ _ => 0) 7
  have hclear : List.Forall₂ ClearAfter [lsBlock []] [[108, 115]] := .cons rfl .nil
  refine ⟨?_, (hload [108, 115, 10]).mpr (by decide)⟩
  exact (htrip [lsBlock []] [[108, 115]] (lsBlock_holds (by simp)) (by decide)).mpr ⟨hclear, by decide⟩

/-- The byte 'x' is left in the block after "ls": the file is "ls\nx", and loads as "ls" and
    "". A file that holds "ls" and no newline loads as "l". -/
theorem ls_comes_back_twice :
    HoldsCommands [lsBlock [120]] [[108, 115]] ∧ saveHistory [lsBlock [120]] = some [108, 115, 10, 120] ∧
      LoadsAs (fun _ _ => 0) 7 [108, 115, 10, 120] [[108, 115], []] ∧
      ¬RoundTrips (fun _ _ => 0) 7 [lsBlock [120]] [[108, 115]] ∧
      LoadsAs (fun _ _ => 0) 7 [108, 115] [[108]] ∧ ¬LoadsAs (fun _ _ => 0) 7 [108, 115] (lines [108, 115]) := by
  have hold : HoldsCommands [lsBlock [120]] [[108, 115]] := lsBlock_holds (by simp)
  have hsave : saveHistory [lsBlock [120]] = some [108, 115, 10, 120] := by
    rw [saveHistory, lsBlock_printed (by decide) (by decide)]
    rfl
  refine ⟨hold, hsave, loadsAs_iff.mpr (by decide), ?_, loadsAs_iff.mpr (by decide), ?_⟩
  · intro h
    have hclear := ((roundTrips_iff hold (by decide)).mp h).1
    have hbyte : (lsBlock [120]).command[3]? = some 120 := rfl
    exact absurd (hbyte.symm.trans (List.forall₂_cons.mp hclear).1) (by decide)
  · intro h
    exact absurd (loads_lines_iff.mp h).1 (by decide)

end SysProg.Shell
