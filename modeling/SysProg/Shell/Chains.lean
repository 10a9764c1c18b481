/-
  SysProg.Shell.Chains — the calls of `run` to itself, shell/shell.c.

  For "#n" and "!prefix" `run` calls itself with the command of the history, which is cut
  into words as a line is. `run` stores no such line, so without a history file the command
  is one that is run (`unloaded_ends`). A file that is loaded with -h may hold any lines.
  `Kept` is the histories a shell can have: loaded from files, with the commands that were
  run stored and their pids changed.
  - `chain_ends_iff`: the calls for a line come to an end exactly when no entry that is
    named on the way leads back to itself, and each line on the way can be dispatched: its
    words fit in the arrays, there is a first word, and the number after a "#" is no
    negative one and not the number of entries.
  - `zero_calls_itself`: the history file "#0".
-/

import SysProg.Lib.Follow
import SysProg.Shell.Pids

namespace SysProg.Shell

open Relation (ReflTransGen TransGen)
open SysProg.Atoi (Number atoi)
open SysProg.CString (Text cstr cstr_append cstr_eq_some put put_append strlen)
open SysProg.Follow (Next follow Goes follow_iff_names follow_cycle follow_on follow_done)
open SysProg.Lib (ReachesCycle)

/-- A call of `run`: the next one, or what else it decides on. -/
def callStep (history : List Process) (line : Text) : Option (Next Text Action) :=
  (dispatch history line).map fun
    | .replay _ command => .on command
    | action => .done action

/-- What `fgets` gets, up to its first NUL; a command of the history has no newline. -/
def Typed (line : Text) : Prop := ∃ l nl, line = l ++ nl ∧ Newline nl ∧ 0 ∉ l ∧ 10 ∉ l

/-- The histories of a shell; `loads` says whether there are history files. -/
inductive Kept (loads : Bool) (getpid : Nat) : List Process → Prop
  | start : Kept loads getpid []
  | loaded {history history' : List Process} {fill : Nat → Nat → UInt8} {file : Text} : loads = true →
      Kept loads getpid history → loadLoop fill getpid history (getlines [] file) = some history' →
      Kept loads getpid history'
  | stored {history history' : List Process} {line command : Text} {s : Line} {fill : Nat → UInt8} :
      Kept loads getpid history → Typed line → dispatch history line = some (.external command s) →
      storeProcess history (command ++ [0]) getpid fill = some history' → Kept loads getpid history'
  | modified {history history' : List Process} {command : Text} {pid : Nat} : Kept loads getpid history →
      modifyPid history command pid = some history' → Kept loads getpid history'

/-! ## What is asked of it -/

inductive Names (cs : List Text) (line : Text) : Text → Prop
  | index {t c : Text} {rest : List Text} {n : Int} : firstWords (tokens line) = (35 :: t) :: rest → atoi t = some n →
      0 ≤ n → cs[n.toNat]? = some c → Names cs line c
  | latest {w input c : Text} {rest : List Text} {i : Nat} : firstWords (tokens line) = (33 :: w) :: rest →
      33 :: w ≠ historyWord → stripNewline line = some input → Latest cs input.tail i c → Names cs line c

/-- The words fit, there is a first one, and a number is an index or past the history. -/
def Safe (cs : List Text) (line : Text) : Prop :=
  FitsArrays line ∧ firstWords (tokens line) ≠ [ampersand] ∧
    ∀ t rest, firstWords (tokens line) = (35 :: t) :: rest → ∃ n, atoi t = some n ∧ 0 ≤ n ∧ n ≠ cs.length

variable {history history' : List Process} {cs raw : List Text} {line l nl c w t input : Text} {s : Line}
  {n getpid pid : Nat} {fill : Nat → Nat → UInt8} {f : Nat → UInt8} {b : UInt8}

/-! ## The histories of a shell -/

def Stored (history : List Process) (cs : List Text) : Prop := HoldsCommands history cs ∧ ∀ c ∈ cs, 10 ∉ c

/-- A line loses its last byte, or more if it has a NUL. -/
theorem trimmed_initial (h : trimmed (l ++ [b]) = some t) : t <+: l := by
  obtain ⟨block, htrim, ht⟩ := Option.bind_eq_some_iff.mp h
  obtain ⟨k, hk, hput⟩ := Option.bind_eq_some_iff.mp htrim
  obtain ⟨u, hu, rfl⟩ := Option.map_eq_some_iff.mp hk
  split at hput
  · cases hput
  rename_i hpos
  obtain ⟨rest, hrest, h0⟩ := cstr_eq_some.mp hu
  rcases List.eq_nil_or_concat u with rfl | ⟨front, x, rfl⟩
  · exact absurd rfl hpos
  rw [List.concat_eq_append] at hrest h0 hput
  have hwrite : put (l ++ [b] ++ [0]) front.length [0] = some (front ++ ([0] ++ (x :: 0 :: rest).drop 1)) := by
    rw [hrest, List.append_assoc]
    exact put_append front (by simp)
  rw [List.length_append, List.length_singleton, Nat.add_sub_cancel, hwrite] at hput
  obtain rfl := Option.some.inj hput
  have hfront : 0 ∉ front := fun hm => h0 (List.mem_append_left _ hm)
  have hcut : cstr (front ++ ([0] ++ (x :: 0 :: rest).drop 1)) = some front := cstr_append hfront
  obtain rfl := Option.some.inj (ht.symm.trans hcut)
  have hlen := congrArg List.length hrest
  simp only [List.length_append, List.length_cons, List.length_nil] at hlen
  have hpre : t <+: l ++ [b] ++ [0] := ⟨[x] ++ 0 :: rest, by rw [hrest, List.append_assoc]⟩
  have hline : l <+: l ++ [b] ++ [0] := ⟨[b, 0], by rw [List.append_assoc]; rfl⟩
  exact List.prefix_of_prefix_length_le hpre hline (by omega)

/-- The lines of a file have no newline but at their end. -/
theorem getlines_newline (file : Text) : ∀ line ∈ getlines [] file, ∃ l b, line = l ++ [b] ∧ 10 ∉ l := by
  obtain ⟨init, last, rfl, hinit, hlast⟩ := pieces file
  rw [getlines_joined hinit hlast]
  intro line hline
  rcases List.mem_append.mp hline with hm | hm
  · obtain ⟨l, hl, rfl⟩ := List.mem_map.mp hm
    exact ⟨l, 10, rfl, hinit l hl⟩
  · unfold ending at hm
    split at hm
    · cases hm
    · rename_i hne
      rw [List.mem_singleton.mp hm]
      refine ⟨last.dropLast, last.getLast hne, (List.dropLast_concat_getLast hne).symm, ?_⟩
      exact fun h => hlast (List.mem_of_mem_dropLast h)

theorem Stored.store {src : Text} (hs : Stored history cs) (hc : cstr src = some c) (h10 : 10 ∉ c)
    (h : storeProcess history src pid f = some history') : Stored history' (cs ++ [c]) := by
  obtain ⟨c', hc', hlen, hroom, _⟩ := storeProcess_some h
  obtain rfl := Option.some.inj (hc.symm.trans hc')
  obtain ⟨block, hstore, hblock, hsize⟩ := storeProcess_block pid f hc hlen hroom
  obtain rfl := Option.some.inj (h.symm.trans hstore)
  refine ⟨List.rel_append hs.1 (.cons ⟨hblock, hsize⟩ .nil), ?_⟩
  exact List.forall_mem_append.mpr ⟨hs.2, List.forall_mem_singleton.mpr h10⟩

theorem Stored.load (hs : Stored history cs) (hraw : ∀ line ∈ raw, ∃ l b, line = l ++ [b] ∧ 10 ∉ l)
    (h : loadLoop fill pid history raw = some history') : ∃ cs', Stored history' cs' := by
  induction raw generalizing history cs with
  | nil =>
    cases h
    exact ⟨cs, hs⟩
  | cons line raw ih =>
    obtain ⟨⟨l, b, rfl, h10⟩, htail⟩ := List.forall_mem_cons.mp hraw
    obtain ⟨block, hblock, h⟩ := Option.bind_eq_some_iff.mp h
    obtain ⟨history1, hstore, h⟩ := Option.bind_eq_some_iff.mp h
    obtain ⟨c, hc, _⟩ := storeProcess_some hstore
    have htrim : trimmed (l ++ [b]) = some c := Option.bind_eq_some_iff.mpr ⟨block, hblock, hc⟩
    exact ih (hs.store hc (fun hm => h10 ((trimmed_initial htrim).subset hm)) hstore) htail h

theorem modifyPid_holds (hold : HoldsCommands history cs) (h : modifyPid history c pid = some history') :
    HoldsCommands history' cs := by
  induction hold generalizing history' with
  | nil =>
    cases h
    exact .nil
  | cons hp hold ih =>
    rw [modifyPid, hp.1, Option.bind_some] at h
    split at h
    · cases h
      exact .cons hp hold
    · obtain ⟨rest, hrest, rfl⟩ := Option.map_eq_some_iff.mp h
      exact .cons hp (ih hrest)

/-- A newline at the end of a line ends its last word. -/
theorem strtokAll_newline : strtokAll isDelim w (l ++ [10]) = strtokAll isDelim w l := by
  induction l generalizing w with
  | nil => simp [strtokAll, isDelim]
  | cons b l ih =>
    rw [List.cons_append, strtokAll, strtokAll, ih, ih]

theorem stripNewline_ne (h : stripNewline line = some c) : line ≠ [] := by
  intro hnil
  rw [hnil] at h
  cases h

theorem Typed.strip (hline : Typed line) (hne : line ≠ []) :
    ∃ l, stripNewline line = some l ∧ 0 ∉ l ∧ 10 ∉ l ∧ tokens line = tokens l := by
  obtain ⟨l, nl, rfl, hnl, h0, h10⟩ := hline
  refine ⟨l, stripNewline_line hnl h10 hne, h0, h10, ?_⟩
  rcases hnl with rfl | rfl
  · rw [List.append_nil]
  · exact strtokAll_newline

/-- What the dispatch of a line starts from. -/
theorem Typed.dispatchable (hline : Typed line) (hfits : FitsArrays line) : ∃ s input, arrays line = some s ∧
    stripNewline line = some input ∧ 0 ∉ input.tail := by
  obtain ⟨s, hs⟩ := Option.isSome_iff_exists.mp (arrays_iff.mpr hfits)
  have hne : line ≠ [] := by
    intro hnil
    rw [hnil] at hfits
    exact absurd hfits.1.1 (Nat.lt_irrefl 0)
  obtain ⟨input, hstrip, h0, _⟩ := hline.strip hne
  exact ⟨s, input, hs, hstrip, fun hm => h0 (List.mem_of_mem_tail hm)⟩

theorem Kept.holds {loads : Bool} (h : Kept loads getpid history) : ∃ cs, Stored history cs := by
  induction h with
  | start => exact ⟨[], .nil, by simp⟩
  | loaded _ _ hload ih =>
    obtain ⟨cs, hs⟩ := ih
    exact hs.load (getlines_newline _) hload
  | stored _ hline hrun hstore ih =>
    obtain ⟨cs, hs⟩ := ih
    obtain ⟨hstrip, _⟩ := dispatch_external hrun
    obtain ⟨l, hl, h0, h10, _⟩ := hline.strip (stripNewline_ne hstrip)
    obtain rfl := Option.some.inj (hl.symm.trans hstrip)
    exact ⟨_, hs.store (cstr_append h0) h10 hstore⟩
  | modified _ hmod ih =>
    obtain ⟨cs, hs⟩ := ih
    exact ⟨cs, modifyPid_holds hs.1 hmod, hs.2⟩

/-! ## What a line is dispatched to -/

/-- The first word, and what is left of it. -/
theorem first_word (h : arrays line = some s) : (firstWords (tokens line) = [ampersand] ∧ s.words = []) ∨
    ∃ w rest rest', firstWords (tokens line) = w :: rest ∧ w :: rest ≠ [ampersand] ∧ s.words = w :: rest' := by
  have hwords := arrays_words h
  cases hfirst : firstWords (tokens line) with
  | nil =>
    rw [hfirst, terminate_nil] at hwords
    cases hwords
  | cons w rest =>
    by_cases hamp : w :: rest = [ampersand]
    · rw [hfirst, hamp] at hwords
      exact Or.inl ⟨hamp, (Option.some.inj hwords).symm⟩
    · obtain ⟨rest', hrest⟩ := arrays_first h hamp hfirst
      exact Or.inr ⟨w, rest, rest', rfl, hamp, hrest⟩

/-- Any other word than "#n" and "!prefix" is no history command. -/
theorem dispatch_rest {rest : List Text} (history : List Process) (hstrip : stripNewline line = some input)
    (hs : arrays line = some s) (hwords : s.words = w :: rest) (hnum : ∀ t, w ≠ 35 :: t)
    (hpfx : ∀ t, w = 33 :: t → w = historyWord) :
    ∃ a, dispatch history line = some a ∧ ∀ i c, a ≠ .replay i c := by
  unfold dispatch
  rw [hstrip, hs, Option.bind_some, Option.bind_some, hwords]
  dsimp only
  by_cases hhistory : w = historyWord
  · exact ⟨.showHistory, if_pos hhistory, fun _ _ => Action.noConfusion⟩
  have h35 : ¬ w.head? = some 35 := by
    intro h
    obtain ⟨t, rfl⟩ := List.head?_eq_some_iff.mp h
    exact hnum t rfl
  have h33 : ¬ w.head? = some 33 := by
    intro h
    obtain ⟨t, rfl⟩ := List.head?_eq_some_iff.mp h
    exact hhistory (hpfx t rfl)
  rw [if_neg hhistory, if_neg h35, if_neg h33]
  by_cases hsignal : w ∈ signalWords
  · exact ⟨.signal s, if_pos hsignal, fun _ _ => Action.noConfusion⟩
  · exact ⟨.external input s, if_neg hsignal, fun _ _ => Action.noConfusion⟩

/-- A line can be dispatched exactly when it is safe. -/
theorem dispatch_isSome (hold : HoldsCommands history cs) (hline : Typed line) :
    (dispatch history line).isSome = true ↔ Safe cs line := by
  constructor
  · intro h
    obtain ⟨a, ha⟩ := Option.isSome_iff_exists.mp h
    obtain ⟨input, hstrip, harrays⟩ := Option.bind_eq_some_iff.mp ha
    obtain ⟨s, hs, hwords⟩ := Option.bind_eq_some_iff.mp harrays
    refine ⟨arrays_iff.mp (Option.isSome_iff_exists.mpr ⟨s, hs⟩), ?_, ?_⟩
    · intro hamp
      have hnil := arrays_words hs
      rw [hamp] at hnil
      rw [← Option.some.inj hnil] at hwords
      cases hwords
    · intro t rest hfirst
      rw [dispatch_index hstrip hs hfirst] at ha
      obtain ⟨n, hn, ha⟩ := Option.bind_eq_some_iff.mp ha
      refine ⟨n, hn, ?_⟩
      split at ha
      · rw [hold.length_eq] at *
        omega
      · obtain ⟨c, hc, _⟩ := Option.map_eq_some_iff.mp ha
        have h0 : 0 ≤ n := by
          by_contra hneg
          rw [entry, if_neg hneg] at hc
          cases hc
        rw [entry_held hold h0] at hc
        have hlt := (List.getElem?_eq_some_iff.mp hc).1
        omega
  · intro ⟨hfits, hamp, hnum⟩
    obtain ⟨s, input, hs, hstrip, h0⟩ := hline.dispatchable hfits
    rcases first_word hs with ⟨hamp', _⟩ | ⟨w, rest, rest', hfirst, _, hwords⟩
    · exact absurd hamp' hamp
    by_cases h35 : ∃ t, w = 35 :: t
    · obtain ⟨t, rfl⟩ := h35
      obtain ⟨n, hn, hpos, hlen⟩ := hnum t rest hfirst
      rw [dispatch_index hstrip hs hfirst, hn, Option.bind_some, hold.length_eq]
      by_cases hgt : n > cs.length
      · rw [if_pos hgt]
        rfl
      · have hlt : n.toNat < cs.length := by omega
        rw [if_neg hgt, entry_held hold hpos, List.getElem?_eq_getElem hlt]
        rfl
    by_cases h33 : ∃ t, w = 33 :: t ∧ w ≠ historyWord
    · obtain ⟨t, rfl, hhistory⟩ := h33
      rw [dispatch_latest hstrip hs hfirst hhistory, Option.isSome_map]
      rcases findPrefix_latest hold h0 with ⟨hnone, _⟩ | ⟨i, c, hsome, _⟩
      · rw [hnone]
        rfl
      · rw [hsome]
        rfl
    · obtain ⟨a, ha, _⟩ := dispatch_rest history hstrip hs hwords (fun t e => h35 ⟨t, e⟩)
        (fun t e => not_not.mp fun hne => h33 ⟨t, e, hne⟩)
      rw [ha]
      rfl

theorem goes_replay : Goes (callStep history) line c ↔ ∃ i, dispatch history line = some (.replay i c) := by
  unfold Goes callStep
  constructor
  · intro h
    obtain ⟨a, ha, h⟩ := Option.map_eq_some_iff.mp h
    cases a with
    | replay i d =>
      cases h
      exact ⟨i, ha⟩
    | _ => cases h
  · intro ⟨i, h⟩
    rw [h]
    rfl

/-- The next call is for the entry that is named. -/
theorem goes_iff (hold : HoldsCommands history cs) (hline : Typed line) (hsafe : Safe cs line) :
    Goes (callStep history) line c ↔ Names cs line c := by
  obtain ⟨s, input, hs, hstrip, h0⟩ := hline.dispatchable hsafe.1
  rw [goes_replay]
  constructor
  · intro ⟨i, hrun⟩
    rcases first_word hs with ⟨hamp, _⟩ | ⟨w, rest, rest', hfirst, _, hwords⟩
    · exact absurd hamp hsafe.2.1
    by_cases h35 : ∃ t, w = 35 :: t
    · obtain ⟨t, rfl⟩ := h35
      obtain ⟨n, hn, hpos, _⟩ := hsafe.2.2 t rest hfirst
      rw [dispatch_index hstrip hs hfirst, hn, Option.bind_some] at hrun
      split at hrun
      · cases hrun
      · obtain ⟨d, hd, e⟩ := Option.map_eq_some_iff.mp hrun
        cases e
        rw [entry_held hold hpos] at hd
        exact .index hfirst hn hpos hd
    by_cases h33 : ∃ t, w = 33 :: t ∧ w ≠ historyWord
    · obtain ⟨t, rfl, hhistory⟩ := h33
      rw [dispatch_latest hstrip hs hfirst hhistory] at hrun
      rcases findPrefix_latest hold h0 with ⟨hnone, _⟩ | ⟨j, d, hsome, hlatest⟩
      · rw [hnone] at hrun
        cases hrun
      · rw [hsome] at hrun
        cases hrun
        exact .latest hfirst hhistory hstrip hlatest
    · obtain ⟨a, ha, hno⟩ := dispatch_rest history hstrip hs hwords (fun t e => h35 ⟨t, e⟩)
        (fun t e => not_not.mp fun hne => h33 ⟨t, e, hne⟩)
      exact absurd (Option.some.inj (ha.symm.trans hrun)) (hno i c)
  · intro hnames
    cases hnames with
    | @index t d rest n hfirst hn hpos hget =>
      have hlt := (List.getElem?_eq_some_iff.mp hget).1
      refine ⟨n.toNat, ?_⟩
      rw [dispatch_index hstrip hs hfirst, hn, Option.bind_some, hold.length_eq, if_neg (by omega),
        entry_held hold hpos, hget]
      rfl
    | @latest w input' d rest i hfirst hhistory hstrip' hlatest =>
      obtain rfl := Option.some.inj (hstrip.symm.trans hstrip')
      refine ⟨i, ?_⟩
      rw [dispatch_latest hstrip hs hfirst hhistory]
      rcases findPrefix_latest hold h0 with ⟨_, hall⟩ | ⟨j, d, hsome, hlatest'⟩
      · exact absurd hlatest.2.1 (hall _ (List.mem_of_getElem? hlatest.1))
      · obtain ⟨rfl, rfl⟩ := latest_unique hlatest hlatest'
        rw [hsome]
        rfl

/-! ## Results -/

theorem held_commands (hold : HoldsCommands history cs) : commands history = cs.map some := by
  induction hold with
  | nil => rfl
  | cons hp _ ih => exact congrArg₂ List.cons hp.1 ih

theorem Names.mem (h : Names cs line c) : c ∈ cs := by
  cases h with
  | index _ _ _ hget => exact List.mem_of_getElem? hget
  | latest _ _ _ hlatest => exact List.mem_of_getElem? hlatest.1

/-- For every history of a shell and every line. -/
theorem chain_ends_iff {loads : Bool} (hkept : Kept loads getpid history) (hold : HoldsCommands history cs)
    (hline : Typed line) : (∃ a n, follow (callStep history) n line = some a) ↔
      (∀ t, ReflTransGen (Names cs) line t → Safe cs t) ∧ ¬ ReachesCycle (Names cs) line := by
  obtain ⟨cs', hold', h10⟩ := hkept.holds
  obtain rfl : cs' = cs := map_some_inj ((held_commands hold').symm.trans (held_commands hold))
  have hgood : ∀ s t, Typed s → Names cs' s t → Typed t := by
    intro s t _ hn
    exact ⟨t, [], (List.append_nil t).symm, Or.inl rfl, held_no_nul hold t hn.mem, h10 t hn.mem⟩
  have hout : ∀ s, Typed s → ((callStep history s).isSome = true ↔ Safe cs' s) := by
    intro s hs
    rw [callStep, Option.isSome_map]
    exact dispatch_isSome hold hs
  have hfin : {t | ReflTransGen (Names cs') line t}.Finite := by
    apply (cs'.finite_toSet.insert line).subset
    intro t ht
    rcases ht.cases_tail with rfl | ⟨u, _, hn⟩
    · exact Set.mem_insert t _
    · exact Set.mem_insert_of_mem line hn.mem
  exact follow_iff_names hgood hout (fun s t hs hsafe => goes_iff hold hs hsafe) hline hfin

def zeroLine : Text := [35, 48]

/-- The history file "ls" and the line "#0". -/
theorem ls_chain_ends : ∃ history, loadHistory (fun _ _ => 0) 7 [108, 115, 10] = some history ∧
    ∃ a n, follow (callStep history) n zeroLine = some a := by
  have hloads : LoadsAs (fun _ _ => 0) 7 [108, 115, 10] [[108, 115]] := loadsAs_iff.mpr (by decide)
  obtain ⟨history, hload, hcommands⟩ := hloads
  have hkept : Kept true 7 history := .loaded rfl .start hload
  obtain ⟨cs, hold, _⟩ := hkept.holds
  obtain rfl : cs = [[108, 115]] := map_some_inj ((held_commands hold).symm.trans hcommands)
  have hline : Typed zeroLine := ⟨zeroLine, [], rfl, Or.inl rfl, by decide, by decide⟩
  have hfirst : firstWords (tokens zeroLine) = [zeroLine] := by decide
  have hfirst' : firstWords (tokens [108, 115]) = [[108, 115]] := by decide
  have hlast : ∀ c, ¬ Names [[108, 115]] [108, 115] c := by
    intro c hn
    cases hn with
    | index h | latest h =>
      rw [hfirst'] at h
      cases h
  have hreached : ∀ t, ReflTransGen (Names [[108, 115]]) zeroLine t → t = zeroLine ∨ t = [108, 115] := by
    intro t ht
    rcases ht.cases_tail with rfl | ⟨u, _, hn⟩
    · exact Or.inl rfl
    · exact Or.inr (List.mem_singleton.mp hn.mem)
  refine ⟨history, hload, (chain_ends_iff hkept hold hline).mpr ⟨?_, ?_⟩⟩
  · intro t ht
    rcases hreached t ht with rfl | rfl
    · refine ⟨⟨⟨by decide, Or.inl (by decide)⟩, fun h => absurd h (by decide)⟩, by rw [hfirst]; decide, ?_⟩
      intro t rest h
      rw [hfirst] at h
      cases h
      exact ⟨0, rfl, by decide, by decide⟩
    · refine ⟨⟨⟨by decide, Or.inl (by decide)⟩, fun h => absurd h (by decide)⟩, by rw [hfirst']; decide, ?_⟩
      intro t rest h
      rw [hfirst'] at h
      cases h
  · intro ⟨w, _, hc⟩
    obtain ⟨u, hn, _⟩ := TransGen.head'_iff.mp hc
    obtain ⟨v, _, hn'⟩ := TransGen.tail'_iff.mp hc
    rw [List.mem_singleton.mp hn'.mem] at hn
    exact hlast u hn

/-- A line without its newline is dispatched as the line is. -/
theorem dispatch_strip (hstrip : stripNewline line = some l) (h10 : 10 ∉ l) (htokens : tokens line = tokens l)
    (hs : arrays line = some s) : dispatch history l = dispatch history line := by
  have harrays : arrays line = arrays l := by
    unfold arrays
    rw [htokens]
  have hne : l ++ [] ≠ [] := by
    intro hnil
    rw [(List.append_eq_nil_iff.mp hnil).1] at harrays
    rw [harrays] at hs
    cases hs
  have hl := stripNewline_line (Or.inl rfl) h10 hne
  rw [List.append_nil] at hl
  unfold dispatch
  rw [hstrip, hl, harrays]

/-- Without a history file every entry is a command that is run. -/
theorem Kept.external (h : Kept false getpid history) :
    ∃ cs, Stored history cs ∧ ∀ c ∈ cs, ∀ other, ∃ s, dispatch other c = some (.external c s) := by
  induction h with
  | start => exact ⟨[], ⟨.nil, by simp⟩, by simp⟩
  | loaded hloads => cases hloads
  | @stored history history' line command s fill _ hline hrun hstore ih =>
    obtain ⟨cs, hs, hcs⟩ := ih
    obtain ⟨hstrip, hother⟩ := dispatch_external hrun
    obtain ⟨l, hl, h0, h10, htokens⟩ := hline.strip (stripNewline_ne hstrip)
    obtain rfl := Option.some.inj (hl.symm.trans hstrip)
    obtain ⟨_, _, harrays⟩ := Option.bind_eq_some_iff.mp hrun
    obtain ⟨s', hs', _⟩ := Option.bind_eq_some_iff.mp harrays
    refine ⟨cs ++ [l], hs.store (cstr_append h0) h10 hstore, List.forall_mem_append.mpr ⟨hcs, ?_⟩⟩
    refine List.forall_mem_singleton.mpr fun other => ⟨s, ?_⟩
    rw [dispatch_strip hl h10 htokens hs']
    exact hother other
  | modified _ hmod ih =>
    obtain ⟨cs, hs, hcs⟩ := ih
    exact ⟨cs, ⟨modifyPid_holds hs.1 hmod, hs.2⟩, hcs⟩

/-- The call for an entry is then the last one. -/
theorem unloaded_ends (hkept : Kept false getpid history) (hline : Typed line)
    (hsome : (dispatch history line).isSome = true) : ∃ a, follow (callStep history) 2 line = some a := by
  obtain ⟨cs, hs, hcs⟩ := hkept.external
  obtain ⟨next, hnext⟩ : ∃ next, callStep history line = some next := by
    rw [← Option.isSome_iff_exists, callStep, Option.isSome_map]
    exact hsome
  cases next with
  | done a => exact ⟨a, follow_done hnext⟩
  | on c =>
    have hnames := (goes_iff hs.1 hline ((dispatch_isSome hs.1 hline).mp hsome)).mp hnext
    obtain ⟨s, hrun⟩ := hcs c hnames.mem history
    refine ⟨.external c s, ?_⟩
    rw [follow_on hnext]
    exact follow_done (by rw [callStep, hrun]; rfl)

/-- The history file "#0": `run` calls itself with the same line for ever. -/
theorem zero_calls_itself : ∃ history, loadHistory (fun _ _ => 0) 7 (zeroLine ++ [10]) = some history ∧
    Kept true 7 history ∧ HoldsCommands history [zeroLine] ∧
    ¬ ∃ a n, follow (callStep history) n zeroLine = some a := by
  have hloads : LoadsAs (fun _ _ => 0) 7 (zeroLine ++ [10]) [zeroLine] := loadsAs_iff.mpr (by decide)
  obtain ⟨history, hload, hcommands⟩ := hloads
  have hkept : Kept true 7 history := .loaded rfl .start hload
  obtain ⟨cs, hold, _⟩ := hkept.holds
  obtain rfl : cs = [zeroLine] := map_some_inj ((held_commands hold).symm.trans hcommands)
  have hgoes : Goes (callStep history) zeroLine zeroLine := by
    have hzero : Number [48] 0 := .plain (by simp) (List.forall_mem_singleton.mpr rfl)
    refine goes_replay.mpr ⟨0, (dispatch_number hzero (Or.inl rfl)).trans ?_⟩
    rw [if_pos (by decide), if_neg (by omega), entry_held hold (Int.le_refl 0)]
    rfl
  refine ⟨history, hload, hkept, hold, ?_⟩
  intro ⟨a, n, h⟩
  rw [follow_cycle (.single hgoes)] at h
  cases h

end SysProg.Shell
