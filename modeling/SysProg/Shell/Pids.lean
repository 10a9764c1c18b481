/-
  SysProg.Shell.Pids — the pids of the history, shell/shell.c (`modify_pid`, the branch of
  `run` for a command without operators, and the end of `shell`).

  A command is stored with the pid of the shell, run, and then looked up again by its text
  to store the pid that `run_cmd` returned. The look-up starts at the oldest entry, so a
  command that is in the history already gets the new pid into its old entry, and its new
  entry keeps that of the shell, which the end of `shell` skips.
  - `pids_kept_iff`: after each command of a session every entry has its own pid, and the
    end of `shell` looks at every process, exactly when no command comes twice or was
    loaded, and the history has room.
  - `ls_twice`: "ls" with the pids 8 and 9.

  What `run_cmd` does is not modelled; a session is the lines and the pids it returned.
-/

import SysProg.Shell.Replay

namespace SysProg.Shell

open SysProg.CString (Text cstr cstr_append malloc malloc_length)

/-- The first entry with the command gets the pid. -/
def modifyPid : List Process → Text → Nat → Option (List Process)
  | [], _, _ => some []
  | p :: rest, command, pid => (cstr p.command).bind fun s =>
    if s = command then some ({ p with pid := pid } :: rest) else (modifyPid rest command pid).map (p :: ·)

structure Ran where
  line : Text
  pid : Nat

def Ran.command (r : Ran) : Text := (stripNewline r.line).getD []

/-- `run` for a command without operators; `fill` is what new blocks hold. -/
def runSingle (fill : Nat → Nat → UInt8) (getpid : Nat) (history : List Process) (r : Ran) : Option (List Process) :=
  match dispatch history r.line with
  | some (.external command s) =>
    if s.mode = .single then
      (storeProcess history (command ++ [0]) getpid (fill history.length)).bind fun history =>
        modifyPid history command r.pid
    else none
  | _ => none

def session (fill : Nat → Nat → UInt8) (getpid : Nat) : List Process → List Ran → Option (List Process)
  | history, [] => some history
  | history, r :: runs => (runSingle fill getpid history r).bind fun history => session fill getpid history runs

def cleanup (getpid : Nat) (history : List Process) : List Nat := (history.map (·.pid)).filter fun pid => pid ≠ getpid

/-! ## What is asked of it -/

def Single (r : Ran) : Prop := 0 ∉ r.command ∧ r.command.length < maxCommand ∧
  ∃ s, s.mode = .single ∧ dispatch [] r.line = some (.external r.command s)

/-- After each command the entries have the pids of their own runs. -/
def KeepsPids (fill : Nat → Nat → UInt8) (getpid : Nat) (loaded : List Process) (runs : List Ran) : Prop :=
  ∀ k ≤ runs.length, ∃ history, session fill getpid loaded (runs.take k) = some history ∧
    history.map (·.pid) = loaded.map (·.pid) ++ (runs.take k).map (·.pid)

def LooksAtAll (fill : Nat → Nat → UInt8) (getpid : Nat) (loaded : List Process) (runs : List Ran) : Prop :=
  ∀ history, session fill getpid loaded runs = some history → ∀ r ∈ runs, r.pid ∈ cleanup getpid history

variable {fill : Nat → Nat → UInt8} {getpid pid : Nat} {history history' rest : List Process} {cs : List Text}
  {c line : Text} {s : Line} {r : Ran} {runs : List Ran}

/-! ## Looking a command up -/

theorem modifyPid_absent (hold : HoldsCommands history cs) (hc : c ∉ cs) :
    modifyPid (history ++ rest) c pid = (modifyPid rest c pid).map (history ++ ·) := by
  induction hold with
  | nil => simp
  | cons hp _ ih =>
    rw [List.mem_cons, not_or] at hc
    rw [List.cons_append, modifyPid, hp.1, Option.bind_some, if_neg (Ne.symm hc.1), ih hc.2, Option.map_map]
    rfl

/-- An older entry with the command takes the pid. -/
theorem modifyPid_present (hold : HoldsCommands history cs) (hc : c ∈ cs) : ∃ history',
    modifyPid (history ++ rest) c pid = some (history' ++ rest) ∧ history'.length = history.length := by
  induction hold with
  | nil => cases hc
  | @cons p d history cs hp _ ih =>
    rw [List.cons_append, modifyPid, hp.1, Option.bind_some]
    by_cases hd : d = c
    · exact ⟨_ :: history, if_pos hd, rfl⟩
    · rw [if_neg hd]
      obtain ⟨history', hmod, hlen⟩ := ih ((List.mem_cons.mp hc).resolve_left (Ne.symm hd))
      exact ⟨p :: history', by rw [hmod]; rfl, by rw [List.length_cons, hlen, List.length_cons]⟩

/-! ## A command -/

/-- What is run is the line without its newline, and does not depend on the history. -/
theorem dispatch_external (h : dispatch history line = some (.external c s)) :
    stripNewline line = some c ∧ ∀ other, dispatch other line = some (.external c s) := by
  obtain ⟨command, hstrip, h⟩ := Option.bind_eq_some_iff.mp h
  obtain ⟨l, hl, h⟩ := Option.bind_eq_some_iff.mp h
  unfold dispatch
  simp only [hstrip, hl, Option.bind_some]
  cases hw : l.words with
  | nil =>
    rw [hw] at h
    cases h
  | cons word rest =>
    rw [hw] at h
    dsimp only at h ⊢
    split at h
    · cases h
    rename_i hhistory
    split at h
    · obtain ⟨num, _, h⟩ := Option.bind_eq_some_iff.mp h
      split at h
      · cases h
      · obtain ⟨_, _, h⟩ := Option.map_eq_some_iff.mp h
        cases h
    rename_i hnum
    split at h
    · obtain ⟨found, _, h⟩ := Option.map_eq_some_iff.mp h
      cases found <;> cases h
    rename_i hpfx
    split at h
    · cases h
    rename_i hsignal
    cases h
    refine ⟨rfl, ?_⟩
    intro other
    rw [if_neg hhistory, if_neg hnum, if_neg hpfx, if_neg hsignal]

/-- The block of a command that is stored. -/
theorem storeProcess_block {src : Text} (getpid : Nat) (f : Nat → UInt8) (hc : cstr src = some c)
    (hlen : c.length < maxCommand) (hroom : history.length < maxHistory) : ∃ block,
      storeProcess history src getpid f = some (history ++ [⟨block, getpid⟩]) ∧ cstr block = some c ∧
        block.length = maxCommand := by
  refine ⟨c ++ 0 :: (malloc maxCommand f).drop (c.length + 1), ?_, cstr_append (cstr_no_nul hc), ?_⟩
  · rw [storeProcess, if_pos hroom, copied f hc hlen]
    rfl
  · rw [List.length_append, List.length_cons, List.length_drop, malloc_length]
    omega

theorem storeProcess_full (hroom : ¬ history.length < maxHistory) (f : Nat → UInt8) :
    storeProcess history line getpid f = none := if_neg hroom

theorem runSingle_eq (hr : Single r) : runSingle fill getpid history r =
    (storeProcess history (r.command ++ [0]) getpid (fill history.length)).bind fun history =>
      modifyPid history r.command r.pid := by
  obtain ⟨_, _, s, hs, hline⟩ := hr
  unfold runSingle
  rw [(dispatch_external hline).2 history]
  exact if_pos hs

/-- A command that is not in the history gets its pid. -/
theorem runSingle_new (hold : HoldsCommands history cs) (hr : Single r) (hroom : history.length < maxHistory)
    (hc : r.command ∉ cs) : ∃ history', runSingle fill getpid history r = some history' ∧
      HoldsCommands history' (cs ++ [r.command]) ∧ history'.map (·.pid) = history.map (·.pid) ++ [r.pid] := by
  obtain ⟨block, hstore, hblock, hlen⟩ :=
    storeProcess_block getpid (fill history.length) (cstr_append hr.1) hr.2.1 hroom
  refine ⟨history ++ [⟨block, r.pid⟩], ?_, List.rel_append hold (.cons ⟨hblock, hlen⟩ .nil), by simp⟩
  rw [runSingle_eq hr, hstore, Option.bind_some, modifyPid_absent hold hc, modifyPid, hblock, Option.bind_some,
    if_pos rfl]
  rfl

/-- One that is keeps the pid of the shell in its new entry. -/
theorem runSingle_again (hold : HoldsCommands history cs) (hr : Single r) (hpid : r.pid ≠ getpid) (hc : r.command ∈ cs)
    (h : runSingle fill getpid history r = some history') :
    history'.map (·.pid) ≠ history.map (·.pid) ++ [r.pid] := by
  rw [runSingle_eq hr] at h
  obtain ⟨stored, hstore, hmod⟩ := Option.bind_eq_some_iff.mp h
  have hroom : history.length < maxHistory := by
    by_contra hno
    rw [storeProcess_full hno] at hstore
    cases hstore
  obtain ⟨block, hstore', _, _⟩ := storeProcess_block getpid (fill history.length) (cstr_append hr.1) hr.2.1 hroom
  obtain rfl := Option.some.inj (hstore.symm.trans hstore')
  obtain ⟨changed, hmod', hlen⟩ := modifyPid_present hold hc
  obtain rfl := Option.some.inj (hmod.symm.trans hmod')
  intro heq
  rw [List.map_append] at heq
  have hlast := (List.append_inj heq (by rw [List.length_map, List.length_map, hlen])).2
  exact hpid (List.singleton_inj.mp hlast).symm

theorem runSingle_iff (hold : HoldsCommands history cs) (hr : Single r) (hpid : r.pid ≠ getpid) :
    (∃ history', runSingle fill getpid history r = some history' ∧
      history'.map (·.pid) = history.map (·.pid) ++ [r.pid]) ↔ history.length < maxHistory ∧ r.command ∉ cs := by
  constructor
  · intro ⟨history', hrun, hpids⟩
    refine ⟨?_, ?_⟩
    · by_contra hno
      rw [runSingle_eq hr, storeProcess_full hno] at hrun
      cases hrun
    · intro hc
      exact runSingle_again hold hr hpid hc hrun hpids
  · intro ⟨hroom, hc⟩
    obtain ⟨history', hrun, _, hpids⟩ := runSingle_new hold hr hroom hc
    exact ⟨history', hrun, hpids⟩

/-! ## A session -/

theorem session_cons (hrun : runSingle fill getpid history r = some history') :
    session fill getpid history (r :: runs) = session fill getpid history' runs := by
  rw [session, hrun, Option.bind_some]

theorem keepsPids_cons : KeepsPids fill getpid history (r :: runs) ↔
    ∃ history', runSingle fill getpid history r = some history' ∧
      history'.map (·.pid) = history.map (·.pid) ++ [r.pid] ∧ KeepsPids fill getpid history' runs := by
  constructor
  · intro h
    obtain ⟨history', hsession, hpids⟩ := h 1 (Nat.succ_le_succ (Nat.zero_le _))
    obtain ⟨history1, hrun, hone⟩ := Option.bind_eq_some_iff.mp hsession
    obtain rfl := Option.some.inj hone
    refine ⟨history1, hrun, hpids, ?_⟩
    intro k hk
    obtain ⟨history2, hsession, hmap⟩ := h (k + 1) (Nat.succ_le_succ hk)
    rw [List.take_succ_cons, session_cons hrun] at hsession
    refine ⟨history2, hsession, ?_⟩
    rw [hmap, hpids, List.append_assoc]
    rfl
  · intro ⟨history', hrun, hpids, h⟩ k hk
    cases k with
    | zero => exact ⟨history, rfl, (List.append_nil _).symm⟩
    | succ k =>
      obtain ⟨history2, hsession, hmap⟩ := h k (Nat.le_of_succ_le_succ hk)
      refine ⟨history2, by rw [List.take_succ_cons, session_cons hrun, hsession], ?_⟩
      rw [hmap, hpids, List.append_assoc]
      rfl

theorem held_length (hold : HoldsCommands history cs) (hold' : HoldsCommands history' (cs ++ [c])) :
    history'.length = history.length + 1 := by
  rw [hold.length_eq, hold'.length_eq, List.length_append, List.length_singleton]

/-- By induction on the session, with the commands that are in the history so far. -/
theorem keepsPids_iff (hold : HoldsCommands history cs) (hroom : history.length ≤ maxHistory)
    (hruns : ∀ r ∈ runs, Single r ∧ r.pid ≠ getpid) : KeepsPids fill getpid history runs ↔
      (runs.map Ran.command).Nodup ∧ (∀ r ∈ runs, r.command ∉ cs) ∧ history.length + runs.length ≤ maxHistory := by
  induction runs generalizing history cs with
  | nil =>
    refine ⟨fun _ => ⟨List.nodup_nil, by simp, hroom⟩, ?_⟩
    intro _ k hk
    rw [List.length_nil, Nat.le_zero] at hk
    rw [hk]
    exact ⟨history, rfl, (List.append_nil _).symm⟩
  | cons r runs ih =>
    obtain ⟨⟨hr, hpid⟩, hruns⟩ := List.forall_mem_cons.mp hruns
    rw [keepsPids_cons, List.map_cons, List.nodup_cons, List.forall_mem_cons, List.length_cons]
    constructor
    · intro ⟨history', hrun, hpids, hrest⟩
      obtain ⟨hlt, hc⟩ := (runSingle_iff hold hr hpid).mp ⟨history', hrun, hpids⟩
      obtain ⟨history1, hrun1, hold1, hpids1⟩ := runSingle_new hold hr hlt hc
      obtain rfl := Option.some.inj (hrun.symm.trans hrun1)
      have hlen := held_length hold hold1
      obtain ⟨hnodup, hnew, hle⟩ := (ih hold1 (by omega) hruns).mp hrest
      refine ⟨⟨?_, hnodup⟩, ⟨hc, ?_⟩, by omega⟩
      · intro hm
        obtain ⟨r', hr', e⟩ := List.mem_map.mp hm
        exact hnew r' hr' (List.mem_append_right _ (List.mem_singleton.mpr e))
      · intro r' hr' hm
        exact hnew r' hr' (List.mem_append_left _ hm)
    · intro ⟨⟨hfresh, hnodup⟩, ⟨hc, hnew⟩, hle⟩
      obtain ⟨history1, hrun1, hold1, hpids1⟩ := runSingle_new hold hr (by omega) hc
      have hlen := held_length hold hold1
      refine ⟨history1, hrun1, hpids1, (ih hold1 (by omega) hruns).mpr ⟨hnodup, ?_, by omega⟩⟩
      intro r' hr' hm
      rcases List.mem_append.mp hm with hm | hm
      · exact hnew r' hr' hm
      · exact hfresh (List.mem_map.mpr ⟨r', hr', List.mem_singleton.mp hm⟩)

/-- A pid in the history that is not that of the shell is looked at. -/
theorem looksAtAll (hkeeps : KeepsPids fill getpid history runs) (hruns : ∀ r ∈ runs, Single r ∧ r.pid ≠ getpid) :
    LooksAtAll fill getpid history runs := by
  intro history' hsession r hr
  obtain ⟨history1, hsession1, hpids⟩ := hkeeps runs.length (Nat.le_refl _)
  rw [List.take_length] at hsession1 hpids
  obtain rfl := Option.some.inj (hsession.symm.trans hsession1)
  refine List.mem_filter.mpr ⟨?_, decide_eq_true (hruns r hr).2⟩
  rw [hpids]
  exact List.mem_append_right _ (List.mem_map_of_mem hr)

/-! ## Results -/

/-- For every session of commands without operators, after any loaded history. -/
theorem pids_kept_iff (hold : HoldsCommands history cs) (hroom : history.length ≤ maxHistory)
    (hruns : ∀ r ∈ runs, Single r ∧ r.pid ≠ getpid) :
    KeepsPids fill getpid history runs ∧ LooksAtAll fill getpid history runs ↔
      (runs.map Ran.command).Nodup ∧ (∀ r ∈ runs, r.command ∉ cs) ∧ history.length + runs.length ≤ maxHistory := by
  rw [← keepsPids_iff hold hroom hruns]
  exact and_iff_left_of_imp fun hkeeps => looksAtAll hkeeps hruns

def ranLs (pid : Nat) : Ran := ⟨[108, 115, 10], pid⟩

def ranW (pid : Nat) : Ran := ⟨[119, 10], pid⟩

theorem ranLs_single (pid : Nat) : Single (ranLs pid) :=
  ⟨(by decide : 0 ∉ ([108, 115] : Text)), (by decide : 2 < maxCommand), ⟨[[108, 115]], [], .single⟩, rfl, rfl⟩

/-- Two commands in a session of the shell with the pid 7. -/
theorem ls_and_w :
    KeepsPids (fun _ _ => 0) 7 [] [ranLs 8, ranW 9] ∧ LooksAtAll (fun _ _ => 0) 7 [] [ranLs 8, ranW 9] := by
  refine (pids_kept_iff .nil (Nat.zero_le _) ?_).mpr (by decide)
  refine List.forall_mem_cons.mpr ⟨⟨ranLs_single 8, by decide⟩, List.forall_mem_singleton.mpr ⟨?_, by decide⟩⟩
  exact ⟨by decide, by decide, ⟨[[119]], [], .single⟩, rfl, rfl⟩

/-- "ls" is run twice by the shell with the pid 7: its first entry gets both pids, and the
    process 8 is not looked at in the end. -/
theorem ls_twice : ∃ history, session (fun _ _ => 0) 7 [] [ranLs 8, ranLs 9] = some history ∧
    history.map (·.pid) = [9, 7] ∧ 8 ∉ cleanup 7 history ∧
    ¬ (KeepsPids (fun _ _ => 0) 7 [] [ranLs 8, ranLs 9] ∧ LooksAtAll (fun _ _ => 0) 7 [] [ranLs 8, ranLs 9]) := by
  have hone := ranLs_single 8
  have htwo := ranLs_single 9
  have hempty : ([] : List Process).length < maxHistory := by decide
  obtain ⟨block, hstore, hblock, _⟩ := storeProcess_block 7 (fun _ => 0) (cstr_append hone.1) hone.2.1 hempty
  have hroom : [Process.mk block 8].length < maxHistory := Nat.succ_lt_succ (by decide)
  obtain ⟨block', hstore', _, _⟩ := storeProcess_block 7 (fun _ => 0) (cstr_append htwo.1) htwo.2.1 hroom
  have hfirst : runSingle (fun _ _ => 0) 7 [] (ranLs 8) = some [⟨block, 8⟩] := by
    rw [runSingle_eq hone, hstore, Option.bind_some, List.nil_append, modifyPid, hblock, Option.bind_some, if_pos rfl]
    rfl
  have hsecond : runSingle (fun _ _ => 0) 7 [⟨block, 8⟩] (ranLs 9) = some [⟨block, 9⟩, ⟨block', 7⟩] := by
    rw [runSingle_eq htwo, hstore', Option.bind_some, List.singleton_append, modifyPid, hblock, Option.bind_some]
    exact if_pos rfl
  refine ⟨[⟨block, 9⟩, ⟨block', 7⟩], ?_, rfl, (by decide : 8 ∉ [9, 7].filter fun pid => pid ≠ 7), ?_⟩
  · rw [session_cons hfirst, session_cons hsecond]
    rfl
  · intro ⟨hkeeps, _⟩
    have hruns : ∀ r ∈ [ranLs 8, ranLs 9], Single r ∧ r.pid ≠ 7 := by
      refine List.forall_mem_cons.mpr ⟨⟨hone, by decide⟩, List.forall_mem_singleton.mpr ⟨htwo, by decide⟩⟩
    exact absurd ((keepsPids_iff .nil (Nat.zero_le _) hruns).mp hkeeps).1 (by decide)

end SysProg.Shell
