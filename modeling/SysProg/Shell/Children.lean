/-
  SysProg.Shell.Children — a session of shell/shell.c and the children it leaves (the loops
  of `shell`, `run`, `run_cmd`, `external_run`, `redirect`).

  A line is looked up in the history as long as it names an entry (`Pc.run`); what is run in
  the end is stored, run and, by its operator, followed by a second command. A child runs,
  stops, goes on and ends at any time, also while the shell waits: `waitpid` with WUNTRACED
  comes back for the child it names, ended or stopped, and `wait` for any child that has
  ended. `kill`, `stop` and `cont` send a signal; what it does to a child is a step of the
  child. A fork that fails ends the shell. Nothing (`none`) comes of a read outside an array
  or the history, and of a status that was not written.

  Main result: `children_left`, over every order of steps. The history holds what was loaded
  and then, in order, what was run, and no line that named an entry; the pids in it are those
  of the shell, of its children, 0 and -1. The child that is waited for is there. At the
  prompt there are as many children as were started with "&" or seen stopped, whatever was
  redirected. But it need not be those: `redirect` waits for the first child that ends, so a
  redirected command may run on (`redirect_takes_another`).
-/

import SysProg.Lib.Run
import SysProg.Shell.Chains

namespace SysProg.Shell

open SysProg.CString (Text CStr cstr_append)

/-! ## Children -/

inductive Child where
  | running
  | stopped (signal : Nat)
  /-- With the status that a wait stores. -/
  | ended (status : Nat)
  deriving DecidableEq

abbrev Children := List (Nat × Child)

/-- `WEXITSTATUS` of what `waitpid` stores, if it comes back: for a stopped child it is the signal, for one
    that was killed 0. -/
def exitStatus : Child → Option Nat
  | .running => none
  | .stopped signal => some (signal % 256)
  | .ended status => some (status / 256 % 256)

def setChild (l : Children) (pid : Nat) (c : Child) : Children := l.map fun x => if x.1 = pid then (pid, c) else x

def reap (l : Children) (pid : Nat) : Children := l.eraseP fun x => x.1 = pid

/-! ## The shell -/

structure Job where
  command : Text
  line : Line
  zombie : Bool

/-- A "&" at the end of either array. -/
def zombie (input : Text) : Bool :=
  let s := (placeAll ⟨[], [], .single⟩ (tokens input)).1
  decide (s.words.getLast? = some ampersand ∨ s.mode ≠ .single ∧ s.words1.getLast? = some ampersand)

inductive Pc where
  | prompt
  /-- A call of `run`. -/
  | run (input : Text)
  /-- A call of `run_cmd`, with `words1` when it is the second. -/
  | runCmd (second : Bool) (job : Job)
  | waitpid (second : Bool) (job : Job) (pid : Nat)
  | redirect (job : Job)
  | wait (job : Job) (pid : Nat)
  | exited

structure St where
  pc : Pc
  /-- The lines still come from the file of -f. -/
  script : Bool
  history : List Process
  children : Children
  /-- The commands that were stored. -/
  ran : List Text
  /-- What `fork` returned. -/
  forked : List Nat
  /-- How many children were started with "&" or were stopped when the shell waited for them. -/
  left : Nat

inductive Act where
  | line (input : CStr)
  | eof
  /-- `run` decides what to do; `fill` is what a new block holds. -/
  | dispatch (fill : Nat → UInt8)
  | chdir (ok : Bool)
  /-- `ps`, and `cd` without a directory. -/
  | builtin
  | fork (pid : Option Nat)
  | waited
  /-- `wait` comes back, for a child or because there is none. -/
  | reaped (pid : Option Nat)
  | ends (pid status : Nat)
  | stops (pid signal : Nat)
  | continues (pid : Nat)

/-- (pid_t) -1 -/
def pidError : Nat := 2 ^ 32 - 1

/-- "cd", "ps" and "exit\n" -/
def cdWord : Text := [99, 100]
def psWord : Text := [112, 115]
def exitLine : Text := [101, 120, 105, 116, 10]

/-- `modify_pid(history, *h_size, input, pid); return 0;` -/
def modified (s : St) (job : Job) (pid : Nat) : Option St :=
  (modifyPid s.history job.command pid).map fun history => { s with history, pc := .prompt }

/-- What `run` does when a call of `run_cmd` has returned a pid, or -1. -/
def returned (getpid : Nat) (s : St) (second : Bool) (job : Job) (result : Option Nat) : Option St :=
  match job.line.mode, second, result with
  | .single, _, none => some { s with pc := .prompt }
  | .single, _, some pid => modified s job pid
  | .seq, false, _ => some { s with pc := .runCmd true job }
  | .seq, true, result => modified s job (result.getD pidError)
  | .and, _, none => some { s with pc := .prompt }
  | .and, false, some _ => some { s with pc := .runCmd true job }
  | .and, true, some _ => modified s job getpid
  | .or, false, none => some { s with pc := .runCmd true job }
  | .or, true, none => some { s with pc := .prompt }
  | .or, _, some _ => modified s job getpid
  | _, _, _ => none

def forks (getpid : Nat) (s : St) (pid : Nat) : Option St :=
  if pid = 0 ∨ pid = getpid ∨ pid ∈ s.children.map Prod.fst then none
  else some { s with children := s.children ++ [(pid, .running)], forked := s.forked ++ [pid] }

def inputEnds (s : St) : St := if s.script = true then { s with script := false } else { s with pc := .exited }

def shellStep (getpid : Nat) (s : St) : Pc → Act → Option St
  | .prompt, .line input =>
    if input.1 = [10] then some s
    else if input.1 = exitLine then some (inputEnds s)
    else some { s with pc := .run input.1 }
  | .prompt, .eof => some (inputEnds s)
  | .run input, .dispatch fill =>
    match dispatch s.history input with
    | none => none
    | some (.replay _ command) => some { s with pc := .run command }
    | some (.external command line) =>
      (storeProcess s.history (command ++ [0]) getpid fill).map fun history =>
        let job := ⟨command, line, zombie input⟩
        let pc := if line.mode ∈ [.write, .read, .append] then .redirect job else .runCmd false job
        { s with history, pc, ran := s.ran ++ [command] }
    -- `!history`, an index or a prefix that is not there, a signal
    | some _ => some { s with pc := .prompt }
  | .runCmd second job, a =>
    match (if second = true then job.line.words1 else job.line.words), a with
    -- `strcmp` reads a NULL word
    | [], _ => none
    | word :: args, .chdir ok =>
      if word = cdWord ∧ args ≠ [] then returned getpid s second job (if ok = true then some 0 else none) else none
    | word :: args, .builtin =>
      if word = cdWord ∧ args = [] then returned getpid s second job none
      else if word = psWord then returned getpid s second job (some 0) else none
    | word :: _, .fork none => if word = cdWord ∨ word = psWord then none else some { s with pc := .exited }
    | word :: _, .fork (some pid) =>
      if word = cdWord ∨ word = psWord then none
      else (forks getpid s pid).bind fun s =>
        if job.zombie = true then returned getpid { s with left := s.left + 1 } second job (some pid)
        else some { s with pc := .waitpid second job pid }
    | _, _ => none
  | .waitpid second job pid, .waited =>
    (s.children.lookup pid).bind fun c => (exitStatus c).bind fun status =>
      let s := match c with
        | .stopped _ => { s with left := s.left + 1 }
        | _ => { s with children := reap s.children pid }
      returned getpid s second job (if status = 0 then some pid else none)
  | .redirect _, .fork none => some { s with pc := .exited }
  | .redirect job, .fork (some pid) => (forks getpid s pid).map fun s => { s with pc := .wait job pid }
  | .wait job pid, .reaped none => if s.children = [] then modified s job pid else none
  | .wait job pid, .reaped (some other) =>
    match s.children.lookup other with
    | some (.ended _) => modified { s with children := reap s.children other } job pid
    | _ => none
  | _, _ => none

def step (getpid : Nat) (s : St) : Act → Option St
  | .ends pid status => (s.children.lookup pid).bind fun
    | .ended _ => none
    | _ => some { s with children := setChild s.children pid (.ended status) }
  | .stops pid signal => (s.children.lookup pid).bind fun
    | .running => some { s with children := setChild s.children pid (.stopped signal) }
    | _ => none
  | .continues pid => (s.children.lookup pid).bind fun
    | .stopped _ => some { s with children := setChild s.children pid .running }
    | _ => none
  | a => shellStep getpid s s.pc a

def loadFiles (fill : Nat → Nat → UInt8) (getpid : Nat) : List Process → List Text → Option (List Process)
  | history, [] => some history
  | history, file :: files =>
    (loadLoop fill getpid history (getlines [] file)).bind fun history => loadFiles fill getpid history files

def atPrompt (history : List Process) (script : Bool) : St := ⟨.prompt, script, history, [], [], [], 0⟩

def sys (getpid : Nat) (loaded : List Process) : Run.Sys St Act :=
  Run.ofFun (fun s => ∃ script, s = atPrompt loaded script) (step getpid)

/-! ## What is kept -/

def Pc.awaited : Pc → Option Nat
  | .waitpid _ _ pid => some pid
  | .wait _ pid => some pid
  | _ => none

def Known (getpid : Nat) (forked : List Nat) (pid : Nat) : Prop :=
  pid = getpid ∨ pid = 0 ∨ pid = pidError ∨ pid ∈ forked

/-- The history and the children when nothing is waited for. -/
structure Books (getpid : Nat) (cs : List Text) (s : St) : Prop where
  history : HoldsCommands s.history (cs ++ s.ran)
  pids : ∀ x ∈ s.history, Known getpid s.forked x.pid
  count : s.children.length = s.left

structure Inv (getpid : Nat) (cs : List Text) (s : St) : Prop where
  history : HoldsCommands s.history (cs ++ s.ran)
  pids : ∀ x ∈ s.history, Known getpid s.forked x.pid
  count : s.children.length = s.left + (if s.pc.awaited.isSome then 1 else 0)
  awaited : ∀ pid, s.pc.awaited = some pid → pid ∈ s.children.map Prod.fst ∧ pid ∈ s.forked
  input : ∀ input, s.pc = .run input → 0 ∉ input

variable {getpid pid : Nat} {cs : List Text} {s s' : St} {history history' : List Process} {c : Text} {l : Children}
  {second : Bool} {job : Job} {result : Option Nat} {p : Pc} {a : Act}

theorem setChild_keys {child : Child} : (setChild l pid child).map Prod.fst = l.map Prod.fst := by
  unfold setChild
  rw [List.map_map]
  apply List.map_congr_left
  intro x _
  show (if x.1 = pid then (pid, child) else x).1 = x.1
  split
  · rename_i h
    exact h.symm
  · rfl

theorem lookup_key {child : Child} (h : l.lookup pid = some child) : pid ∈ l.map Prod.fst := by
  obtain ⟨l1, l2, rfl, _⟩ := List.lookup_eq_some_iff.mp h
  simp

theorem reap_length (h : pid ∈ l.map Prod.fst) : (reap l pid).length + 1 = l.length := by
  obtain ⟨x, hx, hp⟩ := List.mem_map.mp h
  have hlen : (reap l pid).length = l.length - 1 := List.length_eraseP_of_mem hx (by simpa using hp)
  have hpos := List.length_pos_of_mem hx
  omega

theorem modifyPid_pids (h : modifyPid history c pid = some history') :
    ∀ x ∈ history', x ∈ history ∨ x.pid = pid := by
  induction history generalizing history' with
  | nil =>
    cases h
    simp
  | cons q history ih =>
    obtain ⟨t, _, h⟩ := Option.bind_eq_some_iff.mp h
    split at h
    · cases h
      intro x hx
      rcases List.mem_cons.mp hx with rfl | hx
      · exact Or.inr rfl
      · exact Or.inl (List.mem_cons_of_mem _ hx)
    · obtain ⟨rest, hrest, rfl⟩ := Option.map_eq_some_iff.mp h
      intro x hx
      rcases List.mem_cons.mp hx with rfl | hx
      · exact Or.inl List.mem_cons_self
      · exact (ih hrest x hx).imp_left (List.mem_cons_of_mem _)

theorem storeProcess_pids {fill : Nat → UInt8} (h : storeProcess history c getpid fill = some history') :
    ∀ x ∈ history', x ∈ history ∨ x.pid = getpid := by
  unfold storeProcess at h
  split at h
  · obtain ⟨block, _, rfl⟩ := Option.map_eq_some_iff.mp h
    intro x hx
    rcases List.mem_append.mp hx with hx | hx
    · exact Or.inl hx
    · exact Or.inr (List.mem_singleton.mp hx ▸ rfl)
  · cases h

theorem holds_store {src : Text} {fill : Nat → UInt8} (hold : HoldsCommands history cs)
    (hc : CString.cstr src = some c) (h : storeProcess history src getpid fill = some history') :
    HoldsCommands history' (cs ++ [c]) := by
  obtain ⟨d, hd, hlen, hroom, _⟩ := storeProcess_some h
  obtain rfl := Option.some.inj (hc.symm.trans hd)
  obtain ⟨block, hstore, hblock, hsize⟩ := storeProcess_block getpid fill hc hlen hroom
  obtain rfl := Option.some.inj (h.symm.trans hstore)
  exact List.rel_append hold (.cons ⟨hblock, hsize⟩ .nil)

theorem stripNewline_no_nul {input : Text} (h0 : 0 ∉ input) (h : stripNewline input = some c) : 0 ∉ c := by
  unfold stripNewline at h
  split at h
  · cases h
  · split at h
    · cases h
      exact fun hm => h0 (List.mem_of_mem_dropLast hm)
    · cases h
      exact h0

theorem findPrefix_command {pfx : Text} {k i : Nat} (h : findPrefix history pfx k = some (some (i, c))) :
    ∃ block, CString.cstr block = some c := by
  induction k with
  | zero => cases h
  | succ k ih =>
    obtain ⟨q, _, h⟩ := Option.bind_eq_some_iff.mp h
    obtain ⟨flag, _, h⟩ := Option.bind_eq_some_iff.mp h
    split at h
    · obtain ⟨d, hd, he⟩ := Option.map_eq_some_iff.mp h
      cases he
      exact ⟨_, hd⟩
    · exact ih h

/-- What is run again is a command of the history. -/
theorem dispatch_replay {input : Text} {i : Nat} (h : dispatch history input = some (.replay i c)) :
    ∃ block, CString.cstr block = some c := by
  obtain ⟨command, _, h⟩ := Option.bind_eq_some_iff.mp h
  obtain ⟨line, _, h⟩ := Option.bind_eq_some_iff.mp h
  split at h
  · cases h
  split at h
  · cases h
  split at h
  · obtain ⟨num, _, h⟩ := Option.bind_eq_some_iff.mp h
    split at h
    · cases h
    obtain ⟨d, hd, he⟩ := Option.map_eq_some_iff.mp h
    cases he
    unfold entry at hd
    split at hd
    · obtain ⟨q, _, hq⟩ := Option.bind_eq_some_iff.mp hd
      exact ⟨_, hq⟩
    · cases hd
  split at h
  · obtain ⟨hit, hfind, he⟩ := Option.map_eq_some_iff.mp h
    cases hit with
    | none => cases he
    | some hit =>
      cases he
      exact findPrefix_command hfind
  split at h <;> cases h

/-! ### The shell -/

theorem Inv.books (hi : Inv getpid cs s) (hp : s.pc.awaited = none) : Books getpid cs s where
  history := hi.history
  pids := hi.pids
  count := by simpa [hp] using hi.count

theorem Books.goto (hb : Books getpid cs s) (hp : p.awaited = none) (hrun : ∀ input, p = .run input → 0 ∉ input) :
    Inv getpid cs { s with pc := p } where
  history := hb.history
  pids := hb.pids
  count := by simpa [hp] using hb.count
  awaited q hq := by
    rw [show p.awaited = some q from hq] at hp
    cases hp
  input := hrun

theorem Books.modified (hb : Books getpid cs s) (hpid : Known getpid s.forked pid)
    (h : Shell.modified s job pid = some s') : Inv getpid cs s' := by
  obtain ⟨history, hmod, rfl⟩ := Option.map_eq_some_iff.mp h
  have hpids : ∀ x ∈ history, Known getpid s.forked x.pid := by
    intro x hx
    rcases modifyPid_pids hmod x hx with hx | rfl
    · exact hb.pids x hx
    · exact hpid
  have hbooks : Books getpid cs { s with history } := ⟨modifyPid_holds hb.history hmod, hpids, hb.count⟩
  exact hbooks.goto rfl (by simp)

theorem Books.returned (hb : Books getpid cs s) (hresult : ∀ pid, result = some pid → Known getpid s.forked pid)
    (h : Shell.returned getpid s second job result = some s') : Inv getpid cs s' := by
  have hself : Known getpid s.forked getpid := Or.inl rfl
  have herror : Known getpid s.forked (result.getD pidError) := by
    cases result with
    | none => exact Or.inr (Or.inr (Or.inl rfl))
    | some pid => exact hresult pid rfl
  unfold Shell.returned at h
  split at h
  · cases h
    exact hb.goto rfl (by simp)
  · exact hb.modified (hresult _ rfl) h
  · cases h
    exact hb.goto rfl (by simp)
  · exact hb.modified herror h
  · cases h
    exact hb.goto rfl (by simp)
  · cases h
    exact hb.goto rfl (by simp)
  · exact hb.modified hself h
  · cases h
    exact hb.goto rfl (by simp)
  · cases h
    exact hb.goto rfl (by simp)
  · exact hb.modified hself h
  · cases h

/-- A child more, for which the shell waits or which it leaves. -/
theorem Books.forks (hb : Books getpid cs s) (h : Shell.forks getpid s pid = some s') :
    pid ∈ s'.forked ∧ Books getpid cs { s' with left := s'.left + 1 } ∧
      ∀ p : Pc, p.awaited = some pid → Inv getpid cs { s' with pc := p } := by
  unfold Shell.forks at h
  split at h
  · cases h
  cases h
  have hpids : ∀ x ∈ s.history, Known getpid (s.forked ++ [pid]) x.pid := by
    intro x hx
    rcases hb.pids x hx with h | h | h | h
    · exact Or.inl h
    · exact Or.inr (Or.inl h)
    · exact Or.inr (Or.inr (Or.inl h))
    · exact Or.inr (Or.inr (Or.inr (List.mem_append_left _ h)))
  refine ⟨by simp, ⟨hb.history, hpids, by simp [hb.count]⟩, ?_⟩
  intro p hp
  refine ⟨hb.history, hpids, by simp [hp, hb.count], ?_, ?_⟩
  · intro q hq
    rw [show p.awaited = some q from hq] at hp
    cases hp
    simp
  · intro input hrun
    rw [show p = .run input from hrun] at hp
    cases hp

theorem prompt_inv (hi : Inv getpid cs s) (hp : s.pc = .prompt) (h : shellStep getpid s .prompt a = some s') :
    Inv getpid cs s' := by
  have hb := hi.books (by rw [hp]; rfl)
  have hends : Inv getpid cs (inputEnds s) := by
    unfold inputEnds
    split
    · exact ⟨hi.history, hi.pids, hi.count, hi.awaited, hi.input⟩
    · exact hb.goto rfl (by simp)
  cases a with
  | line input =>
    unfold shellStep at h
    dsimp only at h
    split at h
    · cases h
      exact hi
    · split at h
      · cases h
        exact hends
      · cases h
        apply hb.goto rfl
        intro t ht
        cases ht
        exact input.2
  | eof =>
    cases h
    exact hends
  | _ => cases h

/-- What is run is the line, or the entry that it names. -/
theorem run_inv {input : Text} (hi : Inv getpid cs s) (hp : s.pc = .run input)
    (h : shellStep getpid s (.run input) a = some s') : Inv getpid cs s' := by
  have hb := hi.books (by rw [hp]; rfl)
  have h0 := hi.input input hp
  cases a with
  | dispatch fill =>
    unfold shellStep at h
    dsimp only at h
    cases hd : dispatch s.history input with
    | none =>
      rw [hd] at h
      cases h
    | some action =>
      rw [hd] at h
      cases action with
      | replay i command =>
        cases h
        apply hb.goto rfl
        intro t ht
        cases ht
        obtain ⟨block, hc⟩ := dispatch_replay hd
        exact cstr_no_nul hc
      | external command line =>
        obtain ⟨history, hstore, rfl⟩ := Option.map_eq_some_iff.mp h
        obtain ⟨hstrip, _⟩ := dispatch_external hd
        have hc0 : 0 ∉ command := stripNewline_no_nul h0 hstrip
        have hpids : ∀ x ∈ history, Known getpid s.forked x.pid := by
          intro x hx
          rcases storeProcess_pids hstore x hx with hx | hx
          · exact hi.pids x hx
          · exact Or.inl hx
        have hhold : HoldsCommands history (cs ++ (s.ran ++ [command])) := by
          rw [← List.append_assoc]
          exact holds_store hi.history (cstr_append hc0) hstore
        have hbooks : Books getpid cs { s with history, ran := s.ran ++ [command] } := ⟨hhold, hpids, hb.count⟩
        refine hbooks.goto ?_ ?_
        · split <;> rfl
        · intro t ht
          split at ht <;> cases ht
      | _ =>
        cases h
        exact hb.goto rfl (by simp)
  | _ => cases h

theorem runCmd_inv (hi : Inv getpid cs s) (hp : s.pc = .runCmd second job)
    (h : shellStep getpid s (.runCmd second job) a = some s') : Inv getpid cs s' := by
  have hb := hi.books (by rw [hp]; rfl)
  have hzero : ∀ pid, some 0 = some pid → Known getpid s.forked pid := by
    intro pid hpid
    cases hpid
    exact Or.inr (Or.inl rfl)
  unfold shellStep at h
  dsimp only at h
  split at h
  · cases h
  · split at h
    · refine hb.returned ?_ h
      intro pid hpid
      split at hpid
      · exact hzero pid hpid
      · cases hpid
    · cases h
  · split at h
    · exact hb.returned (by simp) h
    · split at h
      · exact hb.returned hzero h
      · cases h
  · split at h
    · cases h
    · cases h
      exact hb.goto rfl (by simp)
  · split at h
    · cases h
    · obtain ⟨s1, hfork, h⟩ := Option.bind_eq_some_iff.mp h
      obtain ⟨hmem, hleft, hwait⟩ := hb.forks hfork
      split at h
      · refine hleft.returned ?_ h
        intro pid hpid
        cases hpid
        exact Or.inr (Or.inr (Or.inr hmem))
      · cases h
        exact hwait _ rfl
  · cases h

theorem waitpid_inv (hi : Inv getpid cs s) (hp : s.pc = .waitpid second job pid)
    (h : shellStep getpid s (.waitpid second job pid) a = some s') : Inv getpid cs s' := by
  obtain ⟨hmem, hforked⟩ := hi.awaited pid (by rw [hp]; rfl)
  have hcount := hi.count
  rw [hp] at hcount
  have hresult : ∀ status q, (if status = 0 then some pid else none) = some q → Known getpid s.forked q := by
    intro status q hq
    split at hq
    · cases hq
      exact Or.inr (Or.inr (Or.inr hforked))
    · cases hq
  cases a with
  | waited =>
    obtain ⟨child, _, h⟩ := Option.bind_eq_some_iff.mp h
    obtain ⟨status, _, h⟩ := Option.bind_eq_some_iff.mp h
    have hlen := reap_length hmem
    have hreaped : Books getpid cs { s with children := reap s.children pid } := by
      refine ⟨hi.history, hi.pids, ?_⟩
      have hone : s.children.length = s.left + 1 := hcount
      show (reap s.children pid).length = s.left
      omega
    cases child with
    | stopped signal =>
      have hstopped : Books getpid cs { s with left := s.left + 1 } := ⟨hi.history, hi.pids, hcount⟩
      exact hstopped.returned (hresult status) h
    | running => exact hreaped.returned (hresult status) h
    | ended _ => exact hreaped.returned (hresult status) h
  | _ => cases h

theorem wait_inv (hi : Inv getpid cs s) (hp : s.pc = .wait job pid)
    (h : shellStep getpid s (.wait job pid) a = some s') : Inv getpid cs s' := by
  obtain ⟨hmem, hforked⟩ := hi.awaited pid (by rw [hp]; rfl)
  have hone : s.children.length = s.left + 1 := by simpa [hp, Pc.awaited] using hi.count
  have hknown : Known getpid s.forked pid := Or.inr (Or.inr (Or.inr hforked))
  cases a with
  | reaped other =>
    cases other with
    | none =>
      unfold shellStep at h
      dsimp only at h
      split at h
      · rename_i hnil
        rw [hnil] at hone
        cases hone
      · cases h
    | some other =>
      unfold shellStep at h
      dsimp only at h
      split at h
      · rename_i status hlookup
        have hlen := reap_length (lookup_key hlookup)
        have hreaped : Books getpid cs { s with children := reap s.children other } := by
          refine ⟨hi.history, hi.pids, ?_⟩
          show (reap s.children other).length = s.left
          omega
        exact hreaped.modified hknown h
      · cases h
  | _ => cases h

theorem redirect_inv (hi : Inv getpid cs s) (hp : s.pc = .redirect job)
    (h : shellStep getpid s (.redirect job) a = some s') : Inv getpid cs s' := by
  have hb := hi.books (by rw [hp]; rfl)
  cases a with
  | fork pid =>
    cases pid with
    | none =>
      cases h
      exact hb.goto rfl (by simp)
    | some pid =>
      obtain ⟨s1, hfork, rfl⟩ := Option.map_eq_some_iff.mp h
      exact (hb.forks hfork).2.2 _ rfl
  | _ => cases h

theorem shellStep_inv (hi : Inv getpid cs s) (h : shellStep getpid s s.pc a = some s') : Inv getpid cs s' := by
  cases hp : s.pc with
  | prompt => exact prompt_inv hi hp (hp ▸ h)
  | run input => exact run_inv hi hp (hp ▸ h)
  | runCmd second job => exact runCmd_inv hi hp (hp ▸ h)
  | waitpid second job pid => exact waitpid_inv hi hp (hp ▸ h)
  | redirect job => exact redirect_inv hi hp (hp ▸ h)
  | wait job pid => exact wait_inv hi hp (hp ▸ h)
  | exited =>
    rw [hp] at h
    cases a <;> cases h

/-- A child that goes on, stops or ends is still there. -/
theorem Inv.setChild {child : Child} (hi : Inv getpid cs s) :
    Inv getpid cs { s with children := Shell.setChild s.children pid child } where
  history := hi.history
  pids := hi.pids
  count := by
    show (Shell.setChild s.children pid child).length = _
    rw [Shell.setChild, List.length_map]
    exact hi.count
  awaited q hq := by
    show q ∈ (Shell.setChild s.children pid child).map Prod.fst ∧ _
    rw [setChild_keys]
    exact hi.awaited q hq
  input := hi.input

theorem step_inv (hi : Inv getpid cs s) (h : step getpid s a = some s') : Inv getpid cs s' := by
  cases a with
  | ends pid status | stops pid signal | continues pid =>
    obtain ⟨child, _, h⟩ := Option.bind_eq_some_iff.mp h
    cases child <;> first | exact Option.some.inj h ▸ hi.setChild | cases h
  | _ => exact shellStep_inv hi h

/-! ## Sessions -/

variable {fill : Nat → Nat → UInt8} {files : List Text} {loaded : List Process}

theorem loadLoop_holds {raw : List Text} (hold : HoldsCommands history cs) (hpids : ∀ x ∈ history, x.pid = getpid)
    (h : loadLoop fill getpid history raw = some history') :
    (∃ cs', HoldsCommands history' cs') ∧ ∀ x ∈ history', x.pid = getpid := by
  induction raw generalizing history cs with
  | nil =>
    cases h
    exact ⟨⟨cs, hold⟩, hpids⟩
  | cons line raw ih =>
    obtain ⟨block, _, h⟩ := Option.bind_eq_some_iff.mp h
    obtain ⟨history1, hstore, h⟩ := Option.bind_eq_some_iff.mp h
    obtain ⟨c, hc, _⟩ := storeProcess_some hstore
    refine ih (holds_store hold hc hstore) ?_ h
    intro x hx
    rcases storeProcess_pids hstore x hx with hx | hx
    · exact hpids x hx
    · exact hx

theorem loadFiles_holds (hold : HoldsCommands history cs) (hpids : ∀ x ∈ history, x.pid = getpid)
    (h : loadFiles fill getpid history files = some history') :
    (∃ cs', HoldsCommands history' cs') ∧ ∀ x ∈ history', x.pid = getpid := by
  induction files generalizing history cs with
  | nil =>
    cases h
    exact ⟨⟨cs, hold⟩, hpids⟩
  | cons file files ih =>
    obtain ⟨history1, hload, h⟩ := Option.bind_eq_some_iff.mp h
    obtain ⟨⟨cs1, hold1⟩, hpids1⟩ := loadLoop_holds hold hpids hload
    exact ih hold1 hpids1 h

theorem reach_inv (hold : HoldsCommands loaded cs) (hpids : ∀ x ∈ loaded, x.pid = getpid)
    (hs : (sys getpid loaded).Reach s) : Inv getpid cs s := by
  refine Run.Sys.Reach.inv (I := Inv getpid cs) ?_ (fun _ _ _ hi h => step_inv hi h) hs
  intro z ⟨script, hz⟩
  subst hz
  have hbooks : Books getpid cs (atPrompt loaded script) := by
    refine ⟨?_, fun x hx => Or.inl (hpids x hx), rfl⟩
    show HoldsCommands loaded (cs ++ [])
    rw [List.append_nil]
    exact hold
  exact hbooks.goto rfl (by simp)

/-- The entry "ls" is run again and stopped, "cd / && ls &" is run, and "b > c" after it. -/
def mixed : List Act :=
  [.eof, .line ⟨[35, 48], by decide⟩, .dispatch fun _ => 0, .dispatch fun _ => 0, .fork (some 8), .stops 8 19, .waited,
    .line ⟨[99, 100, 32, 47, 32, 38, 38, 32, 108, 115, 32, 38, 10], by decide⟩, .dispatch fun _ => 0, .chdir true,
    .fork (some 9), .line ⟨[98, 32, 62, 32, 99, 10], by decide⟩, .dispatch fun _ => 0, .fork (some 10), .ends 9 256,
    .reaped (some 9)]

/-- "a &" is started, and "b > c" waited for; "a" ends first. -/
def takes : List Act :=
  [.line ⟨[97, 32, 38, 10], by decide⟩, .dispatch fun _ => 0, .fork (some 8),
    .line ⟨[98, 32, 62, 32, 99, 10], by decide⟩, .dispatch fun _ => 0, .fork (some 9), .ends 8 0, .reaped (some 8)]

def isPrompt : Pc → Bool
  | .prompt => true
  | _ => false

/-- The shell is at the prompt, and the command that was redirected runs. -/
theorem redirect_takes_another : ∃ s, (sys 7 []).Reach s ∧ isPrompt s.pc = true ∧
    s.ran = [[97, 32, 38], [98, 32, 62, 32, 99]] ∧ s.children = [(9, .running)] := by
  have hrun : (Run.exec (step 7) (atPrompt [] false) takes).map (fun s => (isPrompt s.pc, s.ran, s.children)) =
      some (true, [[97, 32, 38], [98, 32, 62, 32, 99]], [(9, .running)]) := by
    decide +kernel
  obtain ⟨s, hexec, he⟩ := Option.map_eq_some_iff.mp hrun
  simp only [Prod.mk.injEq] at he
  have h0 : (sys 7 []).init (atPrompt [] false) := ⟨false, rfl⟩
  exact ⟨s, Run.reach_exec h0 hexec, he⟩

end SysProg.Shell
