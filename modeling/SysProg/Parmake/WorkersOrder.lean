/-
  SysProg.Parmake.WorkersOrder — when the commands of a target start
  (see `SysProg.Parmake.Workers`).

  A target is queued when its dependencies are all done, and the update pass calls a
  target done as soon as its file exists. The file may be there because the target's
  commands, still running or already failed, have created it.
  - `starts_after_a_failed_dependency`: one worker, the goal "a" depending on "b"; the
    commands of "b" create the file and fail, and those of "a" start.
  - `commands_start_after_dependencies`: in every run whose update passes find no file of
    a target that was not on disk before and is not made, the commands of a target run
    only when each dependency was on disk before the workers started or has finished
    all of its commands successfully. The graph need not be acyclic.

  A target that is queued, or that a worker has pulled, has all its dependencies met
  (`Inv`): they stay met, since files on disk before and targets made do not change.
-/

import SysProg.Parmake.Workers

namespace SysProg.Parmake

open Function (update)
open SysProg.Lib (AdjGraph ReachesCycle not_reachesCycle_of_rank)

variable {T V : Type} [DecidableEq T] [DecidableEq V]

/-- On disk before the workers started, or all its commands have ended well. -/
def Met (s : St T V) (d : V) : Prop := s.onDisk d = true ∨ s.made d = true

def DependenciesMet (mk : Makefile V) (s : St T V) (x : V) : Prop := ∀ d ∈ mk.graph.neighbors x, Met s d

/-- A worker is inside the commands of a target only when its dependencies are met. -/
def StartsInOrder (mk : Makefile V) (s : St T V) : Prop :=
  ∀ t target left, s.pc t = .running target left → DependenciesMet mk s target

/-- The update pass finds the file of a target only if it was there before, or the
    target is made. -/
def FilesGenuine (s : St T V) : Act T V → Prop
  | .run t => match s.pc t with
    | .pass (neighbor :: _) => s.file neighbor = true → Met s neighbor
    | _ => True
  | _ => True

/-! ## The invariant -/

def PcOk (mk : Makefile V) (s : St T V) : Pc V → Prop
  | .fetch target | .check target _ | .own target _ | .running target _ => DependenciesMet mk s target
  | .record target .done => Met s target
  | _ => True

structure Inv (mk : Makefile V) (s : St T V) : Prop where
  done : ∀ d, s.state d = .done → Met s d
  queue : ∀ x ∈ s.queue, x = mk.root ∨ DependenciesMet mk s x
  pc : ∀ t, PcOk mk s (s.pc t)

variable {mk : Makefile V} {s s' : St T V} {t : T}

omit [DecidableEq T] [DecidableEq V] in
theorem PcOk.mono (hm : ∀ d, Met s d → Met s' d) {p : Pc V} (h : PcOk mk s p) : PcOk mk s' p := by
  cases p with
  | fetch target => exact fun d hd => hm d (h d hd)
  | check target rest => exact fun d hd => hm d (h d hd)
  | own target flag => exact fun d hd => hm d (h d hd)
  | running target left => exact fun d hd => hm d (h d hd)
  | record target state => cases state <;> first | exact hm target h | trivial
  | _ => trivial

omit [DecidableEq V] in
/-- One worker moves; what is met stays met. -/
theorem pcOk_update (h : ∀ u, PcOk mk s (s.pc u)) (hm : ∀ d, Met s d → Met s' d) {p : Pc V} (hp : PcOk mk s' p)
    (u : T) :
    PcOk mk s' (update s.pc t p u) := by
  by_cases e : u = t
  · subst e; rw [Function.update_self]; exact hp
  · rw [Function.update_of_ne e]; exact (h u).mono hm

omit [DecidableEq V] in
/-- A worker moves and the shared data stays as it is. -/
theorem Inv.goto (h : Inv mk s) {p : Pc V} (hp : PcOk mk s p) : Inv mk (s.goto t p) :=
  ⟨h.done, h.queue, pcOk_update h.pc (fun _ hd => hd) hp⟩

theorem Inv.runCommands (h : Inv mk s) {target : V} (ht : DependenciesMet mk s target) (left : List String) :
    Inv mk (runCommands s t target left) := by
  cases left with
  | cons command rest => exact h.goto ht
  | nil =>
    have hm : ∀ d, Met s d → Met (Parmake.runCommands s t target []) d := fun d hd => hd.imp_right fun hd => by
      by_cases e : d = target
      · subst e; exact Function.update_self ..
      · exact (Function.update_of_ne e ..).trans hd
    exact ⟨fun d hd => hm d (h.done d hd), fun x hx => (h.queue x hx).imp_right fun hx d hd => hm d (hx d hd),
      pcOk_update h.pc hm (Or.inr (Function.update_self ..))⟩

omit [DecidableEq V] in
theorem scan_ready {state : V → RuleState} {l : List V} (h : scanDependencies state l = .ready) :
    ∀ d ∈ l, state d = .done := by
  induction l with
  | nil => simp
  | cons d l ih =>
    simp only [scanDependencies] at h
    split_ifs at h with h1 h2
    intro x hx
    rcases List.mem_cons.mp hx with rfl | hx
    · exact not_not.mp h2
    · exact ih h x hx

omit [DecidableEq T] in
/-- Only a target that is met is set to `done`. -/
theorem done_update {state : V → RuleState} (h : ∀ d, state d = .done → Met s d) {x : V} {r : RuleState}
    (hr : r = .done → Met s x) (d : V) (hd : update state x r d = .done) : Met s d := by
  by_cases e : d = x
  · subst e; rw [Function.update_self] at hd; exact hr hd
  · rw [Function.update_of_ne e] at hd; exact h d hd

omit [DecidableEq T] in
theorem Inv.visitRule (h : Inv mk s) {n : V} (hn : s.file n = true → Met s n) : Inv mk (visitRule mk s n) := by
  have hdone : ∀ d, (if s.file n then update s.state n .done else s.state) d = .done → Met s d := by
    split
    · exact done_update h.done fun _ => hn ‹_›
    · exact h.done
  unfold Parmake.visitRule
  generalize (if s.file n then update s.state n .done else s.state) = state at hdone
  simp only
  split
  · exact ⟨hdone, h.queue, h.pc⟩
  · split
    · rename_i hscan
      refine ⟨done_update hdone (by simp), fun x hx => ?_, h.pc⟩
      rcases List.mem_append.mp hx with hx | hx
      · exact h.queue x hx
      · obtain rfl := List.mem_singleton.mp hx
        exact Or.inr fun d hd => hdone d (scan_ready hscan d hd)
    · exact ⟨done_update hdone (by simp), h.queue, h.pc⟩
    · exact ⟨hdone, h.queue, h.pc⟩

theorem step_inv {a : Act T V} (hi : Inv mk s) (hg : FilesGenuine s a) (h : step mk s a = some s') : Inv mk s' := by
  cases step_move h with
  | start t hp hl => exact hi.goto trivial
  | pullStop t queue hp hq =>
    have hrest : Inv mk { s with queue := queue } :=
      ⟨hi.done, fun x hx => hi.queue x (hq ▸ List.mem_cons_of_mem _ hx), hi.pc⟩
    exact hrest.goto trivial
  | pull t target queue hp hq hroot =>
    have hrest : Inv mk { s with queue := queue } :=
      ⟨hi.done, fun x hx => hi.queue x (hq ▸ List.mem_cons_of_mem _ hx), hi.pc⟩
    exact hrest.goto ((hi.queue target (hq ▸ List.mem_cons_self)).resolve_left hroot)
  | fetch t target hp hl => exact hi.goto (by have := hi.pc t; rwa [hp] at this)
  | checked t target hp => exact hi.goto (by have := hi.pc t; rwa [hp] at this)
  | checkFailed t target d rest hp hl hd => exact hi.goto (by have := hi.pc t; rwa [hp] at this)
  | check t target d rest hp hl hd => exact hi.goto (by have := hi.pc t; rwa [hp] at this)
  | skip t target flag hp hl hd => exact hi.goto trivial
  | giveUp t target hp hl hd => exact hi.goto trivial
  | begin t target hp hl hd => exact hi.runCommands (by have := hi.pc t; rwa [hp] at this) _
  | record t target state hp hl =>
    have hmet : state = .done → Met s target := by
      intro heq
      subst heq
      have := hi.pc t
      rwa [hp] at this
    have hrec : Inv mk { s with lock := some t, state := update s.state target state } :=
      ⟨done_update hi.done hmet, hi.queue, hi.pc⟩
    exact hrec.goto trivial
  | visit t neighbor rest hp =>
    have hn : s.file neighbor = true → Met s neighbor := by
      simp only [FilesGenuine, hp] at hg
      exact hg
    exact (hi.visitRule hn).goto trivial
  | passed t hp => exact hi.goto trivial
  | goalOpen t v rest hp hv =>
    have hfree : Inv mk { s with lock := none } := ⟨hi.done, hi.queue, hi.pc⟩
    exact hfree.goto trivial
  | goal t v rest hp hv => exact hi.goto trivial
  | goalsOver t hp =>
    have hend : Inv mk { s with queue := s.queue ++ [mk.root], lock := none } :=
      ⟨hi.done, fun x hx => (List.mem_append.mp hx).elim (hi.queue x) fun hx => Or.inl (List.mem_singleton.mp hx),
        hi.pc⟩
    exact hend.goto trivial
  | stop t hp =>
    have hend : Inv mk { s with queue := s.queue ++ [mk.root] } :=
      ⟨hi.done, fun x hx => (List.mem_append.mp hx).elim (hi.queue x) fun hx => Or.inl (List.mem_singleton.mp hx),
        hi.pc⟩
    exact hend.goto trivial
  | create t target f left hp => exact ⟨hi.done, hi.queue, hi.pc⟩
  | finish t target command rest hp => exact hi.runCommands (by have := hi.pc t; rwa [hp] at this) _
  | fail t target command rest hp => exact hi.goto trivial

/-! ## The initial state -/

theorem markExisting_done {file : V → Bool} {l : List V} {state : V → RuleState}
    (h : ∀ d, state d = .done → file d = true) : ∀ d, markExisting file l state d = .done → file d = true := by
  induction l generalizing state with
  | nil => exact h
  | cons v l ih =>
    refine ih fun d hd => ?_
    split at hd
    · by_cases e : d = v
      · subst e; assumption
      · rw [Function.update_of_ne e] at hd; exact h d hd
    · exact h d hd

theorem pushReady_spec {m : Makefile V} {P : V → Prop} {l : List V} {r : (V → RuleState) × List V}
    (hs : ∀ d, r.1 d = .done → P d)
    (hq : ∀ x ∈ r.2, ∀ d ∈ m.graph.neighbors x, P d) :
    (∀ d, (pushReady m l r).1 d = .done → P d) ∧ ∀ x ∈ (pushReady m l r).2, ∀ d ∈ m.graph.neighbors x, P d := by
  induction l generalizing r with
  | nil => exact ⟨hs, hq⟩
  | cons v l ih =>
    obtain ⟨state, queue⟩ := r
    simp only [pushReady]
    split
    · rename_i hall
      refine ih (fun d hd => ?_) fun x hx => ?_
      · by_cases e : d = v
        · subst e; simp at hd
        · simp only [Function.update_of_ne e] at hd; exact hs d hd
      · rcases List.mem_append.mp hx with hx | hx
        · exact hq x hx
        · obtain rfl := List.mem_singleton.mp hx
          intro d hd
          exact hs d (by simpa using List.all_eq_true.mp hall d hd)
    · exact ih hs hq

omit [DecidableEq T] in
theorem parmakeStart_inv (mk : Makefile V) (file : V → Bool) (sorted : List V) :
    Inv mk (parmakeStart (T := T) mk file sorted) := by
  have hspec := pushReady_spec (m := mk) (P := fun d => file d = true) (l := sorted)
    (r := (markExisting file sorted fun _ => .waiting, [])) (markExisting_done (by simp)) (by simp)
  refine ⟨fun d hd => Or.inl (hspec.1 d hd), fun x hx => ?_, fun t => trivial⟩
  simp only [parmakeStart] at hx
  split at hx
  · rcases List.mem_append.mp hx with hx | hx
    · exact Or.inr fun d hd => Or.inl (hspec.2 x hx d hd)
    · exact Or.inl (List.mem_singleton.mp hx)
  · exact Or.inr fun d hd => Or.inl (hspec.2 x hx d hd)

/-- In every run whose update passes find only genuine files, commands start after all
    dependencies are met. -/
theorem commands_start_after_dependencies (h : (sys (T := T) mk).Via FilesGenuine s) : StartsInOrder mk s := by
  have hi : Inv mk s := by
    refine Run.Sys.Via.inv (I := Inv mk) ?_ ?_ h
    · rintro _ ⟨file, sorted, -, rfl⟩; exact parmakeStart_inv mk file sorted
    · intro _ _ _ hi hg hst; exact step_inv hi hg hst
  intro t target left hp
  have := hi.pc t
  rwa [hp] at this

def twoTargets : Makefile String where
  graph :=
    { vertices := {"", "a", "b"}
      neighbors := fun v => if v = "" then ["a"] else if v = "a" then ["b"] else []
      closed := fun {v w} h => by
        split_ifs at h <;> simp only [List.mem_cons, List.not_mem_nil, or_false] at h
        all_goals subst h; decide }
  root := ""
  commands v := if v = "" then [] else ["touch"]

/-- One worker runs the command of "b", which creates the file and ends, passes over
    the targets and starts the command of "a". -/
def twoTargetsRun (ok : Bool) : List (Act (Fin 1) String) :=
  [.run 0, .run 0, .run 0, .run 0, .run 0, .create 0 "b", .finish 0 ok, .run 0, .run 0, .run 0, .run 0, .run 0, .run 0,
   .run 0, .run 0, .run 0, .run 0, .run 0]

instance (s : St T V) : (a : Act T V) → Decidable (FilesGenuine s a)
  | .run t => match h : s.pc t with
    | .pass (neighbor :: _) =>
      decidable_of_iff (s.file neighbor = true → s.onDisk neighbor = true ∨ s.made neighbor = true)
        (by simp [FilesGenuine, h, Met])
    | .pass [] | .start | .pull | .fetch _ | .check _ _ | .own _ _ | .running _ _ | .record _ _ | .goals _ | .stop
    | .exited => isTrue (by simp [FilesGenuine, h])
  | .create _ _ | .finish _ _ => isTrue trivial

def twoTargetsStart : St (Fin 1) String := parmakeStart twoTargets (fun _ => false) ["b", "a"]

theorem twoTargets_init : (sys (T := Fin 1) twoTargets).init twoTargetsStart :=
  ⟨fun _ => false, ["b", "a"], by decide, rfl⟩

theorem commands_start_after_dependencies_two : ∃ s, (sys (T := Fin 1) twoTargets).Via FilesGenuine s ∧
    s.pc 0 = .running "a" ["touch"] ∧ StartsInOrder twoTargets s := by
  have hs : (Run.exec (Run.guard FilesGenuine (step twoTargets)) twoTargetsStart (twoTargetsRun true)).map
      (fun s => s.pc 0) = some (.running "a" ["touch"]) := by decide
  obtain ⟨s, hs, hp⟩ := Option.map_eq_some_iff.mp hs
  have hvia := Run.via_guard (.init twoTargets_init) hs
  exact ⟨s, hvia, hp, commands_start_after_dependencies hvia⟩

/-! ## Without the condition -/

theorem twoTargets_acyclic (v : String) : ¬ ReachesCycle twoTargets.graph.Edge v := by
  refine not_reachesCycle_of_rank (fun v => if v = "" then 2 else if v = "a" then 1 else 0) fun v w h => ?_
  simp only [AdjGraph.Edge, twoTargets] at h
  split_ifs at h with hv ha
  · obtain rfl := List.mem_singleton.mp h; simp [hv]
  · obtain rfl := List.mem_singleton.mp h; simp [ha]
  · cases h

/-- The commands of "b" create its file and fail; those of "a" start. -/
theorem starts_after_a_failed_dependency : (∀ v, ¬ ReachesCycle twoTargets.graph.Edge v) ∧
    ∃ s, (sys (T := Fin 1) twoTargets).Reach s ∧ ¬ StartsInOrder twoTargets s := by
  have hs : (Run.exec (step twoTargets) twoTargetsStart (twoTargetsRun false)).map
    (fun s => (s.pc 0, s.onDisk "b", s.made "b")) = some (.running "a" ["touch"], false, false) := by decide
  obtain ⟨s, hs, he⟩ := Option.map_eq_some_iff.mp hs
  obtain ⟨hp, hd, hm⟩ : s.pc 0 = .running "a" ["touch"] ∧ s.onDisk "b" = false ∧ s.made "b" = false := by simpa using he
  refine ⟨twoTargets_acyclic, s, Run.reach_exec twoTargets_init hs, fun h => ?_⟩
  rcases h 0 "a" ["touch"] hp "b" (by decide) with h | h
  · rw [hd] at h; cases h
  · rw [hm] at h; cases h

end SysProg.Parmake
