/-
  SysProg.Parmake.WorkersOnce — no target is made twice (see `SysProg.Parmake.Workers`).

  `starts` are the targets whose list of commands a worker has started on, in order. By
  `commands_start_once` no target is among them twice, whatever the commands do and however
  the workers interleave.

  A target other than the root is in one of four phases (`Phase`): not yet queued; once in
  the queue; with one worker, who has pulled it and not started; past that. It is queued
  only out of state `waiting`, which it never comes back to.
-/

import Mathlib.Data.List.Count
import SysProg.Parmake.WorkersOrder

namespace SysProg.Parmake

open Function (update)
open SysProg.Lib (ReachesCycle)

variable {T V : Type} [DecidableEq V]

def startOf (s : St T V) : Act T V → Option V
  | .run t => match s.pc t with
    | .own target false => if s.state target ≠ .done then some target else none
    | _ => none
  | _ => none

omit [DecidableEq V] in
theorem startOf_run {s : St T V} {t : T} (h : ∀ target, s.pc t ≠ .own target false) : startOf s (.run t) = none := by
  unfold startOf
  dsimp only
  split
  · rename_i target hp
    exact absurd hp (h target)
  · rfl

def Pc.held : Pc V → Option V
  | .fetch target | .check target _ | .own target _ => some target
  | _ => none

variable [DecidableEq T]

def watch (mk : Makefile V) (s : St T V × List V) (a : Act T V) : Option (St T V × List V) :=
  (step mk s.1 a).map fun s' => (s', s.2 ++ (startOf s.1 a).toList)

def watched (mk : Makefile V) : Run.Sys (St T V × List V) (Act T V) :=
  Run.ofFun (fun s => (sys mk).init s.1 ∧ s.2 = []) (watch mk)

/-! ## The phases of a target -/

/-- `queued` times in the queue, `holds` of the workers that have it, started `started`
    times. -/
inductive Phase (queued : Nat) (holds : T → Prop) (started : Nat) (waiting : Prop) : Prop
  | idle : queued = 0 → (∀ t, ¬ holds t) → started = 0 → Phase queued holds started waiting
  | queued : queued = 1 → (∀ t, ¬ holds t) → started = 0 → ¬ waiting → Phase queued holds started waiting
  | held (t : T) : queued = 0 → (∀ u, holds u ↔ u = t) → started = 0 → ¬ waiting → Phase queued holds started waiting
  | spent : queued = 0 → (∀ t, ¬ holds t) → started ≤ 1 → ¬ waiting → Phase queued holds started waiting

def PhaseOf (s : St T V) (starts : List V) (x : V) : Prop :=
  Phase (s.queue.count x) (fun t => (s.pc t).held = some x) (starts.count x) (s.state x = .waiting)

structure Once (mk : Makefile V) (s : St T V) (starts : List V) : Prop where
  phase : ∀ x, x ≠ mk.root → PhaseOf s starts x
  /-- The root is not pulled as a target. -/
  root : ∀ t, (s.pc t).held ≠ some mk.root
  rootStarts : starts.count mk.root = 0
  record : ∀ t target r, s.pc t = .record target r → r ≠ .waiting

variable {mk : Makefile V} {s s' : St T V} {starts : List V} {x : V} {t : T}

omit [DecidableEq T] in
theorem PhaseOf.started (h : PhaseOf s starts x) : starts.count x ≤ 1 := by
  cases h with
  | idle _ _ hn => omega
  | queued _ _ hn _ => omega
  | held _ _ _ hn _ => omega
  | spent _ _ hn _ => exact hn

omit [DecidableEq T] in
/-- Nothing happens to the target. -/
theorem PhaseOf.frame (h : PhaseOf s starts x) {starts' : List V} (hq : s'.queue.count x = s.queue.count x)
    (hp : ∀ t, (s'.pc t).held = some x ↔ (s.pc t).held = some x) (hn : starts'.count x = starts.count x)
    (hw : s'.state x = .waiting → s.state x = .waiting) : PhaseOf s' starts' x := by
  unfold PhaseOf
  rw [hq, hn]
  simp only [hp]
  cases h with
  | idle h1 h2 h3 => exact .idle h1 h2 h3
  | queued h1 h2 h3 h4 => exact .queued h1 h2 h3 fun hx => h4 (hw hx)
  | held t h1 h2 h3 h4 => exact .held t h1 h2 h3 fun hx => h4 (hw hx)
  | spent h1 h2 h3 h4 => exact .spent h1 h2 h3 fun hx => h4 (hw hx)

omit [DecidableEq V] in
theorem held_goto {p : Pc V} (hp : p.held = some x ↔ (s.pc t).held = some x) (u : T) :
    ((s.goto t p).pc u).held = some x ↔ (s.pc u).held = some x := by
  by_cases e : u = t
  · rw [e, goto_self]
    exact hp
  · rw [goto_of_ne _ e]

/-! ## The steps -/

omit [DecidableEq V] in
theorem record_goto (h : ∀ u target r, s.pc u = .record target r → r ≠ .waiting) {p : Pc V}
    (hrec : ∀ target r, p = .record target r → r ≠ .waiting) (u : T) (target : V) (r : RuleState)
    (hu : (s.goto t p).pc u = .record target r) : r ≠ .waiting := by
  by_cases e : u = t
  · rw [e, goto_self] at hu
    exact hrec target r hu
  · rw [goto_of_ne _ e] at hu
    exact h u target r hu

/-- A worker goes on with the target it holds, or without one. -/
theorem Once.goto (hi : Once mk s starts) {p : Pc V} (hp : p.held = (s.pc t).held)
    (hrec : ∀ target r, p = .record target r → r ≠ .waiting) : Once mk (s.goto t p) starts where
  phase x hx := (hi.phase x hx).frame rfl (held_goto (by rw [hp])) rfl id
  root u hu := hi.root u ((held_goto (by rw [hp]) u).mp hu)
  rootStarts := hi.rootStarts
  record := record_goto hi.record hrec

omit [DecidableEq T] in
/-- Names pushed to the queue or pulled from it are counted for other targets as before. -/
theorem Once.requeue (hi : Once mk s starts) {state : V → RuleState} {queue : List V} {lock : Option T}
    (hq : ∀ x, x ≠ mk.root → queue.count x = s.queue.count x)
    (hs : ∀ x, x ≠ mk.root → state x = .waiting → s.state x = .waiting) :
    Once mk { s with state := state, queue := queue, lock := lock } starts where
  phase x hx := (hi.phase x hx).frame (hq x hx) (fun _ => Iff.rfl) rfl (hs x hx)
  root := hi.root
  rootStarts := hi.rootStarts
  record := hi.record

omit [DecidableEq T] in
theorem count_push {y : V} (h : x ≠ y) {l : List V} : (l ++ [y]).count x = l.count x := by
  rw [List.count_append, List.count_singleton, if_neg (by simpa using Ne.symm h), Nat.add_zero]

/-- A worker takes the target at the front of the queue. -/
theorem Once.pull (hi : Once mk s starts) {queue : List V} (hp : (s.pc t).held = none) (hq : s.queue = x :: queue)
    (hx : x ≠ mk.root) : Once mk ({ s with queue := queue }.goto t (.fetch x)) starts where
  phase y hy := by
    have hph := hi.phase y hy
    by_cases e : y = x
    · rw [e] at hph ⊢
      have hcount : s.queue.count x = queue.count x + 1 := by
        rw [hq, List.count_cons_self]
      cases hph with
      | queued h1 h2 h3 h4 =>
        refine .held t (by show queue.count x = 0; omega) ?_ h3 h4
        intro u
        by_cases hu : u = t
        · rw [hu, goto_self]
          simp [Pc.held]
        · rw [goto_of_ne _ hu]
          exact ⟨fun h => absurd h (h2 u), fun h => absurd h hu⟩
      | idle h1 _ _ => omega
      | held _ h1 _ _ _ => omega
      | spent h1 _ _ _ => omega
    · refine hph.frame ?_ (held_goto ?_) rfl id
      · rw [hq, List.count_cons_of_ne (Ne.symm e)]
        rfl
      · dsimp only
        rw [hp]
        simp [Pc.held, Ne.symm e]
  root u hu := by
    by_cases e : u = t
    · rw [e, goto_self] at hu
      exact hx (Option.some.inj hu)
    · rw [goto_of_ne _ e] at hu
      exact hi.root u hu
  rootStarts := hi.rootStarts
  record := record_goto hi.record (by simp)

/-- A worker lets go of the target it holds, started or not. -/
theorem Once.release (hi : Once mk s starts) {p : Pc V} {n : List V} (hp : (s.pc t).held = some x) (hp' : p.held = none)
    (hn : n = [] ∨ n = [x]) (hrec : ∀ target r, p = .record target r → r ≠ .waiting) :
    Once mk (s.goto t p) (starts ++ n) where
  phase y hy := by
    have hph := hi.phase y hy
    by_cases e : y = x
    · rw [e] at hph ⊢
      cases hph with
      | held u h1 h2 h3 h4 =>
        have hut : t = u := (h2 t).mp hp
        refine .spent h1 ?_ ?_ h4
        · intro v hv
          by_cases hvt : v = t
          · rw [hvt, goto_self, hp'] at hv
            cases hv
          · rw [goto_of_ne _ hvt] at hv
            exact hvt (((h2 v).mp hv).trans hut.symm)
        · rcases hn with hn | hn
          · rw [hn, List.append_nil]
            omega
          · rw [hn, List.count_append, h3, List.count_singleton_self]
      | idle _ h2 _ => exact absurd hp (h2 t)
      | queued _ h2 _ _ => exact absurd hp (h2 t)
      | spent _ h2 _ _ => exact absurd hp (h2 t)
    · refine hph.frame rfl (held_goto ?_) ?_ id
      · simp [hp, hp', Ne.symm e]
      · rcases hn with hn | hn
        · rw [hn, List.append_nil]
        · rw [hn]
          exact count_push e
  root u hu := by
    by_cases e : u = t
    · rw [e, goto_self, hp'] at hu
      cases hu
    · rw [goto_of_ne _ e] at hu
      exact hi.root u hu
  rootStarts := by
    have hx : x ≠ mk.root := by
      intro e
      exact hi.root t (e ▸ hp)
    rcases hn with hn | hn
    · rw [hn, List.append_nil]
      exact hi.rootStarts
    · rw [hn]
      exact (count_push (Ne.symm hx)).trans hi.rootStarts
  record := record_goto hi.record hrec

omit [DecidableEq T] in
theorem Once.visit (hi : Once mk s starts) {n : V} (hv : Visit mk s n s') : Once mk s' starts := by
  cases hv with
  | settled r hw hq =>
    apply hi.requeue (fun _ _ => rfl)
    intro x _ hx
    by_cases e : x = n
    · rw [e, Function.update_self] at hx
      exact absurd hx hw
    · rwa [Function.update_of_ne e] at hx
  | kept _ => exact hi
  | pushed hw =>
    refine ⟨?_, hi.root, hi.rootStarts, hi.record⟩
    intro x hx
    have hph := hi.phase x hx
    by_cases e : x = n
    · rw [e] at hph ⊢
      cases hph with
      | idle h1 h2 h3 =>
        refine .queued ?_ h2 h3 ?_
        · dsimp only
          rw [List.count_append, h1, List.count_singleton_self]
        · dsimp only
          rw [Function.update_self]
          simp
      | queued _ _ _ h4 => exact absurd hw h4
      | held _ _ _ _ h4 => exact absurd hw h4
      | spent _ _ _ h4 => exact absurd hw h4
    · refine hph.frame ?_ (fun _ => Iff.rfl) rfl ?_
      · dsimp only
        exact count_push e
      · dsimp only
        rw [Function.update_of_ne e]
        exact id

theorem once_step {a : Act T V} (hi : Once mk s starts) (h : step mk s a = some s') :
    Once mk s' (starts ++ (startOf s a).toList) := by
  -- nothing is started unless the worker comes from reading its target's state
  have hquiet : ∀ {t p}, s.pc t = p → (∀ target, p ≠ .own target false) →
      starts ++ (startOf s (.run t)).toList = starts := by
    intro t p hp hne
    rw [startOf_run (hp ▸ hne), Option.toList_none, List.append_nil]
  have hsame : starts ++ (none : Option V).toList = starts := List.append_nil _
  cases step_move h with
  | start t hp hl =>
    rw [hquiet hp (by simp)]
    exact hi.goto (by rw [hp]; rfl) (by simp)
  | pullStop t queue hp hq =>
    rw [hquiet hp (by simp)]
    have hrest : Once mk { s with queue := queue } starts := by
      apply hi.requeue (fun x hx => ?_) fun _ _ => id
      rw [hq, List.count_cons_of_ne (Ne.symm hx)]
    exact hrest.goto (by dsimp only; rw [hp]; rfl) (by simp)
  | pull t target queue hp hq hroot =>
    rw [hquiet hp (by simp)]
    exact hi.pull (by rw [hp]; rfl) hq hroot
  | fetch t target hp hl =>
    rw [hquiet hp (by simp)]
    exact hi.goto (by rw [hp]; rfl) (by simp)
  | checked t target hp =>
    rw [hquiet hp (by simp)]
    exact hi.goto (by rw [hp]; rfl) (by simp)
  | checkFailed t target d rest hp hl hd =>
    rw [hquiet hp (by simp)]
    exact hi.goto (by rw [hp]; rfl) (by simp)
  | check t target d rest hp hl hd =>
    rw [hquiet hp (by simp)]
    exact hi.goto (by rw [hp]; rfl) (by simp)
  | skip t target flag hp hl hd =>
    have hnone : startOf s (.run t) = none := by
      unfold startOf
      dsimp only
      rw [hp]
      cases flag with
      | true => rfl
      | false => exact if_neg (not_not.mpr hd)
    rw [hnone]
    exact hi.release (by rw [hp]; rfl) rfl (Or.inl rfl) (by simp)
  | giveUp t target hp hl hd =>
    rw [startOf_run (by simp [hp])]
    exact hi.release (by rw [hp]; rfl) rfl (Or.inl rfl) (by simp)
  | begin t target hp hl hd =>
    have hsome : startOf s (.run t) = some target := by
      unfold startOf
      dsimp only
      rw [hp]
      exact if_pos hd
    rcases runCommands_goto (s := s) t target (mk.commands target) with ⟨m, p, he, hnext⟩
    have hmade : Once mk { s with made := m } starts := ⟨hi.phase, hi.root, hi.rootStarts, hi.record⟩
    rw [hsome, he]
    apply hmade.release (x := target) (by rw [hp]; rfl) ?_ (Or.inr rfl) ?_
    · rcases hnext with hnext | hnext <;> rw [hnext] <;> rfl
    · rcases hnext with hnext | hnext <;> rw [hnext] <;> simp
  | record t target state hp hl =>
    rw [hquiet hp (by simp)]
    have hrec : Once mk { s with lock := some t, state := update s.state target state } starts := by
      apply hi.requeue (fun _ _ => rfl)
      intro x _ hx
      by_cases e : x = target
      · rw [e, Function.update_self] at hx
        exact absurd hx (hi.record t target state hp)
      · rwa [Function.update_of_ne e] at hx
    exact hrec.goto (by dsimp only; rw [hp]; rfl) (by simp)
  | visit t neighbor rest hp =>
    rw [hquiet hp (by simp)]
    have hv : Visit mk s neighbor (visitRule mk s neighbor) := visitRule_visit neighbor
    exact (hi.visit hv).goto (by rw [hv.frame.1, hp]; rfl) (by simp)
  | passed t hp =>
    rw [hquiet hp (by simp)]
    exact hi.goto (by rw [hp]; rfl) (by simp)
  | goalOpen t v rest hp hv =>
    rw [hquiet hp (by simp)]
    have hfree : Once mk { s with lock := none } starts := hi.requeue (fun _ _ => rfl) fun _ _ => id
    exact hfree.goto (by dsimp only; rw [hp]; rfl) (by simp)
  | goal t v rest hp hv =>
    rw [hquiet hp (by simp)]
    exact hi.goto (by rw [hp]; rfl) (by simp)
  | goalsOver t hp =>
    rw [hquiet hp (by simp)]
    have hend : Once mk { s with queue := s.queue ++ [mk.root], lock := none } starts :=
      hi.requeue (fun x hx => count_push hx) fun _ _ => id
    exact hend.goto (by dsimp only; rw [hp]; rfl) (by simp)
  | stop t hp =>
    rw [hquiet hp (by simp)]
    have hend : Once mk { s with queue := s.queue ++ [mk.root] } starts :=
      hi.requeue (fun x hx => count_push hx) fun _ _ => id
    exact hend.goto (by dsimp only; rw [hp]; rfl) (by simp)
  | create t target f left hp =>
    show Once mk _ (starts ++ (none : Option V).toList)
    rw [hsame]
    exact ⟨hi.phase, hi.root, hi.rootStarts, hi.record⟩
  | finish t target command rest hp =>
    show Once mk _ (starts ++ (none : Option V).toList)
    rw [hsame]
    rcases runCommands_goto (s := s) t target rest with ⟨m, p, he, hnext⟩
    have hmade : Once mk { s with made := m } starts := ⟨hi.phase, hi.root, hi.rootStarts, hi.record⟩
    rw [he]
    apply hmade.goto
    · rcases hnext with hnext | hnext <;> rw [hnext, hp] <;> rfl
    · rcases hnext with hnext | hnext <;> rw [hnext] <;> simp
  | fail t target command rest hp =>
    show Once mk _ (starts ++ (none : Option V).toList)
    rw [hsame]
    exact hi.goto (by rw [hp]; rfl) (by simp)

/-! ## Runs -/

theorem pushReady_once (mk : Makefile V) {l : List V} (hl : l.Nodup) {r : (V → RuleState) × List V}
    (hr : r.2.count x = 0 ∨ r.2.count x = 1 ∧ r.1 x ≠ .waiting ∧ x ∉ l) :
    (pushReady mk l r).2.count x = 0 ∨ (pushReady mk l r).2.count x = 1 ∧ (pushReady mk l r).1 x ≠ .waiting := by
  induction l generalizing r with
  | nil => exact hr.imp_right fun h => ⟨h.1, h.2.1⟩
  | cons v l ih =>
    rcases r with ⟨state, queue⟩
    rcases List.nodup_cons.mp hl with ⟨hv, hl⟩
    rw [pushReady]
    apply ih hl
    split
    · dsimp only at hr ⊢
      by_cases e : x = v
      · rcases hr with h0 | ⟨-, -, hx⟩
        · refine Or.inr ⟨?_, ?_, e ▸ hv⟩
          · rw [List.count_append, h0, e, List.count_singleton_self]
          · rw [e, Function.update_self]
            simp
        · exact absurd (e ▸ List.mem_cons_self) hx
      · rw [count_push e, Function.update_of_ne e]
        exact hr.imp_right fun h => ⟨h.1, h.2.1, fun hx => h.2.2 (List.mem_cons_of_mem _ hx)⟩
    · exact hr.imp_right fun h => ⟨h.1, h.2.1, fun hx => h.2.2 (List.mem_cons_of_mem _ hx)⟩

omit [DecidableEq T] in
theorem parmakeStart_once {file : V → Bool} {sorted : List V} (hs : sorted.Nodup) :
    Once mk (parmakeStart (T := T) mk file sorted) [] where
  phase x hx := by
    have hpush := pushReady_once mk (x := x) hs (r := (markExisting file sorted fun _ => .waiting, []))
      (Or.inl List.count_nil)
    have hcount : (parmakeStart (T := T) mk file sorted).queue.count x =
        (pushReady mk sorted (markExisting file sorted fun _ => .waiting, [])).2.count x := by
      unfold parmakeStart
      dsimp only
      split
      · exact count_push hx
      · rfl
    rcases hpush with h0 | ⟨h1, hw⟩
    · exact .idle (hcount.trans h0) (by simp [parmakeStart, Pc.held]) List.count_nil
    · exact .queued (hcount.trans h1) (by simp [parmakeStart, Pc.held]) List.count_nil hw
  root t := by simp [parmakeStart, Pc.held]
  rootStarts := List.count_nil
  record t target r h := by cases h

/-- The commands of a target are started at most once. -/
theorem commands_start_once (hacyclic : ¬ ReachesCycle mk.graph.Edge mk.root)
    (hr : (watched mk).Reach (s, starts)) (x : V) : starts.count x ≤ 1 := by
  have hi : Once mk s starts := by
    refine Run.Sys.Reach.inv (M := watched mk) (I := fun z => Once mk z.1 z.2) ?_ ?_ hr
    · intro z hz
      rcases hz with ⟨⟨file, sorted, hsort, hs⟩, hstarts⟩
      rw [hs, hstarts]
      exact parmakeStart_once (goalOrder hacyclic hsort).nodup
    · intro z a z' hi hz
      rcases Option.map_eq_some_iff.mp hz with ⟨s', hstep, e⟩
      cases e
      exact once_step hi hstep
  by_cases e : x = mk.root
  · rw [e, hi.rootStarts]
    exact Nat.zero_le 1
  · exact (hi.phase x e).started

theorem commands_start_once_two : ∃ s, (watched (T := Fin 1) twoTargets).Reach (s, ["b", "a"]) ∧
    ∀ x, ["b", "a"].count x ≤ 1 := by
  have hrun : (Run.exec (watch twoTargets) (twoTargetsStart, []) (twoTargetsRun true)).map Prod.snd =
      some ["b", "a"] := by
    decide
  rcases Option.map_eq_some_iff.mp hrun with ⟨⟨s, starts⟩, hexec, hstarts⟩
  cases hstarts
  have hr : (watched (T := Fin 1) twoTargets).Reach (s, ["b", "a"]) :=
    Run.reach_exec (f := watch twoTargets) (s := (twoTargetsStart, [])) ⟨twoTargets_init, rfl⟩ hexec
  exact ⟨s, hr, commands_start_once (twoTargets_acyclic _) hr⟩

end SysProg.Parmake
