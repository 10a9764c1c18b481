/-
  SysProg.Parmake.WorkersProgress — the workers come to an end (see `SysProg.Parmake.Workers`).

  The dependency graph is acyclic, as `check_cycle` leaves it (`checkCycle_acyclic`). By
  `workers_finish` the workers that have not exited are never all blocked on the empty queue,
  and once all have exited every goal is done or failed. The invariant is that of
  `SysProg.Parmake.WorkersLive`; here are a round of the pass, which needs the order of the
  targets, and the whole run.
-/

import SysProg.Parmake.WorkersLive

namespace SysProg.Parmake

open Function (update)
open SysProg.Lib (ReachesCycle)

variable {T V : Type} {mk : Makefile V} {s s' : St T V} {t : T} [DecidableEq T]

/-! ## A round of the pass -/

variable [DecidableEq V] {n : V}

omit [DecidableEq T] in
theorem Visit.off (h : Visit mk s n s') {y : V} (hy : y ≠ n) : s'.state y = s.state y := by
  cases h with
  | settled r _ _ => exact Function.update_of_ne hy ..
  | kept _ => rfl
  | pushed _ => exact Function.update_of_ne hy ..

omit [DecidableEq T] in
theorem Visit.waiting (h : Visit mk s n s') (hw : s'.state n = .waiting) :
    s.state n = .waiting ∧ ∃ d ∈ mk.graph.neighbors n, s.state d = .waiting ∨ s.state d = .queued := by
  cases h with
  | settled r hr _ =>
    dsimp only at hw
    rw [Function.update_self] at hw
    exact absurd hw hr
  | kept hk => exact ⟨hw, hk hw⟩
  | pushed _ =>
    dsimp only at hw
    rw [Function.update_self] at hw
    cases hw

omit [DecidableEq T] in
theorem Visit.queued (h : Visit mk s n s') (hq : s'.state n = .queued) :
    s.state n = .queued ∨ s.state n = .waiting ∧ s'.queue = s.queue ++ [n] := by
  cases h with
  | settled r _ hr =>
    dsimp only at hq
    rw [Function.update_self] at hq
    exact absurd hq hr
  | kept _ => exact Or.inl hq
  | pushed hw => exact Or.inr ⟨hw, rfl⟩

omit [DecidableEq T] in
theorem Visit.queue (h : Visit mk s n s') : ∃ l, s'.queue = s.queue ++ l ∧ ∀ y ∈ l, y = n := by
  cases h with
  | settled _ _ _ => exact ⟨[], (List.append_nil _).symm, by simp⟩
  | kept _ => exact ⟨[], (List.append_nil _).symm, by simp⟩
  | pushed _ => exact ⟨[n], rfl, by simp⟩

omit [DecidableEq T] in
theorem Visit.queued_of_ne_waiting (h : Visit mk s n s') {y : V} (hy : s'.state y = .queued)
    (hw : s.state y ≠ .waiting) :
    s.state y = .queued := by
  by_cases e : y = n
  · rw [e] at hy hw ⊢
    rcases h.queued hy with hq | ⟨hn, -⟩
    · exact hq
    · exact absurd hn hw
  · rwa [h.off e] at hy

omit [DecidableEq T] in
theorem Visit.still_waiting (h : Visit mk s n s') {y : V} (hy : s'.state y = .waiting) : s.state y = .waiting := by
  by_cases e : y = n
  · rw [e] at hy ⊢
    exact (h.waiting hy).1
  · rwa [h.off e] at hy

omit [DecidableEq T] in
/-- The dependencies of the target visited have been visited. -/
theorem PassOk.visit (hi : Live mk s) (hv : Visit mk s n s') {rest : List V} (h : PassOk s (n :: rest)) :
    PassOk s' rest := by
  rcases h with ⟨visited, hsorted, hok⟩
  have hnodup := hi.order.nodup
  rw [hsorted, List.nodup_append] at hnodup
  have hn : ∀ d ∈ visited, d ≠ n := fun d hd => hnodup.2.2 d hd n List.mem_cons_self
  have hold : ∀ x ∈ visited, s.state x = .waiting → ∃ d ∈ visited ++ [n], s'.state d = .queued := by
    intro x hx hw
    rcases hok x hx hw with ⟨d, hd, hs⟩
    exact ⟨d, List.mem_append_left _ hd, by rw [hv.off (hn d hd)]; exact hs⟩
  refine ⟨visited ++ [n], by rw [hv.frame.2.2, hsorted, List.append_assoc]; rfl, ?_⟩
  intro x hx hw
  rcases List.mem_append.mp hx with hx | hx
  · exact hold x hx (hv.still_waiting hw)
  · rw [List.mem_singleton.mp hx] at hw
    rcases hv.waiting hw with ⟨-, d, hd, hs⟩
    have hdv := hi.order.before visited n rest hsorted d hd
    rcases hs with hs | hs
    · exact hold d hdv hs
    · exact ⟨d, List.mem_append_left _ hdv, by rw [hv.off (hn d hdv)]; exact hs⟩

theorem Live.visit (hi : Live mk s) {rest : List V} (hp : s.pc t = .pass (n :: rest)) (hv : Visit mk s n s') :
    Live mk (s'.goto t (.pass rest)) := by
  have hin : (s.pc t).InPass := by
    rw [hp]
    trivial
  have hl := (hi.worker t).lock.mp hin
  have hpass := (hi.worker t).pass _ hp
  rcases hv.frame with ⟨hpc, hlock, hsorted⟩
  rcases hv.queue with ⟨pushed, hq, hpushed⟩
  have hroot : n ≠ mk.root := by
    intro e
    rcases hpass with ⟨visited, hs, -⟩
    apply hi.order.root
    rw [← e, hs]
    simp
  have hpct : s'.pc t = .pass (n :: rest) := by
    rw [hpc]
    exact hp
  have hmarked : Marked mk (s'.goto t (.pass rest)) ↔ Marked mk s := by
    rw [marked_goto rfl rfl (by rw [hpct]; simp) (by simp)]
    unfold Marked
    rw [hq, hpc, List.mem_append]
    have hno : mk.root ∉ pushed := fun h => hroot (hpushed _ h).symm
    simp [hno]
  have hbusy : ∀ {y}, Busy s y → Busy (s'.goto t (.pass rest)) y := by
    intro y hy
    exact hy.idle hpc (by rw [hp]; rfl)
  have hover : NoneOver s → NoneOver (s'.goto t (.pass rest)) := by
    intro h
    exact h.goto hpc id
  refine ⟨by show GoalOrder _ _ s'.sorted; rw [hsorted]; exact hi.order, ?_, ?_, ?_, ?_, ?_⟩
  · apply workers_goto
    · refine ⟨⟨fun _ => hlock.trans hl, fun _ => trivial⟩, by simp, ?_, by simp, by simp⟩
      intro rest' e
      cases e
      exact hpass.visit hi hv
    · intro u hu
      rw [hpc]
      apply (hi.worker u).outside (hi.alone hl hu) ?_ hmarked.mpr
      show s'.lock ≠ some u
      rw [hlock, hl]
      intro h
      exact hu (Option.some.inj h).symm
  · intro y hy hs
    have hy : y ∈ s.sorted := hsorted ▸ hy
    show y ∈ s'.queue ∨ _
    rw [hq]
    by_cases e : y = n
    · rw [e] at hs hy ⊢
      rcases hv.queued hs with hs | ⟨-, hq'⟩
      · exact (hi.tracked n hy hs).imp (List.mem_append_left _) hbusy
      · rw [← hq, hq']
        exact Or.inl (List.mem_append_right _ (List.mem_singleton_self n))
    · have hs : s'.state y = .queued := hs
      rw [hv.off e] at hs
      exact (hi.tracked y hy hs).imp (List.mem_append_left _) hbusy
  · refine Or.inr (Or.inr ?_)
    show s'.lock ≠ none
    rw [hlock, hl]
    exact Option.some_ne_none t
  · rw [hmarked]
    intro hm v hgoal hs
    exact hi.closing hm v hgoal (hv.still_waiting hs)
  · intro v hgoal hs
    by_cases hw : s.state v = .waiting
    · -- queued just now: the empty name is not there yet
      have hno : ¬ Marked mk s := fun hm => hi.closing hm v hgoal hw
      have hvn : v = n := by
        by_contra e
        have hs : s'.state v = .queued := hs
        rw [hv.off e, hw] at hs
        cases hs
      rw [hvn] at hs hw
      rcases hv.queued hs with hs | ⟨-, hq'⟩
      · rw [hw] at hs
        cases hs
      · refine Or.inr ⟨⟨s.queue, [], by rw [hvn]; exact hq', fun h => hno (Or.inl h)⟩, hover ?_⟩
        intro u hu
        cases hpu : s.pc u with
        | stop => exact hno (Or.inr ⟨u, hpu⟩)
        | exited => exact hno ((hi.worker u).exited hpu)
        | _ =>
          rw [hpu] at hu
          cases hu
    · rcases hi.ahead v hgoal (hv.queued_of_ne_waiting hs hw) with hb | ⟨⟨l, l', he, hl'⟩, hnone⟩
      · exact Or.inl (hbusy hb)
      · refine Or.inr ⟨⟨l, l' ++ pushed, ?_, hl'⟩, hover hnone⟩
        show s'.queue = _
        rw [hq, he, List.append_assoc]
        rfl

/-! ## Runs -/

theorem live_step {a : Act T V} (hi : Live mk s) (h : step mk s a = some s') : Live mk s' := by
  cases step_move h with
  | start t hp hl =>
    apply hi.goto (by rw [hp]; exact ⟨id, id⟩) ⟨id, id⟩ ?_ (by simp)
    rw [hp]
    simp [Pc.busy]
  | pullStop t queue hp hq => exact hi.pullStop hp hq
  | pull t target queue hp hq hroot => exact hi.pull hp hq hroot
  | fetch t target hp hl => exact hi.moveOn hp ⟨id, id⟩ ⟨id, id⟩ rfl (by simp)
  | checked t target hp => exact hi.moveOn hp ⟨id, id⟩ ⟨id, id⟩ rfl (by simp)
  | checkFailed t target d rest hp hl hd => exact hi.moveOn hp ⟨id, id⟩ ⟨id, id⟩ rfl (by simp)
  | check t target d rest hp hl hd => exact hi.moveOn hp ⟨id, id⟩ ⟨id, id⟩ rfl (by simp)
  | skip t target flag hp hl hd =>
    apply hi.goto (by rw [hp]; exact ⟨id, id⟩) ⟨id, id⟩ ?_ (by simp)
    -- the target it lets go of is done
    rw [hp]
    intro x hx hb
    cases hb
    rw [hd] at hx
    cases hx
  | giveUp t target hp hl hd => exact hi.moveOn hp ⟨id, id⟩ ⟨id, id⟩ rfl (by simp)
  | begin t target hp hl hd => exact hi.commands (by rw [hp]; exact ⟨id, id⟩) (by rw [hp]; rfl)
  | record t target state hp hl => exact hi.record hp hl
  | visit t neighbor rest hp => exact hi.visit hp (visitRule_visit neighbor)
  | passed t hp =>
    have hin : (s.pc t).InPass := by
      rw [hp]
      trivial
    apply hi.within (p := .goals (mk.graph.neighbors mk.root)) hin trivial
    refine ⟨⟨fun _ => (hi.worker t).lock.mp hin, fun _ => trivial⟩, by simp, by simp, ?_, by simp⟩
    intro rest e
    cases e
    rcases (hi.worker t).pass _ hp with ⟨visited, hs, hok⟩
    rw [List.append_nil] at hs
    exact ⟨hs ▸ hok, [], rfl, by simp⟩
  | goalOpen t v rest hp hv => exact hi.goalOpen hp hv
  | goal t v rest hp hv =>
    have hin : (s.pc t).InPass := by
      rw [hp]
      trivial
    apply hi.within (p := .goals rest) hin trivial
    refine ⟨⟨fun _ => (hi.worker t).lock.mp hin, fun _ => trivial⟩, by simp, by simp, ?_, by simp⟩
    intro rest' e
    cases e
    rcases (hi.worker t).goals _ hp with ⟨hqueued, seen, hs, hok⟩
    refine ⟨hqueued, seen ++ [v], by rw [hs, List.append_assoc]; rfl, ?_⟩
    intro w hw
    rcases List.mem_append.mp hw with hw | hw
    · exact hok w hw
    · rw [List.mem_singleton.mp hw]
      exact hv
  | goalsOver t hp => exact hi.goalsOver hp
  | stop t hp => exact hi.stop hp
  | create t target f left hp => exact hi.files _ _
  | finish t target command rest hp => exact hi.commands (by rw [hp]; exact ⟨id, id⟩) (by rw [hp]; rfl)
  | fail t target command rest hp => exact hi.moveOn hp ⟨id, id⟩ ⟨id, id⟩ rfl (by simp)

theorem markExisting_ne_queued {file : V → Bool} {l : List V} {state : V → RuleState}
    (h : ∀ y, state y ≠ .queued) (y : V) : markExisting file l state y ≠ .queued := by
  induction l generalizing state with
  | nil => exact h y
  | cons v l ih =>
    apply ih
    intro z
    split
    · by_cases e : z = v
      · rw [e, Function.update_self]
        simp
      · rw [Function.update_of_ne e]
        exact h z
    · exact h z

/-- What is queued is in the queue, and is one of the targets. -/
theorem pushReady_queued (mk : Makefile V) {l : List V} {r : (V → RuleState) × List V}
    (h : ∀ y, r.1 y = .queued → y ∈ r.2) :
    (∀ y, (pushReady mk l r).1 y = .queued → y ∈ (pushReady mk l r).2) ∧
      ∀ y ∈ (pushReady mk l r).2, y ∈ r.2 ∨ y ∈ l := by
  induction l generalizing r with
  | nil => exact ⟨h, fun y hy => Or.inl hy⟩
  | cons v l ih =>
    rcases r with ⟨state, queue⟩
    rw [pushReady]
    split
    · have hnext : ∀ y, update state v .queued y = .queued → y ∈ queue ++ [v] := by
        intro y hy
        by_cases e : y = v
        · rw [e]
          exact List.mem_append_right _ (List.mem_singleton_self v)
        · rw [Function.update_of_ne e] at hy
          exact List.mem_append_left _ (h y hy)
      refine ⟨(ih hnext).1, ?_⟩
      intro y hy
      rcases (ih hnext).2 y hy with hy | hy
      · rcases List.mem_append.mp hy with hy | hy
        · exact Or.inl hy
        · rw [List.mem_singleton.mp hy]
          exact Or.inr List.mem_cons_self
      · exact Or.inr (List.mem_cons_of_mem _ hy)
    · refine ⟨(ih h).1, ?_⟩
      intro y hy
      exact ((ih h).2 y hy).imp_right (List.mem_cons_of_mem _)

theorem pushReady_keeps {l : List V} {r : (V → RuleState) × List V} {y : V} (h : r.1 y = .queued) :
    (pushReady mk l r).1 y = .queued := by
  induction l generalizing r with
  | nil => exact h
  | cons v l ih =>
    rcases r with ⟨state, queue⟩
    rw [pushReady]
    apply ih
    split
    · by_cases e : y = v
      · rw [e]
        exact Function.update_self ..
      · exact (Function.update_of_ne e ..).trans h
    · exact h

omit [DecidableEq T] in
theorem parmakeStart_live {file : V → Bool} {sorted : List V} (ho : GoalOrder mk.graph mk.root sorted) :
    Live mk (parmakeStart (T := T) mk file sorted) := by
  have hmark : ∀ y, markExisting file sorted (fun _ => .waiting) y ≠ .queued := markExisting_ne_queued (by simp)
  have hpush := pushReady_queued mk (l := sorted) (r := (markExisting file sorted fun _ => .waiting, []))
    fun y hy => absurd hy (hmark y)
  generalize hr : pushReady mk sorted (markExisting file sorted fun _ => .waiting, []) = r at hpush
  have hstate : (parmakeStart (T := T) mk file sorted).state = r.1 := by
    rw [← hr]
    rfl
  have hqueue : (parmakeStart (T := T) mk file sorted).queue = if sorted = [] then r.2 ++ [mk.root] else r.2 := by
    rw [← hr]
    rfl
  have hmem : ∀ y, r.1 y = .queued → y ∈ (parmakeStart (T := T) mk file sorted).queue := by
    intro y hy
    rw [hqueue]
    split
    · exact List.mem_append_left _ (hpush.1 y hy)
    · exact hpush.1 y hy
  have hclosed : Marked mk (parmakeStart (T := T) mk file sorted) → sorted = [] := by
    intro hm
    rcases hm with hm | ⟨t, ht⟩
    · rw [hqueue] at hm
      by_contra hne
      rw [if_neg hne] at hm
      rcases hpush.2 _ hm with h | h
      · cases h
      · exact ho.root h
    · cases ht
  refine ⟨ho, ?_, ?_, ?_, ?_, ?_⟩
  · intro t
    exact plain_live ⟨id, id⟩ (by simp [parmakeStart]) (by simp [parmakeStart])
  · intro x _ hs
    rw [hstate] at hs
    exact Or.inl (hmem x hs)
  · cases sorted with
    | nil =>
      apply Or.inl
      apply Or.inl
      rw [hqueue, if_pos rfl]
      exact List.mem_append_right _ (List.mem_singleton_self _)
    | cons v l =>
      -- nothing is before the first target, so it depends on nothing
      have hfirst : (mk.graph.neighbors v).all (fun d =>
          markExisting file (v :: l) (fun _ => .waiting) d = .done) = true := by
        rw [List.all_eq_true]
        intro d hd
        cases ho.before [] v l rfl d hd
      refine Or.inr (Or.inl ⟨v, List.mem_cons_self, ?_⟩)
      rw [hstate, ← hr, pushReady, if_pos hfirst]
      apply pushReady_keeps
      exact Function.update_self ..
  · intro hm v hv
    have hv := ho.goals v hv
    rw [hclosed hm] at hv
    cases hv
  · intro v hv hs
    rw [hstate] at hs
    have hne : sorted ≠ [] := by
      intro e
      have hv := ho.goals v hv
      rw [e] at hv
      cases hv
    have hin := hmem v hs
    rcases List.append_of_mem hin with ⟨l, l', hl⟩
    refine Or.inr ⟨⟨l, l', hl, ?_⟩, fun t => id⟩
    intro hroot
    apply hne
    apply hclosed
    rw [Marked, hl]
    exact Or.inl (List.mem_append_left _ hroot)

/-- While a worker has not exited, not all of those are blocked on the empty queue; and once
    all have exited every goal is done or failed. -/
theorem workers_finish [Nonempty T] (hacyclic : ¬ ReachesCycle mk.graph.Edge mk.root) (hr : (sys (T := T) mk).Reach s) :
    ((∃ t, s.pc t ≠ .exited) → ∃ t, s.pc t ≠ .exited ∧ ¬ (s.pc t = .pull ∧ s.queue = [])) ∧
      ((∀ t, s.pc t = .exited) →
        ∀ v ∈ mk.graph.neighbors mk.root, s.state v = .done ∨ s.state v = .failed) := by
  have hi : Live mk s := by
    refine Run.Sys.Reach.inv (M := sys mk) (I := Live mk) ?_ ?_ hr
    · intro z hz
      rcases hz with ⟨file, sorted, hsort, hs⟩
      rw [hs]
      exact parmakeStart_live (goalOrder hacyclic hsort)
    · intro z a z' hi hz
      exact live_step hi hz
  constructor
  · intro hlive
    rcases hlive with ⟨t, ht⟩
    exact hi.not_stuck ht
  · intro hall v hv
    exact hi.settled hall hv

theorem workers_finish_two : ∃ s, (sys (T := Fin 1) twoTargets).Reach s ∧ (∀ t, s.pc t = .exited) ∧
    ∀ v ∈ twoTargets.graph.neighbors twoTargets.root, s.state v = .done ∨ s.state v = .failed := by
  have hrun : (Run.exec (step twoTargets) twoTargetsStart
      (twoTargetsRun true ++ .finish 0 true :: List.replicate 8 (.run 0))).map (fun s => s.pc 0) = some .exited := by
    decide
  rcases Option.map_eq_some_iff.mp hrun with ⟨s, hexec, hp⟩
  have hr : (sys (T := Fin 1) twoTargets).Reach s := Run.reach_exec twoTargets_init hexec
  have hall : ∀ t, s.pc t = .exited := by
    intro t
    rw [Subsingleton.elim t 0]
    exact hp
  exact ⟨s, hr, hall, (workers_finish (twoTargets_acyclic _) hr).2 hall⟩

end SysProg.Parmake
