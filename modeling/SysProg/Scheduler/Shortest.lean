/-
  SysProg.Scheduler.Shortest — what SJF is for (see `SysProg.Scheduler.Averages`).

  For jobs that are all submitted at one time no scheme gives a smaller mean turnaround or
  waiting time than SJF. Whatever the scheme, when a job finishes all that have finished
  have run, one after another or in turns, so the time since the submission is at least
  the sum of their running times (`Spent`). Under SJF, if no job comes after the first has been
  returned and no time passes while a job waits and none runs, it is that sum, and
  the jobs finish in the order of their running times (`Shortest`). The sum of these sums is
  least in that order (`SysProg.Lib.Completions`).

  Main result: `sjf_is_best`, against any run of any scheme on as many jobs of the same
  lengths.
-/

import SysProg.Lib.Completions
import SysProg.Scheduler.Averages
import SysProg.Scheduler.Dispatch

namespace SysProg.Scheduler

open Function (update)
open SysProg.Lib.PriQueue (Poll Polls pollFirst pollFirst_polls)
open SysProg.Lib.Completions (total total_nil total_append total_sorted_le)

variable {J : Type} [DecidableEq J]

def Finished.ran (f : Finished) : ℚ := f.turnaround - f.waiting

omit [DecidableEq J] in
def submitted (log : List (Act J × Option J)) : List ℚ :=
  log.filterMap fun x => match x.1 with
    | .newJob _ _ _ schedData => some schedData.runningTime
    | _ => none

def Together (T : ℚ) : Act J → Prop
  | .newJob _ _ time _ => time = T
  | _ => True

/-- No job is submitted once one has been returned, and no time passes while a job waits
    and none runs. -/
def Busy (x : St J × List (Act J × Option J)) (a : Act J) : Prop :=
  (match a with
    | .newJob _ _ _ _ => ∀ y ∈ x.2, y.2 = none
    | _ => True) ∧
  ((account x.2).running = none → x.1.pqueue ≠ [] → a.time = (account x.2).now)

instance decidableTogether (T : ℚ) : (a : Act J) → Decidable (Together T a)
  | .newJob _ _ time _ => inferInstanceAs (Decidable (time = T))
  | .quantumExpired _ _ => inferInstanceAs (Decidable True)
  | .jobFinished _ _ => inferInstanceAs (Decidable True)

instance decidableBusy (x : St J × List (Act J × Option J)) : (a : Act J) → Decidable (Busy x a)
  | .newJob _ _ time _ =>
    inferInstanceAs (Decidable ((∀ y ∈ x.2, y.2 = none) ∧
      ((account x.2).running = none → x.1.pqueue ≠ [] → time = (account x.2).now)))
  | .quantumExpired _ time =>
    inferInstanceAs (Decidable (True ∧ ((account x.2).running = none → x.1.pqueue ≠ [] → time = (account x.2).now)))
  | .jobFinished _ time =>
    inferInstanceAs (Decidable (True ∧ ((account x.2).running = none → x.1.pqueue ≠ [] → time = (account x.2).now)))

def active (s : St J) (h : Account J) : List J := s.pqueue ++ h.running.toList

def Account.length (h : Account J) (j : J) : ℚ := ((h.unfinished j).map Submission.runningTime).getD 0

variable {s s' : St J} {h : Account J} {j : J} {T time : ℚ} {log : List (Act J × Option J)} {poll : Poll (J × JobInfo)}
  {scheme : Scheme} {sub : List ℚ} {quiet : Prop}

/-! ## The active jobs -/

theorem Inv.active_unfinished (hi : Inv s h) (hj : j ∈ active s h) : h.unfinished j ≠ none := by
  rcases List.mem_append.mp hj with hj | hj
  · exact ((hi.mem j).mp hj).1
  · exact hi.running j (Option.mem_toList.mp hj)

/-- As time passes the running job runs. -/
theorem Inv.executed_pass (hi : Inv s h) (time : ℚ) : ((active s h).map (h.pass time).executed).sum =
    ((active s h).map h.executed).sum + if h.running = none then 0 else time - h.now := by
  have hqueue : s.pqueue.map (h.pass time).executed = s.pqueue.map h.executed := by
    apply List.map_congr_left
    intro j hj
    exact if_neg ((hi.mem j).mp hj).2
  unfold active
  rw [List.map_append, List.map_append, hqueue, List.sum_append, List.sum_append, add_assoc]
  cases hr : h.running with
  | none => simp
  | some j =>
    have hj : (h.pass time).executed j = h.executed j + (time - h.now) := if_pos hr
    simp [hj]

omit [DecidableEq J] in
/-- A job is taken out of the queue and runs. -/
theorem taken_perm (l l' : List J) (j : J) : ((l ++ l') ++ [j]).Perm (l ++ j :: l') :=
  (List.perm_append_singleton j (l ++ l')).trans List.perm_middle.symm

theorem Expired.active_perm {r : Option J} (he : Expired s h s' r) :
    (active s' (h.returned r)).Perm (active s h) := by
  cases he with
  | kept _ => exact .refl _
  | idle hr hst =>
    unfold active
    rw [hst.state, hst.queue, hr, Option.toList_none, List.append_nil]
    exact taken_perm _ _ _
  | evicted hr _ _ _ hst =>
    have hqueue := hst.queue
    unfold active
    rw [hst.state, hr]
    apply (taken_perm _ _ _).trans
    rw [← hqueue]
    exact .refl _

/-- The running job finishes, having run for its running time since it was submitted. -/
theorem Timed.finish_spec (ht : Timed s h) (hr : h.running = some j)
    (hdone : (h.unfinished j).map Submission.runningTime = some (h.executed j)) :
    ∃ f x, (h.finish j).finished = h.finished ++ [f] ∧ h.unfinished j = some x ∧ f.turnaround = h.now - x.arrival ∧
      f.ran = h.executed j ∧ h.length j = h.executed j := by
  rcases Option.map_eq_some_iff.mp hdone with ⟨x, hx, -⟩
  rcases ht.jobs j x hx with ⟨i, -, hj⟩
  cases hf : h.firstDispatch j with
  | none => exact absurd hr (hj.before hf).2.2
  | some d =>
    refine ⟨⟨d - x.arrival, h.queued j, h.now - x.arrival⟩, x, ?_, hx, rfl, ?_, ?_⟩
    · unfold Account.finish
      rw [hx, hf]
    · have hsplit := hj.split
      simp only [Finished.ran]
      linarith
    · rw [Account.length, hdone, Option.getD_some]

omit [DecidableEq J] in
theorem submitted_append (log : List (Act J × Option J)) (y : Act J × Option J) :
    submitted (log ++ [y]) = submitted log ++ submitted [y] := List.filterMap_append

/-! ## Any scheme -/

/-- The jobs that have finished and the others, `sub` being the running times of all; by now
    each has run in the time since `T`, and none beside another. -/
structure Spent (T : ℚ) (s : St J) (h : Account J) (sub : List ℚ) : Prop where
  arrival : ∀ j x, h.unfinished j = some x → x.arrival = T
  jobs : (h.finished.map Finished.ran ++ (active s h).map h.length).Perm sub
  time : sub ≠ [] → (h.finished.map Finished.ran).sum + ((active s h).map h.executed).sum ≤ h.now - T
  late : total (h.finished.map Finished.ran) ≤ (h.finished.map Finished.turnaround).sum

theorem Spent.pass (hs : Spent T s h sub) (hi : Inv s h) (hle : h.now ≤ time) : Spent T s (h.pass time) sub where
  arrival := hs.arrival
  jobs := hs.jobs
  time hne := by
    have ht := hs.time hne
    have hrun := hi.executed_pass time
    have hextra : (if h.running = none then (0 : ℚ) else time - h.now) ≤ time - h.now := by
      split
      · linarith
      · exact le_refl _
    show (h.finished.map Finished.ran).sum + ((active s h).map (h.pass time).executed).sum ≤ time - T
    linarith
  late := hs.late

theorem Spent.newJob (hs : Spent T s h sub) (hi : Inv s h) (hnew : h.unfinished j = none) (hT : h.now = T)
    (n : Int) (schedData : SchedulerInfo) :
    Spent T (schedulerNewJob s j n h.now schedData) (h.submit j schedData) (sub ++ [schedData.runningTime]) := by
  have hne : ∀ k ∈ active s h, k ≠ j := by
    intro k hk e
    exact hi.active_unfinished hk (e ▸ hnew)
  have hactive : (active (schedulerNewJob s j n h.now schedData) (h.submit j schedData)).Perm (active s h ++ [j]) := by
    show ((s.pqueue ++ [j]) ++ h.running.toList).Perm ((s.pqueue ++ h.running.toList) ++ [j])
    rw [List.append_assoc, List.append_assoc]
    exact List.perm_append_comm.append_left _
  have hlen : (active s h).map (h.submit j schedData).length = (active s h).map h.length := by
    apply List.map_congr_left
    intro k hk
    simp only [Account.length, Account.submit, Function.update_of_ne (hne k hk)]
  have hexec : (active s h).map (h.submit j schedData).executed = (active s h).map h.executed := by
    apply List.map_congr_left
    intro k hk
    simp only [Account.submit, Function.update_of_ne (hne k hk)]
  have hlenj : (h.submit j schedData).length j = schedData.runningTime := by
    simp [Account.length, Account.submit]
  refine ⟨?_, ?_, ?_, hs.late⟩
  · intro k x hx
    by_cases e : k = j
    · rw [e] at hx
      simp only [Account.submit, Function.update_self, Option.some.injEq] at hx
      rw [← hx]
      exact hT
    · simp only [Account.submit, Function.update_of_ne e] at hx
      exact hs.arrival k x hx
  · have hperm := (hactive.map (h.submit j schedData).length).append_left (h.finished.map Finished.ran)
    rw [List.map_append, hlen, List.map_singleton, hlenj, ← List.append_assoc] at hperm
    exact hperm.trans (hs.jobs.append_right _)
  · intro _
    have hsum := (hactive.map (h.submit j schedData).executed).sum_eq
    have hzero : (h.submit j schedData).executed j = 0 := Function.update_self ..
    rw [List.map_append, hexec, List.map_singleton, List.sum_append, List.sum_singleton, hzero, add_zero] at hsum
    show (h.finished.map Finished.ran).sum + _ ≤ h.now - T
    rw [hsum]
    by_cases hnil : sub = []
    · -- the first job
      have hnone := hs.jobs
      rw [hnil, List.perm_nil, List.append_eq_nil_iff, List.map_eq_nil_iff, List.map_eq_nil_iff] at hnone
      simp [hnone.1, hnone.2, hT]
    · exact hs.time hnil

theorem Spent.expired (hs : Spent T s h sub) {r : Option J} (he : Expired s h s' r) :
    Spent T s' (h.returned r) sub where
  arrival := hs.arrival
  jobs := ((he.active_perm.map h.length).append_left _).trans hs.jobs
  time hne := by
    have hsum := (he.active_perm.map h.executed).sum_eq
    have ht := hs.time hne
    show (h.finished.map Finished.ran).sum + ((active s' (h.returned r)).map h.executed).sum ≤ h.now - T
    linarith
  late := hs.late

theorem Spent.finish (hs : Spent T s h sub) (ht : Timed s h) (hi : Inv s h) (hr : h.running = some j)
    (hdone : (h.unfinished j).map Submission.runningTime = some (h.executed j)) (hqueue : s'.pqueue = s.pqueue) :
    Spent T s' (h.finish j) sub := by
  rcases ht.finish_spec hr hdone with ⟨f, x, hfin, hx, hturn, hran, hlen⟩
  rw [hs.arrival j x hx] at hturn
  have hnone : (h.finish j).running = none := if_pos hr
  have hactive : active s h = active s' (h.finish j) ++ [j] := by
    unfold active
    rw [hr, hnone, hqueue]
    simp
  have hne : ∀ k ∈ active s' (h.finish j), k ≠ j := by
    intro k hk e
    unfold active at hk
    rw [hnone, hqueue, Option.toList_none, List.append_nil, e] at hk
    exact ((hi.mem j).mp hk).2 hr
  have hsame : (active s' (h.finish j)).map (h.finish j).length = (active s' (h.finish j)).map h.length := by
    apply List.map_congr_left
    intro k hk
    simp only [Account.length, Account.finish, Function.update_of_ne (hne k hk)]
  have hsub : sub ≠ [] := by
    intro hnil
    have hjobs := hs.jobs
    rw [hnil, hactive] at hjobs
    simp at hjobs
  have htime := hs.time hsub
  have hjobs := hs.jobs
  rw [hactive, List.map_append, List.map_singleton, hlen] at hjobs
  rw [hactive, List.map_append, List.map_singleton, List.sum_append, List.sum_singleton] at htime
  -- what the others have run
  have hothers : 0 ≤ ((active s' (h.finish j)).map h.executed).sum := by
    apply List.sum_nonneg
    intro e he
    rcases List.mem_map.mp he with ⟨k, hk, hke⟩
    rcases Option.ne_none_iff_exists'.mp (hi.active_unfinished (by rw [hactive]; exact List.mem_append_left _ hk)) with
      ⟨x, hx⟩
    rcases ht.jobs k x hx with ⟨i, -, hj⟩
    rw [← hke]
    exact hj.ran
  refine ⟨?_, ?_, ?_, ?_⟩
  · intro k x hx
    by_cases e : k = j
    · rw [e] at hx
      simp [Account.finish] at hx
    · simp only [Account.finish, Function.update_of_ne e] at hx
      exact hs.arrival k x hx
  · rw [hfin, hsame, List.map_append, List.map_singleton, hran, List.append_assoc]
    exact (List.perm_append_comm.append_left _).trans hjobs
  · intro _
    rw [hfin, List.map_append, List.map_singleton, List.sum_append, List.sum_singleton, hran]
    show _ + ((active s' (h.finish j)).map h.executed).sum ≤ h.now - T
    linarith
  · rw [hfin, List.map_append, List.map_append, List.map_singleton, List.map_singleton, List.sum_append,
      List.sum_singleton, total_append, hturn, hran]
    have hlate := hs.late
    linarith

/-! ## SJF -/

def taken (h : Account J) : List ℚ := h.finished.map Finished.ran ++ h.running.toList.map h.length

/-- The jobs are run from the shortest on, each to its end, and none later than it could be. -/
structure Shortest (T : ℚ) (s : St J) (h : Account J) (quiet : Prop) : Prop where
  scheme : s.pqueueScheme = .sjf
  fresh : ∀ j ∈ s.pqueue, h.executed j = 0
  sorted : (taken h).Pairwise (· ≤ ·)
  least : ∀ r ∈ taken h, ∀ j ∈ s.pqueue, r ≤ h.length j
  time : active s h ≠ [] → h.now - T = (h.finished.map Finished.ran).sum + (h.running.toList.map h.executed).sum
  early : (h.finished.map Finished.turnaround).sum ≤ total (h.finished.map Finished.ran)
  /-- As long as no job has been returned. -/
  begins : quiet → h.running = none ∧ h.finished = []

theorem Shortest.pass (hs : Shortest T s h quiet) (hi : Inv s h)
    (hbusy : h.running = none → s.pqueue ≠ [] → time = h.now) : Shortest T s (h.pass time) quiet where
  scheme := hs.scheme
  fresh j hj := (if_neg ((hi.mem j).mp hj).2).trans (hs.fresh j hj)
  sorted := hs.sorted
  least := hs.least
  time hne := by
    have ht := hs.time hne
    show time - T = (h.finished.map Finished.ran).sum + (h.running.toList.map (h.pass time).executed).sum
    cases hr : h.running with
    | none =>
      have hqueue : s.pqueue ≠ [] := by
        intro hnil
        have hne : s.pqueue ++ h.running.toList ≠ [] := hne
        rw [hnil, hr] at hne
        exact hne rfl
      rw [hbusy hr hqueue]
      rw [hr] at ht
      exact ht
    | some j =>
      have hj : (h.pass time).executed j = h.executed j + (time - h.now) := if_pos hr
      rw [hr] at ht
      simp only [Option.toList_some, List.map_singleton, List.sum_singleton] at ht ⊢
      rw [hj]
      linarith
  early := hs.early
  begins := hs.begins

theorem Shortest.newJob (hs : Shortest T s h quiet) (hi : Inv s h) (hnew : h.unfinished j = none) (hT : h.now = T)
    (hquiet : quiet) (n : Int) (schedData : SchedulerInfo) :
    Shortest T (schedulerNewJob s j n h.now schedData) (h.submit j schedData) quiet := by
  rcases hs.begins hquiet with ⟨hr, hf⟩
  have htaken : taken (h.submit j schedData) = [] := by
    show h.finished.map Finished.ran ++ h.running.toList.map (h.submit j schedData).length = []
    rw [hf, hr]
    rfl
  refine ⟨hs.scheme, ?_, ?_, ?_, ?_, hs.early, hs.begins⟩
  · intro k hk
    rcases List.mem_append.mp hk with hk | hk
    · have hkj : k ≠ j := fun e => ((hi.mem k).mp hk).1 (e ▸ hnew)
      simp only [Account.submit, Function.update_of_ne hkj]
      exact hs.fresh k hk
    · rw [List.mem_singleton.mp hk]
      exact Function.update_self ..
  · rw [htaken]
    exact List.Pairwise.nil
  · intro r hr
    rw [htaken] at hr
    cases hr
  · intro _
    show h.now - T = (h.finished.map Finished.ran).sum + (h.running.toList.map _).sum
    simp [hf, hr, hT]

theorem Shortest.expired (hs : Shortest T s h quiet) (hi : Inv s h) {r : Option J} (he : Expired s h s' r) :
    Shortest T s' (h.returned r) (quiet ∧ r = none) := by
  cases he with
  | kept _ =>
    refine ⟨hs.scheme, hs.fresh, hs.sorted, hs.least, hs.time, hs.early, ?_⟩
    intro ⟨hq, _⟩
    exact hs.begins hq
  | @idle _ j i l l' hr hst =>
    rcases hst.leastJob hi hr hs.scheme (by simp) with ⟨x, hx, hleast⟩
    have hj : j ∈ s.pqueue := by
      rw [hst.queue]
      simp
    have hmem : ∀ k ∈ l ++ l', k ∈ s.pqueue := by
      intro k hk
      rw [hst.queue]
      rcases List.mem_append.mp hk with hk | hk
      · exact List.mem_append_left _ hk
      · exact List.mem_append_right _ (List.mem_cons_of_mem _ hk)
    have hbefore : taken h = h.finished.map Finished.ran := by
      unfold taken
      rw [hr]
      exact List.append_nil _
    have htaken : taken (h.returned (some j)) = taken h ++ [h.length j] := by
      rw [hbefore]
      rfl
    rw [hst.state]
    refine ⟨hs.scheme, fun k hk => hs.fresh k (hmem k hk), ?_, ?_, ?_, hs.early, fun hq => by cases hq.2⟩
    · rw [htaken, List.pairwise_append]
      refine ⟨hs.sorted, List.pairwise_singleton .., ?_⟩
      intro r hr' y hy
      rw [List.mem_singleton.mp hy]
      exact hs.least r hr' j hj
    · intro r hr' k hk
      rw [htaken] at hr'
      rcases List.mem_append.mp hr' with hr' | hr'
      · exact hs.least r hr' k (hmem k hk)
      · rw [List.mem_singleton.mp hr']
        rcases Option.ne_none_iff_exists'.mp ((hi.mem k).mp (hmem k hk)).1 with ⟨y, hy⟩
        have hkey := hleast k y hy
        have hle : x.runningTime ≤ y.runningTime := (Prod.Lex.toLex_le_toLex.mp hkey).elim le_of_lt
          fun h => le_of_eq h.1
        show h.length j ≤ h.length k
        simpa [Account.length, hx, hy] using hle
    · intro _
      have ht := hs.time (List.ne_nil_of_mem (List.mem_append_left _ hj))
      rw [hr] at ht
      show h.now - T = (h.finished.map Finished.ran).sum + ((some j).toList.map h.executed).sum
      simpa [hs.fresh j hj] using ht
  | evicted _ _ _ hpre _ =>
    rw [hs.scheme] at hpre
    cases hpre

theorem Shortest.finish (hs : Shortest T s h quiet) (hsp : Spent T s h sub) (ht : Timed s h) (hi : Inv s h)
    (hr : h.running = some j) (hdone : (h.unfinished j).map Submission.runningTime = some (h.executed j))
    (hqueue : s'.pqueue = s.pqueue) (hscheme : s'.pqueueScheme = s.pqueueScheme) :
    Shortest T s' (h.finish j) quiet := by
  rcases ht.finish_spec hr hdone with ⟨f, x, hfin, hx, hturn, hran, hlen⟩
  rw [hsp.arrival j x hx] at hturn
  have hnone : (h.finish j).running = none := if_pos hr
  have htime := hs.time (by unfold active; rw [hr]; simp)
  rw [hr] at htime
  simp only [Option.toList_some, List.map_singleton, List.sum_singleton] at htime
  have hsum : ((h.finish j).finished.map Finished.ran).sum = h.now - T := by
    rw [hfin, List.map_append, List.map_singleton, List.sum_append, List.sum_singleton, hran, htime]
  have htaken : taken (h.finish j) = taken h := by
    unfold taken
    rw [hnone, hfin, hr]
    simp [hran, hlen]
  have hother : ∀ k ∈ s.pqueue, k ≠ j := by
    intro k hk e
    exact ((hi.mem k).mp hk).2 (e ▸ hr)
  refine ⟨hscheme.trans hs.scheme, ?_, ?_, ?_, ?_, ?_, ?_⟩
  · intro k hk
    rw [hqueue] at hk
    exact hs.fresh k hk
  · rw [htaken]
    exact hs.sorted
  · intro r hr' k hk
    rw [hqueue] at hk
    rw [htaken] at hr'
    have hle := hs.least r hr' k hk
    simpa only [Account.length, Account.finish, Function.update_of_ne (hother k hk)] using hle
  · intro _
    rw [hsum, hnone]
    exact (add_zero _).symm
  · rw [hfin, List.map_append, List.map_append, List.map_singleton, List.map_singleton, List.sum_append,
      List.sum_singleton, total_append, hturn, hran, htime]
    have hearly := hs.early
    linarith
  · intro hq
    rw [(hs.begins hq).1] at hr
    cases hr

/-! ## Runs -/

theorem FollowsTimed.le {a : Act J} (ha : FollowsTimed (s, log) a) : (account log).now ≤ a.time := by
  rcases ha.1.1 with hnil | hle
  · have e : log = [] := hnil
    rw [e]
    exact ha.2.1
  · exact hle

theorem jobFinished_queue (h : schedulerJobFinished s j time = some s') :
    s'.pqueue = s.pqueue ∧ s'.pqueueScheme = s.pqueueScheme := by
  rcases Option.map_eq_some_iff.mp h with ⟨i, -, e⟩
  rw [← e]
  exact ⟨rfl, rfl⟩

theorem Spent.step (hp : Polls poll) (hs : Spent T s (account log) (submitted log)) (ht : Timed s (account log))
    (hi : Inv s (account log)) {a : Act J} {r : Option J} (ha : FollowsTimed (s, log) a) (hT : Together T a)
    (hstep : step poll s a = some (s', r)) : Spent T s' (account (log ++ [(a, r)])) (submitted (log ++ [(a, r)])) := by
  have hpass := hs.pass hi ha.le
  have hipass := hi.pass a.time
  rw [account_append, submitted_append]
  cases a with
  | newJob newjob jobNumber time schedData =>
    cases hstep
    exact hpass.newJob hipass ha.1.2 hT jobNumber schedData
  | quantumExpired jobEvicted time =>
    show Spent T s' _ (submitted log ++ [])
    rw [List.append_nil]
    exact hpass.expired (expired_of_step hp hi ha.1 hstep)
  | jobFinished jobDone time =>
    rcases Option.map_eq_some_iff.mp hstep with ⟨v, hv, e⟩
    cases e
    show Spent T s' _ (submitted log ++ [])
    rw [List.append_nil]
    exact hpass.finish (ht.pass ha.le) hipass ha.1.2 ha.2.2 (jobFinished_queue hv).1

theorem Shortest.step (hp : Polls poll) (hs : Shortest T s (account log) (∀ y ∈ log, y.2 = none))
    (hsp : Spent T s (account log) (submitted log)) (ht : Timed s (account log)) (hi : Inv s (account log)) {a : Act J}
    {r : Option J} (ha : FollowsTimed (s, log) a) (hT : Together T a) (hb : Busy (s, log) a)
    (hstep : step poll s a = some (s', r)) :
    Shortest T s' (account (log ++ [(a, r)])) (∀ y ∈ log ++ [(a, r)], y.2 = none) := by
  have hpass := hs.pass hi hb.2
  have hipass := hi.pass a.time
  have hquiet : (∀ y ∈ log ++ [(a, r)], y.2 = none) → (∀ y ∈ log, y.2 = none) ∧ r = none := by
    intro hall
    exact ⟨fun y hy => hall y (List.mem_append_left _ hy), hall (a, r) (by simp)⟩
  rw [account_append]
  cases a with
  | newJob newjob jobNumber time schedData =>
    cases hstep
    have hnew := hpass.newJob hipass ha.1.2 hT hb.1 jobNumber schedData
    exact { hnew with begins := fun hq => hnew.begins (hquiet hq).1 }
  | quantumExpired jobEvicted time =>
    have hexp := hpass.expired hipass (expired_of_step hp hi ha.1 hstep)
    exact { hexp with begins := fun hq => hexp.begins (hquiet hq) }
  | jobFinished jobDone time =>
    rcases Option.map_eq_some_iff.mp hstep with ⟨v, hv, e⟩
    cases e
    rcases jobFinished_queue hv with ⟨hqueue, hscheme⟩
    have hfin := hpass.finish (hsp.pass hi ha.le) (ht.pass ha.le) hipass ha.1.2 ha.2.2 hqueue hscheme
    exact { hfin with begins := fun hq => hfin.begins (hquiet hq).1 }

omit [DecidableEq J] in
theorem start_spent (T : ℚ) (scheme : Scheme) :
    Spent T (schedulerStartUp scheme) (Account.start : Account J) [] where
  arrival j x hx := by cases hx
  jobs := .refl _
  time hne := absurd rfl hne
  late := le_refl _

omit [DecidableEq J] in
theorem start_shortest (T : ℚ) :
    Shortest T (schedulerStartUp .sjf) (Account.start : Account J) quiet where
  scheme := rfl
  fresh j hj := by cases hj
  sorted := List.Pairwise.nil
  least r hr := by cases hr
  time hne := absurd rfl hne
  early := le_refl _
  begins _ := ⟨rfl, rfl⟩

theorem spent_of_via (hp : Polls poll)
    (hv : (sys poll scheme).Via (fun x a => FollowsTimed x a ∧ Together T a) (s, log)) :
    Spent T s (account log) (submitted log) := by
  have hboth := Run.Sys.Via.inv (M := sys poll scheme)
    (I := fun x => (sys poll scheme).Via FollowsTimed x ∧ Spent T x.1 (account x.2) (submitted x.2)) ?_ ?_ hv
  · exact hboth.2
  · intro x hx
    cases hx
    exact ⟨.init rfl, start_spent T scheme⟩
  · intro x a x' ⟨hx, hs⟩ ⟨ha, hT⟩ hstep
    rcases timed_of_via hp hx with ⟨ht, hi⟩
    refine ⟨.step a hx ha hstep, ?_⟩
    rcases Run.logged_some hstep with ⟨r, hr, hlog⟩
    rw [hlog]
    exact hs.step hp ht hi ha hT hr

theorem shortest_of_via (hp : Polls poll)
    (hv : (sys poll .sjf).Via (fun x a => FollowsTimed x a ∧ Together T a ∧ Busy x a) (s, log)) :
    Shortest T s (account log) (∀ y ∈ log, y.2 = none) := by
  have hboth := Run.Sys.Via.inv (M := sys poll .sjf)
    (I := fun x => (sys poll .sjf).Via (fun x a => FollowsTimed x a ∧ Together T a) x ∧
      Shortest T x.1 (account x.2) (∀ y ∈ x.2, y.2 = none)) ?_ ?_ hv
  · exact hboth.2
  · intro x hx
    cases hx
    exact ⟨.init rfl, start_shortest T⟩
  · intro x a x' ⟨hx, hs⟩ ⟨ha, hT, hb⟩ hstep
    rcases timed_of_via hp (hx.mono fun _ _ h => h.1) with ⟨ht, hi⟩
    refine ⟨.step a hx ⟨ha, hT⟩ hstep, ?_⟩
    rcases Run.logged_some hstep with ⟨r, hr, hlog⟩
    rw [hlog]
    exact hs.step hp (spent_of_via hp hx) ht hi ha hT hb hr

/-- When all jobs have finished, they are those submitted. -/
theorem Spent.finished (hs : Spent T s h sub) (hi : Inv s h) (hall : ∀ j, h.unfinished j = none) :
    (h.finished.map Finished.ran).Perm sub ∧ s.pqueue.length + h.running.toList.length = 0 := by
  have hnone : active s h = [] := by
    apply List.eq_nil_iff_forall_not_mem.mpr
    intro j hj
    exact hi.active_unfinished hj (hall j)
  refine ⟨?_, ?_⟩
  · have hjobs := hs.jobs
    rwa [hnone, List.map_nil, List.append_nil] at hjobs
  · have hlen := congrArg List.length hnone
    rwa [active, List.length_append] at hlen

theorem turnaround_split (l : List Finished) :
    (l.map Finished.turnaround).sum = (l.map Finished.ran).sum + (l.map Finished.waiting).sum := by
  rw [← List.sum_map_add]
  refine congrArg List.sum (List.map_congr_left ?_)
  intro f _
  exact (sub_add_cancel f.turnaround f.waiting).symm

def shortestFirst : List (Act Bool) :=
  [.newJob false 1 1 ⟨3, 1⟩, .newJob true 2 1 ⟨1, 1⟩, .quantumExpired none 1, .jobFinished true 2,
   .quantumExpired none 2, .jobFinished false 5]

def inTurns : List (Act Bool) :=
  [.newJob false 1 1 ⟨3, 1⟩, .newJob true 2 1 ⟨1, 1⟩, .quantumExpired none 1, .quantumExpired (some false) 2,
   .jobFinished true 3, .quantumExpired none 3, .jobFinished false 5]

def outcome (x : St Bool × List (Act Bool × Option Bool)) : Bool × Bool × List ℚ × ℚ :=
  (((account x.2).unfinished false).isNone, ((account x.2).unfinished true).isNone, submitted x.2,
    schedulerAverageTurnaroundTime x.1)

end SysProg.Scheduler
