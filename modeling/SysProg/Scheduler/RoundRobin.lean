/-
  SysProg.Scheduler.RoundRobin — RR is a first-in first-out queue
  (see `SysProg.Scheduler.History`).

  `Fifo` is a plain ready queue: new and evicted jobs join at the back, the front is
  dispatched, and a running job keeps running when nobody waits. By `round_robin_is_fifo`
  the calls return what it returns, and a job with `k` jobs ahead of it is the one after
  the next `k` to be dispatched, whatever is called meanwhile.

  The queue is ordered by an arrival time that is set when a job joins. Times do not go
  down, so the jobs are in the order of these times (`Arrived`), and of equal ones the
  first to have joined is polled.
-/

import SysProg.Scheduler.History

namespace SysProg.Scheduler

open Function (update)
open SysProg.Lib.PriQueue (Poll Polls pollFirst pollFirst_polls)

variable {J : Type}

structure Fifo (J : Type) where
  queue : List J
  running : Option J

def Fifo.call (f : Fifo J) : Act J → Fifo J × Option J
  | .newJob newjob _ _ _ => ({ f with queue := f.queue ++ [newjob] }, none)
  | .quantumExpired _ _ =>
    match f.queue with
    | [] => (f, f.running)
    | front :: rest => (⟨rest ++ f.running.toList, some front⟩, some front)
  | .jobFinished _ _ => ({ f with running := none }, none)

def fifoRun (calls : List (Act J)) : Fifo J × List (Option J) :=
  calls.foldl (fun x a => ((x.1.call a).1, x.2 ++ [(x.1.call a).2])) (⟨[], none⟩, [])

theorem fifoRun_append (calls : List (Act J)) (a : Act J) :
    fifoRun (calls ++ [a]) =
      (((fifoRun calls).1.call a).1, (fifoRun calls).2 ++ [((fifoRun calls).1.call a).2]) := by
  unfold fifoRun
  rw [List.foldl_append]
  rfl

variable [DecidableEq J]

/-- A job is dispatched from the queue when another one than the one evicted is returned. -/
def dispatchOf : Act J × Option J → Option J
  | (.quantumExpired jobEvicted _, r) => if r = jobEvicted then none else r
  | _ => none

def joinOf : Act J × Option J → Option J
  | (.newJob newjob _ _ _, _) => some newjob
  | (.quantumExpired jobEvicted _, r) => if r = jobEvicted then none else jobEvicted
  | _ => none

@[simp] theorem dispatchOf_same (e : Option J) (time : ℚ) : dispatchOf (.quantumExpired e time, e) = none := if_pos rfl

theorem dispatchOf_other {e r : Option J} {time : ℚ} (h : r ≠ e) : dispatchOf (.quantumExpired e time, r) = r :=
  if_neg h

@[simp] theorem joinOf_same (e : Option J) (time : ℚ) : joinOf (.quantumExpired e time, e) = none := if_pos rfl

theorem joinOf_other {e r : Option J} {time : ℚ} (h : r ≠ e) : joinOf (.quantumExpired e time, r) = e := if_neg h

def dispatches (log : List (Act J × Option J)) : List J := log.filterMap dispatchOf

/-! ## The order in the queue -/

structure Arrived (metadata : J → Option JobInfo) (q : List J) (now : ℚ) : Prop where
  sorted : q.Pairwise fun j k =>
    ∀ i i', metadata j = some i → metadata k = some i' → i.arrivalTime ≤ i'.arrivalTime
  past : ∀ j ∈ q, ∀ i, metadata j = some i → i.arrivalTime ≤ now

variable {metadata : J → Option JobInfo} {q : List J} {now time : ℚ} {j : J}

omit [DecidableEq J] in
theorem Arrived.later (h : Arrived metadata q now) (ht : now ≤ time) : Arrived metadata q time where
  sorted := h.sorted
  past j hj i hm := le_trans (h.past j hj i hm) ht

/-- What happens to jobs that are not in the queue. -/
theorem Arrived.update (h : Arrived metadata q now) (hj : j ∉ q) (i : Option JobInfo) :
    Arrived (update metadata j i) q now := by
  have hne : ∀ k ∈ q, k ≠ j := by
    intro k hk e
    rw [e] at hk
    exact hj hk
  refine ⟨h.sorted.imp_of_mem ?_, ?_⟩
  · intro a b ha hb hab i₁ i₂ h₁ h₂
    rw [Function.update_of_ne (hne a ha)] at h₁
    rw [Function.update_of_ne (hne b hb)] at h₂
    exact hab i₁ i₂ h₁ h₂
  · intro k hk i' hi'
    rw [Function.update_of_ne (hne k hk)] at hi'
    exact h.past k hk i' hi'

omit [DecidableEq J] in
/-- A job joins now. -/
theorem Arrived.join (h : Arrived metadata q now) {i : JobInfo} (hm : metadata j = some i) (hi : i.arrivalTime = now) :
    Arrived metadata (q ++ [j]) now where
  sorted := by
    refine List.pairwise_append.mpr ⟨h.sorted, List.pairwise_singleton _ _, ?_⟩
    intro a ha b hb i₁ i₂ h₁ h₂
    rw [List.mem_singleton.mp hb, hm] at h₂
    cases h₂
    rw [hi]
    exact h.past a ha i₁ h₁
  past k hk i' hi' := by
    rcases List.mem_append.mp hk with hk | hk
    · exact h.past k hk i' hi'
    · rw [List.mem_singleton.mp hk, hm] at hi'
      cases hi'
      exact le_of_eq hi

omit [DecidableEq J] in
theorem Arrived.tail (h : Arrived metadata (j :: q) now) : Arrived metadata q now where
  sorted := (List.pairwise_cons.mp h.sorted).2
  past k hk := h.past k (List.mem_cons_of_mem _ hk)

variable {s s' : St J} {h : Account J}

/-- The front of the queue is polled. -/
theorem Started.front (hi : Inv s h) (ha : Arrived s.metadata s.pqueue now) (hrr : s.pqueueScheme = .rr)
    {i : JobInfo} {l l' : List J} (hst : Started s time s' j i l l') : l = [] := by
  cases l with
  | nil => rfl
  | cons k l =>
    -- the front would have arrived later than the job polled
    have hk : k ∈ s.pqueue := by
      rw [hst.queue]
      simp
    rcases hi.metadata hk with ⟨i', hm⟩
    have hlt := hst.first k List.mem_cons_self i' hm
    have hsorted := ha.sorted
    rw [hst.queue, List.cons_append, List.pairwise_cons] at hsorted
    have hle := hsorted.1 j (by simp) i' i hm hst.info
    rw [hrr] at hlt
    simp only [schemeKey, Prod.Lex.toLex_lt_toLex, lt_self_iff_false, and_false, or_false] at hlt
    exact absurd hlt (not_lt_of_ge hle)

/-- A polled job is started, out of the front of the queue. -/
theorem Started.arrived (hi : Inv s h) (ha : Arrived s.metadata s.pqueue now) (hrr : s.pqueueScheme = .rr)
    {i : JobInfo} {l l' : List J} (hst : Started s time s' j i l l') :
    s.pqueue = j :: s'.pqueue ∧ Arrived s'.metadata s'.pqueue now := by
  have hl := hst.front hi ha hrr
  have hq := hst.queue
  rw [hl, List.nil_append] at hq
  have hs := hst.state
  rw [hl, List.nil_append] at hs
  have hnodup := hi.nodup
  rw [hq] at ha hnodup
  rw [hs]
  exact ⟨hq, ha.tail.update (List.nodup_cons.mp hnodup).1 _⟩

/-- What `scheduler_quantum_expired` does under RR. -/
theorem Expired.roundRobin (hi : Inv s h) (ha : Arrived s.metadata s.pqueue h.now) (hrr : s.pqueueScheme = .rr)
    {r : Option J} (he : Expired s h s' r) :
    s.pqueue = [] ∧ s' = s ∧ r = h.running ∨
    ∃ front rest, s.pqueue = front :: rest ∧ r = some front ∧ s'.pqueue = rest ++ h.running.toList ∧
      Arrived s'.metadata s'.pqueue h.now := by
  cases he with
  | kept hk =>
    rcases hk with hq | ⟨-, hno⟩
    · exact Or.inl ⟨hq, rfl, rfl⟩
    · rw [hrr] at hno
      cases hno
  | @idle s' j i l l' hr hst =>
    rcases hst.arrived hi ha hrr with ⟨hq, ha'⟩
    refine Or.inr ⟨j, s'.pqueue, hq, rfl, ?_, ha'⟩
    rw [hr, Option.toList_none, List.append_nil]
  | @evicted s' e j info i l l' hr hne hm _ hst =>
    have hnot : e ∉ s.pqueue := fun hin => ((hi.mem e).mp hin).2 hr
    have hjoin : Arrived (offerEvicted s e info h.now).metadata (offerEvicted s e info h.now).pqueue h.now :=
      (ha.update hnot _).join (Function.update_self ..) rfl
    rcases hst.arrived (hi.offerEvicted hr hm) hjoin hrr with ⟨hq, ha'⟩
    cases hp : s.pqueue with
    | nil => exact absurd hp hne
    | cons front rest =>
      have hq : s.pqueue ++ [e] = j :: s'.pqueue := hq
      rw [hp, List.cons_append] at hq
      rcases List.cons.inj hq with ⟨hj, hrest⟩
      refine Or.inr ⟨front, rest, rfl, by rw [hj], ?_, ha'⟩
      rw [hr, ← hrest]
      rfl

/-! ## Runs -/

structure Rr (s : St J) (log : List (Act J × Option J)) : Prop where
  inv : Inv s (account log)
  scheme : s.pqueueScheme = .rr
  arrived : Arrived s.metadata s.pqueue (account log).now
  fifo : fifoRun (log.map Prod.fst) = (⟨s.pqueue, (account log).running⟩, log.map Prod.snd)
  /-- The jobs that joined are those dispatched and, behind them, those in the queue. -/
  order : dispatches log ++ s.pqueue = log.filterMap joinOf

variable {log : List (Act J × Option J)} {poll : Poll (J × JobInfo)}

theorem Rr.pass (hi : Rr s log) {a : Act J} (ha : Follows (s, log) a) : Arrived s.metadata s.pqueue a.time := by
  rcases ha.1 with hnil | hle
  · have horder := hi.order
    dsimp only at hnil
    rw [hnil] at horder
    have hq : s.pqueue = [] := horder
    rw [hq]
    exact ⟨List.Pairwise.nil, by simp⟩
  · exact hi.arrived.later hle

omit [DecidableEq J] in
theorem filterMap_snoc {α β : Type} (f : α → Option β) (l : List α) (x : α) :
    (l ++ [x]).filterMap f = l.filterMap f ++ (f x).toList := by
  rw [List.filterMap_append]
  cases hx : f x <;> simp [hx]

/-- A call does what the plain queue does, and keeps the order. -/
theorem Rr.extend (hi : Rr s log) {a : Act J} {r : Option J} (hinv : Inv s' (account (log ++ [(a, r)])))
    (hscheme : s'.pqueueScheme = s.pqueueScheme) (harr : Arrived s'.metadata s'.pqueue a.time)
    (hcall : (⟨s.pqueue, (account log).running⟩ : Fifo J).call a =
      (⟨s'.pqueue, (account (log ++ [(a, r)])).running⟩, r))
    (horder : (dispatchOf (a, r)).toList ++ s'.pqueue = s.pqueue ++ (joinOf (a, r)).toList) :
    Rr s' (log ++ [(a, r)]) where
  inv := hinv
  scheme := hscheme.trans hi.scheme
  arrived := by
    rw [account_now]
    exact harr
  fifo := by
    rw [List.map_append, List.map_cons, List.map_nil, fifoRun_append, hi.fifo, hcall, List.map_append]
    rfl
  order := by
    rw [dispatches, filterMap_snoc, filterMap_snoc, ← hi.order, List.append_assoc, List.append_assoc, ← horder]
    rfl

theorem Rr.step (hp : Polls poll) (hi : Rr s log) {a : Act J} {r : Option J} (ha : Follows (s, log) a)
    (hs : step poll s a = some (s', r)) : Rr s' (log ++ [(a, r)]) := by
  rcases step_inv hp hi.inv ha hs with ⟨hinv, hscheme⟩
  have hpass := hi.inv.pass a.time
  have harr := hi.pass ha
  cases a with
  | newJob newjob jobNumber time schedData =>
    cases hs
    have hnew : (account log).unfinished newjob = none := ha.2
    have hnot : newjob ∉ s.pqueue := fun hin => ((hi.inv.mem newjob).mp hin).1 hnew
    refine hi.extend hinv hscheme ?_ ?_ rfl
    · exact (harr.update hnot _).join (Function.update_self ..) rfl
    · rw [account_append]
      rfl
  | quantumExpired jobEvicted time =>
    have he : jobEvicted = (account log).running := ha.2
    have hexp := expired_of_step hp hi.inv ha hs
    rcases hexp.roundRobin hpass harr hi.scheme with ⟨hq, hs, hr⟩ | ⟨front, rest, hq, hr, hq', harr'⟩
    · have hr : r = (account log).running := hr
      rw [hs] at hinv ⊢
      refine hi.extend hinv rfl harr ?_ ?_
      · rw [account_append, hr]
        unfold Fifo.call
        dsimp only
        rw [hq]
        rfl
      · rw [he, hr, dispatchOf_same, joinOf_same]
        exact (List.append_nil _).symm
    · have hq' : s'.pqueue = rest ++ (account log).running.toList := hq'
      -- the front of the queue is not running
      have hne : some front ≠ (account log).running := by
        intro e
        have hin : front ∈ s.pqueue := by
          rw [hq]
          exact List.mem_cons_self
        exact ((hi.inv.mem front).mp hin).2 e.symm
      rw [hr] at hinv ⊢
      refine hi.extend hinv hscheme harr' ?_ ?_
      · rw [account_append]
        unfold Fifo.call
        dsimp only
        rw [hq, hq']
        rfl
      · rw [he, dispatchOf_other hne, joinOf_other hne, hq, hq']
        rfl
  | jobFinished jobDone time =>
    have hrun : (account log).running = some jobDone := ha.2
    rcases Option.map_eq_some_iff.mp hs with ⟨u, hu, e⟩
    cases e
    unfold schedulerJobFinished at hu
    rcases Option.map_eq_some_iff.mp hu with ⟨info, -, hu⟩
    rw [← hu] at hinv hscheme ⊢
    refine hi.extend hinv hscheme ?_ ?_ ?_
    · have hnot : jobDone ∉ s.pqueue := fun hin => ((hi.inv.mem jobDone).mp hin).2 hrun
      exact harr.update hnot none
    · rw [account_append]
      simp [Fifo.call, Account.call, Account.finish, Account.pass, hrun]
    · exact (List.append_nil _).symm

theorem rr_of_via (hp : Polls poll) (hv : (sys poll .rr).Via Follows (s, log)) : Rr s log := by
  refine Run.Sys.Via.inv (M := sys poll .rr) (I := fun x => Rr x.1 x.2) ?_ ?_ hv
  · intro x hx
    cases hx
    exact ⟨start_inv .rr, rfl, ⟨List.Pairwise.nil, by simp [schedulerStartUp]⟩, rfl, rfl⟩
  · intro x a x' hi ha hs
    rcases Run.logged_some hs with ⟨r, hstep, hlog⟩
    rw [hlog]
    exact hi.step hp ha hstep

/-- The jobs dispatched later are those in the queue now, and behind them those that join. -/
theorem Rr.dispatches_after (hi : Rr s log) {more : List (Act J × Option J)} (hi' : Rr s' (log ++ more)) :
    dispatches more ++ s'.pqueue = s.pqueue ++ more.filterMap joinOf := by
  have horder := hi'.order
  rw [dispatches, List.filterMap_append, List.filterMap_append, ← hi.order, List.append_assoc,
    List.append_assoc] at horder
  exact List.append_cancel_left horder

theorem round_robin_is_fifo (hp : Polls poll) (hv : (sys poll .rr).Via Follows (s, log)) :
    fifoRun (log.map Prod.fst) = (⟨s.pqueue, (account log).running⟩, log.map Prod.snd) ∧
    ∀ more s' l j l', (sys poll .rr).Via Follows (s', log ++ more) → s.pqueue = l ++ j :: l' →
      (l.length < (dispatches more).length → (dispatches more)[l.length]? = some j) ∧
      ((dispatches more).length ≤ l.length → ∃ l'', s'.pqueue = l.drop (dispatches more).length ++ j :: l'') := by
  have hi := rr_of_via hp hv
  refine ⟨hi.fifo, ?_⟩
  intro more s' l j l' hv' hq
  have hafter := hi.dispatches_after (rr_of_via hp hv')
  rw [hq, List.append_assoc] at hafter
  constructor
  · intro hlt
    have hget := congrArg (fun x => x[l.length]?) hafter
    rw [List.getElem?_append_left hlt, List.getElem?_append_right (le_refl _)] at hget
    simpa using hget
  · intro hle
    have hdrop := congrArg (List.drop (dispatches more).length) hafter
    rw [List.drop_left, List.drop_append_of_le_length hle] at hdrop
    exact ⟨l' ++ more.filterMap joinOf, hdrop⟩

def threeJobs : List (Act Nat × Option Nat) :=
  [(.newJob 1 1 0 ⟨5, 1⟩, none), (.newJob 2 2 0 ⟨5, 1⟩, none), (.newJob 3 3 0 ⟨5, 1⟩, none),
   (.quantumExpired none 0, some 1)]

def twoQuanta : List (Act Nat × Option Nat) :=
  [(.quantumExpired (some 1) 1, some 2), (.quantumExpired (some 2) 2, some 3)]

theorem round_robin_is_fifo_three : ∃ s s', (sys (J := Nat) pollFirst .rr).Via Follows (s, threeJobs) ∧
    (sys (J := Nat) pollFirst .rr).Via Follows (s', threeJobs ++ twoQuanta) ∧ s.pqueue = [2] ++ 3 :: [] ∧
    (dispatches twoQuanta)[1]? = some 3 := by
  have hrun : (Run.exec (Run.guard Follows (Run.logged (step (J := Nat) pollFirst))) (schedulerStartUp .rr, [])
      (threeJobs.map Prod.fst)).map (fun x => (x.1.pqueue, x.2)) = some ([2, 3], threeJobs) := by
    decide +kernel
  have hrun' : (Run.exec (Run.guard Follows (Run.logged (step (J := Nat) pollFirst))) (schedulerStartUp .rr, [])
      ((threeJobs ++ twoQuanta).map Prod.fst)).map Prod.snd = some (threeJobs ++ twoQuanta) := by
    decide +kernel
  rcases Option.map_eq_some_iff.mp hrun with ⟨⟨s, log⟩, hexec, he⟩
  rcases Option.map_eq_some_iff.mp hrun' with ⟨⟨s', log'⟩, hexec', he'⟩
  rcases Prod.mk.inj he with ⟨hq, hlog⟩
  have hlog : log = threeJobs := hlog
  have hlog' : log' = threeJobs ++ twoQuanta := he'
  rw [hlog] at hexec
  rw [hlog'] at hexec'
  have h0 : (sys (J := Nat) pollFirst .rr).Via Follows (schedulerStartUp .rr, []) := .init rfl
  have hv := Run.via_guard h0 hexec
  have hv' := Run.via_guard h0 hexec'
  have hsplit : s.pqueue = [2] ++ 3 :: [] := hq
  exact ⟨s, s', hv, hv', hsplit,
    ((round_robin_is_fifo pollFirst_polls hv).2 twoQuanta s' [2] 3 [] hv' hsplit).1 (by decide)⟩

end SysProg.Scheduler
