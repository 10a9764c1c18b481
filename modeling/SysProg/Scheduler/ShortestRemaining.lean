/-
  SysProg.Scheduler.ShortestRemaining — what PSRTF is for (see `SysProg.Scheduler.Averages`).

  Jobs come at any times. Under PSRTF the running job has the least left whenever time passes,
  if `scheduler_quantum_expired` is called after the jobs that come or finish at one time
  (`Prompt`). So the jobs are ahead of any other way of running them on one processor, the
  scheduler's own schemes among them (`Ahead`): at every time there are no more of them with something left.

  Main result: `psrtf_is_best`. The average turnaround and waiting times that the scheduler reports
  are not above those of any `Schedule` of the same jobs, which may stop a job at any moment,
  leave the processor idle and know the jobs to come.
-/

import Mathlib.Algebra.BigOperators.Fin
import SysProg.Lib.Remaining
import SysProg.Scheduler.Shortest

namespace SysProg.Scheduler

open Function (update)
open SysProg.Lib.PriQueue (Poll Polls pollFirst pollFirst_polls)
open SysProg.Remaining (Ahead waited_le)

variable {J : Type} [DecidableEq J]

omit [DecidableEq J] in
def arrivals (log : List (Act J × Option J)) : List (ℚ × ℚ) :=
  log.filterMap fun x => match x.1 with
    | .newJob _ _ time schedData => some (time, schedData.runningTime)
    | _ => none

/-- A way to run jobs on one processor: for how long each has run by a time. -/
structure Schedule (jobs : List (ℚ × ℚ)) (ran : Fin jobs.length → ℚ → ℚ) : Prop where
  arrival : ∀ k, ran k (jobs.get k).1 = 0
  mono : ∀ k t t', t ≤ t' → ran k t ≤ ran k t'
  most : ∀ k t, ran k t ≤ (jobs.get k).2
  one : ∀ t t', t ≤ t' → ∑ k, (ran k t' - ran k t) ≤ t' - t

/-- The last call was `scheduler_quantum_expired`. -/
def asked (log : List (Act J × Option J)) : Bool :=
  match log.getLast? with
  | some (.quantumExpired _ _, _) => true
  | _ => false

/-- While there are jobs time passes only when the scheduler has just been asked for one, and a
    job does not run for longer than its running time. -/
def Prompt (x : St J × List (Act J × Option J)) (a : Act J) : Prop :=
  (a.time = (account x.2).now ∨ asked x.2 = true ∨ x.1.pqueue = [] ∧ (account x.2).running = none) ∧
    ((account x.2).running.all fun j =>
      decide ((account x.2).executed j + (a.time - (account x.2).now) ≤ (account x.2).length j)) = true

instance decidablePrompt (x : St J × List (Act J × Option J)) (a : Act J) : Decidable (Prompt x a) :=
  inferInstanceAs (Decidable (_ ∧ _))

def Account.rest (h : Account J) (j : J) : ℚ := h.length j - h.executed j

def Account.arrival (h : Account J) (j : J) : ℚ := ((h.unfinished j).map Submission.arrival).getD 0

def firstJobs (N n : Nat) : Finset (Fin N) := Finset.univ.filter fun k => k.val < n

variable {s s' : St J} {h : Account J} {j : J} {time : ℚ} {log : List (Act J × Option J)} {poll : Poll (J × JobInfo)}
  {jobs : List (ℚ × ℚ)} {ran : Fin jobs.length → ℚ → ℚ} {done : Fin jobs.length → ℚ} {n : Nat}

theorem firstJobs_zero (N : Nat) : firstJobs N 0 = ∅ := by
  simp [firstJobs]

theorem firstJobs_succ {N n : Nat} (hn : n < N) : firstJobs N (n + 1) = insert ⟨n, hn⟩ (firstJobs N n) := by
  ext k
  simp only [firstJobs, Finset.mem_filter, Finset.mem_univ, true_and, Finset.mem_insert, Fin.ext_iff]
  omega

theorem firstJobs_new {N n : Nat} (hn : n < N) : (⟨n, hn⟩ : Fin N) ∉ firstJobs N n := by
  simp [firstJobs]

theorem firstJobs_all (N : Nat) : firstJobs N N = Finset.univ := by
  ext k
  simp [firstJobs]

/-- The first `n` jobs of `jobs` have been submitted; no more of them are left than in the other
    schedule, and they have waited no longer so far. -/
structure Leads (jobs : List (ℚ × ℚ)) (ran : Fin jobs.length → ℚ → ℚ) (done : Fin jobs.length → ℚ) (s : St J)
    (h : Account J) (n : Nat) : Prop where
  ahead : Ahead ((active s h).map h.rest : Multiset ℚ) (firstJobs jobs.length n) fun k => (jobs.get k).2 - ran k h.now
  late : (h.finished.map Finished.turnaround).sum + ((active s h).map fun j => h.now - h.arrival j).sum ≤
    ∑ k ∈ firstJobs jobs.length n, (min (done k) h.now - (jobs.get k).1)
  lengths : (h.finished.map Finished.ran ++ (active s h).map h.length).Perm ((jobs.take n).map Prod.snd)
  left : ∀ j ∈ active s h, 0 ≤ h.rest j

structure Led (h : Account J) : Prop where
  idle : h.running = none → ∀ j, h.unfinished j = none
  least : ∀ m, h.running = some m → LeastJob .psrtf h m

theorem pass_now (h : Account J) : h.pass h.now = h := by
  unfold Account.pass
  simp

omit [DecidableEq J] in
theorem Led.rest_le (hl : Led h) {m : J} (hm : h.running = some m) (hj : h.unfinished j ≠ none) :
    h.rest m ≤ h.rest j := by
  obtain ⟨x, hx, hleast⟩ := hl.least m hm
  obtain ⟨y, hy⟩ := Option.ne_none_iff_exists'.mp hj
  have hle := (Prod.Lex.toLex_le_toLex.mp (hleast j y hy)).elim le_of_lt fun h => le_of_eq h.1
  simpa [Account.rest, Account.length, hx, hy] using hle

/-- The jobs with something left, before and after the running one has run. -/
theorem Inv.rest_pass (hi : Inv s h) {m : J} (hm : h.running = some m) (time : ℚ) :
    ((active s h).map (h.pass time).rest : Multiset ℚ) =
      (h.rest m - (time - h.now)) ::ₘ (s.pqueue.map h.rest : Multiset ℚ) := by
  have hqueue : s.pqueue.map (h.pass time).rest = s.pqueue.map h.rest := by
    apply List.map_congr_left
    intro j hj
    show h.length j - (h.pass time).executed j = _
    rw [show (h.pass time).executed j = h.executed j from if_neg ((hi.mem j).mp hj).2]
    rfl
  have hrun : (h.pass time).rest m = h.rest m - (time - h.now) := by
    show h.length m - (h.pass time).executed m = h.length m - h.executed m - (time - h.now)
    rw [show (h.pass time).executed m = h.executed m + (time - h.now) from if_pos hm]
    ring
  unfold active
  rw [hm, List.map_append, hqueue, Option.toList_some, List.map_singleton, hrun, Multiset.cons_coe]
  exact Multiset.coe_eq_coe.mpr (List.perm_append_singleton _ _)

/-- Time passes: the job with the least left runs. -/
theorem Leads.ahead_pass (hl : Leads jobs ran done s h n) (hi : Inv s h) (hled : Led h) (hs : Schedule jobs ran) {m : J}
    (hm : h.running = some m) (hle : h.now ≤ time) :
    Ahead ((active s h).map (h.pass time).rest : Multiset ℚ) (firstJobs jobs.length n)
      fun k => (jobs.get k).2 - ran k time := by
  have hnow := hi.rest_pass hm h.now
  rw [pass_now, sub_self, sub_zero] at hnow
  have hahead := hl.ahead
  rw [hnow] at hahead
  rw [hi.rest_pass hm time]
  refine hahead.work ?_ ?_ ?_ ?_
  · intro x hx
    obtain ⟨j, hj, rfl⟩ := List.mem_map.mp (Multiset.mem_coe.mp hx)
    exact hled.rest_le hm ((hi.mem j).mp hj).1
  · intro k _
    exact sub_le_sub_left (hs.mono k _ _ hle) _
  · intro k _
    exact sub_nonneg.mpr (hs.most k time)
  · calc ∑ k ∈ firstJobs jobs.length n, ((jobs.get k).2 - ran k h.now - ((jobs.get k).2 - ran k time))
        = ∑ k ∈ firstJobs jobs.length n, (ran k time - ran k h.now) := by
          apply Finset.sum_congr rfl
          intro k _
          ring
      _ ≤ ∑ k, (ran k time - ran k h.now) :=
          Finset.sum_le_sum_of_subset_of_nonneg (Finset.subset_univ _) fun k _ _ => sub_nonneg.mpr (hs.mono k _ _ hle)
      _ ≤ time - h.now := hs.one _ _ hle

/-- The other schedule has these jobs done by these times, and not before they come. -/
def DoneBy (jobs : List (ℚ × ℚ)) (ran : Fin jobs.length → ℚ → ℚ) (done : Fin jobs.length → ℚ) : Prop :=
  ∀ k, (jobs.get k).1 ≤ done k ∧ ran k (done k) = (jobs.get k).2

/-- While the running job runs, as many of the other schedule's jobs are not done as there are here. -/
theorem Leads.waits (hl : Leads jobs ran done s h n) (hi : Inv s h) (hled : Led h) (hs : Schedule jobs ran)
    (hd : DoneBy jobs ran done) {m : J} (hm : h.running = some m) (hlt : h.now < time)
    (hover : time - h.now ≤ h.rest m) :
    (active s h).length ≤ ((firstJobs jobs.length n).filter fun k => time ≤ done k).card := by
  -- the last moment at which one of them is done before `time`
  obtain ⟨t, hge, hbefore, hlast⟩ : ∃ t, h.now ≤ t ∧ t < time ∧
      ∀ k ∈ firstJobs jobs.length n, done k < time → done k ≤ t := by
    let B := insert h.now (((firstJobs jobs.length n).image done).filter (· < time))
    have hne : B.Nonempty := ⟨h.now, Finset.mem_insert_self _ _⟩
    refine ⟨B.max' hne, B.le_max' _ (Finset.mem_insert_self _ _), ?_, ?_⟩
    · rcases Finset.mem_insert.mp (B.max'_mem hne) with he | hmem
      · rw [he]
        exact hlt
      · exact (Finset.mem_filter.mp hmem).2
    · intro k hk hlate
      refine B.le_max' _ (Finset.mem_insert_of_mem (Finset.mem_filter.mpr ⟨?_, hlate⟩))
      exact Finset.mem_image_of_mem done hk
  have hahead := hl.ahead_pass hi hled hs hm hge
  have hpos : ∀ x ∈ ((active s h).map (h.pass t).rest : Multiset ℚ), 0 < x := by
    intro x hx
    rw [hi.rest_pass hm t] at hx
    rcases Multiset.mem_cons.mp hx with rfl | hx
    · linarith
    · obtain ⟨j, hj, rfl⟩ := List.mem_map.mp (Multiset.mem_coe.mp hx)
      have hle := hled.rest_le hm ((hi.mem j).mp hj).1
      linarith
  have hcount := hahead.count (fun x hx => (hpos x hx).le) (Finset.filter_subset (fun k => time ≤ done k) _) ?_
  · rw [Multiset.filter_eq_self.mpr hpos, Multiset.coe_card, List.length_map] at hcount
    exact hcount
  · intro k hk hnot
    have hlate : done k < time := by
      by_contra hge'
      exact hnot (Finset.mem_filter.mpr ⟨hk, not_lt.mp hge'⟩)
    have hran := hs.mono k _ _ (hlast k hk hlate)
    rw [(hd k).2] at hran
    exact sub_eq_zero.mpr (le_antisymm hran (hs.most k t))

omit [DecidableEq J] in
theorem sum_since (l : List J) (f : J → ℚ) (t t' : ℚ) :
    (l.map fun j => t' - f j).sum = (l.map fun j => t - f j).sum + l.length • (t' - t) := by
  induction l with
  | nil => simp
  | cons j l ih =>
    rw [List.map_cons, List.sum_cons, ih, List.map_cons, List.sum_cons, List.length_cons, succ_nsmul]
    ring

/-- For as long as the other schedule's jobs wait more. -/
theorem waited_split (done a : Fin jobs.length → ℚ) (K : Finset (Fin jobs.length)) (t t' : ℚ) :
    ∑ k ∈ K, (min (done k) t' - a k) =
      ∑ k ∈ K, (min (done k) t - a k) + ∑ k ∈ K, (min (done k) t' - min (done k) t) := by
  rw [← Finset.sum_add_distrib]
  apply Finset.sum_congr rfl
  intro k _
  ring

theorem Leads.pass_idle (hl : Leads jobs ran done s h n) (hs : Schedule jobs ran) (hle : h.now ≤ time)
    (hnil : active s h = []) : Leads jobs ran done s (h.pass time) n := by
  have hnone : active s (h.pass time) = [] := hnil
  refine ⟨?_, ?_, hl.lengths, ?_⟩
  · rw [hnone]
    exact .idle fun k _ => sub_nonneg.mpr (hs.most k time)
  · have hlate := hl.late
    rw [hnil, List.map_nil] at hlate
    rw [hnone, List.map_nil]
    refine le_trans hlate (Finset.sum_le_sum ?_)
    intro k _
    exact sub_le_sub_right (min_le_min_left _ hle) _
  · intro j hj
    rw [hnone] at hj
    cases hj

theorem Leads.pass_run (hl : Leads jobs ran done s h n) (hi : Inv s h) (hled : Led h) (hs : Schedule jobs ran)
    (hd : DoneBy jobs ran done) {m : J} (hm : h.running = some m) (hlt : h.now < time)
    (hover : time - h.now ≤ h.rest m) : Leads jobs ran done s (h.pass time) n := by
  refine ⟨hl.ahead_pass hi hled hs hm hlt.le, ?_, hl.lengths, ?_⟩
  · have hmore := waited_le (c := done) hlt.le (Finset.filter_subset (fun k => time ≤ done k) _)
      (fun k hk => (Finset.mem_filter.mp hk).2) (hl.waits hi hled hs hd hm hlt hover)
    show (h.finished.map Finished.turnaround).sum + ((active s h).map fun j => time - h.arrival j).sum ≤
      ∑ k ∈ firstJobs jobs.length n, (min (done k) time - (jobs.get k).1)
    rw [sum_since _ _ h.now time, ← add_assoc, waited_split done _ _ h.now time]
    exact add_le_add hl.late hmore
  · intro j hj
    have hmem : (h.pass time).rest j ∈ ((active s h).map (h.pass time).rest : Multiset ℚ) :=
      Multiset.mem_coe.mpr (List.mem_map_of_mem hj)
    rw [hi.rest_pass hm time] at hmem
    rcases Multiset.mem_cons.mp hmem with he | hmem
    · rw [he]
      linarith
    · obtain ⟨j', hj', he⟩ := List.mem_map.mp (Multiset.mem_coe.mp hmem)
      rw [← he]
      exact hl.left j' (List.mem_append_left _ hj')

theorem Leads.pass (hl : Leads jobs ran done s h n) (hi : Inv s h) (hs : Schedule jobs ran)
    (hd : DoneBy jobs ran done) (hle : h.now ≤ time) (hasked : time = h.now ∨ Led h ∨ active s h = [])
    (hover : ∀ m, h.running = some m → time - h.now ≤ h.rest m) : Leads jobs ran done s (h.pass time) n := by
  by_cases hsame : time = h.now
  · rw [hsame, pass_now]
    exact hl
  rcases hasked.resolve_left hsame with hled | hnil
  · cases hr : h.running with
    | none =>
      refine hl.pass_idle hs hle (List.eq_nil_iff_forall_not_mem.mpr ?_)
      intro j hj
      exact hi.active_unfinished hj (hled.idle hr j)
    | some m => exact hl.pass_run hi hled hs hd hr (lt_of_le_of_ne hle (Ne.symm hsame)) (hover m hr)
  · exact hl.pass_idle hs hle hnil

/-! ## The calls -/

/-- A job comes, the next one of `jobs`. -/
theorem Leads.newJob (hl : Leads jobs ran done s h n) (hi : Inv s h) (hs : Schedule jobs ran)
    (hd : DoneBy jobs ran done) (hnew : h.unfinished j = none) (number : Int) (schedData : SchedulerInfo)
    (hjob : jobs[n]? = some (h.now, schedData.runningTime)) :
    Leads jobs ran done (schedulerNewJob s j number h.now schedData) (h.submit j schedData) (n + 1) := by
  obtain ⟨hn, hget⟩ := List.getElem?_eq_some_iff.mp hjob
  have hat : jobs.get ⟨n, hn⟩ = (h.now, schedData.runningTime) := hget
  have hne : ∀ k ∈ active s h, k ≠ j := by
    intro k hk e
    exact hi.active_unfinished hk (e ▸ hnew)
  have hactive : (active (schedulerNewJob s j number h.now schedData) (h.submit j schedData)).Perm
      (j :: active s h) := by
    show ((s.pqueue ++ [j]) ++ h.running.toList).Perm (j :: (s.pqueue ++ h.running.toList))
    rw [List.append_assoc]
    exact List.perm_middle
  have hsame : ∀ k ∈ active s h, (h.submit j schedData).unfinished k = h.unfinished k ∧
      (h.submit j schedData).executed k = h.executed k := by
    intro k hk
    exact ⟨Function.update_of_ne (hne k hk) .., Function.update_of_ne (hne k hk) ..⟩
  have hlen : (h.submit j schedData).length j = schedData.runningTime := by
    simp [Account.length, Account.submit]
  have hrest : (h.submit j schedData).rest j = schedData.runningTime := by
    unfold Account.rest
    rw [hlen]
    simp [Account.submit]
  have harrival : (h.submit j schedData).arrival j = h.now := by
    simp [Account.arrival, Account.submit]
  have hran : ran ⟨n, hn⟩ h.now = 0 := by
    have hzero := hs.arrival ⟨n, hn⟩
    rwa [hat] at hzero
  have hmap : ∀ f : Account J → J → ℚ, (∀ k ∈ active s h, f (h.submit j schedData) k = f h k) →
      ((active (schedulerNewJob s j number h.now schedData) (h.submit j schedData)).map (f (h.submit j schedData))).Perm
        (f (h.submit j schedData) j :: (active s h).map (f h)) := by
    intro f hf
    apply (hactive.map _).trans
    rw [List.map_cons, List.map_congr_left hf]
  have hlens := hmap Account.length fun k hk => by
    unfold Account.length
    rw [(hsame k hk).1]
  have hrests := hmap Account.rest fun k hk => by
    unfold Account.rest Account.length
    rw [(hsame k hk).1, (hsame k hk).2]
  have hsince := hmap (fun h k => h.now - h.arrival k) fun k hk => by
    show h.now - _ = h.now - _
    unfold Account.arrival
    rw [(hsame k hk).1]
  refine ⟨?_, ?_, ?_, ?_⟩
  · have hahead := hl.ahead.cons (firstJobs_new hn)
    rw [← firstJobs_succ hn, hat, hran, sub_zero, Multiset.cons_coe] at hahead
    rw [hrest] at hrests
    rw [Multiset.coe_eq_coe.mpr hrests]
    exact hahead
  · have hsum := hsince.sum_eq
    rw [List.sum_cons, harrival] at hsum
    rw [hsum, firstJobs_succ hn, Finset.sum_insert (firstJobs_new hn), hat]
    have hdone : h.now ≤ done ⟨n, hn⟩ := by
      have hge := (hd ⟨n, hn⟩).1
      rwa [hat] at hge
    have hlate := hl.late
    show (h.finished.map Finished.turnaround).sum + (h.now - h.now + _) ≤ min (done ⟨n, hn⟩) h.now - h.now + _
    rw [min_eq_right hdone, sub_self, zero_add, zero_add]
    exact hlate
  · rw [hlen] at hlens
    have htake : jobs.take (n + 1) = jobs.take n ++ [(h.now, schedData.runningTime)] := by
      rw [List.take_add_one, hjob]
      rfl
    rw [htake, List.map_append]
    refine (hlens.append_left _).trans (List.perm_middle.trans ?_)
    exact ((hl.lengths.cons _).trans (List.perm_append_singleton _ _).symm)
  · intro k hk
    rcases List.mem_cons.mp (hactive.mem_iff.mp hk) with rfl | hk
    · rw [hrest]
      have hmost := hs.most ⟨n, hn⟩ h.now
      rwa [hat, hran] at hmost
    · unfold Account.rest Account.length
      rw [(hsame k hk).1, (hsame k hk).2]
      exact hl.left k hk

/-- A job is returned; the same jobs are left. -/
theorem Leads.expired (hl : Leads jobs ran done s h n) {r : Option J} (he : Expired s h s' r) :
    Leads jobs ran done s' (h.returned r) n := by
  have hperm := he.active_perm
  refine ⟨?_, ?_, ((hperm.map _).append_left _).trans hl.lengths, fun j hj => hl.left j (hperm.mem_iff.mp hj)⟩
  · show Ahead ((active s' (h.returned r)).map h.rest : Multiset ℚ) _ _
    rw [Multiset.coe_eq_coe.mpr (hperm.map h.rest)]
    exact hl.ahead
  · show _ + ((active s' (h.returned r)).map fun j => h.now - h.arrival j).sum ≤ _
    rw [(hperm.map fun j => h.now - h.arrival j).sum_eq]
    exact hl.late

/-- The running job finishes, with nothing left. -/
theorem Leads.finish (hl : Leads jobs ran done s h n) (ht : Timed s h) (hi : Inv s h) (hr : h.running = some j)
    (hdone : (h.unfinished j).map Submission.runningTime = some (h.executed j)) (hqueue : s'.pqueue = s.pqueue) :
    Leads jobs ran done s' (h.finish j) n := by
  obtain ⟨f, x, hfin, hx, hturn, hran, hlen⟩ := ht.finish_spec hr hdone
  have hnone : (h.finish j).running = none := if_pos hr
  have hactive : active s h = s.pqueue ++ [j] := by
    unfold active
    rw [hr]
    rfl
  have hactive' : active s' (h.finish j) = s.pqueue := by
    unfold active
    rw [hnone, hqueue]
    exact List.append_nil _
  have hsame : ∀ k ∈ s.pqueue, (h.finish j).unfinished k = h.unfinished k := by
    intro k hk
    have hne : k ≠ j := by
      intro e
      rw [e] at hk
      exact ((hi.mem j).mp hk).2 hr
    exact Function.update_of_ne hne ..
  have hlens : s.pqueue.map (h.finish j).length = s.pqueue.map h.length := by
    apply List.map_congr_left
    intro k hk
    unfold Account.length
    rw [hsame k hk]
  have hrests : ∀ k ∈ s.pqueue, (h.finish j).rest k = h.rest k := by
    intro k hk
    unfold Account.rest Account.length
    rw [hsame k hk]
    rfl
  have hrest : h.rest j = 0 := by
    unfold Account.rest
    rw [hlen, sub_self]
  refine ⟨?_, ?_, ?_, ?_⟩
  · have hahead := hl.ahead
    rw [hactive, List.map_append, List.map_singleton, hrest] at hahead
    rw [hactive', List.map_congr_left hrests]
    apply Ahead.finish
    rw [Multiset.cons_coe, ← Multiset.coe_eq_coe.mpr (List.perm_append_singleton (0 : ℚ) (s.pqueue.map h.rest))]
    exact hahead
  · have hlate := hl.late
    have harrival : h.arrival j = x.arrival := by
      simp [Account.arrival, hx]
    rw [hactive, List.map_append, List.sum_append, List.map_singleton, List.sum_singleton, harrival] at hlate
    rw [hactive', hfin, List.map_append, List.sum_append, List.map_singleton, List.sum_singleton, hturn]
    have hsince : s.pqueue.map (fun k => (h.finish j).now - (h.finish j).arrival k) =
        s.pqueue.map fun k => h.now - h.arrival k := by
      apply List.map_congr_left
      intro k hk
      show h.now - _ = h.now - _
      unfold Account.arrival
      rw [hsame k hk]
    rw [hsince]
    show _ ≤ ∑ k ∈ firstJobs jobs.length n, (min (done k) h.now - (jobs.get k).1)
    linarith
  · have hlengths := hl.lengths
    rw [hactive, List.map_append, List.map_singleton, hlen] at hlengths
    rw [hactive', hlens, hfin, List.map_append, List.map_singleton, hran, List.append_assoc]
    refine List.Perm.trans ?_ hlengths
    exact List.perm_append_comm.append_left _
  · intro k hk
    rw [hactive'] at hk
    rw [hrests k hk]
    exact hl.left k (List.mem_append_left _ hk)

/-! ## Runs -/

omit [DecidableEq J] in
theorem asked_append (log : List (Act J × Option J)) (a : Act J) (r : Option J) :
    asked (log ++ [(a, r)]) = match a with
      | .quantumExpired _ _ => true
      | _ => false := by
  unfold asked
  rw [List.getLast?_concat]
  cases a <;> rfl

omit [DecidableEq J] in
theorem arrivals_append (log : List (Act J × Option J)) (y : Act J × Option J) :
    arrivals (log ++ [y]) = arrivals log ++ arrivals [y] := List.filterMap_append

/-- The job that is returned has the least left. -/
theorem Expired.led (hi : Inv s h) (hs : s.pqueueScheme = .psrtf) {r : Option J} (he : Expired s h s' r) :
    Led (h.returned r) := by
  obtain ⟨hnone, hleast⟩ := he.chosen hi hs (by simp)
  refine ⟨hnone.mp, ?_⟩
  intro m hm
  have hl := hleast m hm
  rw [if_pos (Or.inl (show Scheme.psrtf.preemptive = true from rfl))] at hl
  exact hl

theorem Leads.step (hp : Polls poll) (hl : Leads jobs ran done s (account log) (arrivals log).length)
    (hled : asked log = true → Led (account log)) (ht : Timed s (account log)) (hi : Inv s (account log))
    (hscheme : s.pqueueScheme = .psrtf) (hs : Schedule jobs ran) (hd : DoneBy jobs ran done) {a : Act J} {r : Option J}
    (ha : FollowsTimed (s, log) a) (hprompt : Prompt (s, log) a) (hstep : step poll s a = some (s', r))
    (hjobs : arrivals (log ++ [(a, r)]) <+: jobs) :
    Leads jobs ran done s' (account (log ++ [(a, r)])) (arrivals (log ++ [(a, r)])).length ∧
      (asked (log ++ [(a, r)]) = true → Led (account (log ++ [(a, r)]))) := by
  have hpass : Leads jobs ran done s ((account log).pass a.time) (arrivals log).length := by
    refine hl.pass hi hs hd ha.le ?_ ?_
    · rcases hprompt.1 with hsame | hasked | ⟨hqueue, hr⟩
      · exact Or.inl hsame
      · exact Or.inr (Or.inl (hled hasked))
      · refine Or.inr (Or.inr ?_)
        unfold active
        rw [show s.pqueue = [] from hqueue, hr]
        rfl
    · intro m hm
      have hover := hprompt.2
      rw [hm] at hover
      have hle : (account log).executed m + (a.time - (account log).now) ≤ (account log).length m :=
        of_decide_eq_true hover
      unfold Account.rest
      linarith
  have hipass := hi.pass a.time
  rw [asked_append, arrivals_append, List.length_append, account_append]
  cases a with
  | newJob newjob jobNumber time schedData =>
    cases hstep
    refine ⟨hpass.newJob hipass hs hd ha.1.2 jobNumber schedData ?_, fun hf => by cases hf⟩
    rw [arrivals_append] at hjobs
    obtain ⟨rest, rfl⟩ := hjobs
    rw [List.append_assoc, List.getElem?_append_right (Nat.le_refl _), Nat.sub_self]
    rfl
  | quantumExpired jobEvicted time =>
    have hexp := expired_of_step hp hi ha.1 hstep
    exact ⟨hpass.expired hexp, fun _ => hexp.led hipass hscheme⟩
  | jobFinished jobDone time =>
    obtain ⟨v, hv, he⟩ := Option.map_eq_some_iff.mp hstep
    cases he
    refine ⟨hpass.finish (ht.pass ha.le) hipass ha.1.2 ha.2.2 (jobFinished_queue hv).1, fun hf => by cases hf⟩

theorem leads_of_via (hp : Polls poll)
    (hv : (sys poll .psrtf).Via (fun x a => FollowsTimed x a ∧ Prompt x a) (s, log)) (hs : Schedule jobs ran)
    (hd : DoneBy jobs ran done) (hjobs : arrivals log <+: jobs) :
    Leads jobs ran done s (account log) (arrivals log).length := by
  have hboth := Run.Sys.Via.inv (M := sys poll .psrtf)
    (I := fun x => (sys poll .psrtf).Via FollowsTimed x ∧ (arrivals x.2 <+: jobs →
      Leads jobs ran done x.1 (account x.2) (arrivals x.2).length ∧ (asked x.2 = true → Led (account x.2)))) ?_ ?_ hv
  · exact (hboth.2 hjobs).1
  · intro x hx
    cases hx
    refine ⟨.init rfl, fun _ => ⟨⟨?_, ?_, .refl _, ?_⟩, fun hf => by cases hf⟩⟩
    · show Ahead 0 (firstJobs jobs.length 0) _
      rw [firstJobs_zero]
      exact .none _
    · show (0 : ℚ) + 0 ≤ ∑ k ∈ firstJobs jobs.length 0, _
      rw [firstJobs_zero, Finset.sum_empty, add_zero]
    · intro j hj
      cases hj
  · intro x a x' ⟨hx, hleads⟩ ⟨ha, hprompt⟩ hstep
    obtain ⟨ht, hi⟩ := timed_of_via hp hx
    refine ⟨.step a hx ha hstep, ?_⟩
    obtain ⟨r, hr, hlog⟩ := Run.logged_some hstep
    rw [hlog]
    intro hjobs
    have hbefore : arrivals x.2 <+: jobs := by
      rw [arrivals_append] at hjobs
      exact List.IsPrefix.trans ⟨_, rfl⟩ hjobs
    obtain ⟨hl, hled⟩ := hleads hbefore
    exact hl.step hp hled ht hi (via_inv hp (hx.mono fun _ _ h => h.1)).2 hs hd ha hprompt hr hjobs

/-- A job of three units, and one of a unit that comes when it has run for one. -/
def shorterComes : List (Act Bool) :=
  [.newJob false 1 1 ⟨3, 1⟩, .quantumExpired none 1, .newJob true 2 2 ⟨1, 1⟩, .quantumExpired (some false) 2,
   .jobFinished true 3, .quantumExpired none 3, .jobFinished false 5]

def untilDone (start length t : ℚ) : ℚ := max 0 (min (t - start) length)

theorem untilDone_mono (start length : ℚ) {t t' : ℚ} (ht : t ≤ t') :
    untilDone start length t ≤ untilDone start length t' :=
  max_le_max_left 0 (min_le_min_right length (sub_le_sub_right ht start))

theorem untilDone_most {length : ℚ} (start t : ℚ) (hl : 0 ≤ length) : untilDone start length t ≤ length :=
  max_le hl (min_le_right _ _)

/-- The one after the other, as they come. -/
theorem inOrder_schedule {jobs : List (ℚ × ℚ)} (hjobs : jobs = [(1, 3), (2, 1)]) :
    Schedule jobs (fun k t => if k.val = 0 then untilDone 1 3 t else untilDone 4 1 t) ∧
      DoneBy jobs (fun k t => if k.val = 0 then untilDone 1 3 t else untilDone 4 1 t)
        (fun k => if k.val = 0 then 4 else 5) := by
  subst hjobs
  refine ⟨⟨?_, ?_, ?_, ?_⟩, ?_⟩
  · intro k
    match k with
    | 0 => simp [untilDone]
    | 1 =>
      simp [untilDone]
      norm_num
  · intro k t t' ht
    match k with
    | 0 | 1 => exact untilDone_mono _ _ ht
  · intro k t
    match k with
    | 0 | 1 => exact untilDone_most _ _ (by norm_num)
  · intro t t' ht
    have hboth : ∀ t, untilDone 1 3 t + untilDone 4 1 t = untilDone 1 4 t := by
      intro t
      unfold untilDone
      grind
    have hle : untilDone 1 4 t' ≤ untilDone 1 4 t + (t' - t) := by
      unfold untilDone
      grind
    rw [← hboth, ← hboth] at hle
    apply le_trans (le_of_eq (Fin.sum_univ_two _))
    show untilDone 1 3 t' - untilDone 1 3 t + (untilDone 4 1 t' - untilDone 4 1 t) ≤ t' - t
    linarith
  · intro k
    match k with
    | 0 | 1 => simp [untilDone]; norm_num

end SysProg.Scheduler
