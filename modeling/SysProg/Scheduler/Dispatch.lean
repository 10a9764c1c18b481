/-
  SysProg.Scheduler.Dispatch — which job is returned (see `SysProg.Scheduler.History`).

  `returns_least_job`: after any calls that follow the protocol, the queue and the running
  job are the unfinished jobs, each once, and `scheduler_quantum_expired` returns NULL
  when there are none. Otherwise it returns the running job, if the scheme is one of FCFS,
  SJF and PRI and there is one, or else a least unfinished job in the order of the scheme;
  PSRTF goes by the time that is really left.
-/

import SysProg.Scheduler.History

namespace SysProg.Scheduler

open SysProg.Lib.PriQueue (Poll Polls pollFirst pollFirst_polls)

variable {J : Type}

/-- What a scheme orders the unfinished jobs by, round robin apart. -/
def Submission.key (x : Submission) (executed : ℚ) : Scheme → ℚ ×ₗ ℚ
  | .fcfs => toLex (x.arrival, 0)
  | .pri => toLex (x.priority, x.arrival)
  | .ppri => toLex (x.priority, x.arrival)
  | .psrtf => toLex (x.runningTime - executed, x.arrival)
  | .sjf => toLex (x.runningTime, x.arrival)
  | .rr => toLex (0, 0)

def LeastJob (scheme : Scheme) (h : Account J) (j : J) : Prop :=
  ∃ x, h.unfinished j = some x ∧
    ∀ k y, h.unfinished k = some y → x.key (h.executed j) scheme ≤ y.key (h.executed k) scheme

def Chosen (scheme : Scheme) (h : Account J) (r : Option J) : Prop :=
  (r = none ↔ ∀ j, h.unfinished j = none) ∧
    ∀ j, r = some j → if scheme.preemptive = true ∨ h.running = none then LeastJob scheme h j else h.running = some j

theorem schemeKey_eq {scheme : Scheme} (hs : scheme ≠ .rr) {i : JobInfo} {x : Submission} {executed : ℚ}
    (hd : Describes i x (x.runningTime - executed)) : schemeKey scheme i = x.key executed scheme := by
  cases scheme with
  | fcfs => simp only [schemeKey, Submission.key, hd.arrival]
  | pri => simp only [schemeKey, Submission.key, hd.arrival, hd.priority]
  | ppri => simp only [schemeKey, Submission.key, hd.arrival, hd.priority]
  | psrtf => simp only [schemeKey, Submission.key, hd.arrival, hd.remaining]
  | sjf => simp only [schemeKey, Submission.key, hd.arrival, hd.runningTime]
  | rr => exact absurd rfl hs

variable [DecidableEq J] {s s' : St J} {h : Account J} {j : J} {scheme : Scheme}

/-- The job polled is a least one of all unfinished jobs. -/
theorem Started.leastJob (hi : Inv s h) (hr : h.running = none) (hs : s.pqueueScheme = scheme) (hrr : scheme ≠ .rr)
    {i : JobInfo} {l l' : List J} (hst : Started s h.now s' j i l l') : LeastJob scheme h j := by
  have hidle : ∀ k, h.running ≠ some k := by
    intro k
    rw [hr]
    simp
  have hj : j ∈ s.pqueue := by
    rw [hst.queue]
    simp
  rcases Option.ne_none_iff_exists'.mp ((hi.mem j).mp hj).1 with ⟨x, hx⟩
  refine ⟨x, hx, ?_⟩
  intro k y hy
  rcases hi.info j x hx with ⟨i₁, hm₁, hd₁⟩
  rcases hi.info k y hy with ⟨i₂, hm₂, hd₂⟩
  rw [hst.info] at hm₁
  cases hm₁
  rw [Account.known_queued (hidle j)] at hd₁
  rw [Account.known_queued (hidle k)] at hd₂
  have hk : k ∈ s.pqueue := (hi.mem k).mpr ⟨by rw [hy]; simp, hidle k⟩
  have hle := hst.least k hk i₂ hm₂
  rw [hs, schemeKey_eq hrr hd₁, schemeKey_eq hrr hd₂] at hle
  exact hle

omit [DecidableEq J] in
theorem LeastJob.unfinished (hl : LeastJob scheme h j) : h.unfinished j ≠ none := by
  rcases hl with ⟨x, hx, -⟩
  rw [hx]
  simp

omit [DecidableEq J] in
theorem chosen_some (hu : h.unfinished j ≠ none)
    (hl : if scheme.preemptive = true ∨ h.running = none then LeastJob scheme h j else h.running = some j) :
    Chosen scheme h (some j) := by
  refine ⟨⟨by simp, fun hnone => absurd (hnone j) hu⟩, ?_⟩
  intro k hk
  cases hk
  exact hl

theorem Expired.chosen (hi : Inv s h) (hs : s.pqueueScheme = scheme) (hrr : scheme ≠ .rr) {r : Option J}
    (he : Expired s h s' r) : Chosen scheme h r := by
  cases he with
  | kept hk =>
    cases hr : h.running with
    | none =>
      rcases hk with hq | ⟨hne, -⟩
      · refine ⟨iff_of_true rfl ?_, by simp⟩
        intro j
        by_contra hu
        have hj := (hi.mem j).mpr ⟨hu, by rw [hr]; simp⟩
        rw [hq] at hj
        cases hj
      · exact absurd hr hne
    | some j =>
      have hu := hi.running j hr
      apply chosen_some hu
      rw [hr]
      split
      · rename_i hpre
        -- the queue is empty, so there is no other unfinished job
        rcases hk with hq | ⟨-, hno⟩
        · rcases Option.ne_none_iff_exists'.mp hu with ⟨x, hx⟩
          refine ⟨x, hx, ?_⟩
          intro k y hy
          have hkj : k = j := by
            by_contra e
            have hk : k ∈ s.pqueue := by
              refine (hi.mem k).mpr ⟨by rw [hy]; simp, ?_⟩
              rw [hr]
              intro h
              exact e (Option.some.inj h).symm
            rw [hq] at hk
            cases hk
          rw [hkj] at hy ⊢
          rw [hx] at hy
          cases hy
          exact le_refl _
        · rw [hs] at hno
          rw [hno] at hpre
          simp at hpre
      · rfl
  | idle hr hst =>
    have hl := hst.leastJob hi hr hs hrr
    apply chosen_some hl.unfinished
    rw [if_pos (Or.inr hr)]
    exact hl
  | @evicted _ e j info i l l' hr hq hm hpre hst =>
    have hl : LeastJob scheme { h with running := none } j :=
      hst.leastJob (hi.offerEvicted hr hm) rfl hs hrr
    have hl : LeastJob scheme h j := hl
    apply chosen_some hl.unfinished
    rw [if_pos (Or.inl (hs ▸ hpre))]
    exact hl

variable {poll : Poll (J × JobInfo)}

theorem returns_least_job (hp : Polls poll) (hrr : scheme ≠ .rr) {log : List (Act J × Option J)}
    (hv : (sys poll scheme).Via Follows (s, log)) :
    (∀ j, s.pqueue.count j + (if (account log).running = some j then 1 else 0) =
      if (account log).unfinished j = none then 0 else 1) ∧
    ∀ jobEvicted time, Follows (s, log) (.quantumExpired jobEvicted time) →
      ∃ s' r, schedulerQuantumExpired poll s jobEvicted time = some (s', r) ∧
        Chosen scheme ((account log).pass time) r := by
  rcases via_inv hp hv with ⟨hi, hs⟩
  refine ⟨hi.count, ?_⟩
  intro jobEvicted time hf
  have he : jobEvicted = (account log).running := hf.2
  have hpass := hi.pass time
  rcases quantumExpired_spec hp hpass with ⟨s', r, hexp, hspec⟩
  refine ⟨s', r, ?_, hspec.chosen hpass hs hrr⟩
  rw [he]
  exact hexp

/-- A job with ten units left is evicted for one with three. -/
theorem returns_least_job_shorter : ∃ s log, (sys (J := Bool) pollFirst .psrtf).Via Follows (s, log) ∧
    ∃ s', schedulerQuantumExpired pollFirst s (some false) 1 = some (s', some true) ∧
      LeastJob .psrtf ((account log).pass 1) true := by
  have hrun : (Run.exec (Run.guard Follows (Run.logged (step (J := Bool) pollFirst))) (schedulerStartUp .psrtf, [])
      [.newJob false 1 0 ⟨10, 1⟩, .quantumExpired none 0, .newJob true 2 1 ⟨3, 1⟩]).map
        (fun x => ((schedulerQuantumExpired pollFirst x.1 (some false) 1).map Prod.snd,
          decide (Follows x (.quantumExpired (some false) 1)))) = some (some (some true), true) := by
    decide +kernel
  rcases Option.map_eq_some_iff.mp hrun with ⟨⟨s, log⟩, hexec, he⟩
  have h0 : (sys (J := Bool) pollFirst .psrtf).Via Follows (schedulerStartUp .psrtf, []) := .init rfl
  have hv := Run.via_guard h0 hexec
  rcases Prod.mk.inj he with ⟨hret, hf⟩
  rcases (returns_least_job pollFirst_polls (by decide) hv).2 (some false) 1 (of_decide_eq_true hf) with
    ⟨s', r, hs, -, hchosen⟩
  have hr : r = some true := by
    rw [hs] at hret
    exact Option.some.inj hret
  rw [hr] at hs
  have hl := hchosen true hr
  have hpre : Scheme.psrtf.preemptive = true := rfl
  rw [if_pos (Or.inl hpre)] at hl
  exact ⟨s, log, hv, s', hs, hl⟩

end SysProg.Scheduler
