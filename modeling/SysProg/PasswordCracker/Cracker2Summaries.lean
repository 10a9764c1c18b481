/-
  SysProg.PasswordCracker.Cracker2Summaries — one summary for each user (see
  `SysProg.PasswordCracker.Cracker2`).

  When the last worker comes to the barrier again, the summary has been printed, for it
  has passed the section, and the next round begins (`Second.last`). Some worker can
  always go on: one at the queue finds an entry, and not all can be at the barrier. Each
  step leaves less to do (`cost`), so the rounds come to an end.

  Main result: `users_summarised`. A word that does not fit its block is
  `a_long_name_overruns_the_stack`.
-/

import SysProg.PasswordCracker.Cracker2Rounds

namespace SysProg.PasswordCracker.Cracker2

open Function (update)

variable {U : Utils} {completions : Nat → List Text} {n : Nat} {s s' : St n} {t : Fin n} {users : List User} {k : Nat}
  {u : User} {d : Data} {tmp : Text} {left : Nat} {p : Pc}

/-! ## The second half -/

/-- A worker that does not come to the barrier. -/
theorem Second.goes (hs : Second U completions users k u s) (hat : AtSecond k p)
    (hwaits : p.waitsAgain = (s.pc t).waitsAgain) (hdata : ∀ d, p.data = some d → (s.pc t).data = some d)
    (hsaid : s.complete = true ∨ p ≠ .arriveAgain ∧ ∀ gen, p ≠ .waitAgain gen) :
    Second U completions users k u (s.goto t p) where
  user := hs.user
  at_ := all_update hs.at_ hat
  gen := hs.gen
  count := hs.count.trans (Threads.sum_update_eq Pc.waitsAgain s.pc hwaits).symm
  room := hs.room
  queue := hs.queue
  data v d hd := by
    unfold St.goto at hd
    dsimp only at hd
    by_cases hv : v = t
    · subst hv
      rw [Function.update_self] at hd
      exact hs.data v d (hdata d hd)
    · rw [Function.update_of_ne hv] at hd
      exact hs.data v d hd
  reports := hs.reports
  later := hs.later
  started := hs.started
  unsaid hc := by
    have hun := hs.unsaid hc
    rcases hsaid with h | h
    · exact absurd (h.symm.trans hc) (by simp)
    · exact ⟨hun.named, hun.clear, hun.hashCount, ⟨hun.told.length, hun.told.each⟩,
        all_update (C := fun p => p ≠ .arriveAgain ∧ ∀ gen, p ≠ .waitAgain gen) hun.before h⟩
  said hc := by
    have hsd := hs.said hc
    exact ⟨hsd.found, hsd.hashCount, ⟨hsd.told.length, hsd.told.each⟩⟩

/-- The first worker in the section prints the summary. -/
theorem Second.tell (hs : Second U completions users k u s) (hpc : s.pc t = .summary d)
    (hcomplete : s.complete = false) :
    Second U completions users k u { s with
      summaries := s.summaries ++ [⟨d.user.username, s.password, s.hashCount, if s.found then 0 else 1⟩]
      complete := true
      hashCount := 0
      found := false
      pc := update s.pc t .arriveAgain } := by
  have hun := hs.unsaid hcomplete
  rcases hs.data t d (by rw [hpc]; rfl) with ⟨-, hd⟩
  have hwaits : Pc.waitsAgain .arriveAgain = (s.pc t).waitsAgain := by rw [hpc]; rfl
  have hnone : ∀ d', Pc.data .arriveAgain = some d' → (s.pc t).data = some d' := by
    intro d' hd'
    cases hd'
  have htells : Tells U completions s.results k u
      ⟨d.user.username, s.password, s.hashCount, if s.found then 0 else 1⟩ := by
    refine ⟨by rw [hd], ?_, ?_, hs.reports, hun.hashCount⟩
    · cases hfound : s.found with
      | true =>
        rcases hun.named hfound with ⟨c, hc, e, hcrypt⟩
        exact ⟨fun _ => ⟨c, hc, e ▸ hcrypt⟩, fun _ => rfl⟩
      | false => exact ⟨fun h => absurd h (by simp), fun h => absurd h (hun.clear hfound)⟩
    · intro h
      cases hfound : s.found with
      | true => exact hun.named hfound
      | false =>
        rw [hfound] at h
        cases h
  refine ⟨hs.user, all_update hs.at_ trivial, hs.gen, ?_, hs.room, hs.queue, ?_, hs.reports, hs.later, hs.started,
    ?_, ?_⟩
  · exact hs.count.trans (Threads.sum_update_eq Pc.waitsAgain s.pc hwaits).symm
  · intro v d' hd'
    dsimp only at hd'
    by_cases hv : v = t
    · subst hv
      rw [Function.update_self] at hd'
      exact hs.data v d' (hnone d' hd')
    · rw [Function.update_of_ne hv] at hd'
      exact hs.data v d' hd'
  · intro hc
    cases hc
  · intro _
    exact ⟨rfl, rfl, hun.told.append hs.user htells rfl rfl⟩

/-- A worker is past the section, so the summary has been printed. -/
theorem Second.said_of_past (hs : Second U completions users k u s) (hpc : s.pc t = .arriveAgain) :
    s.complete = true := by
  by_contra hc
  exact ((hs.unsaid (Bool.not_eq_true _ ▸ hc)).before t).1 hpc

/-- Not the last to come. -/
theorem Second.arrive (hs : Second U completions users k u s) (hpc : s.pc t = .arriveAgain)
    (hlast : s.barrier.count + 1 ≠ n) :
    Second U completions users k u
      { s with barrier := s.barrier.arrive n, pc := update s.pc t (.waitAgain s.barrier.gen) } := by
  have hcomplete := hs.said_of_past hpc
  have hbarrier : s.barrier.arrive n = ⟨s.barrier.count + 1, s.barrier.gen⟩ := if_neg hlast
  have hwaits := Threads.sum_update Pc.waitsAgain s.pc t (.waitAgain s.barrier.gen)
  rw [hpc] at hwaits
  have hwaits : ∑ v, (update s.pc t (.waitAgain s.barrier.gen) v).waitsAgain =
      ∑ v, (s.pc v).waitsAgain + 1 := hwaits
  have hroom := hs.room
  have hsaid := hs.said hcomplete
  refine ⟨hs.user, all_update hs.at_ hs.gen, ?_, ?_, ?_, hs.queue, data_update hs.data (by rw [hpc]; rfl), hs.reports,
    hs.later, hs.started, ?_, fun _ => ⟨hsaid.found, hsaid.hashCount, ⟨hsaid.told.length, hsaid.told.each⟩⟩⟩
  · rw [hbarrier]
    exact hs.gen
  · rw [hbarrier, hwaits, hs.count]
  · rw [hbarrier]
    dsimp only
    omega
  · intro hc
    exact absurd (hcomplete.symm.trans hc) (by simp)

/-- The round is over when the last worker comes to the barrier again. -/
theorem Second.last (hs : Second U completions users k u s) (hpc : s.pc t = .arriveAgain)
    (hlast : s.barrier.count + 1 = n) :
    First U completions users (k + 1)
      { s with barrier := s.barrier.arrive n, pc := update s.pc t (.waitAgain s.barrier.gen) } := by
  have hn : 0 < n := by omega
  have hcomplete := hs.said_of_past hpc
  have hsaid := hs.said hcomplete
  have hbarrier : s.barrier.arrive n = ⟨0, s.barrier.gen + 1⟩ := if_pos hlast
  have hall := all_wait (t := t) (p := .waitAgain s.barrier.gen) Pc.waitsAgain_le hs.count hlast (by rw [hpc]; rfl) rfl
  have hzero : ∀ f : Pc → Nat, (∀ gen, f (.waitAgain gen) = 0) →
      ∑ v, f (update s.pc t (.waitAgain s.barrier.gen) v) = 0 := by
    intro f h
    apply Finset.sum_eq_zero
    intro v _
    rcases Pc.of_waitsAgain (hall v) with ⟨gen, e⟩
    rw [e, h]
  have hnew : ∀ r ∈ s.results, r.line ≠ k + 1 := by
    intro r hr
    have hle := hs.later r hr
    omega
  constructor
  · refine ⟨?_, ?_, ?_, ?_, ?_, ?_, ?_, ?_, ?_⟩
    · intro v
      have hat := all_update hs.at_ (t := t) (p := .waitAgain s.barrier.gen) hs.gen v
      rcases Pc.of_waitsAgain (hall v) with ⟨gen, e⟩
      dsimp only
      rw [e] at hat ⊢
      show gen + 1 = 2 * (k + 1)
      unfold AtSecond at hat
      omega
    · rw [hbarrier, hs.gen]
      rfl
    · rw [hbarrier]
      exact (hzero Pc.waits fun _ => rfl).symm
    · rw [hbarrier]
      exact hn
    · exact (List.getElem?_eq_some_iff.mp hs.user).1
    · dsimp only
      rw [hzero Pc.pulled fun _ => rfl]
      exact hs.queue
    · intro _ v
      dsimp only
      rcases Pc.of_waitsAgain (hall v) with ⟨gen, e⟩
      rw [e]
      simp
    · intro v d hd
      rcases Pc.of_waitsAgain (hall v) with ⟨gen, e⟩
      dsimp only at hd
      rw [e] at hd
      cases hd
    · intro u' _ i hi
      dsimp only at hi
      rw [hzero Pc.pulled fun _ => rfl] at hi
      cases hi
  · refine ⟨?_, ?_, ?_, ?_, ?_, ?_, ?_, ⟨hsaid.told.length, hsaid.told.each⟩⟩
    · intro hfound
      exact absurd (hsaid.found.symm.trans hfound) (by simp)
    · intro v
      dsimp only
      rcases Pc.of_waitsAgain (hall v) with ⟨gen, e⟩
      rw [e]
      trivial
    · dsimp only
      rw [hsaid.hashCount, countedFor_none hnew, zero_add]
      apply Finset.sum_eq_zero
      intro v _
      rcases Pc.of_waitsAgain (hall v) with ⟨gen, e⟩
      rw [e]
      rfl
    · intro v
      dsimp only
      rw [reportsOf_none hnew]
      rcases Pc.of_waitsAgain (hall v) with ⟨gen, e⟩
      rw [e]
      rfl
    · intro r hr
      exact Nat.le_succ_of_le (hs.later r hr)
    · intro v hv
      dsimp only at hv
      rcases Pc.of_waitsAgain (hall v) with ⟨gen, e⟩
      rw [e] at hv
      cases hv
    · dsimp only
      rw [hcomplete]
      exact hs.started

theorem Second.move (hs : Second U completions users k u s) (hm : Move U s t s') : Inv U completions users s' := by
  have hat := hs.at_ t
  cases hm with
  | stop _ hpc _ | take _ _ hpc _ | first _ hpc _ | next _ hpc _ | publish _ _ _ hpc | result _ _ _ hpc | add _ _ hpc
  | arrive _ hpc =>
    rw [hpc] at hat
    exact hat.elim
  | search p hsearch =>
    generalize s.pc t = q at hat hsearch
    cases hsearch <;> exact hat.elim
  | pass d gen hpc hgen =>
    refine Or.inr ⟨k, u, hs.goes trivial (by rw [hpc]; rfl) ?_ (Or.inr ⟨by simp, by simp⟩)⟩
    intro d' hd'
    rw [hpc]
    exact hd'
  | told d hpc hcomplete =>
    refine Or.inr ⟨k, u, hs.goes trivial (by rw [hpc]; rfl) ?_ (Or.inl hcomplete)⟩
    intro d' hd'
    cases hd'
  | tell d hpc hcomplete => exact Or.inr ⟨k, u, hs.tell hpc hcomplete⟩
  | arriveAgain hpc =>
    by_cases hlast : s.barrier.count + 1 = n
    · exact Or.inl ⟨k + 1, hs.last hpc hlast⟩
    · exact Or.inr ⟨k, u, hs.arrive hpc hlast⟩
  | passAgain gen hpc hgen =>
    rw [hpc] at hat
    exact absurd (hat.trans hs.gen.symm) hgen

/-! ## Runs -/

def entryCost : Option Data → Nat
  | none => 1
  | some d => 3 * d.count + 12

def Pc.cost : Pc → Nat
  | .pull | .stopped => 0
  | .begun d => 3 * d.count + 11
  | .ready d => 3 * d.count + 10
  | .loop _ _ left _ => 3 * left + 9
  | .look _ _ left _ => 3 * left + 11
  | .guess _ _ left _ => 3 * left + 10
  | .publish .. => 8
  | .result .. => 7
  | .add .. => 6
  | .arrive _ => 5
  | .wait .. => 4
  | .summary _ => 3
  | .arriveAgain => 2
  | .waitAgain _ => 1

def cost (s : St n) : Nat := (s.queue.map entryCost).sum + ∑ t, (s.pc t).cost + s.main.left n

theorem Search.cost {found : Bool} {q : Pc} (hs : Search U found q p) : p.cost < q.cost := by
  cases hs with
  | ready d => exact Nat.lt_succ_self _
  | through d tmp hashCount => exact show 7 < 9 by decide
  | more d tmp left hashCount =>
    show 3 * left + 11 < 3 * (left + 1) + 9
    omega
  | look d tmp left hashCount =>
    cases found with
    | true =>
      show 7 < 3 * left + 11
      omega
    | false => exact Nat.lt_succ_self _
  | guess d tmp left hashCount =>
    unfold Cracker2.guess
    split
    · show 8 < 3 * left + 10
      omega
    · dsimp only
      split
      · exact Nat.lt_succ_self _
      · show 7 < 3 * left + 10
        omega

/-- A worker gets on, at the same queue. -/
theorem cost_update (hq : s'.queue = s.queue) (hmain : s'.main = s.main) (hpc : s'.pc = update s.pc t p)
    (hlt : p.cost < (s.pc t).cost) : cost s' < cost s := by
  have hsum := Threads.sum_update Pc.cost s.pc t p
  unfold cost
  rw [hq, hmain, hpc]
  omega

/-- A worker pulls. -/
theorem cost_pull {entry : Option Data} (hq : s.queue = entry :: s'.queue) (hmain : s'.main = s.main)
    (hpc : s'.pc = update s.pc t p) (hlt : p.cost < entryCost entry) : cost s' < cost s := by
  have hsum := Threads.sum_update Pc.cost s.pc t p
  unfold cost
  rw [hq, hmain, hpc, List.map_cons, List.sum_cons]
  omega

theorem Move.cost (hm : Move U s t s') : Cracker2.cost s' < Cracker2.cost s := by
  cases hm with
  | stop queue _ hq => exact cost_pull hq rfl rfl Nat.one_pos
  | take d queue _ hq => exact cost_pull hq rfl rfl (Nat.lt_succ_self _)
  | first d hpc _ => exact cost_update rfl rfl rfl (by rw [hpc]; exact Nat.lt_succ_self _)
  | next d hpc _ => exact cost_update rfl rfl rfl (by rw [hpc]; exact Nat.lt_succ_self _)
  | search p hs => exact cost_update rfl rfl rfl hs.cost
  | publish _ _ _ hpc => exact cost_update rfl rfl rfl (by rw [hpc]; exact Nat.lt_succ_self _)
  | result _ _ _ hpc => exact cost_update rfl rfl rfl (by rw [hpc]; exact Nat.lt_succ_self _)
  | add _ _ hpc => exact cost_update rfl rfl rfl (by rw [hpc]; exact Nat.lt_succ_self _)
  | arrive _ hpc => exact cost_update rfl rfl rfl (by rw [hpc]; exact Nat.lt_succ_self _)
  | pass _ _ hpc _ => exact cost_update rfl rfl rfl (by rw [hpc]; exact Nat.lt_succ_self _)
  | told _ hpc _ => exact cost_update rfl rfl rfl (by rw [hpc]; exact Nat.lt_succ_self _)
  | tell _ hpc _ => exact cost_update rfl rfl rfl (by rw [hpc]; exact Nat.lt_succ_self _)
  | arriveAgain hpc => exact cost_update rfl rfl rfl (by rw [hpc]; exact Nat.lt_succ_self _)
  | passAgain _ hpc _ => exact cost_update rfl rfl rfl (by rw [hpc]; exact Nat.lt_succ_self _)

/-- A worker that moves has not stopped, and the others are where they were. -/
theorem Move.stopped (hm : Move U s t s') :
    s'.main = s.main ∧ ∀ v, s.pc v = .stopped → s'.pc v = .stopped := by
  have hkeep : ∀ p, s.pc t ≠ .stopped → ∀ v, s.pc v = .stopped → update s.pc t p v = .stopped := by
    intro p hne v hv
    have hvt : v ≠ t := fun e => hne (e ▸ hv)
    rw [Function.update_of_ne hvt, hv]
  cases hm with
  | search p hs =>
    refine ⟨rfl, hkeep _ ?_⟩
    intro hpc
    rw [hpc] at hs
    cases hs
  | stop _ hpc _ | take _ _ hpc _ | first _ hpc _ | next _ hpc _ | publish _ _ _ hpc | result _ _ _ hpc | add _ _ hpc
  | arrive _ hpc | pass _ _ hpc _ | told _ hpc _ | tell _ hpc _ | arriveAgain hpc | passAgain _ hpc _ =>
    exact ⟨rfl, hkeep _ (by simp [hpc])⟩

theorem First.start (hn : 0 < n) (users : List User) (password : Text) :
    First U completions users 0 (filled U n users password) where
  round := by
    refine ⟨fun _ => trivial, rfl, ?_, hn, Nat.zero_le _, ?_, ?_, ?_, ?_⟩ <;>
      simp [filled, Pc.waits, Pc.pulled, Pc.data]
  shared := by
    refine ⟨?_, fun _ => trivial, ?_, ?_, ?_, ?_, ?_, ⟨rfl, ?_⟩⟩ <;>
      simp [filled, Pc.pending, Pc.reported, Pc.past, countedFor, reportsOf]

/-- The invariant does not look at the main thread. -/
theorem Inv.main (hi : Inv U completions users s) (main : Main) : Inv U completions users { s with main } := by
  rcases hi with ⟨k, hr, hs⟩ | ⟨k, u, hs⟩
  · exact Or.inl ⟨k, ⟨hr.at_, hr.gen, hr.count, hr.room, hr.le, hr.queue, hr.going, hr.data, hr.cover⟩,
      ⟨hs.found, hs.worker, hs.tally, hs.reports, hs.later, hs.past, hs.started, ⟨hs.told.length, hs.told.each⟩⟩⟩
  · refine Or.inr ⟨k, u, ⟨hs.user, hs.at_, hs.gen, hs.count, hs.room, hs.queue, hs.data, hs.reports, hs.later,
      hs.started, ?_, ?_⟩⟩
    · intro hc
      have hun := hs.unsaid hc
      exact ⟨hun.named, hun.clear, hun.hashCount, ⟨hun.told.length, hun.told.each⟩, hun.before⟩
    · intro hc
      have hsaid := hs.said hc
      exact ⟨hsaid.found, hsaid.hashCount, ⟨hsaid.told.length, hsaid.told.each⟩⟩

structure Good (U : Utils) (completions : Nat → List Text) (users : List User) (s : St n) : Prop where
  rounds : Inv U completions users s
  main : s.main.Ok s.stopped

theorem Good.steps (hU : Enumerates U completions) (hS : Splits U completions n) {a : Act n}
    (hg : Good U completions users s) (h : step U s a = some s') :
    Good U completions users s' ∧ cost s' < cost s := by
  cases a with
  | main =>
    rcases Option.map_eq_some_iff.mp h with ⟨main, hmain, e⟩
    cases e
    rcases hg.main.step hmain with ⟨hok, -, hlt⟩
    refine ⟨⟨hg.rounds.main main, hok⟩, ?_⟩
    unfold cost
    dsimp only
    omega
  | worker t =>
    change (if t.val < s.main.created then crack U s t else none) = some s' at h
    rw [Option.ite_none_right_eq_some] at h
    have hm := crack_move h.2
    rcases hm.stopped with ⟨hmain, hstopped⟩
    refine ⟨⟨?_, ?_⟩, hm.cost⟩
    · rcases hg.rounds with ⟨k, hf⟩ | ⟨k, u, hs⟩
      · exact hf.move hU hS hm
      · exact hs.move hm
    · rw [hmain]
      exact hg.main.moves fun v hv => decide_eq_true (hstopped v (of_decide_eq_true hv))

theorem start_some {password : Text} :
    Cracker2.start U n users password = some s ↔ s = filled U n users password ∧ ∀ u ∈ users, u.Fits := by
  unfold Cracker2.start
  rw [Option.map_eq_some_iff]
  constructor
  · intro ⟨l, hl, e⟩
    obtain ⟨rfl, hfits⟩ := readUsers_some.mp hl
    exact ⟨e.symm, hfits⟩
  · intro ⟨e, hfits⟩
    exact ⟨users, readUsers_some.mpr ⟨rfl, hfits⟩, e.symm⟩

theorem good_reach (hU : Enumerates U completions) (hS : Splits U completions n) (hn : 0 < n)
    (h : (sys U n users).Reach s) : Good U completions users s := by
  refine h.inv (I := Good U completions users) ?_ ?_
  · intro s h0
    rcases h0 with ⟨password, e⟩
    rw [(start_some.mp e).1]
    exact ⟨Or.inl ⟨0, .start hn users password⟩, .start⟩
  · intro s a s' hg hs
    exact (hg.steps hU hS hs).1

/-! ## Where a run ends -/

theorem fill_length {line : Nat} : n ≤ (fill U n line users).length := by
  induction users generalizing line with
  | nil =>
    unfold fill
    rw [List.length_replicate]
  | cons u users ih =>
    rw [fill_cons, List.length_append]
    exact Nat.le_trans ih (Nat.le_add_left _ _)

/-- Where a worker can be blocked. -/
theorem crack_none (h : crack U s t = none) : s.pc t = .pull ∧ s.queue = [] ∨
    (∃ d, s.pc t = .wait d s.barrier.gen) ∨ s.pc t = .waitAgain s.barrier.gen ∨ s.pc t = .stopped := by
  unfold crack at h
  split at h
  case h_1 hpc =>
    split at h
    · rename_i hq
      exact Or.inl ⟨hpc, hq⟩
    · cases h
    · cases h
  case h_2 | h_13 =>
    split at h <;> cases h
  case h_12 d gen hpc =>
    split at h
    · cases h
    · rename_i hgen
      exact Or.inr (Or.inl ⟨d, by rw [hpc, Decidable.not_not.mp hgen]⟩)
  case h_15 gen hpc =>
    split at h
    · cases h
    · rename_i hgen
      exact Or.inr (Or.inr (Or.inl (by rw [hpc, Decidable.not_not.mp hgen])))
  case h_16 hpc => exact Or.inr (Or.inr (Or.inr hpc))
  all_goals cases h

/-- In the first half of a round some worker can go on, if not all have stopped. -/
theorem First.stuck (hf : First U completions users k s) (hstuck : ∀ t, crack U s t = none) :
    k = users.length ∧ ∀ t, s.pc t = .stopped := by
  have hr := hf.round
  have hpcs : ∀ t, (∃ d, s.pc t = .wait d s.barrier.gen) ∨ s.pc t = .stopped := by
    intro t
    have hat := hr.at_ t
    rcases crack_none (hstuck t) with ⟨hpc, hq⟩ | hw | hpc | hpc
    · have hlt := pulled_lt (show (s.pc t).pulled = 0 by rw [hpc]; rfl)
      have hqueue := hr.queue
      rw [hq, eq_comm, List.drop_eq_nil_iff] at hqueue
      exact absurd (Nat.le_trans fill_length hqueue) (Nat.not_le.mpr hlt)
    · exact Or.inl hw
    · rw [hpc, hr.gen] at hat
      unfold AtFirst at hat
      omega
    · exact Or.inr hpc
  have hk : k = users.length := by
    by_contra hne
    have hle := hr.le
    have hlt : k < users.length := by omega
    have hwait : ∀ t, (s.pc t).waits = 1 := by
      intro t
      rcases hpcs t with ⟨d, hpc⟩ | hpc
      · rw [hpc]
        rfl
      · exact absurd hpc (hr.going hlt t)
    have hcount := hr.count
    rw [Threads.sum_of_all hwait, Fintype.card_fin] at hcount
    exact absurd hr.room (by omega)
  refine ⟨hk, ?_⟩
  intro t
  rcases hpcs t with ⟨d, hpc⟩ | hpc
  · rcases hr.data t d (by rw [hpc]; rfl) with ⟨u, -, hu, -⟩
    have hlt := (List.getElem?_eq_some_iff.mp hu).1
    omega
  · exact hpc

/-- In the second half some worker can. -/
theorem Second.stuck (hs : Second U completions users k u s) (hstuck : ∀ t, crack U s t = none) : False := by
  have hwait : ∀ t, (s.pc t).waitsAgain = 1 := by
    intro t
    have hat := hs.at_ t
    rcases crack_none (hstuck t) with ⟨hpc, -⟩ | ⟨d, hpc⟩ | hpc | hpc
    · rw [hpc] at hat
      exact hat.elim
    · rw [hpc, hs.gen] at hat
      unfold AtSecond at hat
      omega
    · rw [hpc]
      rfl
    · rw [hpc] at hat
      exact hat.elim
  have hcount := hs.count
  rw [Threads.sum_of_all hwait, Fintype.card_fin] at hcount
  exact absurd hs.room (by omega)

theorem Good.stuck (hg : Good U completions users s) (hstuck : ∀ a s', step U s a ≠ some s') :
    s.summaries.length = users.length ∧ ∀ t, s.pc t = .stopped := by
  have hmain : s.main.step s.stopped = none := by
    apply Option.eq_none_iff_forall_ne_some.mpr
    intro main hm
    exact hstuck .main { s with main } (Option.map_eq_some_iff.mpr ⟨main, hm, rfl⟩)
  have hcreated := (hg.main.blocked hmain).1
  have hworkers : ∀ t, crack U s t = none := by
    intro t
    apply Option.eq_none_iff_forall_ne_some.mpr
    intro s' hs
    have hlt : t.val < s.main.created := by
      rw [hcreated]
      exact t.isLt
    exact hstuck (.worker t) s' ((if_pos hlt).trans hs)
  rcases hg.rounds with ⟨k, hf⟩ | ⟨k, u, hs⟩
  · rcases hf.stuck hworkers with ⟨hk, hall⟩
    exact ⟨hf.shared.told.length.trans hk, hall⟩
  · exact (hs.stuck hworkers).elim

structure InOrder (users : List User) (s : St n) : Prop where
  data : ∀ t d, (s.pc t).data = some d → users[d.line]? = some d.user ∧ d.line ≤ s.summaries.length
  started : s.started = (users.take s.started.length).map User.username
  ahead : s.started.length ≤ s.summaries.length + 1

theorem started_take {l : List Text} {j : Nat} (h : l = (users.take j).map User.username) :
    l = (users.take l.length).map User.username ∧ l.length ≤ j := by
  have hlen : l.length = min j users.length := by rw [h, List.length_map, List.length_take]
  refine ⟨?_, by omega⟩
  rw [hlen, ← List.take_eq_take_min]
  exact h

theorem Inv.told (hi : Inv U completions users s) :
    Told U completions users s.summaries.length s ∧ InOrder users s := by
  rcases hi with ⟨k, hr, hs⟩ | ⟨k, u, hs⟩
  · have hlen := hs.told.length
    rcases started_take hs.started with ⟨hstarted, hle⟩
    refine ⟨hlen.symm ▸ hs.told, ⟨?_, hstarted, ?_⟩⟩
    · intro t d hd
      rcases hr.data t d hd with ⟨u, i, hu, -, e⟩
      rw [e, hlen]
      exact ⟨hu, Nat.le_refl k⟩
    · split at hle <;> omega
  · have hk : s.summaries.length = k ∧ Told U completions users k s ∨
        s.summaries.length = k + 1 ∧ Told U completions users (k + 1) s := by
      cases hc : s.complete with
      | true => exact Or.inr ⟨(hs.said hc).told.length, (hs.said hc).told⟩
      | false => exact Or.inl ⟨(hs.unsaid hc).told.length, (hs.unsaid hc).told⟩
    rcases started_take hs.started with ⟨hstarted, hle⟩
    have htold : Told U completions users s.summaries.length s := by
      rcases hk with ⟨e, h⟩ | ⟨e, h⟩
      · exact e.symm ▸ h
      · exact e.symm ▸ h
    refine ⟨htold, ⟨?_, hstarted, by omega⟩⟩
    intro t d hd
    rcases hs.data t d hd with ⟨hline, huser⟩
    rw [hline, huser]
    exact ⟨hs.user, by omega⟩

/-- The summaries are those of the users in order, each right, users are started in
    order after the summary of the user before, and every run ends with a summary for
    each user and all workers stopped. -/
structure Summarised (U : Utils) (completions : Nat → List Text) (users : List User) (s : St n) : Prop where
  told : Told U completions users s.summaries.length s
  inOrder : InOrder users s
  finished : (sys U n users).Rests (fun s => s.summaries.length = users.length ∧ ∀ t, s.pc t = .stopped) s

theorem reach_summarised (hU : Enumerates U completions) (hS : Splits U completions n) (hn : 0 < n)
    (h : (sys U n users).Reach s) : Summarised U completions users s := by
  have hg := good_reach hU hS hn h
  refine ⟨hg.rounds.told.1, hg.rounds.told.2, ?_⟩
  refine Run.Sys.Rests.of_measure cost (fun s a s' hg hs => hg.steps hU hS hs) ?_ hg
  intro s hg hstop
  exact hg.stuck fun a s' hs => hstop a s' hs

/-- The input is read, and every state reached then is right; for all users exactly when
    their words are shorter than the blocks. -/
theorem users_summarised (hU : Enumerates U completions) (hS : Splits U completions n) (hn : 0 < n) :
    ((∀ password, ∃ s, Cracker2.start U n users password = some s) ∧
      ∀ s, (sys U n users).Reach s → Summarised U completions users s) ↔ ∀ u ∈ users, u.Fits := by
  constructor
  · intro ⟨hread, _⟩
    obtain ⟨s, hs⟩ := hread []
    exact (start_some.mp hs).2
  · intro hfits
    exact ⟨fun password => ⟨_, start_some.mpr ⟨rfl, hfits⟩⟩, fun s hs => reach_summarised hU hS hn hs⟩

/-- Two threads divide the candidates of "p.". -/
theorem users_summarised_letters :
    (∃ s, Cracker2.start (letterUtils id) 2 [⟨[117], [112, 98], [112, 46]⟩] [] = some s) ∧
      ∀ s, (sys (letterUtils id) 2 [⟨[117], [112, 98], [112, 46]⟩]).Reach s →
        Summarised (letterUtils id) letterCompletions [⟨[117], [112, 98], [112, 46]⟩] s := by
  have htwo : 0 < 2 := by decide
  have h := (users_summarised (letterUtils_enumerates id) (letterUtils_splits id htwo) htwo).mpr
    (show ∀ u ∈ [(⟨[117], [112, 98], [112, 46]⟩ : User)], u.Fits by simp [User.Fits])
  exact ⟨h.1 _, h.2⟩

/-- A name of 256 bytes. -/
theorem a_long_name_overruns_the_stack :
    Cracker2.start (letterUtils id) 2 [⟨List.replicate 256 117, [112, 98], [112, 46]⟩] [] = none ∧
      ¬ ((∀ password, ∃ s,
          Cracker2.start (letterUtils id) 2 [⟨List.replicate 256 117, [112, 98], [112, 46]⟩] password = some s) ∧
        ∀ s, (sys (letterUtils id) 2 [⟨List.replicate 256 117, [112, 98], [112, 46]⟩]).Reach s →
          Summarised (letterUtils id) letterCompletions [⟨List.replicate 256 117, [112, 98], [112, 46]⟩] s) := by
  have hread : readUsers [⟨List.replicate 256 117, [112, 98], [112, 46]⟩] = none := by decide +kernel
  have hnone : ∀ password,
      Cracker2.start (letterUtils id) 2 [⟨List.replicate 256 117, [112, 98], [112, 46]⟩] password = none := by
    intro password
    rw [Cracker2.start, hread, Option.map_none]
  refine ⟨hnone [], ?_⟩
  intro ⟨hall, _⟩
  obtain ⟨s, hs⟩ := hall []
  rw [hnone []] at hs
  cases hs

end SysProg.PasswordCracker.Cracker2
