/-
  SysProg.PasswordCracker.Cracker2Rounds — the first half of a round (see
  `SysProg.PasswordCracker.Cracker2`).

  A user is one round, with two halves. In the first half (`First`) workers pull a range
  of the user each, search it and come to the barrier; the barrier has counted all
  workers twice for each user before. When the last of them comes, every range has been
  searched through, unless `found` is set, and the hash counts have been added up
  (`First.last`). In the second half (`Second`) the flags are those of the search until
  the first worker has printed the summary, and reset from then on.
-/

import SysProg.PasswordCracker.Cracker2Search

namespace SysProg.PasswordCracker.Cracker2

open Function (update)

variable {U : Utils} {completions : Nat → List Text} {n : Nat} {s s' : St n} {t : Fin n} {users : List User} {k : Nat}
  {u : User} {d : Data} {tmp : Text} {left : Nat} {p : Pc}

/-! ## Where the workers are in a round -/

def Pc.data : Pc → Option Data
  | .begun d | .ready d | .loop d .. | .look d .. | .guess d .. | .publish d .. | .result d .. | .add d _ | .arrive d
  | .wait d _ | .summary d => some d
  | _ => none

def Pc.pulled : Pc → Nat
  | .pull | .waitAgain _ => 0
  | _ => 1

def Pc.waits : Pc → Nat
  | .wait .. => 1
  | _ => 0

def Pc.waitsAgain : Pc → Nat
  | .waitAgain _ => 1
  | _ => 0

/-- What the worker is about to add to the shared hash count. -/
def Pc.pending : Pc → BitVec 32
  | .add _ hashCount => hashCount
  | _ => 0

def Pc.reported : Pc → Nat
  | .add .. | .arrive _ | .wait .. => 1
  | _ => 0

def Pc.past : Pc → Bool
  | .pull | .begun _ | .waitAgain _ | .stopped => false
  | _ => true

theorem Pc.pulled_le (p : Pc) : p.pulled ≤ 1 := by cases p <;> simp [Pc.pulled]

theorem Pc.waits_le (p : Pc) : p.waits ≤ 1 := by cases p <;> simp [Pc.waits]

theorem Pc.waitsAgain_le (p : Pc) : p.waitsAgain ≤ 1 := by cases p <;> simp [Pc.waitsAgain]

def AtFirst (k : Nat) : Pc → Prop
  | .wait _ gen => gen = 2 * k
  | .waitAgain gen => gen + 1 = 2 * k
  | .summary _ | .arriveAgain => False
  | _ => True

def AtSecond (k : Nat) : Pc → Prop
  | .wait _ gen => gen = 2 * k
  | .waitAgain gen => gen = 2 * k + 1
  | .summary _ | .arriveAgain => True
  | _ => False

/-- What was printed of a line: the sum of the hash counts. -/
def countedFor (results : List (Result n)) (line : Nat) : BitVec 32 :=
  ((results.filter fun r => decide (r.line = line)).map Result.hashCount).sum

def reportsOf (results : List (Result n)) (t : Fin n) (line : Nat) : Nat :=
  results.countP fun r => decide (r.thread = t ∧ r.line = line)

theorem countedFor_append {results : List (Result n)} {r : Result n} {line : Nat} :
    countedFor (results ++ [r]) line = countedFor results line + if r.line = line then r.hashCount else 0 := by
  unfold countedFor
  rw [List.filter_append, List.map_append, List.sum_append]
  by_cases h : r.line = line <;> simp [h]

theorem reportsOf_append {results : List (Result n)} {r : Result n} {line : Nat} :
    reportsOf (results ++ [r]) t line = reportsOf results t line + if r.thread = t ∧ r.line = line then 1 else 0 := by
  unfold reportsOf
  rw [List.countP_append, List.countP_singleton]
  simp

theorem countedFor_none {results : List (Result n)} {line : Nat} (h : ∀ r ∈ results, r.line ≠ line) :
    countedFor results line = 0 := by
  unfold countedFor
  rw [List.filter_eq_nil_iff.mpr (fun r hr => by simpa using h r hr)]
  rfl

theorem reportsOf_none {results : List (Result n)} {line : Nat} (h : ∀ r ∈ results, r.line ≠ line) :
    reportsOf results t line = 0 := by
  unfold reportsOf
  rw [List.countP_eq_zero]
  intro r hr hc
  exact h r hr (of_decide_eq_true hc).2

/-- The summary of a user, with the results that the workers printed of the user's line. -/
structure Tells (U : Utils) (completions : Nat → List Text) (results : List (Result n)) (line : Nat) (u : User)
    (m : Summary) : Prop where
  username : m.username = u.username
  status : m.status = 0 ↔ u.Crackable U completions
  password : m.status = 0 → Named U completions u m.password
  reports : ∀ t, reportsOf results t line = 1
  hashCount : m.hashCount = countedFor results line

structure Told (U : Utils) (completions : Nat → List Text) (users : List User) (j : Nat) (s : St n) : Prop where
  length : s.summaries.length = j
  each : ∀ i m, s.summaries[i]? = some m → ∃ u, users[i]? = some u ∧ Tells U completions s.results i u m

theorem Told.append (h : Told U completions users k s) {m : Summary} (hu : users[k]? = some u)
    (hm : Tells U completions s.results k u m) (h' : s'.summaries = s.summaries ++ [m]) (hr : s'.results = s.results) :
    Told U completions users (k + 1) s' where
  length := by rw [h', List.length_append, h.length, List.length_singleton]
  each i m' hi := by
    rw [h'] at hi
    rw [hr]
    by_cases hlt : i < s.summaries.length
    · rw [List.getElem?_append_left hlt] at hi
      exact h.each i m' hi
    · rw [List.getElem?_append_right (Nat.le_of_not_lt hlt), List.getElem?_singleton] at hi
      split at hi
      · rename_i hz
        have hik : i = k := by
          rw [h.length] at hlt hz
          omega
        rw [hik, ← Option.some.inj hi]
        exact ⟨u, hu, hm⟩
      · cases hi

/-- A result of a later line changes no summary. -/
theorem Told.result (h : Told U completions users k s) {r : Result n} (hline : k ≤ r.line)
    (h' : s'.summaries = s.summaries) (hr : s'.results = s.results ++ [r]) : Told U completions users k s' where
  length := h'.symm ▸ h.length
  each i m hi := by
    rw [h'] at hi
    have hlt := (List.getElem?_eq_some_iff.mp hi).1
    rw [h.length] at hlt
    have hne : r.line ≠ i := by omega
    rcases h.each i m hi with ⟨u, hu, ht⟩
    refine ⟨u, hu, ht.username, ht.status, ht.password, ?_, ?_⟩
    · intro t
      rw [hr, reportsOf_append, if_neg (fun hc => hne hc.2), Nat.add_zero, ht.reports t]
    · rw [hr, countedFor_append, if_neg hne, add_zero, ht.hashCount]

/-! ## The invariant -/

/-- What is pulled from the queue in the first half of round `k`, and who waits. -/
structure Round (U : Utils) (users : List User) (k : Nat) (s : St n) : Prop where
  at_ : ∀ t, AtFirst k (s.pc t)
  gen : s.barrier.gen = 2 * k
  count : s.barrier.count = ∑ t, (s.pc t).waits
  room : s.barrier.count < n
  le : k ≤ users.length
  queue : s.queue = (fill U n k (users.drop k)).drop (∑ t, (s.pc t).pulled)
  going : k < users.length → ∀ t, s.pc t ≠ .stopped
  data : ∀ t d, (s.pc t).data = some d → ∃ u i, users[k]? = some u ∧ i < n ∧ d = dataFor U n k u i
  cover : ∀ u, users[k]? = some u → ∀ i < ∑ t, (s.pc t).pulled, ∃ t, (s.pc t).data = some (dataFor U n k u i)

structure Shared (U : Utils) (completions : Nat → List Text) (users : List User) (k : Nat) (s : St n) : Prop where
  found : s.found = true → ∃ u, users[k]? = some u ∧ Named U completions u s.password
  worker : ∀ t, PcOk U completions s.found (s.pc t)
  tally : s.hashCount + ∑ t, (s.pc t).pending = countedFor s.results k
  reports : ∀ t, reportsOf s.results t k = (s.pc t).reported
  later : ∀ r ∈ s.results, r.line ≤ k
  past : ∀ t, (s.pc t).past = true → s.complete = false
  started : s.started = (users.take (if s.complete then k else k + 1)).map User.username
  told : Told U completions users k s

structure First (U : Utils) (completions : Nat → List Text) (users : List User) (k : Nat) (s : St n) : Prop where
  round : Round U users k s
  shared : Shared U completions users k s

structure Unsaid (U : Utils) (completions : Nat → List Text) (users : List User) (k : Nat) (u : User) (s : St n) :
    Prop where
  named : s.found = true → Named U completions u s.password
  clear : s.found = false → ¬ u.Crackable U completions
  hashCount : s.hashCount = countedFor s.results k
  told : Told U completions users k s
  before : ∀ t, s.pc t ≠ .arriveAgain ∧ ∀ gen, s.pc t ≠ .waitAgain gen

structure Said (U : Utils) (completions : Nat → List Text) (users : List User) (k : Nat) (s : St n) : Prop where
  found : s.found = false
  hashCount : s.hashCount = 0
  told : Told U completions users (k + 1) s

structure Second (U : Utils) (completions : Nat → List Text) (users : List User) (k : Nat) (u : User) (s : St n) :
    Prop where
  user : users[k]? = some u
  at_ : ∀ t, AtSecond k (s.pc t)
  gen : s.barrier.gen = 2 * k + 1
  count : s.barrier.count = ∑ t, (s.pc t).waitsAgain
  room : s.barrier.count < n
  queue : s.queue = fill U n (k + 1) (users.drop (k + 1))
  data : ∀ t d, (s.pc t).data = some d → d.line = k ∧ d.user = u
  reports : ∀ t, reportsOf s.results t k = 1
  later : ∀ r ∈ s.results, r.line ≤ k
  started : s.started = (users.take (k + 1)).map User.username
  unsaid : s.complete = false → Unsaid U completions users k u s
  said : s.complete = true → Said U completions users k s

def Inv (U : Utils) (completions : Nat → List Text) (users : List User) (s : St n) : Prop :=
  (∃ k, First U completions users k s) ∨ ∃ k u, Second U completions users k u s

/-! ## The first half: queue and barrier -/

theorem all_update {C : Pc → Prop} {pc : Fin n → Pc} (h : ∀ v, C (pc v)) (hp : C p) (v : Fin n) :
    C (update pc t p v) :=
  (Function.forall_update_iff pc fun _ p => C p).mpr ⟨hp, fun v _ => h v⟩ v

theorem data_update {D : Data → Prop} {pc : Fin n → Pc} (h : ∀ v d, (pc v).data = some d → D d)
    (hp : p.data = (pc t).data) (v : Fin n) (d : Data) (hd : (update pc t p v).data = some d) : D d := by
  by_cases hv : v = t
  · subst hv
    rw [Function.update_self, hp] at hd
    exact h v d hd
  · rw [Function.update_of_ne hv] at hd
    exact h v d hd

structure Stays (k : Nat) (q p : Pc) : Prop where
  data : p.data = q.data
  pulled : p.pulled = q.pulled
  waits : p.waits = q.waits
  at_ : AtFirst k p
  live : p ≠ .stopped

theorem Round.goes (hr : Round U users k s) {q : Pc} (hq : s.pc t = q) (hpc : s'.pc = update s.pc t p)
    (hqueue : s'.queue = s.queue) (hb : s'.barrier = s.barrier) (hp : Stays k q p) : Round U users k s' := by
  subst hq
  have hpulled := Threads.sum_update_eq Pc.pulled s.pc hp.pulled
  refine ⟨?_, by rw [hb, hr.gen], ?_, by rw [hb]; exact hr.room, hr.le, ?_, ?_, ?_, ?_⟩
  · rw [hpc]
    exact all_update hr.at_ hp.at_
  · rw [hb, hpc, Threads.sum_update_eq Pc.waits s.pc hp.waits, hr.count]
  · rw [hqueue, hpc, hpulled, hr.queue]
  · intro hk
    rw [hpc]
    exact all_update (C := (· ≠ .stopped)) (hr.going hk) hp.live
  · rw [hpc]
    exact data_update hr.data hp.data
  · intro u hu i hi
    rw [hpc, hpulled] at hi
    rcases hr.cover u hu i hi with ⟨v, hv⟩
    refine ⟨v, ?_⟩
    rw [hpc]
    by_cases e : v = t
    · subst e
      rw [Function.update_self, hp.data, hv]
    · rw [Function.update_of_ne e, hv]

theorem fill_cons {line : Nat} (u : User) (users : List User) :
    fill U n line (u :: users) =
      (List.range n).map (fun i => some (dataFor U n line u i)) ++ fill U n (line + 1) users := rfl

/-- The entry that is pulled as the `p`-th of a round. -/
theorem fill_drop {line p : Nat} {u : User} {users : List User} (hp : p < n) :
    (fill U n line (u :: users)).drop p = some (dataFor U n line u p) :: (fill U n line (u :: users)).drop (p + 1) := by
  have hlt : p < (fill U n line (u :: users)).length := by
    rw [fill_cons, List.length_append, List.length_map, List.length_range]
    omega
  rw [List.drop_eq_getElem_cons hlt]
  congr 1
  simp [fill_cons, hp]

theorem fill_drop_all {line : Nat} {u : User} {users : List User} :
    (fill U n line (u :: users)).drop n = fill U n (line + 1) users := by
  rw [fill_cons, List.drop_left']
  rw [List.length_map, List.length_range]

theorem drop_user (hu : users[k]? = some u) : users.drop k = u :: users.drop (k + 1) := by
  rcases List.getElem?_eq_some_iff.mp hu with ⟨hlt, e⟩
  rw [List.drop_eq_getElem_cons hlt, e]

/-- A worker that has not pulled leaves something to pull. -/
theorem pulled_lt (ht : (s.pc t).pulled = 0) : ∑ v, (s.pc v).pulled < n := by
  have hlt := Threads.sum_lt_card (fun v => (s.pc v).pulled_le) ht
  rwa [Fintype.card_fin] at hlt

/-- A worker at the queue gets the next range of the user, or NULL after the last user. -/
theorem Round.next (hr : Round U users k s) (hpc : s.pc t = .pull) {entry : Option Data} {queue : List (Option Data)}
    (hq : s.queue = entry :: queue) :
    queue = (fill U n k (users.drop k)).drop (∑ v, (s.pc v).pulled + 1) ∧
      ((∃ u, users[k]? = some u ∧ entry = some (dataFor U n k u (∑ v, (s.pc v).pulled))) ∨
        k = users.length ∧ entry = none) := by
  have hlt := pulled_lt (show (s.pc t).pulled = 0 by rw [hpc]; rfl)
  have hqueue := hr.queue
  rw [hq] at hqueue
  cases hu : users[k]? with
  | some u =>
    rw [drop_user hu] at hqueue ⊢
    rw [fill_drop hlt] at hqueue
    rcases List.cons.inj hqueue with ⟨he, hrest⟩
    exact ⟨hrest, Or.inl ⟨u, rfl, he⟩⟩
  | none =>
    have hk : k = users.length := Nat.le_antisymm hr.le (List.getElem?_eq_none_iff.mp hu)
    have hdrop : users.drop k = [] := List.drop_eq_nil_iff.mpr (Nat.le_of_eq hk.symm)
    rw [hdrop] at hqueue ⊢
    unfold fill at hqueue ⊢
    rw [List.drop_replicate] at hqueue ⊢
    have hpos : n - ∑ v, (s.pc v).pulled = (n - (∑ v, (s.pc v).pulled + 1)) + 1 := by omega
    rw [hpos, List.replicate_succ] at hqueue
    rcases List.cons.inj hqueue with ⟨he, hrest⟩
    exact ⟨hrest, Or.inr ⟨hk, he⟩⟩

theorem Round.stop (hr : Round U users k s) {queue : List (Option Data)} (hpc : s.pc t = .pull)
    (hq : s.queue = none :: queue) : Round U users k { s with queue := queue, pc := update s.pc t .stopped } := by
  rcases hr.next hpc hq with ⟨hqueue, ⟨u, -, he⟩ | ⟨hk, -⟩⟩
  · cases he
  have hpulled := Threads.sum_update Pc.pulled s.pc t .stopped
  have hwaits : Pc.waits .stopped = (s.pc t).waits := by rw [hpc]; rfl
  rw [hpc] at hpulled
  have hnone : users[k]? = none := List.getElem?_eq_none_iff.mpr (Nat.le_of_eq hk.symm)
  refine ⟨all_update hr.at_ trivial, hr.gen, ?_, hr.room, hr.le, ?_, ?_, ?_, ?_⟩
  · exact hr.count.trans (Threads.sum_update_eq Pc.waits s.pc hwaits).symm
  · dsimp only
    rw [hqueue]
    exact congrArg (fun m => List.drop m _) hpulled.symm
  · intro hlt
    omega
  · intro v d hd
    dsimp only at hd
    by_cases hv : v = t
    · subst hv
      rw [Function.update_self] at hd
      cases hd
    · rw [Function.update_of_ne hv] at hd
      exact hr.data v d hd
  · intro u hu
    rw [hnone] at hu
    cases hu

theorem Round.take (hr : Round U users k s) {queue : List (Option Data)} (hpc : s.pc t = .pull)
    (hq : s.queue = some d :: queue) : Round U users k { s with queue := queue, pc := update s.pc t (.begun d) } := by
  have hlt := pulled_lt (show (s.pc t).pulled = 0 by rw [hpc]; rfl)
  rcases hr.next hpc hq with ⟨hqueue, ⟨u, hu, he⟩ | ⟨-, he⟩⟩
  swap
  · cases he
  have hd := Option.some.inj he
  have hpulled := Threads.sum_update Pc.pulled s.pc t (.begun d)
  have hwaits : Pc.waits (.begun d) = (s.pc t).waits := by rw [hpc]; rfl
  rw [hpc] at hpulled
  have hpulled : ∑ v, (update s.pc t (.begun d) v).pulled = ∑ v, (s.pc v).pulled + 1 := hpulled
  have hgoing := hr.going (List.getElem?_eq_some_iff.mp hu).1
  refine ⟨all_update hr.at_ trivial, hr.gen, ?_, hr.room, hr.le, ?_,
    fun _ => all_update (C := (· ≠ .stopped)) hgoing (by simp), ?_, ?_⟩
  · exact hr.count.trans (Threads.sum_update_eq Pc.waits s.pc hwaits).symm
  · dsimp only
    rw [hqueue, hpulled]
  · intro v d' hd'
    dsimp only at hd'
    by_cases hv : v = t
    · subst hv
      rw [Function.update_self] at hd'
      exact ⟨u, _, hu, hlt, (Option.some.inj hd').symm.trans hd⟩
    · rw [Function.update_of_ne hv] at hd'
      exact hr.data v d' hd'
  · intro u' hu' i hi
    dsimp only at hi ⊢
    rw [hpulled] at hi
    cases hu.symm.trans hu'
    rcases Nat.lt_succ_iff_lt_or_eq.mp hi with hi | hi
    · rcases hr.cover u hu i hi with ⟨v, hv⟩
      refine ⟨v, ?_⟩
      have hne : v ≠ t := by
        intro e
        rw [e, hpc] at hv
        cases hv
      rw [Function.update_of_ne hne, hv]
    · refine ⟨t, ?_⟩
      rw [Function.update_self, hi, hd]
      rfl

/-- Not the last to come. -/
theorem Round.arrive (hr : Round U users k s) (hpc : s.pc t = .arrive d) (hlast : s.barrier.count + 1 ≠ n) :
    Round U users k { s with barrier := s.barrier.arrive n, pc := update s.pc t (.wait d s.barrier.gen) } := by
  have hbarrier : s.barrier.arrive n = ⟨s.barrier.count + 1, s.barrier.gen⟩ := if_neg hlast
  have hpulled : Pc.pulled (.wait d s.barrier.gen) = (s.pc t).pulled := by rw [hpc]; rfl
  have hwaits := Threads.sum_update Pc.waits s.pc t (.wait d s.barrier.gen)
  rw [hpc] at hwaits
  have hwaits : ∑ v, (update s.pc t (.wait d s.barrier.gen) v).waits = ∑ v, (s.pc v).waits + 1 := hwaits
  have hsum := Threads.sum_update_eq Pc.pulled s.pc hpulled
  have hroom := hr.room
  refine ⟨all_update hr.at_ hr.gen, ?_, ?_, ?_, hr.le, ?_,
    fun hk => all_update (C := (· ≠ .stopped)) (hr.going hk) (by simp), ?_, ?_⟩
  · rw [hbarrier]
    exact hr.gen
  · rw [hbarrier, hwaits, hr.count]
  · rw [hbarrier]
    dsimp only
    omega
  · dsimp only
    rw [hsum]
    exact hr.queue
  · exact data_update hr.data (by rw [hpc]; rfl)
  · intro u hu i hi
    dsimp only at hi ⊢
    rw [hsum] at hi
    rcases hr.cover u hu i hi with ⟨v, hv⟩
    refine ⟨v, ?_⟩
    by_cases e : v = t
    · subst e
      rw [hpc] at hv
      rw [Function.update_self]
      exact hv
    · rw [Function.update_of_ne e, hv]

/-! ## The first half: what is shared -/

theorem reports_update {results : List (Result n)} {pc : Fin n → Pc}
    (h : ∀ v, reportsOf results v k = (pc v).reported) (hp : p.reported = (pc t).reported) (v : Fin n) :
    reportsOf results v k = (update pc t p v).reported := by
  by_cases hv : v = t
  · subst hv
    rw [Function.update_self, hp, h v]
  · rw [Function.update_of_ne hv, h v]

/-- A worker goes on and changes nothing that is shared. -/
theorem Shared.goes (hs : Shared U completions users k s) (queue : List (Option Data)) (barrier : Barrier) {q : Pc}
    (hq : s.pc t = q) (hp : PcOk U completions s.found p) (hpending : p.pending = q.pending)
    (hreported : p.reported = q.reported) (hpast : p.past = true → s.complete = false) :
    Shared U completions users k { s with queue := queue, barrier := barrier, pc := update s.pc t p } := by
  subst hq
  refine ⟨hs.found, all_update hs.worker hp, ?_, reports_update hs.reports hreported, hs.later, ?_, hs.started,
    ⟨hs.told.length, hs.told.each⟩⟩
  · dsimp only
    rw [Threads.sum_update_eq Pc.pending s.pc hpending]
    exact hs.tally
  · exact all_update (C := fun p => p.past = true → s.complete = false) hs.past hpast

/-- The first worker on a user prints the name. -/
theorem Shared.first (hs : Shared U completions users k s) (hu : users[k]? = some u) (hpc : s.pc t = .begun d)
    (hd : d.user = u) (hcomplete : s.complete = true) : Shared U completions users k { s with
      started := s.started ++ [d.user.username]
      complete := false
      pc := update s.pc t (.ready d) } := by
  have hpending : Pc.pending (.ready d) = (s.pc t).pending := by rw [hpc]; rfl
  refine ⟨hs.found, all_update hs.worker trivial, ?_, ?_, hs.later, fun _ _ => rfl, ?_, ⟨hs.told.length, hs.told.each⟩⟩
  · dsimp only
    rw [Threads.sum_update_eq Pc.pending s.pc hpending]
    exact hs.tally
  · exact reports_update hs.reports (by rw [hpc]; rfl)
  · have hstarted := hs.started
    rw [hcomplete] at hstarted
    dsimp only
    rw [hstarted, hd]
    simp [List.take_add_one, hu]

/-- A password is found. -/
theorem Shared.publish (hs : Shared U completions users k s) (hu : users[k]? = some u) {hashCount : BitVec 32}
    (hpc : s.pc t = .publish d tmp hashCount) (hd : d.user = u) : Shared U completions users k { s with
      password := d.user.known U ++ tmp
      found := true
      pc := update s.pc t (.result d hashCount 0) } := by
  have hnamed : Named U completions d.user (d.user.known U ++ tmp) := by
    have hw := hs.worker t
    rwa [hpc] at hw
  have hpending : Pc.pending (.result d hashCount 0) = (s.pc t).pending := by rw [hpc]; rfl
  have hpast := hs.past t (by rw [hpc]; rfl)
  refine ⟨fun _ => ⟨u, hu, hd ▸ hnamed⟩, ?_, ?_, ?_, hs.later, fun _ _ => hpast, hs.started,
    ⟨hs.told.length, hs.told.each⟩⟩
  · exact all_update (C := PcOk U completions true) (fun v => (hs.worker v).mono fun _ => rfl) (Or.inl rfl)
  · dsimp only
    rw [Threads.sum_update_eq Pc.pending s.pc hpending]
    exact hs.tally
  · exact reports_update hs.reports (by rw [hpc]; rfl)

/-- A result is printed; its count is about to be added. -/
theorem Shared.result (hs : Shared U completions users k s) {hashCount : BitVec 32} {status : Nat}
    (hpc : s.pc t = .result d hashCount status) (hd : d.line = k) : Shared U completions users k { s with
      results := s.results ++ [⟨t, d.line, hashCount, status⟩]
      pc := update s.pc t (.add d hashCount) } := by
  have hsearched : Searched U completions s.found d := by
    have hw := hs.worker t
    rwa [hpc] at hw
  have hpending := Threads.sum_update Pc.pending s.pc t (.add d hashCount)
  rw [hpc] at hpending
  have hpending : ∑ v, (update s.pc t (.add d hashCount) v).pending + 0 = ∑ v, (s.pc v).pending + hashCount := hpending
  have hpast := hs.past t (by rw [hpc]; rfl)
  refine ⟨hs.found, all_update hs.worker hsearched, ?_, ?_, ?_, fun _ _ => hpast, hs.started, ?_⟩
  · dsimp only
    rw [countedFor_append, if_pos hd, ← hs.tally, ← add_zero (∑ v, _), hpending, add_assoc]
  · intro v
    dsimp only
    rw [reportsOf_append]
    by_cases hv : v = t
    · subst hv
      rw [Function.update_self, if_pos ⟨rfl, hd⟩, hs.reports v, hpc]
      rfl
    · rw [Function.update_of_ne hv, if_neg (fun hc => hv hc.1.symm), Nat.add_zero]
      exact hs.reports v
  · intro r hr
    rcases List.mem_append.mp hr with hr | hr
    · exact hs.later r hr
    · rw [List.mem_singleton.mp hr]
      exact Nat.le_of_eq hd
  · exact hs.told.result (Nat.le_of_eq hd.symm) rfl rfl

theorem Shared.add (hs : Shared U completions users k s) {hashCount : BitVec 32} (hpc : s.pc t = .add d hashCount) :
    Shared U completions users k
      { s with hashCount := s.hashCount + hashCount, pc := update s.pc t (.arrive d) } := by
  have hsearched : Searched U completions s.found d := by
    have hw := hs.worker t
    rwa [hpc] at hw
  have hpending := Threads.sum_update Pc.pending s.pc t (.arrive d)
  rw [hpc] at hpending
  have hpending : ∑ v, (update s.pc t (.arrive d) v).pending + hashCount = ∑ v, (s.pc v).pending + 0 := hpending
  have hpast := hs.past t (by rw [hpc]; rfl)
  refine ⟨hs.found, all_update hs.worker hsearched, ?_, ?_, hs.later, fun _ _ => hpast, hs.started,
    ⟨hs.told.length, hs.told.each⟩⟩
  · dsimp only
    rw [add_assoc, add_comm hashCount, hpending, add_zero]
    exact hs.tally
  · exact reports_update hs.reports (by rw [hpc]; rfl)

theorem Search.keeps {found : Bool} {q : Pc} (hs : Search U found q p) :
    (∀ j, Stays j q p) ∧ p.pending = q.pending ∧ p.reported = q.reported ∧ p.past = q.past := by
  cases hs with
  | ready d => exact ⟨fun _ => ⟨rfl, rfl, rfl, trivial, by simp⟩, rfl, rfl, rfl⟩
  | through d tmp hashCount => exact ⟨fun _ => ⟨rfl, rfl, rfl, trivial, by simp⟩, rfl, rfl, rfl⟩
  | more d tmp left hashCount => exact ⟨fun _ => ⟨rfl, rfl, rfl, trivial, by simp⟩, rfl, rfl, rfl⟩
  | look d tmp left hashCount =>
    cases found with
    | true => exact ⟨fun _ => ⟨rfl, rfl, rfl, trivial, by simp⟩, rfl, rfl, rfl⟩
    | false => exact ⟨fun _ => ⟨rfl, rfl, rfl, trivial, by simp⟩, rfl, rfl, rfl⟩
  | guess d tmp left hashCount =>
    unfold Cracker2.guess
    split
    · exact ⟨fun _ => ⟨rfl, rfl, rfl, trivial, by simp⟩, rfl, rfl, rfl⟩
    · dsimp only
      split
      · exact ⟨fun _ => ⟨rfl, rfl, rfl, trivial, by simp⟩, rfl, rfl, rfl⟩
      · exact ⟨fun _ => ⟨rfl, rfl, rfl, trivial, by simp⟩, rfl, rfl, rfl⟩

/-! ## The last worker comes -/

/-- With one more, all wait. -/
theorem all_wait {f : Pc → Nat} (hle : ∀ p, f p ≤ 1) (hcount : s.barrier.count = ∑ v, f (s.pc v))
    (hlast : s.barrier.count + 1 = n) (ht : f (s.pc t) = 0) (hp : f p = 1) (v : Fin n) : f (update s.pc t p v) = 1 := by
  have hsum := Threads.sum_update f s.pc t p
  have hcard : ∑ v, f (update s.pc t p v) = Fintype.card (Fin n) := by
    rw [Fintype.card_fin]
    omega
  exact Threads.all_of_sum_eq_card (fun v => hle _) hcard v

theorem Pc.of_waits (h : p.waits = 1) : ∃ d gen, p = .wait d gen := by
  cases p with
  | wait d gen => exact ⟨d, gen, rfl⟩
  | _ => cases h

theorem Pc.of_waitsAgain (h : p.waitsAgain = 1) : ∃ gen, p = .waitAgain gen := by
  cases p with
  | waitAgain gen => exact ⟨gen, rfl⟩
  | _ => cases h

/-- The first half is over when the last worker comes to the barrier. -/
theorem First.last (hS : Splits U completions n) (hf : First U completions users k s) (hpc : s.pc t = .arrive d)
    (hlast : s.barrier.count + 1 = n) :
    ∃ u, Second U completions users k u
      { s with barrier := s.barrier.arrive n, pc := update s.pc t (.wait d s.barrier.gen) } := by
  have hr := hf.round
  have hs := hf.shared
  have hn : 0 < n := by omega
  rcases hr.data t d (by rw [hpc]; rfl) with ⟨u, i, hu, hi, hd⟩
  have hbarrier : s.barrier.arrive n = ⟨0, s.barrier.gen + 1⟩ := if_pos hlast
  have hall := all_wait (t := t) (p := .wait d s.barrier.gen) Pc.waits_le hr.count hlast (by rw [hpc]; rfl) rfl
  have hpulled : ∀ v, (s.pc v).pulled = 1 := by
    intro v
    by_cases hv : v = t
    · rw [hv, hpc]
      rfl
    · have hw := hall v
      rw [Function.update_of_ne hv] at hw
      rcases Pc.of_waits hw with ⟨d', gen, e⟩
      rw [e]
      rfl
  have hsum : ∑ v, (s.pc v).pulled = n := by rw [Threads.sum_of_all hpulled, Fintype.card_fin]
  have hother : ∀ v, v ≠ t → ∃ d' gen, s.pc v = .wait d' gen := by
    intro v hv
    have hw := hall v
    rw [Function.update_of_ne hv] at hw
    exact Pc.of_waits hw
  have hpending : ∑ v, (s.pc v).pending = 0 := by
    apply Finset.sum_eq_zero
    intro v _
    by_cases hv : v = t
    · rw [hv, hpc]
      rfl
    · rcases hother v hv with ⟨d', gen, e⟩
      rw [e]
      rfl
  have hcomplete := hs.past t (by rw [hpc]; rfl)
  have hline : ∀ v d', (s.pc v).data = some d' → d'.line = k ∧ d'.user = u := by
    intro v d' hd'
    rcases hr.data v d' hd' with ⟨u', i', hu', -, e⟩
    cases hu.symm.trans hu'
    rw [e]
    exact ⟨rfl, rfl⟩
  -- every range has been searched by the worker that has it
  have hclear : s.found = false → ¬ u.Crackable U completions := by
    intro hnot
    apply not_crackable hS hn k
    intro j hj
    rcases hr.cover u hu j (by omega) with ⟨v, hv⟩
    have hsearched : Searched U completions s.found (dataFor U n k u j) := by
      have hw := hs.worker v
      by_cases e : v = t
      · rw [e, hpc] at hv
        rw [e, hpc] at hw
        rw [← Option.some.inj hv]
        exact hw
      · rcases hother v e with ⟨d', gen, e'⟩
        rw [e'] at hv hw
        rw [← Option.some.inj hv]
        exact hw
    rcases hsearched with h | h
    · rw [hnot] at h
      cases h
    · exact h
  have hkey : ∀ v, update s.pc t (.wait d s.barrier.gen) v ≠ .arriveAgain ∧
      ∀ gen, update s.pc t (.wait d s.barrier.gen) v ≠ .waitAgain gen := by
    intro v
    rcases Pc.of_waits (hall v) with ⟨d', gen, e⟩
    rw [e]
    exact ⟨by simp, by simp⟩
  refine ⟨u, ⟨hu, ?_, ?_, ?_, ?_, ?_, ?_, ?_, hs.later, ?_, ?_, ?_⟩⟩
  · intro v
    have hat := all_update hr.at_ (t := t) (p := .wait d s.barrier.gen) hr.gen v
    rcases Pc.of_waits (hall v) with ⟨d', gen, e⟩
    dsimp only
    rw [e] at hat ⊢
    exact hat
  · rw [hbarrier, ← hr.gen]
  · rw [hbarrier]
    refine (Finset.sum_eq_zero ?_).symm
    intro v _
    rcases Pc.of_waits (hall v) with ⟨d', gen, e⟩
    dsimp only
    rw [e]
    rfl
  · rw [hbarrier]
    exact hn
  · have hqueue := hr.queue
    rw [hsum, drop_user hu, fill_drop_all] at hqueue
    exact hqueue
  · exact data_update hline (by rw [hpc]; rfl)
  · intro v
    rw [hs.reports v]
    by_cases hv : v = t
    · rw [hv, hpc]
      rfl
    · rcases hother v hv with ⟨d', gen, e⟩
      rw [e]
      rfl
  · have hstarted := hs.started
    rw [hcomplete] at hstarted
    exact hstarted
  · intro _
    refine ⟨?_, hclear, ?_, ⟨hs.told.length, hs.told.each⟩, hkey⟩
    · intro hfound
      rcases hs.found hfound with ⟨u', hu', hnamed⟩
      cases hu.symm.trans hu'
      exact hnamed
    · have htally := hs.tally
      rw [hpending, add_zero] at htally
      exact htally
  · intro hc
    rw [hcomplete] at hc
    cases hc

theorem First.move (hU : Enumerates U completions) (hS : Splits U completions n) (hf : First U completions users k s)
    (hm : Move U s t s') : Inv U completions users s' := by
  have hr := hf.round
  have hs := hf.shared
  have hat := hr.at_ t
  have hline : ∀ d, (s.pc t).data = some d → ∃ u, users[k]? = some u ∧ d.line = k ∧ d.user = u ∧
      d.InRange U completions := by
    intro d hd
    rcases hr.data t d hd with ⟨u, i, hu, hi, e⟩
    refine ⟨u, hu, ?_⟩
    rw [e]
    exact ⟨rfl, rfl, dataFor_inRange hS hi⟩
  cases hm with
  | stop queue hpc hq =>
    have hpast : Pc.past .stopped = true → s.complete = false := fun h => by cases h
    exact Or.inl ⟨k, hr.stop hpc hq, hs.goes queue s.barrier hpc trivial rfl rfl hpast⟩
  | take d queue hpc hq =>
    have hpast : (Pc.begun d).past = true → s.complete = false := fun h => by cases h
    exact Or.inl ⟨k, hr.take hpc hq, hs.goes queue s.barrier hpc trivial rfl rfl hpast⟩
  | first d hpc hcomplete =>
    rcases hline d (by rw [hpc]; rfl) with ⟨u, hu, -, hd, -⟩
    exact Or.inl ⟨k, hr.goes hpc rfl rfl rfl ⟨rfl, rfl, rfl, trivial, by simp⟩,
      hs.first hu hpc hd hcomplete⟩
  | next d hpc hcomplete =>
    exact Or.inl ⟨k, hr.goes hpc rfl rfl rfl ⟨rfl, rfl, rfl, trivial, by simp⟩,
      hs.goes s.queue s.barrier hpc trivial rfl rfl fun _ => hcomplete⟩
  | search p hsearch =>
    rcases hsearch.keeps with ⟨hstays, hpending, hreported, hpast⟩
    have hok : PcOk U completions s.found p := by
      refine hsearch.ok hU ?_ (hs.worker t)
      intro d hd
      rcases hline d (by rw [hd]; rfl) with ⟨u, -, -, -, hrange⟩
      exact hrange
    exact Or.inl ⟨k, hr.goes rfl rfl rfl rfl (hstays k),
      hs.goes s.queue s.barrier rfl hok hpending hreported fun h => hs.past t (hpast ▸ h)⟩
  | publish d tmp hashCount hpc =>
    rcases hline d (by rw [hpc]; rfl) with ⟨u, hu, -, hd, -⟩
    exact Or.inl ⟨k, hr.goes hpc rfl rfl rfl ⟨rfl, rfl, rfl, trivial, by simp⟩,
      hs.publish hu hpc hd⟩
  | result d hashCount status hpc =>
    rcases hline d (by rw [hpc]; rfl) with ⟨u, -, hd, -, -⟩
    exact Or.inl ⟨k, hr.goes hpc rfl rfl rfl ⟨rfl, rfl, rfl, trivial, by simp⟩,
      hs.result hpc hd⟩
  | add d hashCount hpc =>
    exact Or.inl ⟨k, hr.goes hpc rfl rfl rfl ⟨rfl, rfl, rfl, trivial, by simp⟩,
      hs.add hpc⟩
  | arrive d hpc =>
    by_cases hlast : s.barrier.count + 1 = n
    · rcases hf.last hS hpc hlast with ⟨u, hsecond⟩
      exact Or.inr ⟨k, u, hsecond⟩
    · have hsearched : Searched U completions s.found d := by
        have hw := hs.worker t
        rwa [hpc] at hw
      have hpast := hs.past t (by rw [hpc]; rfl)
      exact Or.inl ⟨k, hr.arrive hpc hlast,
        hs.goes s.queue _ hpc hsearched rfl rfl fun _ => hpast⟩
  | pass d gen hpc hgen =>
    rw [hpc] at hat
    exact absurd (hat.trans hr.gen.symm) hgen
  | told d hpc _ =>
    rw [hpc] at hat
    exact hat.elim
  | tell d hpc _ =>
    rw [hpc] at hat
    exact hat.elim
  | arriveAgain hpc =>
    rw [hpc] at hat
    exact hat.elim
  | passAgain gen hpc _ =>
    have hpast : Pc.past .pull = true → s.complete = false := fun h => by cases h
    exact Or.inl ⟨k, hr.goes hpc rfl rfl rfl ⟨rfl, rfl, rfl, trivial, by simp⟩,
      hs.goes s.queue s.barrier hpc trivial rfl rfl hpast⟩

end SysProg.PasswordCracker.Cracker2
