/-
  SysProg.Concurrency.QueueWakeup — lost wakeups of the shared condition variable
  (see `SysProg.Concurrency.Queue`).

  Pushers and pullers wait on one condition variable and every call signals one waiter.
  The waiter a signal picks may be one that cannot go on, while another could: it goes
  back to sleep, the signal is spent, and nobody is left to wake the other.
  - `the_wakeup_is_lost`: one slot, two pullers, two pushers; one value is pushed and
    pulled, and the second pusher and the second puller are left asleep with the slot
    free.
  - `no_lost_wakeup`: in every run in which a signal goes to a waiter that can go on
    whenever some waiter can, no wakeup is lost: whoever could go on has a thread ahead
    of it that will signal (`Pending`). Spurious wakeups change nothing.
  - `unbounded_no_lost_wakeup`: with no bound (`max_size` not positive) pushers never
    wait, so every signal is such a signal and no run loses a wakeup.
-/

import Mathlib.Data.Fin.Basic
import SysProg.Concurrency.Queue

namespace SysProg.BlockingQueue

open Function (update)

variable {T V : Type} [DecidableEq T]

/-- The loop condition of the call thread `t` makes is false: it could go on. -/
def canGo (s : St T V) (t : T) : Bool :=
  match s.calls t with
  | c :: _ => !mustWait s.q c
  | [] => false

/-- Blocked in `pthread_cond_wait` with its condition already true. -/
def Ready (s : St T V) (t : T) : Prop := (s.pc t).isWaiting = true ∧ canGo s t = true

/-- Every unfinished thread is blocked in `pthread_cond_wait`, one of them needlessly. -/
def LostWakeup (s : St T V) : Prop := (∃ t, Ready s t) ∧ ∀ t, s.calls t ≠ [] → (s.pc t).isWaiting = true

/-- A signal goes to a waiter that can go on whenever some waiter can. -/
def WellAimed (s : St T V) : Act T → Prop
  | .signal _ w => (∃ u, Ready s u) → ∃ u, w = some u ∧ Ready s u
  | _ => True

/-! ## A thread that will signal -/

/-- Thread `t` is not blocked and will signal: past its loop, or about to pass it. -/
def Active (s : St T V) (t : T) : Prop :=
  (s.pc t).willSignal = true ∨ ((s.pc t = .woken ∨ s.pc t = .loop) ∧ canGo s t = true)

structure Pending (s : St T V) : Prop where
  active : (∃ t, Ready s t) → ∃ t, Active s t
  inCall : ∀ t, s.pc t ≠ .idle → s.calls t ≠ []

omit [DecidableEq T] in
theorem pending_not_lost {s : St T V} (h : Pending s) : ¬ LostWakeup s := by
  intro ⟨hready, hall⟩
  obtain ⟨t, ht⟩ := h.active hready
  have hcall : s.calls t ≠ [] := by
    refine h.inCall t fun hidle => ?_
    rcases ht with ht | ⟨ht | ht, -⟩ <;> simp [hidle, Pc.willSignal] at ht
  have hwait := hall t hcall
  rcases ht with ht | ⟨ht | ht, -⟩
  · cases hp : s.pc t <;> simp_all [Pc.willSignal, Pc.isWaiting]
  · simp [ht, Pc.isWaiting] at hwait
  · simp [ht, Pc.isWaiting] at hwait

/-! Only thread `t` moves: the others are as ready and as active as they were. -/

section Others

variable {s : St T V} {o : Option T} {t u : T} {p : Pc V}

theorem ready_other (hu : u ≠ t) : Ready { s with owner := o, pc := update s.pc t p } u ↔ Ready s u := by
  simp only [Ready, Function.update_of_ne hu]
  rfl

theorem active_other (hu : u ≠ t) : Active { s with owner := o, pc := update s.pc t p } u ↔ Active s u := by
  simp only [Active, Function.update_of_ne hu]
  rfl

/-- A thread just moved to a statement outside `pthread_cond_wait` is not ready. -/
theorem ready_moved (hp : p.isWaiting = false) (hr : Ready { s with owner := o, pc := update s.pc t p } u) : u ≠ t := by
  intro heq
  subst heq
  have := hr.1
  simp [hp] at this

end Others

/-- Thread `t` alone moves, to a statement from which it will signal. -/
theorem active_self {s : St T V} {t : T} {q' : Queue V} {p' : Pc V} (hp : p'.willSignal = true) :
    ∃ u, Active { s with q := q', pc := update s.pc t p' } u :=
  ⟨t, Or.inl (by simpa using hp)⟩

/-- The calls are as they were, and only `t`'s program counter moved, inside its call. -/
theorem inCall_move {pc : T → Pc V} {calls : T → List (Call V)} (h : ∀ u, pc u ≠ .idle → calls u ≠ []) {t : T}
    (ht : calls t ≠ []) (p' : Pc V) : ∀ u, update pc t p' u ≠ .idle → calls u ≠ [] := by
  intro u hu
  by_cases e : u = t
  · subst e; exact ht
  · rw [Function.update_of_ne e] at hu; exact h u hu

variable [Fintype T]

theorem step_pending {s s' : St T V} {a : Act T} (hi : Pending s) (hc : WellAimed s a) (h : step s a = some s') :
    Pending s' := by
  cases step_move h with
  | lock t c rest hcall ho hp =>
    refine ⟨fun ⟨u, hu⟩ => ?_, inCall_move hi.inCall (by simp [hcall]) _⟩
    have hut := ready_moved rfl hu
    obtain ⟨w, hw⟩ := hi.active ⟨u, (ready_other hut).mp hu⟩
    refine ⟨w, ?_⟩
    -- the locking thread is about to pass its loop if it was when it was woken
    by_cases e : w = t
    · subst e
      rcases hw with hw | ⟨-, hw⟩
      · rcases hp with hp | hp <;> simp [hp, Pc.willSignal] at hw
      · exact Or.inr ⟨Or.inr (by simp), hw⟩
    · exact (active_other e).mpr hw
  | wait t c rest hcall hp hw =>
    have hblocked : canGo s t = false := by simp [canGo, hcall, hw]
    refine ⟨fun ⟨u, hu⟩ => ?_, inCall_move hi.inCall (by simp [hcall]) _⟩
    have hut : u ≠ t := by
      intro heq
      subst heq
      have hgo : canGo s u = true := hu.2
      rw [hblocked] at hgo; cases hgo
    obtain ⟨w, hw'⟩ := hi.active ⟨u, (ready_other hut).mp hu⟩
    have hwt : w ≠ t := by
      intro heq
      subst heq
      rcases hw' with hw' | ⟨-, hw'⟩
      · simp [hp, Pc.willSignal] at hw'
      · rw [hblocked] at hw'; cases hw'
    exact ⟨w, (active_other hwt).mpr hw'⟩
  | enter t c rest hcall hp hw =>
    exact ⟨fun _ => active_self (by cases c <;> rfl), inCall_move hi.inCall (by simp [hcall]) _⟩
  | statement t c rest q' p' hcall hst =>
    exact ⟨fun _ => active_self ((statement_spec hst).willSignal), inCall_move hi.inCall (by simp [hcall]) _⟩
  | malloc t a v rest hcall hp ha =>
    exact ⟨fun _ => active_self rfl, inCall_move hi.inCall (by simp [hcall]) _⟩
  | unlock t c rest ret hcall hp =>
    refine ⟨fun ⟨u, hu, hgo⟩ => ?_, fun u hu => ?_⟩
    · have hut : u ≠ t := by rintro rfl; simp [unlock, Pc.isWaiting] at hu
      simp only [unlock, Function.update_of_ne hut] at hu
      have hgo : canGo s u = true := by simpa [unlock, canGo, Function.update_of_ne hut] using hgo
      obtain ⟨w, hw⟩ := hi.active ⟨u, hu, hgo⟩
      have hwt : w ≠ t := by
        intro heq
        subst heq
        rcases hw with hw | ⟨hw | hw, -⟩ <;> simp [hp, Pc.willSignal] at hw
      refine ⟨w, ?_⟩
      simpa [Active, unlock, canGo, Function.update_of_ne hwt] using hw
    · have hut : u ≠ t := by rintro rfl; simp [unlock] at hu
      simp only [unlock, Function.update_of_ne hut] at hu ⊢
      exact hi.inCall u hu
  | signalNone t ret hp hn =>
    refine ⟨fun ⟨u, hu⟩ => ?_, inCall_move hi.inCall (hi.inCall t (by simp [hp])) _⟩
    have hwait := ((ready_other (ready_moved rfl hu)).mp hu).1
    rw [hn u] at hwait; cases hwait
  | signal t w ret hp hw =>
    have hin := inCall_move hi.inCall (hi.inCall t (by simp [hp])) (.unlock ret)
    have hcall : s.calls w ≠ [] := hi.inCall w fun hidle => by simp [hidle, Pc.isWaiting] at hw
    refine ⟨fun ⟨u, hu⟩ => ?_, inCall_move hin hcall _⟩
    have huw : u ≠ w := by
      intro heq
      subst heq
      have := hu.1
      simp [Pc.isWaiting] at this
    have hut : u ≠ t := by
      intro heq
      subst heq
      have := hu.1
      simp [Function.update_of_ne huw, Pc.isWaiting] at this
    have hready : Ready s u := by
      simp only [Ready, Function.update_of_ne huw, Function.update_of_ne hut] at hu
      exact hu
    -- a waiter can still go on, so the woken one can
    obtain ⟨x, hx, -, hgo⟩ := hc ⟨u, hready⟩
    obtain rfl : w = x := Option.some.inj hx
    exact ⟨w, Or.inr ⟨Or.inl (by simp), hgo⟩⟩
  | spurious w hw =>
    have hcall : s.calls w ≠ [] := hi.inCall w fun hidle => by simp [hidle, Pc.isWaiting] at hw
    refine ⟨fun ⟨u, hu⟩ => ?_, inCall_move hi.inCall hcall _⟩
    obtain ⟨x, hx⟩ := hi.active ⟨u, (ready_other (ready_moved rfl hu)).mp hu⟩
    have hxw : x ≠ w := by
      intro heq
      subst heq
      rcases hx with hx | ⟨hx | hx, -⟩
      · cases hpx : s.pc x <;> simp_all [Pc.willSignal, Pc.isWaiting]
      · simp [hx, Pc.isWaiting] at hw
      · simp [hx, Pc.isWaiting] at hw
    exact ⟨x, (active_other hxw).mpr hx⟩

omit [DecidableEq T] [Fintype T] in
theorem create_pending (maxSize : Int) (calls : T → List (Call V)) : Pending (queueCreate maxSize calls) where
  active := fun ⟨_, ht, _⟩ => by simp [queueCreate, Pc.isWaiting] at ht
  inCall t ht := absurd rfl ht

theorem via_pending {s : St T V} (h : (sys (T := T) (V := V)).Via WellAimed s) : Pending s := by
  refine Run.Sys.Via.inv (I := Pending) ?_ ?_ h
  · rintro _ ⟨m, cs, rfl⟩; exact create_pending m cs
  · intro _ _ _ hi hc hst; exact step_pending hi hc hst

/-- In every run whose signals are well aimed, no wakeup is lost. -/
theorem no_lost_wakeup {s : St T V} (h : (sys (T := T) (V := V)).Via WellAimed s) : ¬ LostWakeup s :=
  pending_not_lost (via_pending h)

instance (s : St T V) (t : T) : Decidable (Ready s t) := inferInstanceAs (Decidable (_ ∧ _))

instance (s : St T V) : DecidablePred (WellAimed s)
  | .signal _ w => inferInstanceAs (Decidable ((∃ u, Ready s u) → ∃ u, w = some u ∧ Ready s u))
  | .run _ | .malloc _ _ | .spurious _ => .isTrue trivial

/-- A pusher wakes the puller that sleeps on the empty queue, and the puller the pusher that sleeps on the
    full one. -/
theorem no_lost_wakeup_two_signals :
    let calls : Fin 4 → List (Call Nat) := fun t => if t < 2 then [.pull] else [.push 10]
    ∃ s, Run.exec (Run.guard WellAimed step) (queueCreate 1 calls)
      [.run 0, .run 0, .run 2, .run 2, .malloc 2 1, .run 2, .run 2, .signal 2 (some 0), .run 2, .run 3, .run 3,
        .run 0, .run 0, .run 0, .run 0, .run 0, .signal 0 (some 3)] = some s ∧ s.pc 3 = .woken ∧ ¬ LostWakeup s := by
  intro calls
  have hs : (Run.exec (Run.guard WellAimed step) (queueCreate 1 calls)
      [.run 0, .run 0, .run 2, .run 2, .malloc 2 1, .run 2, .run 2, .signal 2 (some 0), .run 2, .run 3, .run 3,
        .run 0, .run 0, .run 0, .run 0, .run 0, .signal 0 (some 3)]).isSome = true := by decide
  have h0 : (sys (T := Fin 4) (V := Nat)).Via WellAimed (queueCreate 1 calls) := .init ⟨1, calls, rfl⟩
  exact ⟨_, (Option.some_get hs).symm, rfl, no_lost_wakeup (Run.via_guard h0 (Option.some_get hs).symm)⟩

/-! ## No bound -/

theorem step_maxSize {s s' : St T V} {a : Act T} (h : step s a = some s') : s'.q.maxSize = s.q.maxSize := by
  cases step_move h with
  | enter t c rest => cases c <;> rfl
  | statement t c rest q' p' hc hst => exact (statement_spec hst).maxSize
  | _ => rfl

def OnlyPullersWait (s : St T V) : Prop := ∀ t, (s.pc t).isWaiting = true → ∃ rest, s.calls t = .pull :: rest

omit [Fintype T] in
/-- Thread `t` alone moves, to a statement outside `pthread_cond_wait`. -/
theorem onlyPullers_move {s : St T V} (h : OnlyPullersWait s) {t : T} {p : Pc V} (hp : p.isWaiting = false) (u : T)
    (hu : (update s.pc t p u).isWaiting = true) : ∃ rest, s.calls u = .pull :: rest := by
  have hut : u ≠ t := by rintro rfl; rw [Function.update_self, hp] at hu; cases hu
  exact h u (by rwa [Function.update_of_ne hut] at hu)

theorem step_onlyPullers {s s' : St T V} {a : Act T} (hm : s.q.maxSize ≤ 0) (hi : OnlyPullersWait s)
    (h : step s a = some s') : OnlyPullersWait s' := by
  cases step_move h with
  | wait t c rest hc hp hw =>
    intro u hu
    by_cases e : u = t
    · subst e
      cases c with
      | push v => simp only [mustWait, decide_eq_true_eq] at hw; omega
      | pull => exact ⟨rest, hc⟩
    · exact hi u (by simpa only [Function.update_of_ne e] using hu)
  | unlock t c rest ret hc hp =>
    intro u hu
    have hut : u ≠ t := by rintro rfl; simp [unlock, Pc.isWaiting] at hu
    simp only [unlock, Function.update_of_ne hut] at hu ⊢
    exact hi u hu
  | signal t w ret hp hw =>
    have hmid : OnlyPullersWait { s with pc := update s.pc t (.unlock ret) } := onlyPullers_move hi rfl
    exact onlyPullers_move hmid rfl
  | statement t c rest q' p' hc hst =>
    apply onlyPullers_move hi
    have := (statement_spec hst).willSignal
    cases p' <;> simp_all [Pc.willSignal, Pc.isWaiting]
  | enter t c rest hc hp hw => exact onlyPullers_move hi (by cases c <;> rfl)
  | _ => exact onlyPullers_move hi rfl

/-- When only pullers wait, one of them can go on exactly when all can. -/
theorem onlyPullers_wellAimed {s s' : St T V} {a : Act T} (hi : OnlyPullersWait s) (h : step s a = some s') :
    WellAimed s a := by
  cases step_move h with
  | signalNone t ret hp hn =>
    intro ⟨u, hu, _⟩
    rw [hn u] at hu; cases hu
  | signal t w ret hp hw =>
    intro ⟨u, hu, hgo⟩
    obtain ⟨rest, hcu⟩ := hi u hu
    obtain ⟨rest', hcw⟩ := hi w hw
    refine ⟨w, rfl, hw, ?_⟩
    simpa [canGo, hcu, hcw] using hgo
  | _ => trivial

/-- With no bound on the size no run loses a wakeup. -/
theorem unbounded_no_lost_wakeup {s : St T V} (h : (sys (T := T) (V := V)).Reach s) (hm : s.q.maxSize ≤ 0) :
    ¬ LostWakeup s := by
  have hrun : s.q.maxSize ≤ 0 → (sys (T := T) (V := V)).Via WellAimed s ∧ OnlyPullersWait s := by
    clear hm
    induction h with
    | init hs =>
      obtain ⟨m, cs, rfl⟩ := hs
      exact fun _ => ⟨.init ⟨m, cs, rfl⟩, fun t ht => by simp [queueCreate, Pc.isWaiting] at ht⟩
    | step a _ _ hst ih =>
      intro hm
      rw [step_maxSize hst] at hm
      obtain ⟨hvia, hi⟩ := ih hm
      exact ⟨.step a hvia (onlyPullers_wellAimed hi hst) hst, step_onlyPullers hm hi hst⟩
  exact pending_not_lost (via_pending (hrun hm).1)

/-! ## Without the condition -/

def Signalled (_ : St T V) : Act T → Prop
  | .spurious _ => False
  | _ => True

def lostCalls : Fin 4 → List (Call Nat)
  | 0 => [.pull]
  | 1 => [.pull]
  | 2 => [.push 10]
  | 3 => [.push 20]

/-- Pullers `a` and `b`, pushers `c` and `d`. -/
def lostRun {U : Type} (a b c d : U) : List (Act U) :=
  -- both pullers find the queue empty and sleep
  [.run a, .run a, .run b, .run b,
  -- pusher `c` fills the one slot and wakes puller `a`; pusher `d` finds the queue full and sleeps
   .run c, .run c, .malloc c 1, .run c, .run c, .signal c (some a), .run c, .run d, .run d,
  -- puller `a` takes the value and signals puller `b`, which finds the queue empty again
   .run a, .run a, .run a, .run a, .run a, .signal a (some b), .run a, .run b, .run b]

instance (s : St T V) : Decidable (LostWakeup s) := inferInstanceAs (Decidable (_ ∧ _))

/-- The pusher sleeps for ever beside a free slot: the only signal went to a puller. -/
theorem the_wakeup_is_lost : ∃ s, (sys (T := Fin 4) (V := Nat)).Via Signalled s ∧ LostWakeup s := by
  refine ⟨(Run.exec step (queueCreate 1 lostCalls) (lostRun 0 1 2 3)).get (by decide), ?_, by decide⟩
  have h0 : (sys (T := Fin 4) (V := Nat)).Via Signalled (queueCreate 1 lostCalls) := .init ⟨1, lostCalls, rfl⟩
  refine Run.via_exec h0 ?_ (Option.some_get _).symm
  simp [lostRun, Signalled]

end SysProg.BlockingQueue
