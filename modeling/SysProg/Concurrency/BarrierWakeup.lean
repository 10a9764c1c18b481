/-
  SysProg.Concurrency.BarrierWakeup — no thread sleeps through the end of its round
  (see `SysProg.Concurrency.Barrier`).

  A thread goes to sleep when `times_used` is still what it has read, and every thread that is
  asleep when it changes is woken before the mutex is given up (`Roused.asleep`). What it
  has read tells its round from the next one, as 2^32 is not 1 (`Roused.read`). So with the mutex
  free a thread is asleep only while another has not arrived (`sleepers_are_woken`), and as long as
  nobody is behind with a call somebody goes on.
-/

import SysProg.Concurrency.Barrier

namespace SysProg.ReusableBarrier

open Function (update)

variable {T : Type} [DecidableEq T] {s s' : St T} {t : T} {p : Pc}

def Pc.read : Pc → Option Nat
  | .test timesUsed | .loop timesUsed | .waiting timesUsed | .woken timesUsed => some timesUsed
  | _ => none

/-- Between the change of `times_used` and the broadcast. -/
def Pc.ending : Pc → Bool
  | .resetCount | .broadcast => true
  | _ => false

structure Roused (s : St T) : Prop where
  asleep : ∀ t timesUsed, s.pc t = .waiting timesUsed → timesUsed = s.b.timesUsed ∨ ∃ u, (s.pc u).ending = true
  read : ∀ t timesUsed, (s.pc t).read = some timesUsed → (timesUsed + 1) % 2 ^ 32 = s.arrived t % 2 ^ 32

/-! ## One thread moves -/

/-- Neither `times_used` nor the calls that were counted change. -/
theorem Roused.move {b : Barrier} {owner : Option T} {entered returned : T → Nat} (h : Roused s)
    (hb : b.timesUsed = s.b.timesUsed)
    (hsleep : ∀ timesUsed, p = .waiting timesUsed → timesUsed = s.b.timesUsed)
    (hread : ∀ timesUsed, p.read = some timesUsed → (timesUsed + 1) % 2 ^ 32 = s.arrived t % 2 ^ 32)
    (hend : (s.pc t).ending = true → p.ending = true) :
    Roused { s with b, owner, entered, returned, pc := update s.pc t p } where
  asleep u timesUsed hu := by
    show timesUsed = b.timesUsed ∨ _
    by_cases e : u = t
    · subst e
      rw [hb]
      exact Or.inl (hsleep timesUsed (by simpa using hu))
    · rcases h.asleep u timesUsed (by simpa [e] using hu) with hq | ⟨v, hv⟩
      · exact Or.inl (hq.trans hb.symm)
      · apply Or.inr
        by_cases ev : v = t
        · exact ⟨t, by simpa using hend (ev ▸ hv)⟩
        · exact ⟨v, by simpa [ev] using hv⟩
  read u timesUsed hu := by
    by_cases e : u = t
    · subst e
      exact hread timesUsed (by simpa using hu)
    · exact h.read u timesUsed (by simpa [e] using hu)

theorem Roused.locks (h : Roused s) (hl : lock s t p = some s') (hold : (s.pc t).ending = false)
    (hp : ∀ timesUsed, p ≠ .waiting timesUsed) (hread : p.read = (s.pc t).read ∨ p.read = none) : Roused s' := by
  unfold lock at hl
  split at hl
  · cases hl
    refine h.move rfl (fun n hn => absurd hn (hp n)) ?_ (by simp [hold])
    intro n hn
    rcases hread with hr | hr
    · exact h.read t n (hr ▸ hn)
    · rw [hr] at hn
      cases hn
  · cases hl

/-- The call is counted. -/
theorem Roused.arrives {b : Barrier} (h : Roused s) (hp : s.pc t = .incCount) (hb : b.timesUsed = s.b.timesUsed) :
    Roused { s with b, pc := update s.pc t .readTimesUsed, arrived := update s.arrived t (s.arrived t + 1) } := by
  have hmove : Roused { s with b, pc := update s.pc t .readTimesUsed } :=
    h.move hb (by simp) (by simp [Pc.read]) (by simp [hp, Pc.ending])
  refine ⟨hmove.asleep, ?_⟩
  intro u timesUsed hu
  have e : u ≠ t := by
    intro e
    simp [e, Pc.read] at hu
  show _ = update s.arrived t (s.arrived t + 1) u % 2 ^ 32
  rw [Function.update_of_ne e]
  exact hmove.read u timesUsed hu

/-- The round is over: the threads asleep are about to be woken. -/
theorem Roused.turns {b : Barrier} (h : Roused s) :
    Roused { s with b, pc := update s.pc t .resetCount } where
  asleep u timesUsed hu := Or.inr ⟨t, by simp [Pc.ending]⟩
  read u timesUsed hu := by
    by_cases e : u = t
    · simp [e, Pc.read] at hu
    · exact h.read u timesUsed (by simpa [e] using hu)

omit [DecidableEq T] in
theorem wake_ne_waiting {timesUsed : Nat} : p.wake ≠ .waiting timesUsed := by
  cases p <;> simp [Pc.wake]

omit [DecidableEq T] in
theorem read_wake : p.wake.read = p.read := by
  cases p <;> rfl

/-- All that wait are woken. -/
theorem Roused.broadcasts (h : Roused s) : Roused { s with pc := update (fun u => (s.pc u).wake) t .unlock } where
  asleep u timesUsed hu := by
    by_cases e : u = t
    · simp [e] at hu
    · exact absurd (by simpa [e] using hu) wake_ne_waiting
  read u timesUsed hu := by
    by_cases e : u = t
    · simp [e, Pc.read] at hu
    · exact h.read u timesUsed (by simpa [e, read_wake] using hu)

variable [Fintype T] {r : Nat}

theorem wait_roused (h : Roused s) (hi : Inv r s) (hrun : barrierWait s t = some s') : Roused s' := by
  have hat := hi.at_ t
  unfold barrierWait at hrun
  cases hp : s.pc t with
  | idle =>
    rw [hp] at hrun
    cases hrun
    exact h.move rfl (by simp) (by simp [Pc.read]) (by simp [hp, Pc.ending])
  | lock =>
    rw [hp] at hrun
    exact h.locks hrun (by simp [hp, Pc.ending]) (by simp) (Or.inr rfl)
  | incCount =>
    rw [hp] at hrun
    cases hrun
    exact h.arrives hp rfl
  | readTimesUsed =>
    rw [hp] at hrun hat
    cases hrun
    refine h.move rfl (by simp) ?_ (by simp [hp, Pc.ending])
    intro n hn
    cases hn
    rw [hat.2.2, hi.timesUsed]
    omega
  | test timesUsed =>
    rw [hp] at hrun
    cases hrun
    refine h.move rfl ?_ ?_ (by simp [hp, Pc.ending])
    · intro n hn
      split at hn <;> cases hn
    · intro n hn
      apply h.read t n
      rw [hp]
      split at hn
      · cases hn
      · exact hn
  | incTimesUsed =>
    rw [hp] at hrun
    cases hrun
    exact h.turns
  | resetCount =>
    rw [hp] at hrun
    cases hrun
    exact h.move rfl (by simp) (by simp [Pc.read]) (by simp [Pc.ending])
  | broadcast =>
    rw [hp] at hrun
    cases hrun
    exact h.broadcasts
  | loop timesUsed =>
    rw [hp] at hrun
    dsimp only at hrun
    split at hrun
    · rename_i heq
      cases hrun
      refine h.move rfl ?_ ?_ (by simp [hp, Pc.ending])
      · intro n hn
        cases hn
        exact heq
      · intro n hn
        exact h.read t n (by rw [hp]; exact hn)
    · cases hrun
      exact h.move rfl (by simp) (by simp [Pc.read]) (by simp [hp, Pc.ending])
  | waiting timesUsed =>
    rw [hp] at hrun
    cases hrun
  | woken timesUsed =>
    rw [hp] at hrun
    exact h.locks hrun (by simp [hp, Pc.ending]) (by simp) (Or.inl (by rw [hp]; rfl))
  | unlock =>
    rw [hp] at hrun
    cases hrun
    exact h.move rfl (by simp) (by simp [Pc.read]) (by simp [hp, Pc.ending])

theorem step_roused {a : Act T} (h : Roused s) (hi : Inv r s) (hstep : step s a = some s') : Roused s' := by
  cases a with
  | run t => exact wait_roused h hi hstep
  | spurious t =>
    unfold step at hstep
    dsimp only at hstep
    split at hstep
    · rename_i timesUsed hp
      cases hstep
      refine h.move rfl (by simp) ?_ (by simp [hp, Pc.ending])
      intro n hn
      exact h.read t n (by rw [hp]; exact hn)
    · cases hstep

theorem reach_roused (h : (sharing T).Reach s) : ∃ r, Inv r s ∧ Roused s := by
  refine Run.Sys.Reach.inv (I := fun s => ∃ r, Inv r s ∧ Roused s) ?_ ?_ h
  · intro z ⟨b, hb, hz⟩
    subst hz
    refine ⟨0, start_inv hb, ?_, ?_⟩
    · intro t n hn
      cases hn
    · intro t n hn
      cases hn
  · intro _ _ _ ⟨r, hi, hroused⟩ hs
    obtain ⟨r', hi'⟩ := step_inv hi hs
    exact ⟨r', hi', step_roused hroused hi hs⟩

/-! ## Who is asleep, and who goes on -/

omit [DecidableEq T] in
theorem holds_of_ending (h : p.ending = true) : p.holds = true := by
  cases p <;> first | rfl | cases h

omit [DecidableEq T] in
/-- Asleep with the mutex free is only who has arrived in the round that is not over. -/
theorem Roused.current (h : Roused s) (hi : Inv r s) (hfree : s.owner = none) {timesUsed : Nat}
    (hp : s.pc t = .waiting timesUsed) : s.arrived t = r + 1 := by
  have hat := hi.at_ t
  have hread := h.read t timesUsed (by rw [hp]; rfl)
  rw [hp] at hat
  rcases h.asleep t timesUsed hp with heq | ⟨u, hu⟩
  · rcases hat.2.2 with ⟨ha, -⟩ | ha
    · exact ha
    · rw [ha, heq, hi.timesUsed] at hread
      omega
  · have hown := hi.excl.owner_of (holds_of_ending hu)
    rw [hfree] at hown
    cases hown

omit [DecidableEq T] in
/-- With the mutex free not everybody has arrived in the round that is not over. -/
theorem Inv.behind (hi : Inv r s) (hfree : s.owner = none) : ∃ u, s.arrived u = r := by
  obtain ⟨hcount, hlt⟩ := hi.free hfree
  by_contra hnone
  have hall : ∀ u, s.arrived u = r + 1 := by
    intro u
    have hnear := (hi.at_ u).near.2.2
    have hne : s.arrived u ≠ r := fun e => hnone ⟨u, e⟩
    omega
  have hcard : arrivals s.arrived r = Fintype.card T := by
    unfold arrivals
    rw [Finset.filter_true_of_mem fun u _ => hall u]
    rfl
  omega

omit [Fintype T] in
/-- The thread that has the mutex goes on. -/
theorem holder_goes (h : (s.pc t).holds = true) : (barrierWait s t).isSome = true := by
  unfold barrierWait
  cases hp : s.pc t <;> rw [hp] at h <;> first | rfl | (dsimp only; split <;> rfl) | cases h

omit [Fintype T] in
theorem lock_goes (hfree : s.owner = none) : (lock s t p).isSome = true := by
  simp [lock, hfree]

/-- In every run: with the mutex free, a thread asleep in a call is one that another has still to
    arrive for; and if nobody has made fewer calls than a thread that is in one, some thread in a
    call can go on. -/
theorem sleepers_are_woken (h : (sharing T).Reach s) :
    (s.owner = none → ∀ t timesUsed, s.pc t = .waiting timesUsed → ∃ u, s.arrived u < s.arrived t) ∧
    (∀ t, s.pc t ≠ .idle → (∀ u, s.entered t ≤ s.entered u) → ∃ u, s.pc u ≠ .idle ∧
      (barrierWait s u).isSome = true) := by
  obtain ⟨r, hi, hroused⟩ := reach_roused h
  have hasleep : s.owner = none → ∀ t timesUsed, s.pc t = .waiting timesUsed →
      ∃ u, s.arrived u = r ∧ s.arrived t = r + 1 := by
    intro hfree t timesUsed hp
    obtain ⟨u, hu⟩ := hi.behind hfree
    exact ⟨u, hu, hroused.current hi hfree hp⟩
  refine ⟨?_, ?_⟩
  · intro hfree t timesUsed hp
    obtain ⟨u, hu, ht⟩ := hasleep hfree t timesUsed hp
    exact ⟨u, by omega⟩
  · intro t ht hleast
    cases howner : s.owner with
    | some u =>
      have hholds := (hi.excl u).mp howner
      refine ⟨u, ?_, holder_goes hholds⟩
      intro hidle
      rw [hidle] at hholds
      cases hholds
    | none =>
      by_cases hholds : (s.pc t).holds = true
      · exact ⟨t, ht, holder_goes hholds⟩
      cases hp : s.pc t with
      | idle => exact absurd hp ht
      | lock => exact ⟨t, ht, by rw [barrierWait, hp]; exact lock_goes howner⟩
      | woken timesUsed => exact ⟨t, ht, by rw [barrierWait, hp]; exact lock_goes howner⟩
      | waiting timesUsed =>
        -- somebody has made the call and not been counted yet
        obtain ⟨u, hu, harrived⟩ := hasleep howner t timesUsed hp
        have hat := hi.at_ t
        rw [hp] at hat
        have hentered : s.arrived u < s.entered u := by
          have := hleast u
          have := hat.1
          omega
        have hout : (s.pc u).holds = false := by
          by_contra hin
          have hown := hi.excl.owner_of (Bool.eq_true_of_not_eq_false hin)
          rw [howner] at hown
          cases hown
        have hatu := hi.at_ u
        cases hpu : s.pc u with
        | lock => exact ⟨u, by rw [hpu]; simp, by rw [barrierWait, hpu]; exact lock_goes howner⟩
        | idle | waiting _ | woken _ =>
          rw [hpu] at hatu
          have := hatu.1
          omega
        | _ =>
          rw [hpu] at hout
          cases hout
      | _ =>
        rw [hp] at hholds
        exact absurd rfl hholds

/-- One thread is asleep in its first call, and the other has not made one. -/
theorem sleepers_are_woken_two : ∃ s : St (Fin 2), (sharing (Fin 2)).Reach s ∧ s.pc 0 = .waiting 0 ∧
    ∃ u, s.arrived u < s.arrived 0 := by
  have hrun : (Run.exec step (start ⟨2, 0, 0⟩) (List.replicate 6 (.run 0)) : Option (St (Fin 2))).map
      (fun s => (s.owner, s.pc 0)) = some (none, .waiting 0) := rfl
  obtain ⟨s, hs, he⟩ := Option.map_eq_some_iff.mp hrun
  obtain ⟨hfree, hp⟩ := Prod.mk.inj he
  have hinit : (sharing (Fin 2)).init (start ⟨2, 0, 0⟩) := ⟨_, rfl, rfl⟩
  have hr : (sharing (Fin 2)).Reach s := Run.reach_exec hinit hs
  exact ⟨s, hr, hp, (sleepers_are_woken hr).1 hfree 0 0 hp⟩

end SysProg.ReusableBarrier
