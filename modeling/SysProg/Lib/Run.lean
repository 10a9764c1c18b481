/-
  SysProg.Lib.Run — labelled transition systems and the states their runs reach.

  A system is a set of initial states and a labelled step relation. `Via C` is what a
  run reaches when every one of its steps, taken from state `s` with label `a`,
  satisfies `C s a`; `Reach` puts no condition on the steps. An invariant is proved
  once for a step and holds of every state of every run (`Via.inv`); a simulation, too, is
  proved once for a step (`Via.simulates`). A system whose step is a function runs a list
  of labels (`exec`), and what it computes is reached (`via_exec`, `via_guard`), so a trace
  is checked by evaluation; steps that a relation does not see can be left out of the list
  (`exec_filter`). `Ends` says that such a system, whatever its labels, comes to
  be done, and with a property: a run up to that point has the property (`Ends.sound`),
  and every sequence of labels has such a run at its start (`Ends.total`). Of a system
  whose steps may be blocked, `Rests` says that every run that goes on as long as it can
  is finite and stops in a state with a property (`Rests.of_measure`).
-/

import Mathlib.Logic.Relation

namespace SysProg.Run

structure Sys (σ α : Type) where
  init : σ → Prop
  step : σ → α → σ → Prop

variable {σ α : Type}

/-- Reached by a run each of whose steps satisfies `C`. -/
inductive Sys.Via (M : Sys σ α) (C : σ → α → Prop) : σ → Prop
  | init {s : σ} : M.init s → Via M C s
  | step {s s' : σ} (a : α) : Via M C s → C s a → M.step s a s' → Via M C s'

def Sys.Reach (M : Sys σ α) : σ → Prop := M.Via fun _ _ => True

/-- What holds initially and is kept by every step `C` allows holds along every run. -/
theorem Sys.Via.inv {M : Sys σ α} {C : σ → α → Prop} {I : σ → Prop} (h0 : ∀ s, M.init s → I s)
    (hstep : ∀ s a s', I s → C s a → M.step s a s' → I s') {s : σ} (h : M.Via C s) : I s := by
  induction h with
  | init h => exact h0 _ h
  | step a _ hc hs ih => exact hstep _ a _ ih hc hs

theorem Sys.Reach.inv {M : Sys σ α} {I : σ → Prop} (h0 : ∀ s, M.init s → I s)
    (hstep : ∀ s a s', I s → M.step s a s' → I s') {s : σ} (h : M.Reach s) : I s :=
  Sys.Via.inv h0 (fun s a s' hi _ hs => hstep s a s' hi hs) h

/-- A run under a stronger condition is a run under a weaker one. -/
theorem Sys.Via.mono {M : Sys σ α} {C D : σ → α → Prop} (hCD : ∀ s a, C s a → D s a) {s : σ} (h : M.Via C s) :
    M.Via D s := by
  induction h with
  | init h => exact .init h
  | step a _ hc hs ih => exact .step a ih (hCD _ _ hc) hs

theorem Sys.Via.reach {M : Sys σ α} {C : σ → α → Prop} {s : σ} (h : M.Via C s) : M.Reach s :=
  h.mono fun _ _ _ => trivial

/-- When every step the condition allows is matched by a step of `N`, what a run reaches
    is related to what a run of `N` reaches. -/
theorem Sys.Via.simulates {τ β : Type} {M : Sys σ α} {N : Sys τ β} {C : σ → α → Prop} {R : σ → τ → Prop}
    (h0 : ∀ s, M.init s → ∃ t, N.init t ∧ R s t)
    (hstep : ∀ s t a s', R s t → C s a → M.step s a s' → ∃ b t', N.step t b t' ∧ R s' t') {s : σ} (h : M.Via C s) :
    ∃ t, N.Reach t ∧ R s t := by
  induction h with
  | init h =>
    rcases h0 _ h with ⟨t, ht, hr⟩
    exact ⟨t, .init ht, hr⟩
  | step a _ hc hs ih =>
    rcases ih with ⟨t, ht, hr⟩
    rcases hstep _ t a _ hr hc hs with ⟨b, t', hb, hr'⟩
    exact ⟨t', .step b ht trivial hb, hr'⟩

/-! ## Systems whose step is a function -/

def ofFun (init : σ → Prop) (f : σ → α → Option σ) : Sys σ α := ⟨init, fun s a s' => f s a = some s'⟩

def exec (f : σ → α → Option σ) : σ → List α → Option σ
  | s, [] => some s
  | s, a :: as => (f s a).bind fun s' => exec f s' as

/-- What a list of labels computes from a reached state is reached, under any
    condition the labels satisfy in every state. -/
theorem via_exec {init : σ → Prop} {f : σ → α → Option σ} {C : σ → α → Prop} {s : σ} (hs : (ofFun init f).Via C s)
    {as : List α} (hC : ∀ a ∈ as, ∀ u, C u a) {s' : σ} (h : exec f s as = some s') : (ofFun init f).Via C s' := by
  induction as generalizing s with
  | nil => simp only [exec, Option.some.injEq] at h; exact h ▸ hs
  | cons a as ih =>
    obtain ⟨u, hu, hrest⟩ := Option.bind_eq_some_iff.mp h
    exact ih (.step a hs (hC a (by simp) _) hu) (fun b hb => hC b (List.mem_cons_of_mem _ hb)) hrest

def guard (C : σ → α → Prop) [∀ s a, Decidable (C s a)] (f : σ → α → Option σ) (s : σ) (a : α) : Option σ :=
  if C s a then f s a else none

/-- The steps taken satisfy `D`, and that is enough for `C`. -/
theorem via_guard_of {init : σ → Prop} {f : σ → α → Option σ} {C D : σ → α → Prop} [∀ s a, Decidable (D s a)]
    (hD : ∀ s a, D s a → C s a) {s : σ} (hs : (ofFun init f).Via C s) {as : List α} {s' : σ}
    (h : exec (guard D f) s as = some s') : (ofFun init f).Via C s' := by
  induction as generalizing s with
  | nil => simp only [exec, Option.some.injEq] at h; exact h ▸ hs
  | cons a as ih =>
    obtain ⟨u, hu, hrest⟩ := Option.bind_eq_some_iff.mp h
    unfold guard at hu
    split at hu
    · rename_i hc; exact ih (.step a hs (hD s a hc) hu) hrest
    · cases hu

theorem via_guard {init : σ → Prop} {f : σ → α → Option σ} {C : σ → α → Prop} [∀ s a, Decidable (C s a)] {s : σ}
    (hs : (ofFun init f).Via C s) {as : List α} {s' : σ} (h : exec (guard C f) s as = some s') :
    (ofFun init f).Via C s' :=
  via_guard_of (fun _ _ hc => hc) hs h

theorem reach_exec {init : σ → Prop} {f : σ → α → Option σ} {s : σ} (hs : init s) {as : List α} {s' : σ}
    (h : exec f s as = some s') : (ofFun init f).Reach s' :=
  via_exec (.init hs) (fun _ _ _ => trivial) h

/-! ## Steps left out -/

/-- What is good at the end was good before. -/
theorem exec_back {f : σ → α → Option σ} {I Good : σ → Prop} (hinv : ∀ s a s', I s → f s a = some s' → I s')
    (hback : ∀ s a s', I s → f s a = some s' → Good s' → Good s) {as : List α} {s s' : σ} (hi : I s)
    (h : exec f s as = some s') (hgood : Good s') : Good s := by
  induction as generalizing s with
  | nil =>
    cases h
    exact hgood
  | cons a as ih =>
    obtain ⟨u, hu, hrest⟩ := Option.bind_eq_some_iff.mp h
    exact hback s a u hi hu (ih (hinv s a u hi hu) hrest)

/-- In a run that ends well the steps that are not `mine` can be left out, if `R` does not see them
    and the others go on from related states. -/
theorem exec_filter {τ : Type} {f : σ → α → Option σ} {g : τ → α → Option τ} {mine : α → Bool} {I Good : σ → Prop}
    {R : σ → τ → Prop} (hinv : ∀ s a s', I s → f s a = some s' → I s')
    (hback : ∀ s a s', I s → f s a = some s' → Good s' → Good s)
    (hmine : ∀ s t a s', mine a = true → I s → Good s' → R s t → f s a = some s' → ∃ t', g t a = some t' ∧ R s' t')
    (hother : ∀ s t a s', mine a = false → I s → Good s' → R s t → f s a = some s' → R s' t) {as : List α}
    {s s' : σ} {t : τ} (hi : I s) (hr : R s t) (h : exec f s as = some s') (hgood : Good s') :
    ∃ t', exec g t (as.filter mine) = some t' ∧ R s' t' := by
  induction as generalizing s t with
  | nil =>
    cases h
    exact ⟨t, rfl, hr⟩
  | cons a as ih =>
    obtain ⟨u, hu, hrest⟩ := Option.bind_eq_some_iff.mp h
    have hiu := hinv s a u hi hu
    have hgu := exec_back hinv hback hiu hrest hgood
    cases hm : mine a with
    | true =>
      obtain ⟨t₁, ht₁, hr₁⟩ := hmine s t a u hm hi hgu hr hu
      obtain ⟨t', ht', hr'⟩ := ih hiu hr₁ hrest
      refine ⟨t', ?_, hr'⟩
      rw [List.filter_cons_of_pos hm, exec, ht₁]
      exact ht'
    | false =>
      rw [List.filter_cons_of_neg (by rw [hm]; decide)]
      exact ih hiu (hother s t a u hm hi hgu hr hu) hrest

/-! ## Steps with a result -/

/-- A step function with results, and the log of the labels taken with their results. -/
def logged {ω : Type} (f : σ → α → Option (σ × ω)) (s : σ × List (α × ω)) (a : α) : Option (σ × List (α × ω)) :=
  (f s.1 a).map fun r => (r.1, s.2 ++ [(a, r.2)])

theorem logged_some {ω : Type} {f : σ → α → Option (σ × ω)} {s s' : σ × List (α × ω)} {a : α}
    (h : logged f s a = some s') : ∃ r, f s.1 a = some (s'.1, r) ∧ s'.2 = s.2 ++ [(a, r)] := by
  rcases Option.map_eq_some_iff.mp h with ⟨⟨u, r⟩, hf, e⟩
  cases e
  exact ⟨r, hf, rfl⟩

/-! ## Runs that end -/

/-- Take labels until the state is done; nothing if they run out before or some are left. -/
def upTo (done : σ → Bool) (f : σ → α → Option σ) : List α → σ → Option σ
  | [], s => if done s = true then some s else none
  | a :: as, s => if done s = true then none else (f s a).bind (upTo done f as)

/-- Done with `Q`, after finitely many steps whatever the labels. -/
inductive Ends (done : σ → Bool) (f : σ → α → Option σ) (Q : σ → Prop) : σ → Prop
  | done {s : σ} : done s = true → Q s → Ends done f Q s
  | step {s : σ} (next : α → σ) : done s = false → (∀ a, f s a = some (next a)) → (∀ a, Ends done f Q (next a)) →
      Ends done f Q s

variable {done : σ → Bool} {f : σ → α → Option σ} {Q : σ → Prop} {s s' : σ}

theorem Ends.of_step (hs : done s = false) (h : ∀ a, ∃ s', f s a = some s' ∧ Ends done f Q s') : Ends done f Q s :=
  .step (fun a => (h a).choose) hs (fun a => (h a).choose_spec.1) fun a => (h a).choose_spec.2

theorem Ends.sound (h : Ends done f Q s) {as : List α} (hrun : upTo done f as s = some s') : Q s' := by
  induction h generalizing as with
  | done hd hQ =>
    cases as with
    | nil =>
      rw [upTo, if_pos hd] at hrun
      exact Option.some.inj hrun ▸ hQ
    | cons a as =>
      rw [upTo, if_pos hd] at hrun
      cases hrun
  | step next hd hf _ ih =>
    cases as with
    | nil =>
      rw [upTo, hd] at hrun
      cases hrun
    | cons a as =>
      rw [upTo, hd, hf a] at hrun
      exact ih a hrun

theorem Ends.total (h : Ends done f Q s) (g : Nat → α) : ∃ n s', upTo done f ((List.range n).map g) s = some s' := by
  induction h generalizing g with
  | done hd _ => exact ⟨0, _, if_pos hd⟩
  | step next hd hf _ ih =>
    rcases ih (g 0) (fun n => g (n + 1)) with ⟨n, s', hrun⟩
    refine ⟨n + 1, s', ?_⟩
    rw [List.range_succ_eq_map, List.map_cons, List.map_map, upTo, hd, hf (g 0)]
    exact hrun

/-! ## Runs that come to rest -/

/-- However a run goes on from here, it stops, and where nothing can go on `Q` holds. -/
inductive Sys.Rests (M : Sys σ α) (Q : σ → Prop) : σ → Prop
  | mk {s : σ} : (∀ a s', M.step s a s' → Rests M Q s') → ((∀ a s', ¬ M.step s a s') → Q s) → Rests M Q s

/-- Each step keeps the invariant and makes the measure smaller. -/
theorem Sys.Rests.of_measure {M : Sys σ α} {I Q : σ → Prop} (μ : σ → Nat)
    (hstep : ∀ s a s', I s → M.step s a s' → I s' ∧ μ s' < μ s)
    (hstop : ∀ s, I s → (∀ a s', ¬ M.step s a s') → Q s) {s : σ} (hi : I s) : M.Rests Q s := by
  induction hn : μ s using Nat.strongRecOn generalizing s with
  | ind n ih =>
    subst hn
    refine .mk ?_ (hstop s hi)
    intro a s' hs
    rcases hstep s a s' hi hs with ⟨hi', hlt⟩
    exact ih _ hlt hi' rfl

/-- Some run does stop. -/
theorem Sys.Rests.stops {M : Sys σ α} {Q : σ → Prop} {s : σ} (h : M.Rests Q s) (hr : M.Reach s) :
    ∃ s', M.Reach s' ∧ (∀ a u, ¬ M.step s' a u) ∧ Q s' := by
  induction h with
  | @mk s _ hstop ih =>
    by_cases hgo : ∃ a s', M.step s a s'
    · rcases hgo with ⟨a, s', hs⟩
      exact ih a s' hs (.step a hr trivial hs)
    · have hno : ∀ a s', ¬ M.step s a s' := fun a s' hs => hgo ⟨a, s', hs⟩
      exact ⟨s, hr, hno, hstop hno⟩

end SysProg.Run
