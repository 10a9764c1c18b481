/-
  SysProg.Lib.Follow — a step function followed to its end.

  A step leads on to another state or is done with a result; it may also have no outcome
  at all. `follow` takes a number of steps and has the result if the last of them is done.
  Steps depend on nothing but the state, so from a state that leads back to itself there
  is no end, and where finitely many states are reached there is no other obstacle:
  - `follow_iff`: a state is followed to a result exactly when every state it leads to
    has an outcome and none of them is on a cycle.
  - `follow_iff_names`: the same for a relation that the steps follow where they have an
    outcome.
  - `choose_iff`: the same for steps that depend on a choice made each time: whatever is
    chosen, a state is followed to a result exactly when no choice leaves one without an
    outcome or leads back.
-/

import Mathlib.Data.Set.Finite.Basic
import Mathlib.Data.Stream.Init
import Mathlib.Order.WellFounded
import SysProg.Lib.AdjGraph

namespace SysProg.Follow

open Relation (ReflTransGen TransGen)
open SysProg.Lib (ReachesCycle)

inductive Next (σ ρ : Type) where
  | on (s : σ)
  | done (r : ρ)
  deriving DecidableEq

variable {σ ρ : Type}

def follow (step : σ → Option (Next σ ρ)) : Nat → σ → Option ρ
  | 0, _ => none
  | n + 1, s => (step s).bind fun
    | .on t => follow step n t
    | .done r => some r

def Goes (step : σ → Option (Next σ ρ)) (s t : σ) : Prop := step s = some (.on t)

variable {step : σ → Option (Next σ ρ)} {s t : σ} {r : ρ} {n m : Nat}

theorem follow_on (h : Goes step s t) : follow step (n + 1) s = follow step n t := by rw [follow, h, Option.bind_some]

theorem follow_done (h : step s = some (.done r)) : follow step (n + 1) s = some r := by
  rw [follow, h, Option.bind_some]

/-- More steps than are needed change nothing. -/
theorem follow_mono (h : follow step n s = some r) (hnm : n ≤ m) : follow step m s = some r := by
  induction n generalizing m s with
  | zero => cases h
  | succ n ih =>
    obtain ⟨m, rfl⟩ : ∃ k, m = k + 1 := ⟨m - 1, by omega⟩
    obtain ⟨next, hs, h⟩ := Option.bind_eq_some_iff.mp h
    cases next with
    | on t =>
      rw [follow_on hs]
      exact ih h (Nat.le_of_succ_le_succ hnm)
    | done r' =>
      rw [follow_done hs]
      exact h

/-! ## What a result says -/

theorem follow_goes (h : follow step n s = some r) (hg : Goes step s t) : ∃ m, m < n ∧ follow step m t = some r := by
  cases n with
  | zero => cases h
  | succ n =>
    rw [follow_on hg] at h
    exact ⟨n, Nat.lt_succ_self n, h⟩

/-- A state on the way is followed to the same result, in fewer steps. -/
theorem follow_path (h : follow step n s = some r) (hp : TransGen (Goes step) s t) :
    ∃ m, m < n ∧ follow step m t = some r := by
  induction hp with
  | single hg => exact follow_goes h hg
  | tail _ hg ih =>
    obtain ⟨m, hm, hf⟩ := ih
    obtain ⟨k, hk, hf⟩ := follow_goes hf hg
    exact ⟨k, Nat.lt_trans hk hm, hf⟩

theorem follow_reached (h : follow step n s = some r) (hp : ReflTransGen (Goes step) s t) :
    ∃ m, follow step m t = some r := by
  rcases Relation.reflTransGen_iff_eq_or_transGen.mp hp with rfl | hp
  · exact ⟨n, h⟩
  · obtain ⟨m, _, hf⟩ := follow_path h hp
    exact ⟨m, hf⟩

theorem follow_outcome (h : follow step n s = some r) : (step s).isSome = true := by
  cases n with
  | zero => cases h
  | succ n =>
    obtain ⟨next, hs, _⟩ := Option.bind_eq_some_iff.mp h
    exact Option.isSome_iff_exists.mpr ⟨next, hs⟩

/-- Around a cycle the steps would get fewer for ever. -/
theorem follow_cycle (hc : TransGen (Goes step) s s) : follow step n s = none := by
  induction n using Nat.strongRecOn with
  | ind n ih =>
    by_contra hne
    obtain ⟨r, hr⟩ := Option.ne_none_iff_exists'.mp hne
    obtain ⟨m, hm, hf⟩ := follow_path hr hc
    rw [ih m hm] at hf
    cases hf

/-! ## Where there is a result -/

/-- Without a cycle among finitely many states reached, a relation is well-founded there. -/
theorem reached_wf {R : σ → σ → Prop} (hfin : {t | ReflTransGen R s t}.Finite) (hno : ¬ ReachesCycle R s) :
    WellFounded fun a b : {t // ReflTransGen R s t} => R b.1 a.1 := by
  have hfinite : Finite {t // ReflTransGen R s t} := hfin
  have htrans : IsTrans {t // ReflTransGen R s t} fun a b => TransGen R b.1 a.1 := ⟨fun a b c hab hbc => hbc.trans hab⟩
  have hirrefl : Std.Irrefl fun a b : {t // ReflTransGen R s t} => TransGen R b.1 a.1 :=
    ⟨fun a ha => hno ⟨a.1, a.2, ha⟩⟩
  have hwf := Finite.wellFounded_of_trans_of_irrefl fun a b : {t // ReflTransGen R s t} => TransGen R b.1 a.1
  exact Subrelation.wf (fun h => TransGen.single h) hwf

theorem follow_iff (hfin : {t | ReflTransGen (Goes step) s t}.Finite) :
    (∃ r n, follow step n s = some r) ↔
      (∀ t, ReflTransGen (Goes step) s t → (step t).isSome = true) ∧ ¬ ReachesCycle (Goes step) s := by
  constructor
  · intro ⟨r, n, h⟩
    refine ⟨?_, ?_⟩
    · intro t ht
      obtain ⟨m, hf⟩ := follow_reached h ht
      exact follow_outcome hf
    · intro ⟨t, ht, hc⟩
      obtain ⟨m, hf⟩ := follow_reached h ht
      rw [follow_cycle hc] at hf
      cases hf
  · intro ⟨hsome, hno⟩
    have hall : ∀ a : {t // ReflTransGen (Goes step) s t}, ∃ r n, follow step n a.1 = some r := by
      intro a
      induction a using (reached_wf hfin hno).induction with
      | h a ih =>
        obtain ⟨next, hnext⟩ := Option.isSome_iff_exists.mp (hsome a.1 a.2)
        cases next with
        | done r => exact ⟨r, 1, follow_done hnext⟩
        | on t =>
          obtain ⟨r, n, hf⟩ := ih ⟨t, a.2.tail hnext⟩ hnext
          exact ⟨r, n + 1, by rw [follow_on hnext, hf]⟩
    exact hall ⟨s, .refl⟩

/-! ## Steps described by a relation -/

variable {good safe : σ → Prop} {names : σ → σ → Prop}

/-- The condition, in terms of a relation that agrees with the steps where there is an outcome. -/
theorem follow_iff_names (hgood : ∀ s t, good s → names s t → good t)
    (hout : ∀ s, good s → ((step s).isSome = true ↔ safe s))
    (hgoes : ∀ s t, good s → safe s → (Goes step s t ↔ names s t)) (hs : good s)
    (hfin : {t | ReflTransGen names s t}.Finite) :
    (∃ r n, follow step n s = some r) ↔ (∀ t, ReflTransGen names s t → safe t) ∧ ¬ ReachesCycle names s := by
  have hto : ∀ u t, good u → Goes step u t → names u t ∧ good t := by
    intro u t hu hg
    have hsafe : safe u := (hout u hu).mp (by rw [hg]; rfl)
    have hn := (hgoes u t hu hsafe).mp hg
    exact ⟨hn, hgood u t hu hn⟩
  rw [follow_iff (hfin.subset fun t hp => (Lib.path_mono_on hto hs hp).1)]
  constructor
  · intro ⟨hsome, hno⟩
    have hsafe : ∀ u, good u ∧ ReflTransGen (Goes step) s u → safe u := fun u hu => (hout u hu.1).mp (hsome u hu.2)
    have hfrom : ∀ u t, good u ∧ ReflTransGen (Goes step) s u → names u t →
        Goes step u t ∧ good t ∧ ReflTransGen (Goes step) s t := by
      intro u t hu hn
      have hg := (hgoes u t hu.1 (hsafe u hu)).mpr hn
      exact ⟨hg, hgood u t hu.1 hn, hu.2.tail hg⟩
    refine ⟨?_, fun hc => hno (hc.mono_on hfrom ⟨hs, .refl⟩)⟩
    intro t hp
    exact hsafe t (Lib.path_mono_on hfrom ⟨hs, .refl⟩ hp).2
  · intro ⟨hsafe, hno⟩
    refine ⟨?_, fun hc => hno (hc.mono_on hto hs)⟩
    intro t hp
    obtain ⟨ht, hgt⟩ := Lib.path_mono_on hto hs hp
    exact (hout t hgt).mpr (hsafe t ht)

/-! ## Steps that depend on a choice -/

section Choices

variable {α : Type} {step : α → σ → Option (Next σ ρ)} {c c' : Stream' α}

def choose (step : α → σ → Option (Next σ ρ)) (x : Stream' α × σ) : Option (Next (Stream' α × σ) ρ) :=
  (step x.1.head x.2).map fun
    | .on t => .on (x.1.tail, t)
    | .done r => .done r

/-- Some choice leads on. -/
def MayGo (step : α → σ → Option (Next σ ρ)) (s t : σ) : Prop := ∃ a, step a s = some (.on t)

theorem goes_choose : Goes (choose step) (c, s) (c', t) ↔ step c.head s = some (.on t) ∧ c' = c.tail := by
  unfold Goes choose
  rw [Option.map_eq_some_iff]
  constructor
  · intro ⟨next, hnext, h⟩
    cases next with
    | on u =>
      cases h
      exact ⟨hnext, rfl⟩
    | done r => cases h
  · intro ⟨h, hc⟩
    exact ⟨_, h, by rw [hc]⟩

theorem choose_isSome (x : Stream' α × σ) : (choose step x).isSome = (step x.1.head x.2).isSome := Option.isSome_map

/-- Choices that lead along a path, and leave the rest. -/
theorem path_choices (hp : ReflTransGen (MayGo step) s t) :
    ∃ l : List α, ∀ c, ReflTransGen (Goes (choose step)) (Stream'.appendStream' l c, s) (c, t) := by
  induction hp using ReflTransGen.head_induction_on with
  | refl => exact ⟨[], fun c => .refl⟩
  | head hg _ ih =>
    obtain ⟨a, ha⟩ := hg
    obtain ⟨l, hl⟩ := ih
    exact ⟨a :: l, fun c => .head (goes_choose.mpr ⟨ha, rfl⟩) (hl c)⟩

theorem cycle_choices (hp : TransGen (MayGo step) s t) :
    ∃ l : List α, l ≠ [] ∧ ∀ c, TransGen (Goes (choose step)) (Stream'.appendStream' l c, s) (c, t) := by
  obtain ⟨u, ⟨a, ha⟩, hut⟩ := TransGen.head'_iff.mp hp
  obtain ⟨l, hl⟩ := path_choices hut
  exact ⟨a :: l, List.cons_ne_nil _ _, fun c => .head' (goes_choose.mpr ⟨ha, rfl⟩) (hl c)⟩

theorem choose_iff (hfin : {t | ReflTransGen (MayGo step) s t}.Finite) :
    (∀ c, ∃ r n, follow (choose step) n (c, s) = some r) ↔
      (∀ t, ReflTransGen (MayGo step) s t → ∀ a, (step a t).isSome = true) ∧ ¬ ReachesCycle (MayGo step) s := by
  constructor
  · intro h
    refine ⟨?_, ?_⟩
    · intro t ht a
      obtain ⟨l, hl⟩ := path_choices ht
      obtain ⟨r, n, hf⟩ := h (Stream'.appendStream' l (Stream'.const a))
      obtain ⟨m, hf⟩ := follow_reached hf (hl _)
      have hsome := follow_outcome hf
      rw [choose_isSome] at hsome
      exact hsome
    · intro ⟨t, ht, hcycle⟩
      obtain ⟨l, hl⟩ := path_choices ht
      obtain ⟨k, hk, hround⟩ := cycle_choices hcycle
      -- the choices around the cycle, for ever
      obtain ⟨r, n, hf⟩ := h (Stream'.appendStream' l (Stream'.cycle k hk))
      obtain ⟨m, hf⟩ := follow_reached hf (hl _)
      have hback := hround (Stream'.cycle k hk)
      rw [← Stream'.cycle_eq k hk] at hback
      rw [follow_cycle hback] at hf
      cases hf
  · intro ⟨hsome, hno⟩
    have hall : ∀ a : {t // ReflTransGen (MayGo step) s t}, ∀ c, ∃ r n, follow (choose step) n (c, a.1) = some r := by
      intro a
      induction a using (reached_wf hfin hno).induction with
      | h a ih =>
        intro c
        obtain ⟨next, hnext⟩ := Option.isSome_iff_exists.mp (hsome a.1 a.2 c.head)
        cases next with
        | done r => exact ⟨r, 1, follow_done (by rw [choose, hnext]; rfl)⟩
        | on t =>
          have hgo : MayGo step a.1 t := ⟨c.head, hnext⟩
          obtain ⟨r, n, hf⟩ := ih ⟨t, a.2.tail hgo⟩ hgo c.tail
          exact ⟨r, n + 1, by rw [follow_on (goes_choose.mpr ⟨hnext, rfl⟩), hf]⟩
    exact hall ⟨s, .refl⟩

end Choices

end SysProg.Follow
