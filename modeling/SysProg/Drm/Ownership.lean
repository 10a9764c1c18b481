/-
  SysProg.Drm.Ownership — who holds a drm (see `SysProg.Drm.Drm`).

  `holder` is read off the calls made so far and what they returned. In every state that
  is reached the edges of the graph are those from holders to what they hold, and nobody
  waits (`Inv`). By `drms_are_owned` a drm is locked when it has an edge into it, one, from
  its holder; only the holder's `drm_post` returns 1, and a call that returns 0 changes
  neither edges nor locks.
-/

import SysProg.Drm.Drm

namespace SysProg.Drm

open Function (update)
open SysProg.Lib (EdgeGraph Listing)

variable {T D : Type} [DecidableEq T] [DecidableEq D]

/-! ## Holders -/

/-- A drm is held by the thread whose `drm_wait` last returned 1, until its `drm_post`
    does. -/
def holderAfter (h : D → Option T) : Act T D × Ret → D → Option T
  | (.wait (some d) (some t), .ret 1) => update h d (some t)
  | (.resume t d, .ret 1) => update h d (some t)
  | (.post (some d) (some t), .ret 1) => if h d = some t then update h d none else h
  | (.init d, _) => update h d none
  | (.destroy (some d), _) => update h d none
  | _ => h

def holder (log : List (Act T D × Ret)) : D → Option T := log.foldl holderAfter fun _ => none

theorem holder_append (log : List (Act T D × Ret)) (x : Act T D × Ret) :
    holder (log ++ [x]) = holderAfter (holder log) x := by
  unfold holder
  rw [List.foldl_append]
  rfl

omit [DecidableEq T] [DecidableEq D] in
def St.Edge (s : St T D) (v w : Vertex T D) : Prop := ∃ g, s.resourceAllocationGraph = some g ∧ g.edge v w = true

omit [DecidableEq T] [DecidableEq D] in
theorem St.edge_iff {s : St T D} {g : EdgeGraph (Vertex T D)} {v w : Vertex T D}
    (hg : s.resourceAllocationGraph = some g) : s.Edge v w ↔ g.edge v w = true := by
  unfold St.Edge
  rw [hg]
  simp

/-! ## The invariant -/

structure Inv (s : St T D) (h : D → Option T) : Prop where
  /-- There is a graph as soon as there is a drm. -/
  graph : ∀ d, s.drms d ≠ none → s.resourceAllocationGraph ≠ none
  edges : ∀ v w, s.Edge v w ↔ ∃ t d, v = .thread t ∧ w = .drm d ∧ h d = some t
  locked : ∀ d x, s.drms d = some x → x.locked = 1 ∧ h d ≠ none ∨ x.locked = 0 ∧ h d = none
  live : ∀ d, h d ≠ none → s.drms d ≠ none
  waiting : s.waiting = []

variable {L : Listing (Vertex T D)} {s s' : St T D} {h : D → Option T} {d : D} {t : T} {r : Ret}

omit [DecidableEq T] [DecidableEq D] in
theorem Inv.edge_iff (hi : Inv s h) : s.Edge (.thread t) (.drm d) ↔ h d = some t := by
  rw [hi.edges]
  constructor
  · intro he
    rcases he with ⟨u, e, hu, he, hh⟩
    cases hu
    cases he
    exact hh
  · intro hh
    exact ⟨t, d, rfl, rfl, hh⟩

omit [DecidableEq T] [DecidableEq D] in
theorem Inv.edge_graph (hi : Inv s h) {g : EdgeGraph (Vertex T D)} (hg : s.resourceAllocationGraph = some g) :
    g.edge (.thread t) (.drm d) = true ↔ h d = some t := by
  rw [← hi.edge_iff]
  constructor
  · intro he
    exact ⟨g, hg, he⟩
  · intro he
    rcases he with ⟨g', hg', he⟩
    rw [hg] at hg'
    cases hg'
    exact he

omit [DecidableEq T] [DecidableEq D] in
theorem start_inv : Inv (start : St T D) fun _ => none where
  graph d hd := absurd rfl hd
  edges v w := by
    constructor
    · intro he
      rcases he with ⟨g, hg, -⟩
      cases hg
    · intro he
      rcases he with ⟨t, d, -, -, hh⟩
      cases hh
  locked d x hx := by cases hx
  live d hd := absurd rfl hd
  waiting := rfl

omit [DecidableEq T] [DecidableEq D] in
/-- Another graph with the same edges. -/
theorem Inv.regraph (hi : Inv s h) {g g' : EdgeGraph (Vertex T D)} (hg : s.resourceAllocationGraph = some g)
    (he : g'.edge = g.edge) : Inv { s with resourceAllocationGraph := some g' } h where
  graph d _ := Option.some_ne_none g'
  edges v w := by
    rw [← hi.edges]
    unfold St.Edge
    rw [hg]
    simp [he]
  locked := hi.locked
  live := hi.live
  waiting := hi.waiting

/-- A drm that nobody holds gets a holder. -/
theorem Inv.take (hi : Inv s h) {g : EdgeGraph (Vertex T D)} (hg : s.resourceAllocationGraph = some g)
    (ht : .thread t ∈ g.vertices) (hd : .drm d ∈ g.vertices) (hfree : h d = none) :
    Inv (takeDrm s g d t).1 (update h d (some t)) where
  graph e _ := Option.some_ne_none _
  edges v w := by
    have hv := hi.edges v w
    unfold St.Edge at hv ⊢
    rw [hg] at hv
    simp only [Option.some.injEq, exists_eq_left', takeDrm, EdgeGraph.addEdge_edge ht hd] at hv ⊢
    rw [hv]
    constructor
    · intro he
      rcases he with ⟨u, e, hu, hw, hh⟩ | ⟨hu, hw⟩
      · have hne : e ≠ d := by
          intro hed
          rw [hed, hfree] at hh
          cases hh
        exact ⟨u, e, hu, hw, by rw [Function.update_of_ne hne]; exact hh⟩
      · exact ⟨t, d, hu, hw, Function.update_self ..⟩
    · intro he
      rcases he with ⟨u, e, hu, hw, hh⟩
      by_cases hed : e = d
      · rw [hed, Function.update_self] at hh
        rw [Option.some.inj hh]
        exact Or.inr ⟨hu, hed ▸ hw⟩
      · rw [Function.update_of_ne hed] at hh
        exact Or.inl ⟨u, e, hu, hw, hh⟩
  locked e x hx := by
    by_cases hed : e = d
    · rw [hed] at hx ⊢
      rw [takeDrm_drms, Function.update_self, Option.some.injEq] at hx
      rw [Function.update_self, ← hx]
      exact Or.inl ⟨rfl, Option.some_ne_none t⟩
    · rw [takeDrm_drms, Function.update_of_ne hed] at hx
      rw [Function.update_of_ne hed]
      exact hi.locked e x hx
  live e he := by
    by_cases hed : e = d
    · rw [hed, takeDrm_drms, Function.update_self]
      exact Option.some_ne_none _
    · rw [Function.update_of_ne hed] at he
      rw [takeDrm_drms, Function.update_of_ne hed]
      exact hi.live e he
  waiting := hi.waiting

/-! ## Waiting -/

inductive Waits (s : St T D) (h : D → Option T) : Option D → Option T → St T D → Ret → Prop
  | null {drm : Option D} {threadId : Option T} : s.resourceAllocationGraph = none ∨ drm = none ∨ threadId = none →
      Waits s h drm threadId s (.ret 0)
  /-- The thread holds the drm, or another one does. -/
  | refused {d : D} {t u : T} {g g' : EdgeGraph (Vertex T D)} : s.resourceAllocationGraph = some g → g'.edge = g.edge →
      h d = some u → Waits s h (some d) (some t) { s with resourceAllocationGraph := some g' } (.ret 0)
  | taken {d : D} {t : T} {g g' : EdgeGraph (Vertex T D)} : s.resourceAllocationGraph = some g → g'.edge = g.edge →
      .thread t ∈ g'.vertices → .drm d ∈ g'.vertices → h d = none →
      Waits s h (some d) (some t) (takeDrm s g' d t).1 (.ret 1)

theorem drmWait_spec (hi : Inv s h) {drm : Option D} {threadId : Option T}
    (hw : drmWait L s drm threadId = some (s', r)) : Waits s h drm threadId s' r := by
  unfold drmWait at hw
  split at hw
  · rename_i g d t hg
    have hedge := withVertices_edge g d t
    rcases mem_withVertices g d t with ⟨hd, ht⟩
    dsimp only at hw
    generalize withVertices g d t = g' at hw hedge hd ht
    split at hw
    · rename_i he
      cases hw
      rw [hedge] at he
      exact .refused hg hedge ((hi.edge_graph hg).mp he)
    · rename_i he
      rcases Option.bind_eq_some_iff.mp hw with ⟨x, hx, hw⟩
      split at hw
      · rename_i hlocked
        -- the new edge is found
        have hnew : (g'.addEdge (.thread t) (.drm d)).edge (.thread t) (.drm d) = true :=
          (EdgeGraph.addEdge_edge ht hd).mpr (Or.inr ⟨rfl, rfl⟩)
        rw [graphHasCycle_eq hnew, Option.map_some, if_pos rfl] at hw
        cases hw
        rcases hi.locked d x hx with ⟨-, hh⟩ | ⟨h0, -⟩
        · rcases Option.ne_none_iff_exists'.mp hh with ⟨u, hu⟩
          refine .refused hg ?_ hu
          rw [EdgeGraph.removeEdge_addEdge (by simpa using he), hedge]
        · exact absurd h0 hlocked
      · rename_i hlocked
        cases hw
        rcases hi.locked d x hx with ⟨h1, -⟩ | ⟨-, hh⟩
        · rw [h1] at hlocked
          exact absurd Nat.one_ne_zero hlocked
        · exact .taken hg hedge ht hd hh
  · rename_i drm threadId _ _ _ hnull
    cases hw
    refine .null ?_
    cases hg : s.resourceAllocationGraph with
    | none => exact Or.inl rfl
    | some g =>
      cases drm with
      | none => exact Or.inr (Or.inl rfl)
      | some d =>
        cases threadId with
        | none => exact Or.inr (Or.inr rfl)
        | some t => exact absurd rfl (hnull g d t hg rfl)

/-! ## Runs -/

theorem drmPost_spec (hi : Inv s h) {drm : Option D} {threadId : Option T}
    (hp : drmPost s drm threadId = some (s', r)) :
    s' = s ∧ r = .ret 0 ∨ ∃ d t g x, drm = some d ∧ threadId = some t ∧ s.resourceAllocationGraph = some g ∧
      s.drms d = some x ∧ h d = some t ∧ r = .ret 1 ∧ s' = { s with
        resourceAllocationGraph := some (g.removeEdge (.thread t) (.drm d))
        drms := update s.drms d (some { x with locked := 0 }) } := by
  unfold drmPost at hp
  split at hp
  · rename_i g d t hg
    split at hp
    · cases hp
      exact Or.inl ⟨rfl, rfl⟩
    · split at hp
      · cases hp
        exact Or.inl ⟨rfl, rfl⟩
      · split at hp
        · rename_i he
          rcases Option.map_eq_some_iff.mp hp with ⟨x, hx, hs⟩
          cases hs
          exact Or.inr ⟨d, t, g, x, rfl, rfl, hg, hx, (hi.edge_graph hg).mp he, rfl, rfl⟩
        · cases hp
          exact Or.inl ⟨rfl, rfl⟩
  · cases hp
    exact Or.inl ⟨rfl, rfl⟩

omit [DecidableEq T] in
/-- The edges into a drm go, and it is unlocked or itself gone. -/
theorem Inv.drop (hi : Inv s h) {g : EdgeGraph (Vertex T D)} {x : Option (DrmData T)}
    (he : ∀ v w, g.edge v w = true ↔ s.Edge v w ∧ w ≠ .drm d) (hx : ∀ y, x = some y → y.locked = 0) :
    Inv { s with resourceAllocationGraph := some g, drms := update s.drms d x } (update h d none) where
  graph _ _ := Option.some_ne_none g
  edges v w := by
    rw [St.edge_iff rfl, he, hi.edges]
    constructor
    · intro hedge
      rcases hedge with ⟨⟨u, e, hu, hw, hh⟩, hne⟩
      have hed : e ≠ d := by
        intro hed
        rw [hed] at hw
        exact hne hw
      exact ⟨u, e, hu, hw, by rw [Function.update_of_ne hed]; exact hh⟩
    · intro hedge
      rcases hedge with ⟨u, e, hu, hw, hh⟩
      have hed : e ≠ d := by
        intro hed
        rw [hed, Function.update_self] at hh
        cases hh
      rw [Function.update_of_ne hed] at hh
      refine ⟨⟨u, e, hu, hw, hh⟩, ?_⟩
      rw [hw]
      intro hd
      cases hd
      exact hed rfl
  locked e y hy := by
    dsimp only at hy
    by_cases hed : e = d
    · rw [hed] at hy ⊢
      rw [Function.update_self] at hy
      rw [Function.update_self]
      exact Or.inr ⟨hx y hy, rfl⟩
    · rw [Function.update_of_ne hed] at hy
      rw [Function.update_of_ne hed]
      exact hi.locked e y hy
  live e he' := by
    by_cases hed : e = d
    · rw [hed, Function.update_self] at he'
      exact absurd rfl he'
    · rw [Function.update_of_ne hed] at he'
      dsimp only
      rw [Function.update_of_ne hed]
      exact hi.live e he'
  waiting := hi.waiting

omit [DecidableEq T] [DecidableEq D] in
theorem Inv.no_edge (hi : Inv s h) (hfree : h d = none) {v : Vertex T D} : ¬ s.Edge v (.drm d) := by
  intro he
  rcases (hi.edges _ _).mp he with ⟨t, e, -, hd, hh⟩
  cases hd
  rw [hfree] at hh
  cases hh

omit [DecidableEq T] in
theorem drmInit_inv (hi : Inv s h) (hs : drmInit s d = some (s', r)) : Inv s' (update h d none) := by
  unfold drmInit at hs
  split at hs
  · rename_i hd
    cases hs
    have hfree : h d = none := by
      cases hh : h d with
      | none => rfl
      | some t => exact absurd hd (hi.live d (by rw [hh]; exact Option.some_ne_none t))
    apply hi.drop
    · intro v w
      have hw : s.Edge v w → w ≠ .drm d := by
        intro he hwd
        rw [hwd] at he
        exact hi.no_edge hfree he
      cases hg : s.resourceAllocationGraph with
      | none =>
        have hno : ¬ s.Edge v w := by
          intro he
          rcases he with ⟨g, hg', -⟩
          rw [hg] at hg'
          cases hg'
        simp [hno]
      | some g =>
        rw [Option.getD_some, ← St.edge_iff hg]
        exact ⟨fun he => ⟨he, hw he⟩, And.left⟩
    · intro y hy
      cases hy
      rfl
  · cases hs

theorem drmDestroy_inv (hi : Inv s h) (hs : drmDestroy s (some d) = some (s', r)) : Inv s' (update h d none) := by
  unfold drmDestroy at hs
  dsimp only at hs
  split at hs
  · cases hs
  · rename_i hd
    cases hs
    rcases Option.ne_none_iff_exists'.mp (hi.graph d hd) with ⟨g, hg⟩
    rw [hg, Option.map_some]
    apply hi.drop
    · intro v w
      rw [St.edge_iff hg]
      -- a drm has no edge out of it
      have hv : g.edge v w = true → v ≠ .drm d := by
        intro he hvd
        rcases (hi.edges v w).mp ((St.edge_iff hg).mpr he) with ⟨t, e, ht, -⟩
        rw [hvd] at ht
        cases ht
      split
      · rw [EdgeGraph.removeVertex_edge]
        exact ⟨fun he => ⟨he.1, he.2.2⟩, fun he => ⟨he.1, hv he.1, he.2⟩⟩
      · rename_i hnot
        refine ⟨fun he => ⟨he, ?_⟩, And.left⟩
        intro hwd
        rw [hwd] at he
        exact hnot (g.closed he).2
    · intro y hy
      cases hy

@[simp] theorem holderAfter_wait_zero (drm : Option D) (threadId : Option T) :
    holderAfter h (.wait drm threadId, .ret 0) = h := by
  cases drm <;> cases threadId <;> rfl

@[simp] theorem holderAfter_post_zero (drm : Option D) (threadId : Option T) :
    holderAfter h (.post drm threadId, .ret 0) = h := by
  cases drm <;> cases threadId <;> rfl

theorem step_inv (hi : Inv s h) {a : Act T D} (hs : step L s a = some (s', r)) : Inv s' (holderAfter h (a, r)) := by
  cases a with
  | init d => exact drmInit_inv hi hs
  | wait drm threadId =>
    cases drmWait_spec hi hs with
    | null _ =>
      rw [holderAfter_wait_zero]
      exact hi
    | refused hg he _ =>
      rw [holderAfter_wait_zero]
      exact hi.regraph hg he
    | taken hg he ht hd hfree => exact (hi.regraph hg he).take rfl ht hd hfree
  | post drm threadId =>
    rcases drmPost_spec hi hs with ⟨hs', hr⟩ | ⟨d, t, g, x, hd, ht, hg, hx, hh, hr, hs'⟩
    · rw [hr, hs', holderAfter_post_zero]
      exact hi
    · rw [hd, ht, hr, hs']
      show Inv _ (if h d = some t then update h d none else h)
      rw [if_pos hh]
      apply hi.drop
      · intro v w
        rw [EdgeGraph.removeEdge_edge, ← St.edge_iff hg]
        constructor
        · intro he
          refine ⟨he.1, ?_⟩
          intro hw
          rcases (hi.edges v w).mp he.1 with ⟨u, e, hu, he', hhe⟩
          rw [hw] at he'
          cases he'
          rw [hh] at hhe
          cases hhe
          exact he.2 ⟨hu, hw⟩
        · intro he
          exact ⟨he.1, fun hvw => he.2 hvw.2⟩
      · intro y hy
        cases hy
        rfl
  | destroy drm =>
    cases drm with
    | none =>
      cases hs
      exact hi
    | some d => exact drmDestroy_inv hi hs
  | resume t d =>
    -- nobody waits
    have hs : resume s t d = some (s', r) := hs
    unfold resume at hs
    rw [hi.waiting, if_neg List.not_mem_nil] at hs
    cases hs

theorem reach_inv {log : List (Act T D × Ret)} (hr : (sys L).Reach (s, log)) : Inv s (holder log) := by
  refine Run.Sys.Reach.inv (M := sys L) (I := fun x => Inv x.1 (holder x.2)) ?_ ?_ hr
  · intro x hx
    cases hx
    exact start_inv
  · intro x a x' hi hs
    rcases Run.logged_some hs with ⟨r, hstep, hlog⟩
    rw [hlog, holder_append]
    exact step_inv hi hstep

/-! ## Ownership -/

omit [DecidableEq T] [DecidableEq D] in
theorem Inv.edge_into (hi : Inv s h) {v : Vertex T D} : s.Edge v (.drm d) ↔ ∃ t, v = .thread t ∧ h d = some t := by
  rw [hi.edges]
  constructor
  · intro he
    rcases he with ⟨t, e, hv, hd, hh⟩
    cases hd
    exact ⟨t, hv, hh⟩
  · intro he
    rcases he with ⟨t, hv, hh⟩
    exact ⟨t, d, hv, rfl, hh⟩

omit [DecidableEq T] [DecidableEq D] in
theorem Inv.existsUnique_edge (hi : Inv s h) : (∃! v, s.Edge v (.drm d)) ↔ h d ≠ none := by
  constructor
  · intro he
    rcases he.exists with ⟨v, hv⟩
    intro hfree
    exact hi.no_edge hfree hv
  · intro hh
    rcases Option.ne_none_iff_exists'.mp hh with ⟨t, ht⟩
    refine ⟨.thread t, hi.edge_iff.mpr ht, ?_⟩
    intro v hv
    rcases hi.edge_into.mp hv with ⟨u, hv, hu⟩
    rw [ht] at hu
    cases hu
    exact hv

omit [DecidableEq T] [DecidableEq D] in
theorem Inv.locked_iff (hi : Inv s h) {x : DrmData T} (hx : s.drms d = some x) :
    (x.locked = 1 ↔ h d ≠ none) ∧ (x.locked = 0 ↔ h d = none) := by
  rcases hi.locked d x hx with ⟨hl, hh⟩ | ⟨hl, hh⟩
  · simp [hl, hh]
  · simp [hl, hh]

/-- The holder's `drm_post`, and no other, returns 1. -/
theorem Inv.post_returns_one (hi : Inv s h) : (∃ s', drmPost s (some d) (some t) = some (s', .ret 1)) ↔
    h d = some t := by
  constructor
  · intro hp
    rcases hp with ⟨s', hp⟩
    rcases drmPost_spec hi hp with ⟨-, hr⟩ | ⟨e, u, g, x, hd, ht, -, -, hh, -⟩
    · cases hr
    · cases hd
      cases ht
      exact hh
  · intro hh
    rcases hi.edge_iff.mpr hh with ⟨g, hg, he⟩
    rcases Option.ne_none_iff_exists'.mp (hi.live d (by rw [hh]; exact Option.some_ne_none t)) with ⟨x, hx⟩
    have hends := g.closed he
    unfold drmPost
    rw [hg]
    dsimp only
    rw [if_neg (not_not.mpr hends.2), if_neg (not_not.mpr hends.1), if_pos he, hx]
    exact ⟨_, rfl⟩

/-- A call that returns 0. -/
theorem Inv.unchanged (hi : Inv s h) {drm : Option D} {threadId : Option T}
    (hs : drmWait L s drm threadId = some (s', .ret 0) ∨ drmPost s drm threadId = some (s', .ret 0)) :
    (∀ v w, s'.Edge v w ↔ s.Edge v w) ∧ s'.drms = s.drms := by
  rcases hs with hs | hs
  · generalize hr : Ret.ret 0 = r at hs
    cases drmWait_spec hi hs with
    | null _ => exact ⟨fun _ _ => Iff.rfl, rfl⟩
    | refused hg he _ =>
      refine ⟨?_, rfl⟩
      intro v w
      rw [St.edge_iff rfl, he, St.edge_iff hg]
    | taken _ _ _ _ _ => cases hr
  · rcases drmPost_spec hi hs with ⟨hs', -⟩ | ⟨d, t, g, x, -, -, -, -, -, hr, -⟩
    · rw [hs']
      exact ⟨fun _ _ => Iff.rfl, rfl⟩
    · cases hr

theorem drms_are_owned {log : List (Act T D × Ret)} (hr : (sys L).Reach (s, log)) :
    (∀ d x, s.drms d = some x →
      (x.locked = 1 ↔ ∃! v, s.Edge v (.drm d)) ∧ (x.locked = 0 ↔ ∀ v, ¬ s.Edge v (.drm d))) ∧
    (∀ v d, s.Edge v (.drm d) ↔ ∃ t, v = .thread t ∧ holder log d = some t) ∧
    (∀ d t, (∃ s', drmPost s (some d) (some t) = some (s', .ret 1)) ↔ holder log d = some t) ∧
    ∀ s' drm threadId,
      drmWait L s drm threadId = some (s', .ret 0) ∨ drmPost s drm threadId = some (s', .ret 0) →
      (∀ v w, s'.Edge v w ↔ s.Edge v w) ∧ s'.drms = s.drms := by
  have hi := reach_inv hr
  refine ⟨?_, fun v d => hi.edge_into, fun d t => hi.post_returns_one, fun s' drm threadId => hi.unchanged⟩
  intro d x hx
  refine ⟨(hi.locked_iff hx).1.trans hi.existsUnique_edge.symm, (hi.locked_iff hx).2.trans ?_⟩
  constructor
  · intro hfree v
    exact hi.no_edge hfree
  · intro hno
    by_contra hh
    rcases (hi.existsUnique_edge.mpr hh).exists with ⟨v, hv⟩
    exact hno v hv

theorem reach_exec {as : List (Act T D)} {x : St T D × List (Act T D × Ret)}
    (hx : Run.exec (Run.logged (step L)) (start, []) as = some x) : (sys L).Reach x := by
  have h0 : (sys L).Reach (start, []) := .init rfl
  exact Run.via_exec h0 (fun _ _ _ => trivial) hx

def pair : Listing (Vertex Bool Unit) :=
  .ofList [.thread false, .thread true, .drm ()] fun v => by
    cases v with
    | thread t => cases t <;> simp
    | drm d => simp

theorem drms_are_owned_contended : ∃ s log, (sys pair).Reach (s, log) ∧
    log.map Prod.snd = [.done, .ret 1, .ret 0, .ret 0, .ret 0] ∧
    ∀ v, s.Edge v (.drm ()) ↔ ∃ t, v = .thread t ∧ holder log () = some t := by
  have hrun : (Run.exec (Run.logged (step pair)) (start, [])
      [.init (), .wait (some ()) (some false), .wait (some ()) (some true), .wait (some ()) (some false),
        .post (some ()) (some true)]).map (fun x => x.2.map Prod.snd) =
      some [.done, .ret 1, .ret 0, .ret 0, .ret 0] := by
    decide +kernel
  rcases Option.map_eq_some_iff.mp hrun with ⟨⟨s, log⟩, hexec, hlog⟩
  have hr := reach_exec hexec
  exact ⟨s, log, hr, hlog, fun v => (drms_are_owned hr).2.1 v ()⟩

end SysProg.Drm
