/-
  SysProg.Drm.Drm — the deadlock-resistant mutex of deadlock_demolition/libdrm.c.

  A drm is a mutex whose waits are first tried on the resource allocation graph, which has
  an edge from a thread to each drm that it holds or is about to wait for. Threads are
  told apart by the address of their id, drms by their own address, and the two kinds of
  vertices are kept apart (`Vertex`). `graph_has_cycle` is the search of `check_cycle` in
  parallel_make, but along the edges both ways, so it is right only about a graph with no
  edge or with a directed cycle (`findsCycles_iff`).

  A call is one step up to its return or to the loop in which it waits for the drm to be
  unlocked, which it leaves in a step of its own (`Act.resume`). Nothing (`none`) comes of
  a call that uses a drm that has been destroyed. The graph library lists vertices and
  neighbours in any order (`Listing`); that an edge is there once or not at all is its
  documented behaviour, and so is that a removed vertex takes its edges with it. The field
  `owner` is written and never read.
-/

import Mathlib.Logic.Function.Basic
import SysProg.Lib.EdgeGraph
import SysProg.Lib.Run
import SysProg.Parmake.CheckCycle

namespace SysProg.Drm

open Function (update)
open SysProg.Lib (EdgeGraph Listing)
open SysProg.Parmake (Marks searchNeighbors enter leave)

inductive Vertex (T D : Type) where
  | thread (t : T)
  | drm (d : D)
  deriving DecidableEq

/-- `drm_t` -/
structure DrmData (T : Type) where
  locked : Nat
  owner : Option T
  deriving DecidableEq

structure St (T D : Type) where
  /-- NULL until the first `drm_init`. -/
  resourceAllocationGraph : Option (EdgeGraph (Vertex T D))
  /-- The drms in memory. -/
  drms : D → Option (DrmData T)
  /-- The threads in the loop of a `drm_wait`, each with the drm. -/
  waiting : List (T × D)

inductive Ret where
  | ret (value : Nat)
  | waits
  /-- `drm_init` and `drm_destroy` -/
  | done
  deriving DecidableEq

inductive Act (T D : Type) where
  /-- `drm_init`, where `malloc` returns `d`. -/
  | init (d : D)
  | wait (drm : Option D) (threadId : Option T)
  | post (drm : Option D) (threadId : Option T)
  | destroy (drm : Option D)
  /-- A waiting thread finds the drm unlocked. -/
  | resume (threadId : T) (drm : D)

variable {T D V : Type} [DecidableEq T] [DecidableEq D] [DecidableEq V]

/-! ## The cycle search -/

def graphHasCycleUtil (L : Listing V) (g : EdgeGraph V) : Nat → V → Marks V → Option (Bool × Marks V)
  | 0, _, _ => none
  | fuel + 1, vertex, m =>
    ((searchNeighbors (graphHasCycleUtil L g fuel) (L.neighbors g vertex) (enter vertex m)).bind fun r =>
      if r.1 then some r
      else searchNeighbors (graphHasCycleUtil L g fuel) (L.antineighbors g vertex) r.2).map (leave vertex)

def hasCycleFrom (L : Listing V) (g : EdgeGraph V) : List V → Marks V → Option Bool
  | [], _ => some false
  | vertex :: rest, m =>
    if vertex ∉ m.vis then
      (graphHasCycleUtil L g (g.vertices.card + 1) vertex m).bind fun r =>
        if r.1 then some true else hasCycleFrom L g rest r.2
    else hasCycleFrom L g rest m

def graphHasCycle (L : Listing V) (g : EdgeGraph V) : Option Bool := hasCycleFrom L g (L.vertices g) ⟨∅, ∅⟩

/-! ## The calls -/

variable (L : Listing (Vertex T D))

def drmInit (s : St T D) (d : D) : Option (St T D × Ret) :=
  if s.drms d = none then
    some ({ s with
      resourceAllocationGraph := some (s.resourceAllocationGraph.getD .empty)
      drms := update s.drms d (some ⟨0, none⟩) }, .done)
  else none

def drmPost (s : St T D) (drm : Option D) (threadId : Option T) : Option (St T D × Ret) :=
  match s.resourceAllocationGraph, drm, threadId with
  | some g, some d, some t =>
    if .drm d ∉ g.vertices then some (s, .ret 0)
    else if .thread t ∉ g.vertices then some (s, .ret 0)
    else if g.edge (.thread t) (.drm d) = true then
      (s.drms d).map fun x => ({ s with
        resourceAllocationGraph := some (g.removeEdge (.thread t) (.drm d))
        drms := update s.drms d (some { x with locked := 0 }) }, .ret 1)
    else some (s, .ret 0)
  | _, _, _ => some (s, .ret 0)

/-- The end of `drm_wait`, the drm unlocked. -/
def takeDrm (s : St T D) (g : EdgeGraph (Vertex T D)) (d : D) (t : T) : St T D × Ret :=
  ({ s with
    resourceAllocationGraph := some (g.addEdge (.thread t) (.drm d))
    drms := update s.drms d (some ⟨1, some t⟩) }, .ret 1)

@[simp] theorem takeDrm_drms (s : St T D) (g : EdgeGraph (Vertex T D)) (d : D) (t : T) :
    (takeDrm s g d t).1.drms = update s.drms d (some ⟨1, some t⟩) := rfl

def withVertices (g : EdgeGraph (Vertex T D)) (d : D) (t : T) : EdgeGraph (Vertex T D) :=
  let g := if .drm d ∉ g.vertices then g.addVertex (.drm d) else g
  if .thread t ∉ g.vertices then g.addVertex (.thread t) else g

theorem withVertices_edge (g : EdgeGraph (Vertex T D)) (d : D) (t : T) : (withVertices g d t).edge = g.edge := by
  unfold withVertices
  dsimp only
  split <;> split <;> rfl

theorem mem_withVertices (g : EdgeGraph (Vertex T D)) (d : D) (t : T) :
    .drm d ∈ (withVertices g d t).vertices ∧ .thread t ∈ (withVertices g d t).vertices := by
  unfold withVertices
  dsimp only
  generalize hg' : (if .drm d ∉ g.vertices then g.addVertex (.drm d) else g) = g'
  have hd : .drm d ∈ g'.vertices := by
    rw [← hg']
    split
    · exact Finset.mem_insert_self _ _
    · exact not_not.mp ‹_›
  split
  · exact ⟨Finset.mem_insert_of_mem hd, Finset.mem_insert_self _ _⟩
  · exact ⟨hd, not_not.mp ‹_›⟩

def drmWait (s : St T D) (drm : Option D) (threadId : Option T) : Option (St T D × Ret) :=
  match s.resourceAllocationGraph, drm, threadId with
  | some g, some d, some t =>
    let g := withVertices g d t
    if g.edge (.thread t) (.drm d) = true then some ({ s with resourceAllocationGraph := some g }, .ret 0)
    else (s.drms d).bind fun x =>
      if x.locked ≠ 0 then
        let g := g.addEdge (.thread t) (.drm d)
        (graphHasCycle L g).map fun cycle =>
          if cycle then
            ({ s with resourceAllocationGraph := some (g.removeEdge (.thread t) (.drm d)) }, .ret 0)
          else ({ s with resourceAllocationGraph := some g, waiting := s.waiting ++ [(t, d)] }, .waits)
      else some (takeDrm s g d t)
  | _, _, _ => some (s, .ret 0)

def resume (s : St T D) (t : T) (d : D) : Option (St T D × Ret) :=
  if (t, d) ∈ s.waiting then
    (s.drms d).bind fun x => s.resourceAllocationGraph.bind fun g =>
      if x.locked = 0 then some (takeDrm { s with waiting := s.waiting.erase (t, d) } g d t) else none
  else none

/-- No drm stays in memory at NULL. -/
def drmDestroy (s : St T D) (drm : Option D) : Option (St T D × Ret) :=
  match drm with
  | none => some (s, .done)
  | some d =>
    if s.drms d = none then none
    else some ({ s with
      resourceAllocationGraph := s.resourceAllocationGraph.map fun g =>
        if .drm d ∈ g.vertices then g.removeVertex (.drm d) else g
      drms := update s.drms d none }, .done)

def step (s : St T D) : Act T D → Option (St T D × Ret)
  | .init d => drmInit s d
  | .wait drm threadId => drmWait L s drm threadId
  | .post drm threadId => drmPost s drm threadId
  | .destroy drm => drmDestroy s drm
  | .resume threadId drm => resume s threadId drm

def start : St T D := ⟨none, fun _ => none, []⟩

def sys : Run.Sys (St T D × List (Act T D × Ret)) (Act T D) :=
  Run.ofFun (fun s => s = (start, [])) (Run.logged (step L))

/-! ## The search finds any edge -/

theorem searchNeighbors_append {f : V → Marks V → Option (Bool × Marks V)} {l l' : List V} {m : Marks V} :
    searchNeighbors f (l ++ l') m =
      (searchNeighbors f l m).bind fun r => if r.1 then some r else searchNeighbors f l' r.2 := by
  induction l generalizing m with
  | nil => rfl
  | cons a l ih =>
    rw [List.cons_append, searchNeighbors, searchNeighbors]
    split
    · rfl
    · split
      · exact ih
      · cases f a m with
        | none => rfl
        | some r =>
          rw [Option.bind_some, Option.bind_some]
          by_cases hr : r.1 = true
          · rw [if_pos hr, if_pos hr, Option.bind_some, if_pos hr]
          · rw [if_neg hr, if_neg hr]
            exact ih

/-- The two loops are one over the neighbours both ways. -/
theorem graphHasCycleUtil_both (L : Listing V) (g : EdgeGraph V) (fuel : Nat) :
    graphHasCycleUtil L g fuel = Parmake.graphHasCycleUtil (L.both g) fuel := by
  induction fuel with
  | zero => rfl
  | succ fuel ih =>
    funext vertex m
    rw [graphHasCycleUtil, Parmake.graphHasCycleUtil, ih]
    exact congrArg _ searchNeighbors_append.symm

theorem hasCycleFrom_spec {L : Listing V} {g : EdgeGraph V} {l : List V} {m : Marks V}
    (hl : ∀ v ∈ l, v ∈ g.vertices) (hm : m.Inv (L.both g).Edge) (hs : m.stack = ∅) :
    ∃ b, hasCycleFrom L g l m = some b ∧ (b = true → ∃ v w, g.edge v w = true) ∧
      (b = false → ∀ v ∈ l, ∀ w, g.edge v w = false) := by
  induction l generalizing m with
  | nil => exact ⟨false, rfl, by simp, by simp⟩
  | cons v l ih =>
    have hl' : ∀ w ∈ l, w ∈ g.vertices := fun w hw => hl w (List.mem_cons_of_mem _ hw)
    -- a vertex from which no cycle is reached has no edge
    have hno : ¬ Lib.ReachesCycle (L.both g).Edge v → ∀ w, g.edge v w = false := by
      intro h w
      rw [← Bool.not_eq_true]
      exact fun hvw => h (Listing.both_reachesCycle hvw)
    rw [hasCycleFrom]
    split
    · rename_i hv
      have habove : Parmake.Above (L.both g).Edge m v := by
        intro u hu
        rw [hs] at hu
        exact absurd hu (Finset.notMem_empty u)
      have hfuel : ((L.both g).vertices \ m.vis).card < g.vertices.card + 1 :=
        Nat.lt_succ_of_le (Finset.card_le_card Finset.sdiff_subset)
      rcases Parmake.util_spec hfuel (hl v List.mem_cons_self) hv hm habove with ⟨r, hr, hA, -⟩
      rw [graphHasCycleUtil_both, hr, Option.bind_some]
      by_cases hc : r.1 = true
      · rw [if_pos hc]
        exact ⟨true, rfl, fun _ => Listing.exists_edge_of_both (hA.exact.mp hc), by simp⟩
      · rw [if_neg hc]
        have hstack := hA.stack (by simpa using hc)
        rcases ih hl' hA.inv (hstack.trans hs) with ⟨b, hb, htrue, hfalse⟩
        refine ⟨b, hb, htrue, ?_⟩
        intro he w hw
        rcases List.mem_cons.mp hw with hw | hw
        · rw [hw]
          exact hno fun h => hc (hA.exact.mpr h)
        · exact hfalse he w hw
    · rename_i hv
      rcases ih hl' hm hs with ⟨b, hb, htrue, hfalse⟩
      refine ⟨b, hb, htrue, ?_⟩
      intro he w hw
      rcases List.mem_cons.mp hw with hw | hw
      · rw [hw]
        exact hno (hm.left v (not_not.mp hv) (by rw [hs]; exact Finset.notMem_empty v))
      · exact hfalse he w hw

/-- `graph_has_cycle` is asked for a cycle and finds any edge. -/
theorem graphHasCycle_spec (L : Listing V) (g : EdgeGraph V) :
    ∃ b, graphHasCycle L g = some b ∧ (b = true ↔ ∃ v w, g.edge v w = true) := by
  rcases hasCycleFrom_spec (L := L) (g := g) (l := L.vertices g) (m := ⟨∅, ∅⟩) (fun v hv => L.mem_vertices.mp hv)
    ⟨Finset.Subset.refl _, by simp⟩ rfl with ⟨b, hb, htrue, hfalse⟩
  refine ⟨b, hb, htrue, ?_⟩
  intro ⟨v, w, hvw⟩
  cases b with
  | true => rfl
  | false =>
    have hno := hfalse rfl v (L.mem_vertices.mpr (g.closed hvw).1) w
    rw [hvw] at hno
    cases hno

theorem graphHasCycle_eq {L : Listing V} {g : EdgeGraph V} {v w : V} (h : g.edge v w = true) :
    graphHasCycle L g = some true := by
  rcases graphHasCycle_spec L g with ⟨b, hb, hedge⟩
  rw [hb, hedge.mpr ⟨v, w, h⟩]

/-- The search returns, and returns whether there is a directed cycle. -/
def FindsCycles (L : Listing V) (g : EdgeGraph V) : Prop :=
  ∃ b, graphHasCycle L g = some b ∧ (b = true ↔ g.HasCycle)

theorem findsCycles_iff (L : Listing V) (g : EdgeGraph V) :
    FindsCycles L g ↔ (∀ v w, g.edge v w = false) ∨ g.HasCycle := by
  rcases graphHasCycle_spec L g with ⟨b, hb, hedge⟩
  constructor
  · intro ⟨b', hb', hcycle⟩
    rw [hb] at hb'
    cases hb'
    rcases Bool.eq_false_or_eq_true b with h | h
    · exact Or.inr (hcycle.mp h)
    · apply Or.inl
      intro v w
      rw [← Bool.not_eq_true]
      intro hvw
      rw [hedge.mpr ⟨v, w, hvw⟩] at h
      cases h
  · intro h
    refine ⟨b, hb, ?_⟩
    rw [hedge]
    refine ⟨?_, fun hc => hc.exists_edge⟩
    intro ⟨v, w, hvw⟩
    rcases h with h | h
    · rw [h v w] at hvw
      cases hvw
    · exact h

def oneEdge : EdgeGraph Bool := ((EdgeGraph.empty.addVertex false).addVertex true).addEdge false true

theorem one_edge_no_cycle : ¬ FindsCycles (Listing.ofList [false, true] (by decide)) oneEdge := by
  have hb : graphHasCycle (Listing.ofList [false, true] (by decide)) oneEdge = some true := by decide
  have hrank : ∀ v w, oneEdge.edge v w = true → (!w).toNat < (!v).toNat := by decide
  intro ⟨b, hb', hcycle⟩
  rw [hb] at hb'
  cases hb'
  exact EdgeGraph.not_hasCycle_of_rank _ hrank (hcycle.mp rfl)

end SysProg.Drm
