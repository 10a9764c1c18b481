/-
  SysProg.Lib.AdjGraph — finite directed graphs with listed out-neighbours.

  A graph is a finite set of vertices and, for each vertex, the list of its
  out-neighbours in the order in which they are enumerated. `ReachesCycle E v` says that
  some path from `v` leads to a vertex on a directed cycle. A vertex reaches a cycle
  exactly when some out-neighbour does (`reachesCycle_iff`), or when a path joins it to
  a vertex that does (`ReachesCycle.of_path`), or when an out-neighbour leads back
  (`reachesCycle_of_back`); with a rank that every edge lowers no vertex does
  (`not_reachesCycle_of_rank`).
-/

import Mathlib.Data.Finset.Card
import Mathlib.Logic.Function.Basic
import Mathlib.Logic.Relation

namespace SysProg.Lib

open Relation (ReflTransGen TransGen)

variable {V : Type}

def ReachesCycle (E : V → V → Prop) (v : V) : Prop := ∃ w, ReflTransGen E v w ∧ TransGen E w w

variable {E : V → V → Prop} {v w : V}

theorem ReachesCycle.of_path (hp : ReflTransGen E v w) (h : ReachesCycle E w) : ReachesCycle E v := by
  obtain ⟨x, hx, hc⟩ := h
  exact ⟨x, hp.trans hx, hc⟩

theorem ReachesCycle.mono {F : V → V → Prop} (hEF : ∀ v w, E v w → F v w) (h : ReachesCycle E v) :
    ReachesCycle F v := by
  rcases h with ⟨x, hx, hc⟩
  exact ⟨x, Relation.ReflTransGen.mono hEF _ _ hx, Relation.TransGen.mono hEF _ _ hc⟩

/-- Where `P` holds every edge of one graph is one of the other and keeps `P`. -/
theorem path_mono_on {F : V → V → Prop} {P : V → Prop} (hEF : ∀ v w, P v → E v w → F v w ∧ P w) (hv : P v)
    (h : ReflTransGen E v w) : ReflTransGen F v w ∧ P w := by
  induction h with
  | refl => exact ⟨.refl, hv⟩
  | tail _ he ih => exact ⟨ih.1.tail (hEF _ _ ih.2 he).1, (hEF _ _ ih.2 he).2⟩

theorem ReachesCycle.mono_on {F : V → V → Prop} {P : V → Prop} (hEF : ∀ v w, P v → E v w → F v w ∧ P w) (hv : P v)
    (h : ReachesCycle E v) : ReachesCycle F v := by
  obtain ⟨x, hx, hc⟩ := h
  obtain ⟨hx, hP⟩ := path_mono_on hEF hv hx
  obtain ⟨y, he, hyx⟩ := TransGen.head'_iff.mp hc
  obtain ⟨hf, hy⟩ := hEF x y hP he
  exact ⟨x, hx, .head' hf (path_mono_on hEF hy hyx).1⟩

/-- An edge back to a vertex that leads here closes a cycle. -/
theorem reachesCycle_of_back (he : E v w) (hp : ReflTransGen E w v) : ReachesCycle E v :=
  ⟨v, .refl, .head' he hp⟩

theorem reachesCycle_iff : ReachesCycle E v ↔ ∃ w, E v w ∧ ReachesCycle E w := by
  constructor
  · intro ⟨x, hx, hc⟩
    rcases hx.cases_head with rfl | ⟨w, hvw, hwx⟩
    · obtain ⟨w, hvw, hwv⟩ := TransGen.head'_iff.mp hc
      exact ⟨w, hvw, v, hwv, hc⟩
    · exact ⟨w, hvw, x, hwx, hc⟩
  · intro ⟨w, hvw, h⟩; exact h.of_path (.single hvw)

/-- Edges that lower a rank close no cycle. -/
theorem not_reachesCycle_of_rank (r : V → Nat) (hr : ∀ v w, E v w → r w < r v) : ¬ ReachesCycle E v := by
  intro ⟨x, _, hc⟩
  have hlt : ∀ {y}, TransGen E x y → r y < r x := fun h => by
    induction h with
    | single he => exact hr _ _ he
    | tail _ he ih => exact Nat.lt_trans (hr _ _ he) ih
  exact Nat.lt_irrefl _ (hlt hc)

/-! ## Finite graphs -/

structure AdjGraph (V : Type) where
  vertices : Finset V
  /-- The out-neighbours, in the order they are listed. -/
  neighbors : V → List V
  closed : ∀ {v w}, w ∈ neighbors v → w ∈ vertices

namespace AdjGraph

def Edge (g : AdjGraph V) (v w : V) : Prop := w ∈ g.neighbors v

variable [DecidableEq V]

def removeEdge (g : AdjGraph V) (a b : V) : AdjGraph V where
  vertices := g.vertices
  neighbors := Function.update g.neighbors a ((g.neighbors a).filter (· ≠ b))
  closed {v w} h := by
    by_cases e : v = a
    · subst e
      rw [Function.update_self] at h
      exact g.closed (List.mem_of_mem_filter h)
    · rw [Function.update_of_ne e] at h; exact g.closed h

variable {g : AdjGraph V} {a b : V}

@[simp] theorem removeEdge_vertices : (g.removeEdge a b).vertices = g.vertices := rfl

@[simp] theorem removeEdge_self : (g.removeEdge a b).neighbors a = (g.neighbors a).filter (· ≠ b) :=
  Function.update_self ..

theorem removeEdge_off (h : v ≠ a) : (g.removeEdge a b).neighbors v = g.neighbors v := Function.update_of_ne h ..

/-- A vertex newly visited leaves fewer to visit. -/
theorem card_unvisited {visited : Finset V} (hv : v ∈ g.vertices) (hn : v ∉ visited) :
    (g.vertices \ insert v visited).card < (g.vertices \ visited).card := by
  refine Finset.card_lt_card ⟨Finset.sdiff_subset_sdiff (Finset.Subset.refl _) (Finset.subset_insert _ _), fun h => ?_⟩
  have hmem := h (Finset.mem_sdiff.mpr ⟨hv, hn⟩)
  exact (Finset.mem_sdiff.mp hmem).2 (Finset.mem_insert_self _ _)

end AdjGraph

end SysProg.Lib
