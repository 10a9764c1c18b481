/-
  SysProg.Lib.EdgeGraph — directed graphs that are built edge by edge.

  A graph is a finite set of vertices and the edges between them; an edge is there once or
  not at all. `Listing` is the order in which vertices and neighbours are enumerated,
  which may be any. Edges that lower a rank close no directed cycle
  (`not_hasCycle_of_rank`). Along its edges both ways a graph is an `AdjGraph` (`Listing.both`),
  in which a vertex reaches a cycle as soon as it has an edge (`both_reachesCycle`), and
  only through some edge (`exists_edge_of_both`).
-/

import SysProg.Lib.AdjGraph

namespace SysProg.Lib

structure EdgeGraph (V : Type) where
  vertices : Finset V
  edge : V → V → Bool
  closed : ∀ {v w}, edge v w = true → v ∈ vertices ∧ w ∈ vertices

namespace EdgeGraph

variable {V : Type} [DecidableEq V]

def empty : EdgeGraph V := ⟨∅, fun _ _ => false, by simp⟩

def addVertex (g : EdgeGraph V) (x : V) : EdgeGraph V where
  vertices := insert x g.vertices
  edge := g.edge
  closed h := ⟨Finset.mem_insert_of_mem (g.closed h).1, Finset.mem_insert_of_mem (g.closed h).2⟩

def removeVertex (g : EdgeGraph V) (x : V) : EdgeGraph V where
  vertices := g.vertices.erase x
  edge v w := g.edge v w && v ≠ x && w ≠ x
  closed h := by
    simp only [Bool.and_eq_true, decide_eq_true_eq] at h
    exact ⟨Finset.mem_erase.mpr ⟨h.1.2, (g.closed h.1.1).1⟩, Finset.mem_erase.mpr ⟨h.2, (g.closed h.1.1).2⟩⟩

/-- Nothing changes unless both ends are vertices. -/
def addEdge (g : EdgeGraph V) (x y : V) : EdgeGraph V where
  vertices := g.vertices
  edge v w := g.edge v w || (v = x && w = y && x ∈ g.vertices && y ∈ g.vertices)
  closed h := by
    simp only [Bool.or_eq_true, Bool.and_eq_true, decide_eq_true_eq] at h
    rcases h with h | h
    · exact g.closed h
    · rw [h.1.1.1, h.1.1.2]
      exact ⟨h.1.2, h.2⟩

def removeEdge (g : EdgeGraph V) (x y : V) : EdgeGraph V where
  vertices := g.vertices
  edge v w := g.edge v w && !(v = x && w = y)
  closed h := by
    rw [Bool.and_eq_true] at h
    exact g.closed h.1

variable {g : EdgeGraph V} {v w x y : V}

omit [DecidableEq V] in
@[simp] theorem empty_edge : (empty : EdgeGraph V).edge v w = false := rfl

@[simp] theorem addVertex_edge : (g.addVertex x).edge v w = g.edge v w := rfl

@[simp] theorem removeVertex_edge : (g.removeVertex x).edge v w = true ↔ g.edge v w = true ∧ v ≠ x ∧ w ≠ x := by
  simp [removeVertex, and_assoc]

@[simp] theorem addEdge_edge (hx : x ∈ g.vertices) (hy : y ∈ g.vertices) :
    (g.addEdge x y).edge v w = true ↔ g.edge v w = true ∨ v = x ∧ w = y := by
  simp [addEdge, hx, hy]

@[simp] theorem removeEdge_edge : (g.removeEdge x y).edge v w = true ↔ g.edge v w = true ∧ ¬ (v = x ∧ w = y) := by
  simp [removeEdge, imp_iff_not_or]

/-- An edge added where there was none, and taken away. -/
theorem removeEdge_addEdge (h : g.edge x y = false) : ((g.addEdge x y).removeEdge x y).edge = g.edge := by
  funext v w
  by_cases hv : v = x ∧ w = y
  · rw [hv.1, hv.2, h]
    simp [removeEdge]
  · simp only [removeEdge, addEdge]
    by_cases hvx : v = x
    · have hwy : w ≠ y := fun e => hv ⟨hvx, e⟩
      simp [hwy]
    · simp [hvx]

/-! ## Directed cycles -/

def HasCycle (g : EdgeGraph V) : Prop := ∃ v, Relation.TransGen (fun v w => g.edge v w = true) v v

omit [DecidableEq V] in
theorem HasCycle.exists_edge (h : g.HasCycle) : ∃ v w, g.edge v w = true := by
  rcases h with ⟨v, hc⟩
  rcases Relation.TransGen.head'_iff.mp hc with ⟨w, hvw, -⟩
  exact ⟨v, w, hvw⟩

omit [DecidableEq V] in
theorem not_hasCycle_of_rank (r : V → Nat) (hr : ∀ v w, g.edge v w = true → r w < r v) : ¬ g.HasCycle := by
  intro ⟨v, hc⟩
  exact not_reachesCycle_of_rank r hr ⟨v, .refl, hc⟩

end EdgeGraph

/-! ## Enumerations -/

structure Listing (V : Type) where
  vertices : EdgeGraph V → List V
  neighbors : EdgeGraph V → V → List V
  antineighbors : EdgeGraph V → V → List V
  mem_vertices : ∀ {g v}, v ∈ vertices g ↔ v ∈ g.vertices
  mem_neighbors : ∀ {g v w}, w ∈ neighbors g v ↔ g.edge v w = true
  mem_antineighbors : ∀ {g v w}, w ∈ antineighbors g v ↔ g.edge w v = true

namespace Listing

variable {V : Type}

def ofList [DecidableEq V] (all : List V) (h : ∀ v, v ∈ all) : Listing V where
  vertices g := all.filter (· ∈ g.vertices)
  neighbors g v := all.filter (g.edge v)
  antineighbors g v := all.filter fun w => g.edge w v
  mem_vertices := by simp [h]
  mem_neighbors := by simp [h]
  mem_antineighbors := by simp [h]

def both (L : Listing V) (g : EdgeGraph V) : AdjGraph V where
  vertices := g.vertices
  neighbors v := L.neighbors g v ++ L.antineighbors g v
  closed h := by
    rcases List.mem_append.mp h with h | h
    · exact (g.closed (L.mem_neighbors.mp h)).2
    · exact (g.closed (L.mem_antineighbors.mp h)).1

variable {L : Listing V} {g : EdgeGraph V} {v w : V}

theorem both_edge : (L.both g).Edge v w ↔ g.edge v w = true ∨ g.edge w v = true := by
  unfold AdjGraph.Edge both
  rw [List.mem_append, L.mem_neighbors, L.mem_antineighbors]

/-- An edge and back. -/
theorem both_reachesCycle (h : g.edge v w = true) : ReachesCycle (L.both g).Edge v :=
  reachesCycle_of_back (both_edge.mpr (Or.inl h)) (.single (both_edge.mpr (Or.inr h)))

theorem exists_edge_of_both (h : ReachesCycle (L.both g).Edge v) : ∃ a b, g.edge a b = true := by
  rcases reachesCycle_iff.mp h with ⟨w, hvw, -⟩
  rcases both_edge.mp hvw with h | h
  · exact ⟨v, w, h⟩
  · exact ⟨w, v, h⟩

end Listing

end SysProg.Lib
