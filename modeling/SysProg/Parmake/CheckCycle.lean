/-
  SysProg.Parmake.CheckCycle — the cycle check of parallel_make/parmake.c.

  `graph_has_cycle_util` is a depth-first search over two sets shared by all goals:
  `vis`, the vertices entered, and `stack`, those entered and not left. It returns at
  once when it finds a cycle, and the vertices it was inside of stay in `stack`.
  `check_cycle` searches from each goal (an out-neighbour of the root "") in turn and
  detaches a goal whose search finds a cycle, or that an earlier search left in `stack`.

  The recursion is bounded by `fuel`; one more than the number of vertices is always
  enough (`util_spec`). By `check_cycle_spec`, the goals left are those from which no
  cycle is reachable, the others are printed, and no other edge changes. A
  graph lists the neighbours of a vertex in a fixed order: no vertex is asked for twice.

  What the sets mean between two statements, while `v` is being searched: a vertex of
  `stack` reaches a cycle or leads to `v` (`Above`), and a vertex of `vis` off the
  stack reaches no cycle (`Marks.Inv`).
-/

import SysProg.Lib.AdjGraph

namespace SysProg.Parmake

open Relation (ReflTransGen)
open SysProg.Lib (AdjGraph ReachesCycle reachesCycle_iff reachesCycle_of_back)

variable {V : Type} [DecidableEq V]

structure Marks (V : Type) where
  vis : Finset V
  stack : Finset V

/-- The loop of `graph_has_cycle_util` over the neighbours; `visit` is the recursive call. -/
def searchNeighbors (visit : V → Marks V → Option (Bool × Marks V)) : List V → Marks V → Option (Bool × Marks V)
  | [], m => some (false, m)
  | a :: rest, m =>
    if a ∈ m.stack then some (true, m)
    else if a ∈ m.vis then searchNeighbors visit rest m
    else (visit a m).bind fun r => if r.1 then some r else searchNeighbors visit rest r.2

def enter (vertex : V) (m : Marks V) : Marks V := ⟨insert vertex m.vis, insert vertex m.stack⟩

/-- `set_remove(stack, vertex)` is reached only when no cycle was found. -/
def leave (vertex : V) : Bool × Marks V → Bool × Marks V
  | (true, m) => (true, m)
  | (false, m) => (false, { m with stack := m.stack.erase vertex })

def graphHasCycleUtil (g : AdjGraph V) : Nat → V → Marks V → Option (Bool × Marks V)
  | 0, _, _ => none
  | fuel + 1, vertex, m =>
    (searchNeighbors (graphHasCycleUtil g fuel) (g.neighbors vertex) (enter vertex m)).map (leave vertex)

/-- What `check_cycle` changes: the graph, the sets and the goals it printed. -/
structure Check (V : Type) where
  graph : AdjGraph V
  marks : Marks V
  failed : List V

/-- `print_cycle_failure(vertex); graph_remove_edge(dependency_graph, "", vertex)` -/
def detach (root : V) (vertex : V) (c : Check V) : Check V :=
  { c with graph := c.graph.removeEdge root vertex, failed := c.failed ++ [vertex] }

def checkGoals (root : V) : List V → Check V → Option (Check V)
  | [], c => some c
  | vertex :: rest, c =>
    if vertex ∉ c.marks.vis then
      (graphHasCycleUtil c.graph (c.graph.vertices.card + 1) vertex c.marks).bind fun r =>
        checkGoals root rest (if r.1 then detach root vertex { c with marks := r.2 } else { c with marks := r.2 })
    else if vertex ∈ c.marks.stack then checkGoals root rest (detach root vertex c)
    else checkGoals root rest c

def checkCycle (root : V) (g : AdjGraph V) : Option (Check V) := checkGoals root (g.neighbors root) ⟨g, ⟨∅, ∅⟩, []⟩

/-! ## One search -/

structure Marks.Inv (E : V → V → Prop) (m : Marks V) : Prop where
  entered : m.stack ⊆ m.vis
  left : ∀ u ∈ m.vis, u ∉ m.stack → ¬ ReachesCycle E u

/-- What is on the stack while `v` is searched: ancestors of `v`, and what earlier
    searches that found a cycle left there. -/
def Above (E : V → V → Prop) (m : Marks V) (v : V) : Prop := ∀ u ∈ m.stack, ReachesCycle E u ∨ ReflTransGen E u v

/-- A search answered `r`, where `cyclic` says whether a cycle is there to be found: the
    stack is as it was, or all that was added reaches a cycle. -/
structure Answer (E : V → V → Prop) (cyclic : Prop) (m : Marks V) (r : Bool × Marks V) : Prop where
  inv : r.2.Inv E
  vis : m.vis ⊆ r.2.vis
  exact : r.1 = true ↔ cyclic
  stack : r.1 = false → r.2.stack = m.stack
  added : ∀ u ∈ r.2.stack, u ∈ m.stack ∨ ReachesCycle E u

variable {g : AdjGraph V} {v : V} {m : Marks V}

/-- The loop over the neighbours of `v`, `v` being on the stack, given what the
    recursive calls do. -/
theorem searchNeighbors_spec {f : V → Marks V → Option (Bool × Marks V)} {l : List V} (hl : ∀ a ∈ l, g.Edge v a)
    (hvisit : ∀ a ∈ l, ∀ m', m.vis ⊆ m'.vis → a ∉ m'.vis → m'.Inv g.Edge → Above g.Edge m' a →
      ∃ r, f a m' = some r ∧ Answer g.Edge (ReachesCycle g.Edge a) m' r)
    (hi : m.Inv g.Edge) (ha : Above g.Edge m v) :
    ∃ r, searchNeighbors f l m = some r ∧ Answer g.Edge (∃ a ∈ l, ReachesCycle g.Edge a) m r := by
  induction l generalizing m with
  | nil => exact ⟨_, rfl, hi, fun _ h => h, by simp, fun _ => rfl, fun u hu => Or.inl hu⟩
  | cons a l ih =>
    have hva : g.Edge v a := hl a (by simp)
    have hl' : ∀ b ∈ l, g.Edge v b := fun b hb => hl b (List.mem_cons_of_mem _ hb)
    have hvisit' : ∀ b ∈ l, _ := fun b hb => hvisit b (List.mem_cons_of_mem _ hb)
    simp only [searchNeighbors]
    split
    · -- `a` on the stack: it leads to `v`, or to the cycle an earlier search found
      rename_i hst
      have hcyc : ReachesCycle g.Edge a := by
        rcases ha a hst with h | h
        · exact h
        · exact (reachesCycle_of_back hva h).of_path h
      exact ⟨_, rfl, hi, fun _ h => h, by simpa using Or.inl hcyc, by simp, fun u hu => Or.inl hu⟩
    · rename_i hst
      split
      · rename_i hvis
        have hno := hi.left a hvis hst
        obtain ⟨r, hr, hA⟩ := ih hl' hvisit' hi ha
        exact ⟨r, hr, hA.inv, hA.vis, by rw [hA.exact]; simp [hno], hA.stack, hA.added⟩
      · rename_i hvis
        have habove : Above g.Edge m a := fun u hu => (ha u hu).imp_right fun h => h.tail hva
        obtain ⟨r, hr, hA⟩ := hvisit a (by simp) m (fun _ h => h) hvis hi habove
        rw [hr, Option.bind_some]
        split
        · rename_i hc
          have hcyc := hA.exact.mp hc
          exact ⟨r, rfl, hA.inv, hA.vis, by simp [hc, hcyc], hA.stack, hA.added⟩
        · rename_i hc
          have hf : r.1 = false := by simpa using hc
          have hno : ¬ ReachesCycle g.Edge a := fun h => hc (hA.exact.mpr h)
          have hstack := hA.stack hf
          obtain ⟨r', hr', hB⟩ := ih hl'
            (fun b hb m' hm' => hvisit' b hb m' (hA.vis.trans hm')) hA.inv (by unfold Above; rw [hstack]; exact ha)
          exact ⟨r', hr', hB.inv, hA.vis.trans hB.vis, by rw [hB.exact]; simp [hno],
            fun h => (hB.stack h).trans hstack, by rw [← hstack]; exact hB.added⟩

theorem enter_inv (hi : m.Inv g.Edge) : (enter v m).Inv g.Edge := by
  refine ⟨Finset.insert_subset_insert v hi.entered, fun u hu hus => ?_⟩
  simp only [enter, Finset.mem_insert, not_or] at hu hus
  exact hi.left u (hu.resolve_left hus.1) hus.2

theorem enter_above (ha : Above g.Edge m v) : Above g.Edge (enter v m) v := by
  intro u hu
  rcases Finset.mem_insert.mp hu with rfl | hu
  · exact Or.inr .refl
  · exact ha u hu

theorem leave_answer {r : Bool × Marks V} (hn : v ∉ m.stack)
    (h : Answer g.Edge (ReachesCycle g.Edge v) (enter v m) r) :
      Answer g.Edge (ReachesCycle g.Edge v) m (leave v r) := by
  have hvis : m.vis ⊆ r.2.vis := (Finset.subset_insert v _).trans h.vis
  obtain ⟨_ | _, m'⟩ := r
  · have hno : ¬ ReachesCycle g.Edge v := fun hc => by cases h.exact.mpr hc
    have hst : m'.stack.erase v = m.stack := by
      rw [h.stack rfl]; exact Finset.erase_insert hn
    refine ⟨⟨(Finset.erase_subset _ _).trans h.inv.entered, fun u hu hus => ?_⟩, hvis, h.exact, fun _ => hst,
      fun u hu => Or.inl (hst ▸ hu)⟩
    by_cases e : u = v
    · exact e ▸ hno
    · exact h.inv.left u hu fun hm => hus (Finset.mem_erase.mpr ⟨e, hm⟩)
  · refine ⟨h.inv, hvis, h.exact, fun hf => (by cases hf), fun u hu => ?_⟩
    rcases h.added u hu with hm | hc
    · rcases Finset.mem_insert.mp hm with rfl | hm
      · exact Or.inr (h.exact.mp rfl)
      · exact Or.inl hm
    · exact Or.inr hc

/-- With fuel for every vertex not yet visited, a search answers whether `v` reaches a
    cycle. -/
theorem util_spec {fuel : Nat} (hf : (g.vertices \ m.vis).card < fuel) (hv : v ∈ g.vertices) (hn : v ∉ m.vis)
    (hi : m.Inv g.Edge) (ha : Above g.Edge m v) :
    ∃ r, graphHasCycleUtil g fuel v m = some r ∧ Answer g.Edge (ReachesCycle g.Edge v) m r ∧ v ∈ r.2.vis := by
  induction fuel generalizing v m with
  | zero => omega
  | succ fuel ih =>
    have hcard := AdjGraph.card_unvisited hv hn
    obtain ⟨r, hr, hA⟩ := searchNeighbors_spec (f := graphHasCycleUtil g fuel) (l := g.neighbors v) (fun a h => h)
      (fun a hva m' hm' hnew hi' ha' => by
        have hsub : (g.vertices \ m'.vis).card ≤ (g.vertices \ insert v m.vis).card :=
          Finset.card_le_card (Finset.sdiff_subset_sdiff (Finset.Subset.refl _) hm')
        obtain ⟨r, hr, hA, -⟩ := ih (by omega) (g.closed hva) hnew hi' ha'
        exact ⟨r, hr, hA⟩)
      (enter_inv hi) (enter_above ha)
    have hA' : Answer g.Edge (ReachesCycle g.Edge v) (enter v m) r :=
      { hA with exact := by rw [hA.exact, reachesCycle_iff]; rfl }
    refine ⟨leave v r, by rw [graphHasCycleUtil, hr]; rfl, leave_answer (fun h => hn (hi.entered h)) hA', ?_⟩
    have hvin : v ∈ r.2.vis := hA.vis (Finset.mem_insert_self v m.vis)
    obtain ⟨_ | _, m'⟩ := r <;> exact hvin

/-! ## All goals -/

theorem searchNeighbors_congr {visit visit' : V → Marks V → Option (Bool × Marks V)} {l : List V}
    (h : ∀ a ∈ l, ∀ m, visit a m = visit' a m) (m : Marks V) :
    searchNeighbors visit l m = searchNeighbors visit' l m := by
  induction l generalizing m with
  | nil => rfl
  | cons a l ih =>
    have hrest := ih fun b hb => h b (List.mem_cons_of_mem _ hb)
    simp only [searchNeighbors, h a (by simp), hrest]

variable {root : V}

/-- The search never comes to the root, so the goals detached so far do not matter. -/
theorem util_congr {g' : AdjGraph V} (hroot : ∀ u, root ∉ g.neighbors u)
    (hoff : ∀ u, u ≠ root → g'.neighbors u = g.neighbors u) (fuel : Nat) (hv : v ≠ root) (m : Marks V) :
    graphHasCycleUtil g' fuel v m = graphHasCycleUtil g fuel v m := by
  induction fuel generalizing v m with
  | zero => rfl
  | succ fuel ih =>
    rw [graphHasCycleUtil, graphHasCycleUtil, hoff v hv,
      searchNeighbors_congr fun a ha m => ih (fun e => hroot v (e ▸ ha)) m]

/-- Between two goals: what the sets mean in the original graph `g`, and what has become
    of the goals `done` so far. -/
structure Progress (g : AdjGraph V) (root : V) (done : List V) (c : Check V) : Prop where
  vertices : c.graph.vertices = g.vertices
  off : ∀ u, u ≠ root → c.graph.neighbors u = g.neighbors u
  goals : ∀ u, u ∈ c.graph.neighbors root ↔ u ∈ g.neighbors root ∧ (u ∈ done → ¬ ReachesCycle g.Edge u)
  inv : c.marks.Inv g.Edge
  stack : ∀ u ∈ c.marks.stack, ReachesCycle g.Edge u
  failed : ∀ u, u ∈ c.failed ↔ u ∈ done ∧ ReachesCycle g.Edge u

omit [DecidableEq V] in
theorem Progress.keep {done : List V} {c : Check V} (h : Progress g root done c) (hv : ¬ ReachesCycle g.Edge v) :
    Progress g root (done ++ [v]) c :=
  { h with
    goals := fun u => by
      rw [h.goals u]
      simp only [List.mem_append, List.mem_singleton]
      refine and_congr_right fun _ => ⟨fun hd hu => ?_, fun hd hu => hd (Or.inl hu)⟩
      rcases hu with hu | rfl
      · exact hd hu
      · exact hv
    failed := fun u => by
      rw [h.failed u]
      simp only [List.mem_append, List.mem_singleton]
      refine ⟨fun ⟨hd, hc⟩ => ⟨Or.inl hd, hc⟩, fun ⟨hd, hc⟩ => ⟨hd.resolve_right ?_, hc⟩⟩
      intro heq
      subst heq
      exact hv hc }

theorem Progress.detach {done : List V} {c : Check V} (h : Progress g root done c) (hv : ReachesCycle g.Edge v) :
    Progress g root (done ++ [v]) (detach root v c) where
  vertices := h.vertices
  off u hu := (AdjGraph.removeEdge_off hu).trans (h.off u hu)
  goals u := by
    simp only [Parmake.detach, AdjGraph.removeEdge_self, List.mem_filter, h.goals u, List.mem_append,
      List.mem_singleton, decide_eq_true_eq]
    constructor
    · intro ⟨⟨hg, hd⟩, hne⟩; exact ⟨hg, fun hu => hd (hu.resolve_right hne)⟩
    · intro ⟨hg, hd⟩
      refine ⟨⟨hg, fun hu => hd (Or.inl hu)⟩, ?_⟩
      intro heq
      subst heq
      exact hd (Or.inr rfl) hv
  inv := h.inv
  stack := h.stack
  failed u := by
    simp only [Parmake.detach, List.mem_append, List.mem_singleton, h.failed u]
    constructor
    · rintro (⟨hd, hc⟩ | rfl)
      · exact ⟨Or.inl hd, hc⟩
      · exact ⟨Or.inr rfl, hv⟩
    · rintro ⟨hd | rfl, hc⟩
      · exact Or.inl ⟨hd, hc⟩
      · exact Or.inr rfl

omit [DecidableEq V] in
/-- The sets after a search from `v` begun between two goals. -/
theorem Progress.searched {done : List V} {c : Check V} (h : Progress g root done c) {r : Bool × Marks V}
    (hA : Answer g.Edge (ReachesCycle g.Edge v) c.marks r) : Progress g root done { c with marks := r.2 } :=
  { h with
    inv := hA.inv
    stack := fun u hu => (hA.added u hu).elim (h.stack u) id }

theorem checkGoals_spec (hroot : ∀ u, root ∉ g.neighbors u) {rest done : List V} {c : Check V}
    (hrest : ∀ v ∈ rest, v ∈ g.neighbors root) (h : Progress g root done c) :
    ∃ c', checkGoals root rest c = some c' ∧ Progress g root (done ++ rest) c' := by
  induction rest generalizing done c with
  | nil => exact ⟨c, rfl, by simpa using h⟩
  | cons v rest ih =>
    have hv := hrest v (by simp)
    have hne : v ≠ root := fun e => hroot root (e ▸ hv)
    have next : ∀ {d : Check V}, Progress g root (done ++ [v]) d →
        ∃ c', checkGoals root rest d = some c' ∧ Progress g root (done ++ v :: rest) c' := fun hd => by
      obtain ⟨c', hc', hp⟩ := ih (fun u hu => hrest u (List.mem_cons_of_mem _ hu)) hd
      exact ⟨c', hc', by simpa using hp⟩
    simp only [checkGoals]
    split
    · rename_i hvis
      obtain ⟨r, hr, hA, -⟩ := util_spec
        (show (g.vertices \ c.marks.vis).card < c.graph.vertices.card + 1 by
          rw [h.vertices]; exact Nat.lt_succ_of_le (Finset.card_le_card Finset.sdiff_subset))
        (g.closed hv) hvis h.inv fun u hu => Or.inl (h.stack u hu)
      rw [util_congr hroot h.off _ hne, hr, Option.bind_some]
      have hs := h.searched hA
      split
      · rename_i hc; exact next (hs.detach (hA.exact.mp hc))
      · rename_i hc; exact next (hs.keep fun hcyc => hc (hA.exact.mpr hcyc))
    · rename_i hvis
      have hvis : v ∈ c.marks.vis := by simpa using hvis
      split
      · rename_i hst; exact next (h.detach (h.stack v hst))
      · rename_i hst; exact next (h.keep (h.inv.left v hvis hst))

/-- What `check_cycle` leaves is acyclic. -/
theorem checkCycle_acyclic (hroot : ∀ u, root ∉ g.neighbors u) {c : Check V} (hc : checkCycle root g = some c) :
    ¬ ReachesCycle c.graph.Edge root := by
  have h0 : Progress g root [] ⟨g, ⟨∅, ∅⟩, []⟩ :=
    ⟨rfl, fun _ _ => rfl, by simp, ⟨by simp, by simp⟩, by simp, by simp⟩
  rcases checkGoals_spec hroot (fun _ h => h) h0 with ⟨c', hc', hp⟩
  have he : some c = some c' := hc.symm.trans hc'
  cases he
  have hsub : ∀ v w, c.graph.Edge v w → g.Edge v w := by
    intro v w hvw
    by_cases e : v = root
    · rw [e] at hvw ⊢
      exact ((hp.goals w).mp hvw).1
    · unfold AdjGraph.Edge at hvw ⊢
      rw [← hp.off v e]
      exact hvw
  intro hcyc
  rcases reachesCycle_iff.mp hcyc with ⟨w, hw, hcyc⟩
  rcases (hp.goals w).mp hw with ⟨hgoal, hno⟩
  exact hno hgoal (hcyc.mono hsub)

/-- `check_cycle` returns; the goals left are those from which no cycle is reachable,
    the others are printed, and no other edge changes. -/
theorem check_cycle_spec (g : AdjGraph V) (root : V) (hroot : ∀ u, root ∉ g.neighbors u) :
    ∃ c, checkCycle root g = some c ∧
      (∀ goal, goal ∈ c.graph.neighbors root ↔ goal ∈ g.neighbors root ∧ ¬ ReachesCycle g.Edge goal) ∧
      (∀ u, u ≠ root → c.graph.neighbors u = g.neighbors u) ∧ c.graph.vertices = g.vertices ∧
      ∀ goal, goal ∈ c.failed ↔ goal ∈ g.neighbors root ∧ ReachesCycle g.Edge goal := by
  have h0 : Progress g root [] ⟨g, ⟨∅, ∅⟩, []⟩ :=
    ⟨rfl, fun _ _ => rfl, by simp, ⟨by simp, by simp⟩, by simp, by simp⟩
  obtain ⟨c, hc, hp⟩ := checkGoals_spec hroot (fun _ h => h) h0
  refine ⟨c, hc, fun goal => ?_, hp.off, hp.vertices, by simpa using hp.failed⟩
  rw [hp.goals goal]
  exact ⟨fun ⟨hg, hd⟩ => ⟨hg, hd (by simpa using hg)⟩, fun ⟨hg, hn⟩ => ⟨hg, fun _ => hn⟩⟩

/-- Goals "a", on a cycle with "b", then "c", then "b", which the search from "a" left on
    the stack. -/
def sampleGraph : AdjGraph String where
  vertices := {"", "a", "b", "c"}
  neighbors v := if v = "" then ["a", "c", "b"] else if v = "a" then ["c", "b"] else if v = "b" then ["a"] else []
  closed {v w} h := by
    split_ifs at h <;> simp only [List.mem_cons, List.not_mem_nil, or_false] at h
    · rcases h with rfl | rfl | rfl <;> decide
    · rcases h with rfl | rfl <;> decide
    · subst h; decide

theorem check_cycle_spec_sample : ∃ c, checkCycle "" sampleGraph = some c ∧ c.graph.neighbors "" = ["c"] ∧
    c.failed = ["a", "b"] ∧ ReachesCycle sampleGraph.Edge "b" ∧ ¬ ReachesCycle sampleGraph.Edge "c" := by
  have hroot : ∀ u, "" ∉ sampleGraph.neighbors u := fun u => by
    simp only [sampleGraph]
    split_ifs <;> decide
  have hrun : (checkCycle "" sampleGraph).map (fun c => (c.graph.neighbors "", c.failed)) =
    some (["c"], ["a", "b"]) := by decide
  obtain ⟨c, hc, hgoals, -, -, hfailed⟩ := check_cycle_spec sampleGraph "" hroot
  rw [hc] at hrun
  obtain ⟨hg, hf⟩ := Prod.mk.inj (Option.some.inj hrun)
  exact ⟨c, hc, hg, hf, ((hfailed "b").mp (by rw [hf]; decide)).2, ((hgoals "c").mp (by rw [hg]; decide)).2⟩

end SysProg.Parmake
