/-
  SysProg.Parmake.TopologicalSort — the order in which parallel_make/parmake.c looks at
  the targets.

  `topological_sort` appends each target after a depth-first search of what it depends
  on, with one set of visited vertices for all targets. (The set `stack` is only added
  to, never read.) The recursion is bounded by `fuel`; one more than the number of vertices
  is always enough.

  `sorts_targets`: when no target leads to a cycle, the order has exactly the vertices that
  the targets lead to, each once, after all that it depends on (`Topological`). While `v` is
  being searched the vertices of `path` are entered and not yet appended, and all lead to
  `v` (`Order.Inv`).
-/

import SysProg.Lib.AdjGraph

namespace SysProg.Parmake

open Relation (ReflTransGen TransGen)
open SysProg.Lib (AdjGraph ReachesCycle reachesCycle_of_back not_reachesCycle_of_rank)

variable {V : Type} [DecidableEq V]

structure Order (V : Type) where
  visited : Finset V
  sorted : List V

/-- The loop over the vertices of a list; `visit` is the recursive call. -/
def sortEach (visit : V → Order V → Option (Order V)) : List V → Order V → Option (Order V)
  | [], o => some o
  | vertex :: rest, o =>
    if vertex ∉ o.visited then (visit vertex o).bind (sortEach visit rest) else sortEach visit rest o

def topologicalSortUtil (g : AdjGraph V) : Nat → V → Order V → Option (Order V)
  | 0, _, _ => none
  | fuel + 1, target, o =>
    (sortEach (topologicalSortUtil g fuel) (g.neighbors target) { o with visited := insert target o.visited }).map
      fun o => { o with sorted := o.sorted ++ [target] }

def topologicalSort (g : AdjGraph V) (targets : List V) : Option (List V) :=
  (sortEach (topologicalSortUtil g (g.vertices.card + 1)) targets ⟨∅, []⟩).map Order.sorted

/-! ## The order -/

/-- Each vertex once, and what it depends on before it. -/
structure Topological (g : AdjGraph V) (sorted : List V) : Prop where
  nodup : sorted.Nodup
  before : ∀ l x l', sorted = l ++ x :: l' → ∀ d ∈ g.neighbors x, d ∈ l

structure Order.Inv (g : AdjGraph V) (path : Finset V) (o : Order V) : Prop where
  order : Topological g o.sorted
  visited : ∀ x, x ∈ o.visited ↔ x ∈ path ∨ x ∈ o.sorted
  apart : ∀ x ∈ path, x ∉ o.sorted

variable {g : AdjGraph V} {path : Finset V} {o o' : Order V} {v : V}

omit [DecidableEq V] in
theorem Topological.append {sorted : List V} (h : Topological g sorted) (hv : v ∉ sorted)
    (hdeps : ∀ d ∈ g.neighbors v, d ∈ sorted) : Topological g (sorted ++ [v]) where
  nodup := h.nodup.append (List.nodup_singleton v) (by simpa using hv)
  before l x l' he d hd := by
    rcases List.eq_nil_or_concat l' with hl | ⟨l'', y, hl⟩
    · rw [hl] at he
      rcases List.append_inj' he rfl with ⟨hs, hx⟩
      cases hx
      exact hs ▸ hdeps d hd
    · rw [hl, List.concat_eq_append, ← List.cons_append, ← List.append_assoc] at he
      exact h.before l x l'' (List.append_inj' he rfl).1 d hd

theorem Order.Inv.enter (h : o.Inv g path) (hv : v ∉ o.visited) :
    ({ o with visited := insert v o.visited } : Order V).Inv g (insert v path) where
  order := h.order
  visited x := by
    rw [Finset.mem_insert, Finset.mem_insert, h.visited, or_assoc]
  apart x hx := by
    rcases Finset.mem_insert.mp hx with hx | hx
    · rw [hx]
      intro hs
      exact hv ((h.visited v).mpr (Or.inr hs))
    · exact h.apart x hx

theorem Order.Inv.leave (h : o'.Inv g (insert v path)) (hv : v ∉ path) (hdeps : ∀ d ∈ g.neighbors v, d ∈ o'.sorted) :
    ({ o' with sorted := o'.sorted ++ [v] } : Order V).Inv g path where
  order := h.order.append (h.apart v (Finset.mem_insert_self v path)) hdeps
  visited x := by
    rw [h.visited, Finset.mem_insert, List.mem_append, List.mem_singleton]
    tauto
  apart x hx := by
    rw [List.mem_append, List.mem_singleton]
    intro hs
    rcases hs with hs | hs
    · exact h.apart x (Finset.mem_insert_of_mem hx) hs
    · exact hv (hs ▸ hx)

structure Sorts (g : AdjGraph V) (path : Finset V) (o : Order V) (targets : List V) (o' : Order V) : Prop where
  inv : o'.Inv g path
  visited : o.visited ⊆ o'.visited
  kept : ∀ x ∈ o.sorted, x ∈ o'.sorted
  all : ∀ a ∈ targets, a ∈ o'.sorted
  reached : ∀ x ∈ o'.sorted, x ∈ o.sorted ∨ ∃ a ∈ targets, ReflTransGen g.Edge a x

theorem sortEach_spec {visit : V → Order V → Option (Order V)} {l : List V}
    (hvisit : ∀ a ∈ l, ∀ o₁, o.visited ⊆ o₁.visited → a ∉ o₁.visited → o₁.Inv g path →
      ∃ o₂, visit a o₁ = some o₂ ∧ Sorts g path o₁ [a] o₂)
    (hacyclic : ∀ a ∈ l, ¬ ReachesCycle g.Edge a) (hpath : ∀ a ∈ l, ∀ u ∈ path, TransGen g.Edge u a)
    (hi : o.Inv g path) : ∃ o', sortEach visit l o = some o' ∧ Sorts g path o l o' := by
  induction l generalizing o with
  | nil =>
    refine ⟨o, rfl, hi, Finset.Subset.refl _, fun x hx => hx, by simp, ?_⟩
    intro x hx
    exact Or.inl hx
  | cons a l ih =>
    have hacyclic' : ∀ b ∈ l, ¬ ReachesCycle g.Edge b := fun b hb => hacyclic b (List.mem_cons_of_mem _ hb)
    have hpath' : ∀ b ∈ l, ∀ u ∈ path, TransGen g.Edge u b := fun b hb => hpath b (List.mem_cons_of_mem _ hb)
    rw [sortEach]
    split
    · rename_i ha
      rcases hvisit a List.mem_cons_self o (Finset.Subset.refl _) ha hi with ⟨o₁, ho₁, h₁⟩
      have hrest : ∀ b ∈ l, ∀ o₂, o₁.visited ⊆ o₂.visited → b ∉ o₂.visited → o₂.Inv g path →
          ∃ o₃, visit b o₂ = some o₃ ∧ Sorts g path o₂ [b] o₃ := by
        intro b hb o₂ hsub
        exact hvisit b (List.mem_cons_of_mem _ hb) o₂ (h₁.visited.trans hsub)
      rcases ih hrest hacyclic' hpath' h₁.inv with ⟨o', ho', h'⟩
      refine ⟨o', by rw [ho₁, Option.bind_some, ho'], h'.inv, h₁.visited.trans h'.visited, ?_, ?_, ?_⟩
      · intro x hx
        exact h'.kept x (h₁.kept x hx)
      · intro b hb
        rcases List.mem_cons.mp hb with hb | hb
        · exact h'.kept b (h₁.all b (by simp [hb]))
        · exact h'.all b hb
      · intro x hx
        rcases h'.reached x hx with hx | ⟨b, hb, hbx⟩
        · rcases h₁.reached x hx with hx | ⟨b, hb, hbx⟩
          · exact Or.inl hx
          · exact Or.inr ⟨b, by rw [List.mem_singleton.mp hb]; exact List.mem_cons_self, hbx⟩
        · exact Or.inr ⟨b, List.mem_cons_of_mem _ hb, hbx⟩
    · rename_i ha
      have ha : a ∈ o.visited := not_not.mp ha
      have hrest : ∀ b ∈ l, _ := fun b hb => hvisit b (List.mem_cons_of_mem _ hb)
      rcases ih hrest hacyclic' hpath' hi with ⟨o', ho', h'⟩
      refine ⟨o', ho', h'.inv, h'.visited, h'.kept, ?_, ?_⟩
      · intro b hb
        rcases List.mem_cons.mp hb with hb | hb
        · rw [hb]
          -- on the path it would close a cycle
          rcases (hi.visited a).mp ha with hp | hs
          · exact absurd ⟨a, .refl, hpath a List.mem_cons_self a hp⟩ (hacyclic a List.mem_cons_self)
          · exact h'.kept a hs
        · exact h'.all b hb
      · intro x hx
        rcases h'.reached x hx with hx | ⟨b, hb, hbx⟩
        · exact Or.inl hx
        · exact Or.inr ⟨b, List.mem_cons_of_mem _ hb, hbx⟩

/-- With fuel for every vertex not yet visited, a search returns. -/
theorem topologicalSortUtil_spec {fuel : Nat} (hf : (g.vertices \ o.visited).card < fuel) (hv : v ∈ g.vertices)
    (hn : v ∉ o.visited) (hacyclic : ¬ ReachesCycle g.Edge v) (hpath : ∀ u ∈ path, TransGen g.Edge u v)
    (hi : o.Inv g path) : ∃ o', topologicalSortUtil g fuel v o = some o' ∧ Sorts g path o [v] o' := by
  induction fuel generalizing v o path with
  | zero => omega
  | succ fuel ih =>
    have hcard := AdjGraph.card_unvisited hv hn
    have hvpath : v ∉ path := fun h => hn ((hi.visited v).mpr (Or.inl h))
    have hnext : ∀ a ∈ g.neighbors v, ¬ ReachesCycle g.Edge a := by
      intro a ha hc
      exact hacyclic (hc.of_path (.single ha))
    have hpath' : ∀ a ∈ g.neighbors v, ∀ u ∈ insert v path, TransGen g.Edge u a := by
      intro a ha u hu
      rcases Finset.mem_insert.mp hu with hu | hu
      · rw [hu]
        exact .single ha
      · exact (hpath u hu).tail ha
    have hvisit : ∀ a ∈ g.neighbors v, ∀ o₁, insert v o.visited ⊆ o₁.visited → a ∉ o₁.visited →
        o₁.Inv g (insert v path) → ∃ o₂, topologicalSortUtil g fuel a o₁ = some o₂ ∧
          Sorts g (insert v path) o₁ [a] o₂ := by
      intro a ha o₁ hsub hna hi₁
      have hle : (g.vertices \ o₁.visited).card ≤ (g.vertices \ insert v o.visited).card :=
        Finset.card_le_card (Finset.sdiff_subset_sdiff (Finset.Subset.refl _) hsub)
      exact ih (by omega) (g.closed ha) hna (hnext a ha) (hpath' a ha) hi₁
    rcases sortEach_spec hvisit hnext hpath' (hi.enter hn) with ⟨o', ho', h'⟩
    refine ⟨{ o' with sorted := o'.sorted ++ [v] }, by rw [topologicalSortUtil, ho']; rfl, ?_⟩
    refine ⟨h'.inv.leave hvpath h'.all, (Finset.subset_insert _ _).trans h'.visited, ?_, ?_, ?_⟩
    · intro x hx
      exact List.mem_append_left _ (h'.kept x hx)
    · intro a ha
      exact List.mem_append_right _ ha
    · intro x hx
      rcases List.mem_append.mp hx with hx | hx
      · rcases h'.reached x hx with hx | ⟨a, ha, hax⟩
        · exact Or.inl hx
        · exact Or.inr ⟨v, List.mem_singleton_self v, .head ha hax⟩
      · rw [List.mem_singleton.mp hx]
        exact Or.inr ⟨v, List.mem_singleton_self v, .refl⟩

theorem topologicalSort_spec {targets : List V} (ht : ∀ t ∈ targets, t ∈ g.vertices)
    (hacyclic : ∀ t ∈ targets, ¬ ReachesCycle g.Edge t) :
    ∃ sorted, topologicalSort g targets = some sorted ∧ Topological g sorted ∧ (∀ t ∈ targets, t ∈ sorted) ∧
      ∀ x ∈ sorted, ∃ t ∈ targets, ReflTransGen g.Edge t x := by
  have h0 : (⟨∅, []⟩ : Order V).Inv g ∅ := ⟨⟨List.nodup_nil, by simp⟩, by simp, by simp⟩
  have hvisit : ∀ a ∈ targets, ∀ o₁, (⟨∅, []⟩ : Order V).visited ⊆ o₁.visited → a ∉ o₁.visited → o₁.Inv g ∅ →
      ∃ o₂, topologicalSortUtil g (g.vertices.card + 1) a o₁ = some o₂ ∧ Sorts g ∅ o₁ [a] o₂ := by
    intro a ha o₁ _ hna hi
    have hf : (g.vertices \ o₁.visited).card < g.vertices.card + 1 :=
      Nat.lt_succ_of_le (Finset.card_le_card Finset.sdiff_subset)
    exact topologicalSortUtil_spec hf (ht a ha) hna (hacyclic a ha) (by simp) hi
  rcases sortEach_spec hvisit hacyclic (by simp) h0 with ⟨o', ho', h'⟩
  refine ⟨o'.sorted, by rw [topologicalSort, ho']; rfl, h'.inv.order, h'.all, ?_⟩
  intro x hx
  rcases h'.reached x hx with hx | hx
  · cases hx
  · exact hx

/-- `topological_sort` ends with each vertex that the targets lead to once, and no other, in
    an order in which no vertex comes before one that it depends on. -/
def SortsTargets (g : AdjGraph V) (targets : List V) : Prop :=
  ∃ sorted, topologicalSort g targets = some sorted ∧ sorted.Nodup ∧
    (∀ x, x ∈ sorted ↔ ∃ t ∈ targets, ReflTransGen g.Edge t x) ∧
    ∀ l x l', sorted = l ++ x :: l' → ∀ y, TransGen g.Edge x y → y ∈ l

omit [DecidableEq V] in
theorem Topological.closed {sorted : List V} {x y : V} (h : Topological g sorted) (hx : x ∈ sorted)
    (hp : ReflTransGen g.Edge x y) : y ∈ sorted := by
  induction hp with
  | refl => exact hx
  | tail _ he ih =>
    rcases List.mem_iff_append.mp ih with ⟨l, l', hl⟩
    rw [hl]
    exact List.mem_append_left _ (h.before l _ l' hl _ he)

omit [DecidableEq V] in
/-- Dependencies of dependencies too. -/
theorem Topological.before_trans {sorted l l' : List V} {x y : V} (h : Topological g sorted)
    (hl : sorted = l ++ x :: l') (hp : TransGen g.Edge x y) : y ∈ l := by
  induction hp with
  | single he => exact h.before l x l' hl _ he
  | tail _ he ih =>
    rcases List.mem_iff_append.mp ih with ⟨l₁, l₂, hl₁⟩
    rw [hl₁]
    refine List.mem_append_left _ (h.before l₁ _ (l₂ ++ x :: l') ?_ _ he)
    rw [hl, hl₁, List.append_assoc, List.cons_append]

theorem sorts_targets (targets : List V) (ht : ∀ t ∈ targets, t ∈ g.vertices)
    (hacyclic : ∀ t ∈ targets, ¬ ReachesCycle g.Edge t) : SortsTargets g targets := by
  rcases topologicalSort_spec ht hacyclic with ⟨sorted, hs, horder, hall, hreached⟩
  refine ⟨sorted, hs, horder.nodup, ?_, fun l x l' hl y hp => horder.before_trans hl hp⟩
  intro x
  refine ⟨hreached x, ?_⟩
  intro ⟨t, htt, hp⟩
  exact horder.closed (hall t htt) hp

def diamond : AdjGraph Nat where
  vertices := Finset.range 4
  neighbors
    | 0 => [1, 2]
    | 1 => [3]
    | 2 => [3]
    | _ => []
  closed {v w} h := by
    split at h <;> simp only [List.mem_cons, List.not_mem_nil, or_false] at h <;> rw [Finset.mem_range] <;> omega

theorem sorts_targets_diamond : SortsTargets diamond [2, 0] := by
  have hrank : ∀ v w, diamond.Edge v w → 4 - w < 4 - v := by
    intro v w h
    unfold diamond AdjGraph.Edge at h
    dsimp only at h
    split at h <;> simp only [List.mem_cons, List.not_mem_nil, or_false] at h <;> omega
  refine sorts_targets [2, 0] ?_ fun t _ => not_reachesCycle_of_rank _ hrank
  simp [diamond]

structure GoalOrder (g : AdjGraph V) (root : V) (sorted : List V) : Prop extends Topological g sorted where
  goals : ∀ t ∈ g.neighbors root, t ∈ sorted
  root : root ∉ sorted

theorem goalOrder_spec {root : V} (hacyclic : ¬ ReachesCycle g.Edge root) :
    ∃ sorted, topologicalSort g (g.neighbors root) = some sorted ∧ GoalOrder g root sorted := by
  have hgoals : ∀ t ∈ g.neighbors root, ¬ ReachesCycle g.Edge t := by
    intro t ht hc
    exact hacyclic (hc.of_path (.single ht))
  rcases topologicalSort_spec (fun t ht => g.closed ht) hgoals with ⟨sorted, hs, horder, hall, hreached⟩
  refine ⟨sorted, hs, horder, hall, ?_⟩
  intro hroot
  rcases hreached root hroot with ⟨t, ht, hpath⟩
  exact hacyclic (reachesCycle_of_back ht hpath)

theorem goalOrder {root : V} {sorted : List V} (hacyclic : ¬ ReachesCycle g.Edge root)
    (hs : topologicalSort g (g.neighbors root) = some sorted) : GoalOrder g root sorted := by
  rcases goalOrder_spec hacyclic with ⟨sorted', hs', h⟩
  rw [hs] at hs'
  cases hs'
  exact h

end SysProg.Parmake
