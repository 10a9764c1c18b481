/-
  SysProg.Drm.CircularWaits — which waits are refused (see `SysProg.Drm.Drm`).

  A wait is to be refused when the drm's holder waits for a drm whose holder waits, and so
  on, back to the thread itself (`LeadsBack`). But the search goes along the edges both ways
  and takes the edge that the wait itself adds for a cycle, so a wait for a drm that is held
  is refused every time (`Inv.wait_held`), and no thread ever waits for another.
  `wait_never_right`: where another thread holds the drm the answer is wrong, whatever
  happened before.
-/

import SysProg.Drm.Ownership

namespace SysProg.Drm

open SysProg.Lib (EdgeGraph Listing)

variable {T D : Type}

inductive LeadsBack (h : D → Option T) (waiting : List (T × D)) : D → T → Prop
  | holder {d : D} {t : T} : h d = some t → LeadsBack h waiting d t
  | waits {d e : D} {t u : T} : h d = some u → (u, e) ∈ waiting → LeadsBack h waiting e t → LeadsBack h waiting d t

theorem not_leadsBack {h : D → Option T} {d : D} {t u : T} (hd : h d = some u) (hut : u ≠ t) :
    ¬ LeadsBack h [] d t := by
  intro hl
  cases hl with
  | holder ht =>
    rw [hd] at ht
    exact hut (Option.some.inj ht)
  | waits _ hw _ => cases hw

variable [DecidableEq T] [DecidableEq D]

/-- A wait for a drm returns 0 when it would close a circle, and goes on to the loop when it
    would not. -/
def WaitRefusesCircles (L : Listing (Vertex T D)) (s : St T D) (h : D → Option T) (d : D) (t : T) : Prop :=
  ∀ s' r, drmWait L s (some d) (some t) = some (s', r) →
    (r = .ret 0 ↔ LeadsBack h s.waiting d t) ∧ (¬ LeadsBack h s.waiting d t → r = .waits)

variable {L : Listing (Vertex T D)} {s : St T D} {d : D} {t u : T}

/-- A wait for a drm that is held is refused. -/
theorem Inv.wait_held {h : D → Option T} (hi : Inv s h) (hd : h d = some u) :
    ∃ s', drmWait L s (some d) (some t) = some (s', .ret 0) := by
  have hheld : h d ≠ none := by
    rw [hd]
    exact Option.some_ne_none u
  rcases Option.ne_none_iff_exists'.mp (hi.live d hheld) with ⟨x, hx⟩
  rcases Option.ne_none_iff_exists'.mp (hi.graph d (hi.live d hheld)) with ⟨g, hg⟩
  rcases mem_withVertices g d t with ⟨hdv, htv⟩
  unfold drmWait
  rw [hg]
  dsimp only
  generalize withVertices g d t = g' at hdv htv
  by_cases he : g'.edge (.thread t) (.drm d) = true
  · rw [if_pos he]
    exact ⟨_, rfl⟩
  · have hlocked : x.locked ≠ 0 := by
      intro h0
      exact hheld ((hi.locked_iff hx).2.mp h0)
    have hnew : (g'.addEdge (.thread t) (.drm d)).edge (.thread t) (.drm d) = true :=
      (EdgeGraph.addEdge_edge htv hdv).mpr (Or.inr ⟨rfl, rfl⟩)
    rw [if_neg he, hx, Option.bind_some, if_pos hlocked, graphHasCycle_eq hnew, Option.map_some, if_pos rfl]
    exact ⟨_, rfl⟩

theorem wait_never_right {log : List (Act T D × Ret)} (hr : (sys L).Reach (s, log)) (hd : holder log d = some u)
    (hut : u ≠ t) : ¬ WaitRefusesCircles L s (holder log) d t := by
  have hi := reach_inv hr
  have hno : ¬ LeadsBack (holder log) s.waiting d t := by
    rw [hi.waiting]
    exact not_leadsBack hd hut
  rcases hi.wait_held hd with ⟨s', hs⟩
  intro hright
  exact hno ((hright s' _ hs).1.mp rfl)

/-- A thread takes the drm. -/
theorem pair_holds : ∃ s log, (sys pair).Reach (s, log) ∧ holder log () = some false := by
  have hrun : (Run.exec (Run.logged (step pair)) (start, []) [.init (), .wait (some ()) (some false)]).map
      (fun x => holder x.2 ()) = some (some false) := by
    decide +kernel
  rcases Option.map_eq_some_iff.mp hrun with ⟨⟨s, log⟩, hexec, hlog⟩
  exact ⟨s, log, reach_exec hexec, hlog⟩

theorem wait_never_right_pair :
    ∃ s log, (sys pair).Reach (s, log) ∧ ¬ WaitRefusesCircles pair s (holder log) () true := by
  rcases pair_holds with ⟨s, log, hr, hd⟩
  exact ⟨s, log, hr, wait_never_right hr hd (by decide)⟩

/-- The other thread is refused where it should wait. -/
theorem harmless_wait_refused : ¬ ∀ s log, (sys pair).Reach (s, log) →
    ∀ d t u, holder log d = some u → u ≠ t → WaitRefusesCircles pair s (holder log) d t := by
  intro hall
  rcases pair_holds with ⟨s, log, hr, hd⟩
  have hi := reach_inv hr
  rcases hi.wait_held (L := pair) (t := true) hd with ⟨s', hs⟩
  have hright := hall s log hr () true false hd (by decide) s' _ hs
  rw [hi.waiting] at hright
  exact not_leadsBack hd (by decide) (hright.1.mp rfl)

end SysProg.Drm
