/-
  SysProg.Parmake.WorkersLive — what keeps the workers going (see `SysProg.Parmake.Workers`).

  Between the first and the last pass some target is queued, in the queue or with a worker,
  or a pass is under way (`Live.going`): a target that still waits when the pass has come
  to it has a dependency that waits or is queued, and that one is before it in the order
  (`PassOk`). The empty name is pushed only when no goal waits, so a goal that is queued
  then stands before it in the queue (`Live.ahead`).
-/

import SysProg.Parmake.WorkersOrder

namespace SysProg.Parmake

open Function (update)

variable {T V : Type}

/-- The target a worker has pulled and not yet recorded the state of. -/
def Pc.busy : Pc V → Option V
  | .fetch target | .check target _ | .own target _ | .running target _ | .record target _ => some target
  | _ => none

def Pc.InPass : Pc V → Prop
  | .pass _ | .goals _ => True
  | _ => False

def Pc.Over : Pc V → Prop
  | .stop | .exited => True
  | _ => False

def Pc.Plain (p : Pc V) : Prop := ¬ p.InPass ∧ ¬ p.Over

/-- The empty name is in the queue or with a worker who pushes it back. -/
def Marked (mk : Makefile V) (s : St T V) : Prop := mk.root ∈ s.queue ∨ ∃ t, s.pc t = .stop

def Busy (s : St T V) (x : V) : Prop := ∃ t, (s.pc t).busy = some x

def NoneOver (s : St T V) : Prop := ∀ t, ¬ (s.pc t).Over

/-- In the pass: what waits and has been visited waits for something that is queued. -/
def PassOk (s : St T V) (rest : List V) : Prop := ∃ visited, s.sorted = visited ++ rest ∧
  ∀ x ∈ visited, s.state x = .waiting → ∃ d ∈ visited, s.state d = .queued

/-- At the goals: nothing waits unless something is queued. -/
def GoalsOk (mk : Makefile V) (s : St T V) (rest : List V) : Prop :=
  (∀ x ∈ s.sorted, s.state x = .waiting → ∃ d ∈ s.sorted, s.state d = .queued) ∧
    ∃ seen, mk.graph.neighbors mk.root = seen ++ rest ∧ ∀ v ∈ seen, s.state v ≠ .waiting

structure PcLive (mk : Makefile V) (s : St T V) (t : T) (p : Pc V) : Prop where
  lock : p.InPass ↔ s.lock = some t
  record : ∀ target r, p = .record target r → r ≠ .waiting ∧ r ≠ .queued
  pass : ∀ rest, p = .pass rest → PassOk s rest
  goals : ∀ rest, p = .goals rest → GoalsOk mk s rest
  exited : p = .exited → Marked mk s

structure Live (mk : Makefile V) (s : St T V) : Prop where
  order : GoalOrder mk.graph mk.root s.sorted
  worker : ∀ t, PcLive mk s t (s.pc t)
  tracked : ∀ x ∈ s.sorted, s.state x = .queued → x ∈ s.queue ∨ Busy s x
  going : Marked mk s ∨ (∃ x ∈ s.sorted, s.state x = .queued) ∨ s.lock ≠ none
  closing : Marked mk s → ∀ v ∈ mk.graph.neighbors mk.root, s.state v ≠ .waiting
  ahead : ∀ v ∈ mk.graph.neighbors mk.root, s.state v = .queued →
    Busy s v ∨ (∃ l l', s.queue = l ++ v :: l' ∧ mk.root ∉ l) ∧ NoneOver s

variable {mk : Makefile V} {s s' : St T V} {x : V} {t : T} {p : Pc V}

/-! ## What it says at the end -/

theorem Live.not_stuck (hi : Live mk s) (hlive : s.pc t ≠ .exited) :
    ∃ u, s.pc u ≠ .exited ∧ ¬ (s.pc u = .pull ∧ s.queue = []) := by
  by_contra hall
  have hblocked : ∀ u, s.pc u ≠ .exited → s.pc u = .pull ∧ s.queue = [] := by
    intro u hu
    by_contra h
    exact hall ⟨u, hu, h⟩
  have hq := (hblocked t hlive).2
  have hpc : ∀ u, s.pc u = .exited ∨ s.pc u = .pull := by
    intro u
    by_cases e : s.pc u = .exited
    · exact Or.inl e
    · exact Or.inr (hblocked u e).1
  rcases hi.going with hm | ⟨x, hx, hs⟩ | hl
  · rcases hm with hm | ⟨u, hu⟩
    · rw [hq] at hm
      cases hm
    · rcases hpc u with h | h <;> rw [hu] at h <;> cases h
  · rcases hi.tracked x hx hs with hx | ⟨u, hu⟩
    · rw [hq] at hx
      cases hx
    · rcases hpc u with h | h <;> rw [h] at hu <;> cases hu
  · rcases Option.ne_none_iff_exists'.mp hl with ⟨u, hu⟩
    have hin := (hi.worker u).lock.mpr hu
    rcases hpc u with h | h <;> rw [h] at hin <;> cases hin

theorem Live.settled [Nonempty T] (hi : Live mk s) (hall : ∀ t, s.pc t = .exited) {v : V}
    (hv : v ∈ mk.graph.neighbors mk.root) : s.state v = .done ∨ s.state v = .failed := by
  have t : T := Classical.arbitrary T
  have hw := hi.closing ((hi.worker t).exited (hall t)) v hv
  have hq : s.state v ≠ .queued := by
    intro hq
    rcases hi.ahead v hv hq with ⟨u, hu⟩ | ⟨-, hover⟩
    · rw [hall u] at hu
      cases hu
    · apply hover t
      rw [hall t]
      trivial
  cases hs : s.state v with
  | waiting => exact absurd hs hw
  | queued => exact absurd hs hq
  | done => exact Or.inl rfl
  | failed => exact Or.inr rfl

/-! ## Moving one worker -/

/-- A worker that is not in the pass does not mind what the pass does. -/
theorem PcLive.outside (h : PcLive mk s t p) (hp : ¬ p.InPass) (hl : s'.lock ≠ some t)
    (hm : Marked mk s → Marked mk s') :
    PcLive mk s' t p where
  lock := ⟨fun hin => absurd hin hp, fun he => absurd he hl⟩
  record := h.record
  pass rest e := by
    rw [e] at hp
    exact absurd trivial hp
  goals rest e := by
    rw [e] at hp
    exact absurd trivial hp
  exited e := hm (h.exited e)

theorem plain_live (hp : p.Plain) (hl : s.lock ≠ some t)
    (hrec : ∀ target r, p = .record target r → r ≠ .waiting ∧ r ≠ .queued) : PcLive mk s t p where
  lock := ⟨fun hin => absurd hin hp.1, fun he => absurd he hl⟩
  record := hrec
  pass rest e := by
    rw [e] at hp
    exact absurd trivial hp.1
  goals rest e := by
    rw [e] at hp
    exact absurd trivial hp.1
  exited e := by
    rw [e] at hp
    exact absurd trivial hp.2

/-- Only the state of the targets, the order, the lock and the empty name count. -/
theorem PcLive.congr (h : PcLive mk s t p) (hstate : s'.state = s.state) (hsorted : s'.sorted = s.sorted)
    (hlock : s'.lock = s.lock) (hm : Marked mk s → Marked mk s') : PcLive mk s' t p where
  lock := by
    rw [hlock]
    exact h.lock
  record := h.record
  pass rest e := by
    unfold PassOk
    rw [hstate, hsorted]
    exact h.pass rest e
  goals rest e := by
    unfold GoalsOk
    rw [hstate, hsorted]
    exact h.goals rest e
  exited e := hm (h.exited e)

variable [DecidableEq T]

theorem forall_goto {P : T → Pc V → Prop} (hp : P t p) (h : ∀ u, u ≠ t → P u (s.pc u)) (u : T) :
    P u ((s.goto t p).pc u) := by
  by_cases e : u = t
  · rw [e, goto_self]
    exact hp
  · rw [goto_of_ne _ e]
    exact h u e

theorem workers_goto (hp : PcLive mk (s.goto t p) t p) (h : ∀ u, u ≠ t → PcLive mk (s.goto t p) u (s.pc u)) (u : T) :
    PcLive mk (s.goto t p) u ((s.goto t p).pc u) :=
  forall_goto (P := PcLive mk (s.goto t p)) hp h u

/-- A target stays busy when the worker that moves does not let go of it. -/
theorem Busy.goto (h : Busy s x) (hpc : s'.pc = s.pc) (hp : (s.pc t).busy = some x → p.busy = some x) :
    Busy (s'.goto t p) x := by
  rcases h with ⟨u, hu⟩
  by_cases e : u = t
  · refine ⟨t, ?_⟩
    rw [goto_self]
    exact hp (e ▸ hu)
  · exact ⟨u, by rw [goto_of_ne _ e, hpc]; exact hu⟩

theorem Busy.idle (h : Busy s x) (hpc : s'.pc = s.pc) (hp : (s.pc t).busy = none) : Busy (s'.goto t p) x := by
  apply h.goto hpc
  rw [hp]
  intro h
  cases h

theorem NoneOver.goto (h : NoneOver s) (hpc : s'.pc = s.pc) (hp : ¬ p.Over) : NoneOver (s'.goto t p) := by
  apply forall_goto (P := fun _ q => ¬ q.Over) hp
  intro u _
  rw [hpc]
  exact h u

theorem marked_goto (hq : s'.queue = s.queue) (hpc : s'.pc = s.pc) (hold : s.pc t ≠ .stop) (hp : p ≠ .stop) :
    Marked mk (s'.goto t p) ↔ Marked mk s := by
  have hqueue : mk.root ∈ (s'.goto t p).queue ↔ mk.root ∈ s.queue := by
    rw [show (s'.goto t p).queue = s.queue from hq]
  apply or_congr hqueue
  constructor
  · intro h
    rcases h with ⟨u, hu⟩
    by_cases e : u = t
    · rw [e, goto_self] at hu
      exact absurd hu hp
    · rw [goto_of_ne _ e, hpc] at hu
      exact ⟨u, hu⟩
  · intro h
    rcases h with ⟨u, hu⟩
    have e : u ≠ t := by
      intro e
      exact hold (e ▸ hu)
    exact ⟨u, by rw [goto_of_ne _ e, hpc]; exact hu⟩

omit [DecidableEq T] in
/-- The lock is held in the pass alone. -/
theorem Live.unlocked (hi : Live mk s) (hp : ¬ (s.pc t).InPass) : s.lock ≠ some t := by
  intro hl
  exact hp ((hi.worker t).lock.mpr hl)

omit [DecidableEq T] in
theorem Pc.Plain.ne_stop (h : p.Plain) : p ≠ .stop := by
  intro e
  rw [e] at h
  exact h.2 trivial

/-- A worker goes on outside the pass, and does not let go of a queued target. -/
theorem Live.goto (hi : Live mk s) (hold : (s.pc t).Plain) (hp : p.Plain)
    (hbusy : ∀ x, s.state x = .queued → (s.pc t).busy = some x → p.busy = some x)
    (hrec : ∀ target r, p = .record target r → r ≠ .waiting ∧ r ≠ .queued) : Live mk (s.goto t p) := by
  have hmarked : Marked mk (s.goto t p) ↔ Marked mk s := marked_goto rfl rfl hold.ne_stop hp.ne_stop
  have hl := hi.unlocked hold.1
  refine ⟨hi.order, ?_, ?_, ?_, ?_, ?_⟩
  · apply workers_goto (plain_live hp hl hrec)
    intro u _
    exact (hi.worker u).congr rfl rfl rfl hmarked.mpr
  · intro x hx hs
    exact (hi.tracked x hx hs).imp_right fun h => h.goto rfl (hbusy x hs)
  · rw [hmarked]
    exact hi.going
  · rw [hmarked]
    exact hi.closing
  · intro v hv hs
    rcases hi.ahead v hv hs with hb | ⟨hq, hover⟩
    · exact Or.inl (hb.goto rfl (hbusy v hs))
    · exact Or.inr ⟨hq, hover.goto rfl hp.2⟩

/-- A worker goes on with what it has. -/
theorem Live.moveOn (hi : Live mk s) {q : Pc V} (hq : s.pc t = q) (hold : q.Plain) (hp : p.Plain) (hb : q.busy = p.busy)
    (hrec : ∀ target r, p = .record target r → r ≠ .waiting ∧ r ≠ .queued) : Live mk (s.goto t p) := by
  apply hi.goto (hq ▸ hold) hp ?_ hrec
  intro x _
  rw [hq, hb]
  exact id

omit [DecidableEq T] in
/-- Files and what is made do not count. -/
theorem Live.files (hi : Live mk s) (file made : V → Bool) : Live mk { s with file := file, made := made } where
  order := hi.order
  worker t := (hi.worker t).congr rfl rfl rfl id
  tracked := hi.tracked
  going := hi.going
  closing := hi.closing
  ahead := hi.ahead

theorem Live.commands [DecidableEq V] (hi : Live mk s) {target : V} {left : List String} (hold : (s.pc t).Plain)
    (hb : (s.pc t).busy = some target) : Live mk (runCommands s t target left) := by
  rcases runCommands_goto (s := s) t target left with ⟨made, p, he, hp⟩
  rw [he]
  apply (hi.files s.file made).goto hold
  · rcases hp with hp | hp <;> rw [hp] <;> exact ⟨id, id⟩
  · intro x _ hx
    have hx : (s.pc t).busy = some x := hx
    rw [← hx, hb]
    rcases hp with hp | hp <;> rw [hp] <;> rfl
  · rcases hp with hp | hp <;> rw [hp] <;> simp

/-! ## The queue -/

/-- A worker takes a target off the queue. -/
theorem Live.pull (hi : Live mk s) {queue : List V} (hp : s.pc t = .pull) (hq : s.queue = x :: queue)
    (hx : x ≠ mk.root) : Live mk ({ s with queue := queue }.goto t (.fetch x)) := by
  have hbusy : ∀ {y}, Busy s y → Busy ({ s with queue := queue }.goto t (.fetch x)) y := by
    intro y hy
    exact hy.idle rfl (by rw [hp]; rfl)
  have htaken : Busy ({ s with queue := queue }.goto t (.fetch x)) x := ⟨t, by rw [goto_self]; rfl⟩
  have hmarked : Marked mk ({ s with queue := queue }.goto t (.fetch x)) ↔ Marked mk s := by
    rw [marked_goto (s := { s with queue := queue }) rfl rfl (by dsimp only; rw [hp]; simp) (by simp)]
    unfold Marked
    rw [hq, List.mem_cons]
    simp [hx.symm]
  have hl : s.lock ≠ some t := hi.unlocked (by rw [hp]; exact id)
  refine ⟨hi.order, ?_, ?_, ?_, ?_, ?_⟩
  · apply workers_goto
    · exact plain_live ⟨id, id⟩ hl (by simp)
    · intro u _
      exact (hi.worker u).congr rfl rfl rfl hmarked.mpr
  · intro y hy hs
    rcases hi.tracked y hy hs with h | h
    · rw [hq] at h
      rcases List.mem_cons.mp h with h | h
      · rw [h]
        exact Or.inr htaken
      · exact Or.inl h
    · exact Or.inr (hbusy h)
  · rw [hmarked]
    exact hi.going
  · rw [hmarked]
    exact hi.closing
  · intro v hv hs
    rcases hi.ahead v hv hs with hb | ⟨⟨l, l', hl, hroot⟩, hover⟩
    · exact Or.inl (hbusy hb)
    · rw [hq] at hl
      cases l with
      | nil =>
        cases hl
        exact Or.inl htaken
      | cons y l =>
        cases hl
        exact Or.inr ⟨⟨l, l', rfl, fun h => hroot (List.mem_cons_of_mem _ h)⟩, hover.goto rfl id⟩

omit [DecidableEq T] in
/-- A goal that is queued is not behind the empty name. -/
theorem Live.ahead_root (hi : Live mk s) {queue : List V} (hq : s.queue = mk.root :: queue) {v : V}
    (hv : v ∈ mk.graph.neighbors mk.root) (hs : s.state v = .queued) : Busy s v := by
  rcases hi.ahead v hv hs with hb | ⟨⟨l, l', hl, hroot⟩, -⟩
  · exact hb
  · rw [hq] at hl
    cases l with
    | nil =>
      cases hl
      exact absurd (hi.order.goals _ hv) hi.order.root
    | cons y l =>
      cases hl
      exact absurd List.mem_cons_self hroot

/-- A worker takes the empty name off the queue. -/
theorem Live.pullStop (hi : Live mk s) {queue : List V} (hp : s.pc t = .pull) (hq : s.queue = mk.root :: queue) :
    Live mk ({ s with queue := queue }.goto t .stop) := by
  have hbusy : ∀ {y}, Busy s y → Busy ({ s with queue := queue }.goto t .stop) y := by
    intro y hy
    exact hy.idle rfl (by rw [hp]; rfl)
  have hmarked : Marked mk ({ s with queue := queue }.goto t .stop) := Or.inr ⟨t, by rw [goto_self]⟩
  have hl : s.lock ≠ some t := hi.unlocked (by rw [hp]; exact id)
  refine ⟨hi.order, ?_, ?_, Or.inl hmarked, ?_, ?_⟩
  · apply workers_goto
    · exact ⟨⟨False.elim, fun h => absurd h hl⟩, by simp, by simp, by simp, by simp⟩
    · intro u _
      exact (hi.worker u).congr rfl rfl rfl fun _ => hmarked
  · intro y hy hs
    rcases hi.tracked y hy hs with h | h
    · rw [hq] at h
      rcases List.mem_cons.mp h with h | h
      · exact absurd (h ▸ hy) hi.order.root
      · exact Or.inl h
    · exact Or.inr (hbusy h)
  · intro _
    exact hi.closing (Or.inl (hq ▸ List.mem_cons_self))
  · intro v hv hs
    exact Or.inl (hbusy (hi.ahead_root hq hv hs))

/-- A worker pushes the empty name back and ends. -/
theorem Live.stop (hi : Live mk s) (hp : s.pc t = .stop) :
    Live mk ({ s with queue := s.queue ++ [mk.root] }.goto t .exited) := by
  have hbusy : ∀ {y}, Busy s y → Busy ({ s with queue := s.queue ++ [mk.root] }.goto t .exited) y := by
    intro y hy
    exact hy.idle rfl (by rw [hp]; rfl)
  have hmarked : Marked mk ({ s with queue := s.queue ++ [mk.root] }.goto t .exited) :=
    Or.inl (List.mem_append_right _ (List.mem_singleton_self _))
  have hl : s.lock ≠ some t := hi.unlocked (by rw [hp]; exact id)
  refine ⟨hi.order, ?_, ?_, Or.inl hmarked, ?_, ?_⟩
  · apply workers_goto
    · exact ⟨⟨False.elim, fun h => absurd h hl⟩, by simp, by simp, by simp, fun _ => hmarked⟩
    · intro u _
      exact (hi.worker u).congr rfl rfl rfl fun _ => hmarked
  · intro y hy hs
    exact (hi.tracked y hy hs).imp (List.mem_append_left _) hbusy
  · intro _
    exact hi.closing (Or.inr ⟨t, hp⟩)
  · intro v hv hs
    rcases hi.ahead v hv hs with hb | ⟨-, hover⟩
    · exact Or.inl (hbusy hb)
    · have ht := hover t
      rw [hp] at ht
      exact absurd trivial ht

/-! ## The pass -/

omit [DecidableEq T] in
theorem Live.alone (hi : Live mk s) (hl : s.lock = some t) {u : T} (hu : u ≠ t) : ¬ (s.pc u).InPass := by
  rw [(hi.worker u).lock, hl]
  intro h
  exact hu (Option.some.inj h).symm

omit [DecidableEq T] in
theorem busy_of_inPass (hp : p.InPass) : p.busy = none := by
  cases p <;> first | rfl | cases hp

omit [DecidableEq T] in
theorem over_of_inPass (hp : p.InPass) : ¬ p.Over := by
  cases p <;> first | exact id | cases hp

omit [DecidableEq T] in
theorem ne_stop_of_inPass (hp : p.InPass) : p ≠ .stop := by
  intro e
  rw [e] at hp
  cases hp

/-- A worker records the state of its target. -/
theorem Live.record [DecidableEq V] (hi : Live mk s) {target : V} {r : RuleState} (hp : s.pc t = .record target r)
    (hl : s.lock = none) :
    Live mk ({ s with lock := some t, state := update s.state target r }.goto t (.pass s.sorted)) := by
  rcases (hi.worker t).record target r hp with ⟨hwaiting, hqueued⟩
  have hmarked : Marked mk ({ s with lock := some t, state := update s.state target r }.goto t (.pass s.sorted)) ↔
      Marked mk s := by
    exact marked_goto rfl rfl (by rw [hp]; simp) (by simp)
  have hold : ∀ {y}, update s.state target r y = .queued → s.state y = .queued ∧ y ≠ target := by
    intro y hy
    have e : y ≠ target := by
      intro e
      rw [e, Function.update_self] at hy
      exact hqueued hy
    rw [Function.update_of_ne e] at hy
    exact ⟨hy, e⟩
  have hbusy : ∀ {y}, y ≠ target → Busy s y →
      Busy ({ s with lock := some t, state := update s.state target r }.goto t (.pass s.sorted)) y := by
    intro y e hy
    apply hy.goto rfl
    rw [hp]
    intro h
    exact absurd (Option.some.inj h).symm e
  refine ⟨hi.order, ?_, ?_, ?_, ?_, ?_⟩
  · apply workers_goto
    · refine ⟨⟨fun _ => rfl, fun _ => trivial⟩, by simp, ?_, by simp, by simp⟩
      intro rest e
      cases e
      exact ⟨[], rfl, by simp⟩
    · intro u hu
      have hout : ¬ (s.pc u).InPass := by
        rw [(hi.worker u).lock, hl]
        simp
      apply (hi.worker u).outside hout ?_ hmarked.mpr
      intro h
      exact hu (Option.some.inj h).symm
  · intro y hy hs
    rcases hold hs with ⟨hs, e⟩
    exact (hi.tracked y hy hs).imp_right (hbusy e)
  · exact Or.inr (Or.inr (Option.some_ne_none t))
  · rw [hmarked]
    intro hm v hv hs
    by_cases e : v = target
    · have hs : update s.state target r v = .waiting := hs
      rw [e, Function.update_self] at hs
      exact hwaiting hs
    · have hs : update s.state target r v = .waiting := hs
      rw [Function.update_of_ne e] at hs
      exact hi.closing hm v hv hs
  · intro v hv hs
    rcases hold hs with ⟨hs, e⟩
    rcases hi.ahead v hv hs with hb | ⟨hq, hover⟩
    · exact Or.inl (hbusy e hb)
    · exact Or.inr ⟨hq, hover.goto rfl id⟩

/-- A worker goes on inside the section. -/
theorem Live.within (hi : Live mk s) (hold : (s.pc t).InPass) (hp : p.InPass) (h : PcLive mk s t p) :
    Live mk (s.goto t p) := by
  have hmarked : Marked mk (s.goto t p) ↔ Marked mk s :=
    marked_goto rfl rfl (ne_stop_of_inPass hold) (ne_stop_of_inPass hp)
  have hbusy : ∀ {y}, Busy s y → Busy (s.goto t p) y := by
    intro y hy
    exact hy.idle rfl (busy_of_inPass hold)
  refine ⟨hi.order, ?_, ?_, ?_, ?_, ?_⟩
  · apply workers_goto (h.congr rfl rfl rfl hmarked.mpr)
    intro u _
    exact (hi.worker u).congr rfl rfl rfl hmarked.mpr
  · intro y hy hs
    exact (hi.tracked y hy hs).imp_right hbusy
  · rw [hmarked]
    exact hi.going
  · rw [hmarked]
    exact hi.closing
  · intro v hv hs
    rcases hi.ahead v hv hs with hb | ⟨hq, hover⟩
    · exact Or.inl (hbusy hb)
    · exact Or.inr ⟨hq, hover.goto rfl (over_of_inPass hp)⟩

/-- A worker finds a goal that waits. -/
theorem Live.goalOpen (hi : Live mk s) {v : V} {rest : List V} (hp : s.pc t = .goals (v :: rest))
    (hv : s.state v = .waiting) : Live mk ({ s with lock := none }.goto t .pull) := by
  have hin : (s.pc t).InPass := by
    rw [hp]
    trivial
  have hl := (hi.worker t).lock.mp hin
  rcases (hi.worker t).goals _ hp with ⟨hqueued, seen, hseen, -⟩
  have hmarked : Marked mk ({ s with lock := none }.goto t .pull) ↔ Marked mk s := by
    exact marked_goto rfl rfl (by rw [hp]; simp) (by simp)
  have hbusy : ∀ {y}, Busy s y → Busy ({ s with lock := none }.goto t .pull) y := by
    intro y hy
    exact hy.idle rfl (by rw [hp]; rfl)
  refine ⟨hi.order, ?_, ?_, ?_, ?_, ?_⟩
  · apply workers_goto (plain_live ⟨id, id⟩ (by simp [St.goto]) (by simp))
    intro u hu
    exact (hi.worker u).outside (hi.alone hl hu) (by simp [St.goto]) hmarked.mpr
  · intro y hy hs
    exact (hi.tracked y hy hs).imp_right hbusy
  · have hgoal : v ∈ s.sorted := hi.order.goals v (by rw [hseen]; simp)
    exact Or.inr (Or.inl (hqueued v hgoal hv))
  · rw [hmarked]
    exact hi.closing
  · intro w hw hs
    rcases hi.ahead w hw hs with hb | ⟨hq, hover⟩
    · exact Or.inl (hbusy hb)
    · exact Or.inr ⟨hq, hover.goto rfl id⟩

/-- A worker finds that no goal waits and pushes the empty name. -/
theorem Live.goalsOver (hi : Live mk s) (hp : s.pc t = .goals []) :
    Live mk ({ s with queue := s.queue ++ [mk.root], lock := none }.goto t .pull) := by
  have hin : (s.pc t).InPass := by
    rw [hp]
    trivial
  have hl := (hi.worker t).lock.mp hin
  rcases (hi.worker t).goals _ hp with ⟨-, seen, hseen, hgoals⟩
  have hmarked : Marked mk ({ s with queue := s.queue ++ [mk.root], lock := none }.goto t .pull) :=
    Or.inl (List.mem_append_right _ (List.mem_singleton_self _))
  have hbusy : ∀ {y}, Busy s y → Busy ({ s with queue := s.queue ++ [mk.root], lock := none }.goto t .pull) y := by
    intro y hy
    exact hy.idle rfl (by rw [hp]; rfl)
  refine ⟨hi.order, ?_, ?_, Or.inl hmarked, ?_, ?_⟩
  · apply workers_goto (plain_live ⟨id, id⟩ (by simp [St.goto]) (by simp))
    intro u hu
    exact (hi.worker u).outside (hi.alone hl hu) (by simp [St.goto]) fun _ => hmarked
  · intro y hy hs
    exact (hi.tracked y hy hs).imp (List.mem_append_left _) hbusy
  · intro _ v hv
    rw [hseen, List.append_nil] at hv
    exact hgoals v hv
  · intro v hv hs
    rcases hi.ahead v hv hs with hb | ⟨⟨l, l', hq, hroot⟩, hover⟩
    · exact Or.inl (hbusy hb)
    · refine Or.inr ⟨⟨l, l' ++ [mk.root], ?_, hroot⟩, hover.goto rfl id⟩
      show s.queue ++ [mk.root] = _
      rw [hq, List.append_assoc]
      rfl

end SysProg.Parmake
