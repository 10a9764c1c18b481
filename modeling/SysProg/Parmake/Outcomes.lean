/-
  SysProg.Parmake.Outcomes — what the workers make is what one worker would make
  (see `SysProg.Parmake.Workers`).

  `makeInOrder` makes the targets one after another: a target is made if its file is on
  disk, or if all that it depends on is made and its commands succeed. `Builds` says the
  same with no order. When every command of a target has one exit status, whenever it is run, and
  only the commands of a target that succeed leave a file of that target behind
  (`Repeatable`), the states of the goals at the end are those of `makeInOrder`, for
  every number of workers and every interleaving (`outcomes_in_order`).

  A target is looked at again in every pass, and one whose file is there is done whatever
  its commands came to. So `failed` may be wrong of a target that the pass has still to
  visit (`Right.failed`), and nobody but the worker in the pass sees it.
-/

import SysProg.Parmake.WorkersProgress

namespace SysProg.Parmake

open Function (update)
open SysProg.Lib (ReachesCycle)

variable {T V : Type} [DecidableEq V]

/-! ## One target after another -/

def Succeeds (mk : Makefile V) (succeeds : V → String → Bool) (v : V) : Prop :=
  (mk.commands v).all (succeeds v) = true

def makeInOrder (mk : Makefile V) (succeeds : V → String → Bool) (onDisk : V → Bool) :
    List V → (V → Bool) → V → Bool
  | [], built => built
  | v :: rest, built =>
    makeInOrder mk succeeds onDisk rest (update built v
      (onDisk v || ((mk.graph.neighbors v).all built && (mk.commands v).all (succeeds v))))

inductive Builds (mk : Makefile V) (succeeds : V → String → Bool) (onDisk : V → Bool) : V → Prop
  | present {v : V} : onDisk v = true → Builds mk succeeds onDisk v
  | made {v : V} : (∀ d ∈ mk.graph.neighbors v, Builds mk succeeds onDisk d) → Succeeds mk succeeds v →
      Builds mk succeeds onDisk v

variable {mk : Makefile V} {succeeds : V → String → Bool} {onDisk : V → Bool}

omit [DecidableEq V] in
theorem Builds.cases {v : V} (h : Builds mk succeeds onDisk v) (hd : onDisk v = false) :
    (∀ d ∈ mk.graph.neighbors v, Builds mk succeeds onDisk d) ∧ Succeeds mk succeeds v := by
  cases h with
  | present h => rw [hd] at h; cases h
  | made hdeps hs => exact ⟨hdeps, hs⟩

omit [DecidableEq V] in
theorem builds_iff (v : V) : Builds mk succeeds onDisk v ↔
    onDisk v = true ∨ (∀ d ∈ mk.graph.neighbors v, Builds mk succeeds onDisk d) ∧ Succeeds mk succeeds v := by
  constructor
  · intro h
    cases h with
    | present h => exact Or.inl h
    | made hdeps hs => exact Or.inr ⟨hdeps, hs⟩
  · intro h
    rcases h with h | ⟨hdeps, hs⟩
    · exact .present h
    · exact .made hdeps hs

/-- Of the targets gone through so far it is known which are made. -/
theorem makeInOrder_spec (done : List V) {sorted rest : List V} {built : V → Bool} (ht : Topological mk.graph sorted)
    (hs : sorted = done ++ rest) (hb : ∀ v ∈ done, built v = true ↔ Builds mk succeeds onDisk v) :
    ∀ v ∈ sorted, makeInOrder mk succeeds onDisk rest built v = true ↔ Builds mk succeeds onDisk v := by
  induction rest generalizing done built with
  | nil =>
    rw [List.append_nil] at hs
    exact hs ▸ hb
  | cons x rest ih =>
    apply ih (done ++ [x]) (by simp [hs])
    have hx : x ∉ done := by
      have hnodup := hs ▸ ht.nodup
      intro hx
      exact (List.nodup_append.mp hnodup).2.2 x hx x List.mem_cons_self rfl
    intro v hv
    rcases List.mem_append.mp hv with hv | hv
    · have hne : v ≠ x := fun e => hx (e ▸ hv)
      rw [Function.update_of_ne hne]
      exact hb v hv
    · obtain rfl := List.mem_singleton.mp hv
      have hdeps : (mk.graph.neighbors v).all built = true ↔
          ∀ d ∈ mk.graph.neighbors v, Builds mk succeeds onDisk d := by
        rw [List.all_eq_true]
        refine forall_congr' fun d => forall_congr' fun hd => hb d ?_
        exact ht.before done v rest hs d hd
      rw [Function.update_self, Bool.or_eq_true, Bool.and_eq_true, hdeps, builds_iff]
      rfl

theorem makeInOrder_iff {sorted : List V} (ht : Topological mk.graph sorted) {v : V} (hv : v ∈ sorted) :
    makeInOrder mk succeeds onDisk sorted (fun _ => false) v = true ↔ Builds mk succeeds onDisk v :=
  makeInOrder_spec [] ht rfl (by simp) v hv

/-! ## The workers -/

variable [DecidableEq T]

/-- A command ends the same way whenever it is run, and a file of one of the targets is left
    behind only by commands of that target, all of which succeed. -/
def Repeatable (mk : Makefile V) (succeeds : V → String → Bool) (s : St T V) : Act T V → Prop
  | .run _ => True
  | .create t f => ∀ target left, s.pc t = .running target left → f ∈ s.sorted → f = target ∧
      Succeeds mk succeeds target
  | .finish t ok => ∀ target command rest, s.pc t = .running target (command :: rest) → ok = succeeds target command

def Ripe (mk : Makefile V) (succeeds : V → String → Bool) (s : St T V) (x : V) : Prop :=
  x ∈ s.sorted ∧ ∀ d ∈ mk.graph.neighbors x, Builds mk succeeds s.onDisk d

def Unvisited (s : St T V) (x : V) : Prop := ∃ t rest, s.pc t = .pass rest ∧ x ∈ rest

def PcRight (mk : Makefile V) (succeeds : V → String → Bool) (s : St T V) : Pc V → Prop
  | .fetch target | .own target false => Ripe mk succeeds s target
  | .check target rest => Ripe mk succeeds s target ∧ ∀ d ∈ rest, d ∈ mk.graph.neighbors target
  -- no dependency has failed
  | .own _ true => False
  | .running target left => Ripe mk succeeds s target ∧
      (Succeeds mk succeeds target ↔ left.all (succeeds target) = true)
  | .record target .done => target ∈ s.sorted ∧ Builds mk succeeds s.onDisk target
  | .record target .failed => target ∈ s.sorted ∧ (s.file target = true ∨ ¬ Builds mk succeeds s.onDisk target)
  | _ => True

structure Right (mk : Makefile V) (succeeds : V → String → Bool) (s : St T V) : Prop where
  present : ∀ v, s.onDisk v = true → s.file v = true
  file : ∀ v ∈ s.sorted, s.file v = true → Builds mk succeeds s.onDisk v
  done : ∀ v, s.state v = .done → Builds mk succeeds s.onDisk v
  failed : ∀ v, s.state v = .failed → ¬ Builds mk succeeds s.onDisk v ∨ s.file v = true ∧ Unvisited s v
  queue : ∀ x ∈ s.queue, x = mk.root ∨ Ripe mk succeeds s x
  pc : ∀ t, PcRight mk succeeds s (s.pc t)

variable {s s' : St T V} {t : T} {x : V} {p : Pc V}

omit [DecidableEq V] [DecidableEq T] in
theorem PcRight.at (h : Right mk succeeds s) (hp : s.pc t = p) : PcRight mk succeeds s p := hp ▸ h.pc t

omit [DecidableEq V] [DecidableEq T] in
/-- Nobody is in the pass while the lock is free. -/
theorem Live.no_pass (hi : Live mk s) (hl : s.lock = none) : ¬ Unvisited s x := by
  intro ⟨u, rest, hu, _⟩
  have hin := (hi.worker u).lock.mp (by rw [hu]; trivial)
  rw [hl] at hin
  cases hin

omit [DecidableEq V] [DecidableEq T] in
/-- With the lock free, what has failed is not made. -/
theorem Right.not_builds (h : Right mk succeeds s) (hi : Live mk s) (hl : s.lock = none) {v : V}
    (hv : s.state v = .failed) : ¬ Builds mk succeeds s.onDisk v := by
  rcases h.failed v hv with hb | ⟨-, hu⟩
  · exact hb
  · exact absurd hu (hi.no_pass hl)

omit [DecidableEq V] in
/-- A worker that is not in a round of the pass moves. -/
theorem Right.goto (h : Right mk succeeds s) (hold : ∀ n rest, s.pc t ≠ .pass (n :: rest))
    (hp : PcRight mk succeeds s p) :
    Right mk succeeds (s.goto t p) where
  present := h.present
  file := h.file
  done := h.done
  failed v hv := by
    refine (h.failed v hv).imp_right fun ⟨hf, u, rest, hu, hx⟩ => ⟨hf, u, rest, ?_, hx⟩
    have hne : u ≠ t := by
      intro e
      cases rest with
      | nil => cases hx
      | cons n rest => exact hold n rest (e ▸ hu)
    rw [goto_of_ne _ hne, hu]
  queue := h.queue
  pc := forall_goto (P := fun _ => PcRight mk succeeds s) hp fun u _ => h.pc u

omit [DecidableEq V] [DecidableEq T] in
/-- The lock and what is made do not count. -/
theorem Right.relock (h : Right mk succeeds s) (lock : Option T) (made : V → Bool) :
    Right mk succeeds { s with lock := lock, made := made } := ⟨h.present, h.file, h.done, h.failed, h.queue, h.pc⟩

omit [DecidableEq V] [DecidableEq T] in
theorem Right.requeue (h : Right mk succeeds s) (queue : List V)
    (hq : ∀ x ∈ queue, x ∈ s.queue ∨ x = mk.root ∨ Ripe mk succeeds s x) :
    Right mk succeeds { s with queue := queue } :=
  ⟨h.present, h.file, h.done, h.failed, fun x hx => (hq x hx).elim (h.queue x) id, h.pc⟩

/-- The commands of a target go on, or are over. -/
theorem Right.commands (h : Right mk succeeds s) {target : V} {left : List String}
    (hold : ∀ n rest, s.pc t ≠ .pass (n :: rest)) (hr : Ripe mk succeeds s target)
    (hs : Succeeds mk succeeds target ↔ left.all (succeeds target) = true) :
    Right mk succeeds (runCommands s t target left) := by
  cases left with
  | cons command rest => exact h.goto hold ⟨hr, hs⟩
  | nil =>
    refine (h.relock s.lock (update s.made target true)).goto hold ⟨hr.1, ?_⟩
    exact .made hr.2 (hs.mpr rfl)

/-! ## The pass -/

theorem Right.record (h : Right mk succeeds s) (hi : Live mk s) {target : V} {r : RuleState}
    (hp : s.pc t = .record target r) (hl : s.lock = none) :
    Right mk succeeds ({ s with lock := some t, state := update s.state target r }.goto t (.pass s.sorted)) := by
  have hpc : PcRight mk succeeds s (.record target r) := PcRight.at h hp
  refine ⟨h.present, h.file, ?_, ?_, h.queue, ?_⟩
  · intro v hv
    by_cases e : v = target
    · subst e
      obtain rfl : r = .done := by simpa [St.goto] using hv
      exact hpc.2
    · exact h.done v (by simpa [St.goto, e] using hv)
  · intro v hv
    by_cases e : v = target
    · subst e
      obtain rfl : r = .failed := by simpa [St.goto] using hv
      rcases hpc.2 with hf | hb
      · exact Or.inr ⟨hf, t, s.sorted, goto_self _, hpc.1⟩
      · exact Or.inl hb
    · exact Or.inl (h.not_builds hi hl (by simpa [St.goto, e] using hv))
  · exact forall_goto (P := fun _ => PcRight mk succeeds s) trivial fun u _ => h.pc u

omit [DecidableEq V] in
theorem scan_failed {state : V → RuleState} {l : List V} (h : scanDependencies state l = .failed) :
    ∃ d ∈ l, state d = .failed := by
  induction l with
  | nil => cases h
  | cons d l ih =>
    rw [scanDependencies] at h
    split_ifs at h with hfailed hdone
    · exact ⟨d, List.mem_cons_self, hfailed⟩
    · obtain ⟨e, he, hs⟩ := ih h
      exact ⟨e, List.mem_cons_of_mem _ he, hs⟩

inductive Found (mk : Makefile V) (s : St T V) (n : V) : St T V → Prop
  | present : s.file n = true → Found mk s n { s with state := update s.state n .done }
  | kept : s.file n = false → Found mk s n s
  | ready : s.file n = false → (∀ d ∈ mk.graph.neighbors n, s.state d = .done) →
      Found mk s n { s with state := update s.state n .queued, queue := s.queue ++ [n] }
  | failed : s.file n = false → (∃ d ∈ mk.graph.neighbors n, s.state d = .failed) →
      Found mk s n { s with state := update s.state n .failed }

omit [DecidableEq T] in
theorem visitRule_found (s : St T V) (n : V) : Found mk s n (visitRule mk s n) := by
  unfold visitRule
  cases hf : s.file n with
  | true => simpa using Found.present hf
  | false =>
    by_cases hw : s.state n = .waiting
    · cases hscan : scanDependencies s.state (mk.graph.neighbors n) with
      | ready => simpa [hw, hscan] using Found.ready hf (scan_ready hscan)
      | failed => simpa [hw, hscan] using Found.failed hf (scan_failed hscan)
      | waiting => simpa [hw, hscan] using Found.kept hf
    · simpa [hw] using Found.kept hf

omit [DecidableEq V] in
/-- The pass has come past what the target depends on. -/
theorem Live.visited (hi : Live mk s) {n d : V} {rest : List V} (hp : s.pc t = .pass (n :: rest))
    (hd : d ∈ mk.graph.neighbors n) : ¬ Unvisited s d := by
  intro ⟨u, rest', hu, hx⟩
  have hl := (hi.worker t).lock.mp (by rw [hp]; trivial)
  have hut : u = t := by
    by_contra hne
    exact hi.alone hl hne (by rw [hu]; trivial)
  subst hut
  rw [hp] at hu
  cases hu
  obtain ⟨visited, hs, -⟩ := (hi.worker u).pass _ hp
  have hnodup := hs ▸ hi.order.nodup
  exact (List.nodup_append.mp hnodup).2.2 d (hi.order.before visited n rest hs d hd) d hx rfl

omit [DecidableEq V] in
/-- The worker in the pass goes on to the next target. -/
theorem Unvisited.next {n : V} {rest : List V} (h : Unvisited s x) (hp : s.pc t = .pass (n :: rest)) (hx : x ≠ n)
    (hpc : s'.pc = s.pc) : Unvisited (s'.goto t (.pass rest)) x := by
  obtain ⟨u, rest', hu, hr⟩ := h
  by_cases e : u = t
  · subst e
    rw [hp] at hu
    cases hu
    exact ⟨u, rest, goto_self _, (List.mem_cons.mp hr).resolve_left hx⟩
  · exact ⟨u, rest', by rw [goto_of_ne _ e, hpc, hu], hr⟩

theorem Right.visit (h : Right mk succeeds s) (hi : Live mk s) {n : V} {rest : List V}
    (hp : s.pc t = .pass (n :: rest)) (hv : Found mk s n s') : Right mk succeeds (s'.goto t (.pass rest)) := by
  have hsorted : n ∈ s.sorted := by
    obtain ⟨visited, hs, -⟩ := (hi.worker t).pass _ hp
    simp [hs]
  have hnext : ∀ {v}, v ≠ n → s.state v = .failed → ∀ {u : St T V}, u.pc = s.pc →
      ¬ Builds mk succeeds s.onDisk v ∨ s.file v = true ∧ Unvisited (u.goto t (.pass rest)) v := by
    intro v hne hf u hu
    exact (h.failed v hf).imp_right fun ⟨hfile, hun⟩ => ⟨hfile, hun.next hp hne hu⟩
  have hpc : ∀ u, PcRight mk succeeds s ((s.goto t (.pass rest)).pc u) :=
    forall_goto (P := fun _ => PcRight mk succeeds s) trivial fun u _ => h.pc u
  cases hv with
  | present hf =>
    refine ⟨h.present, h.file, ?_, ?_, h.queue, hpc⟩
    · intro v hv
      by_cases e : v = n
      · subst e
        exact h.file v hsorted hf
      · exact h.done v (by simpa [St.goto, e] using hv)
    · intro v hv
      have e : v ≠ n := by
        intro e
        simp [St.goto, e] at hv
      exact hnext e (by simpa [St.goto, e] using hv) rfl
  | kept hf =>
    refine ⟨h.present, h.file, h.done, ?_, h.queue, hpc⟩
    intro v hv
    by_cases e : v = n
    · subst e
      refine Or.inl ((h.failed v hv).resolve_right ?_)
      simp [hf]
    · exact hnext e hv rfl
  | ready hf hdeps =>
    refine ⟨h.present, h.file, ?_, ?_, ?_, hpc⟩
    · intro v hv
      have e : v ≠ n := by
        intro e
        simp [St.goto, e] at hv
      exact h.done v (by simpa [St.goto, e] using hv)
    · intro v hv
      have e : v ≠ n := by
        intro e
        simp [St.goto, e] at hv
      exact hnext e (by simpa [St.goto, e] using hv) rfl
    · intro y hy
      rcases List.mem_append.mp hy with hy | hy
      · exact h.queue y hy
      · obtain rfl := List.mem_singleton.mp hy
        exact Or.inr ⟨hsorted, fun d hd => h.done d (hdeps d hd)⟩
  | failed hf hdep =>
    refine ⟨h.present, h.file, ?_, ?_, h.queue, hpc⟩
    · intro v hv
      have e : v ≠ n := by
        intro e
        simp [St.goto, e] at hv
      exact h.done v (by simpa [St.goto, e] using hv)
    · intro v hv
      by_cases e : v = n
      · subst e
        apply Or.inl
        intro hb
        obtain ⟨d, hd, hfailed⟩ := hdep
        have hdisk : s.onDisk v = false := by
          by_contra hd
          rw [h.present v (by simpa using hd)] at hf
          cases hf
        rcases h.failed d hfailed with hnb | ⟨-, hun⟩
        · exact hnb ((hb.cases hdisk).1 d hd)
        · exact hi.visited hp hd hun
      · exact hnext e (by simpa [St.goto, e] using hv) rfl

/-! ## Runs -/

omit [DecidableEq T] in
/-- A command leaves a file behind. -/
theorem Right.create (h : Right mk succeeds s) {target f : V} {left : List String} (hp : s.pc t = .running target left)
    (hf : f ∈ s.sorted → f = target ∧ Succeeds mk succeeds target) :
    Right mk succeeds { s with file := update s.file f true } := by
  have hmono : ∀ v, s.file v = true → update s.file f true v = true := by
    intro v hv
    by_cases e : v = f
    · subst e
      exact Function.update_self ..
    · rwa [Function.update_of_ne e]
  refine ⟨fun v hv => hmono v (h.present v hv), ?_, h.done, ?_, h.queue, ?_⟩
  · intro v hv hfile
    by_cases e : v = f
    · subst e
      obtain ⟨rfl, hs⟩ := hf hv
      have hpc : PcRight mk succeeds s (.running v left) := PcRight.at h hp
      exact .made hpc.1.2 hs
    · exact h.file v hv (by simpa [e] using hfile)
  · intro v hv
    exact (h.failed v hv).imp_right fun ⟨hfile, hu⟩ => ⟨hmono v hfile, hu⟩
  · intro u
    have hu := h.pc u
    show PcRight mk succeeds { s with file := update s.file f true } (s.pc u)
    cases hpu : s.pc u with
    | record y r =>
      rw [hpu] at hu
      cases r with
      | failed => exact ⟨hu.1, hu.2.imp_left (hmono y)⟩
      | _ => exact hu
    | own y flag =>
      rw [hpu] at hu
      cases flag <;> exact hu
    | _ =>
      rw [hpu] at hu
      exact hu

theorem right_step {a : Act T V} (h : Right mk succeeds s) (hi : Live mk s) (hc : Repeatable mk succeeds s a)
    (hstep : step mk s a = some s') : Right mk succeeds s' := by
  cases step_move hstep with
  | start t hp hl => exact h.goto (by simp [hp]) trivial
  | pullStop t queue hp hq =>
    exact (h.requeue _ fun x hx => Or.inl (hq ▸ List.mem_cons_of_mem _ hx)).goto (by simp [hp]) trivial
  | pull t target queue hp hq hroot =>
    have hripe := (h.queue target (hq ▸ List.mem_cons_self)).resolve_left hroot
    exact (h.requeue _ fun x hx => Or.inl (hq ▸ List.mem_cons_of_mem _ hx)).goto (by simp [hp]) hripe
  | fetch t target hp hl =>
    have hripe : Ripe mk succeeds s target := PcRight.at h hp
    exact h.goto (by simp [hp]) ⟨hripe, fun _ hd => hd⟩
  | checked t target hp =>
    have hpc : PcRight mk succeeds s (.check target []) := PcRight.at h hp
    exact h.goto (by simp [hp]) hpc.1
  | checkFailed t target d rest hp hl hd =>
    have hpc : PcRight mk succeeds s (.check target (d :: rest)) := PcRight.at h hp
    exact absurd (hpc.1.2 d (hpc.2 d List.mem_cons_self)) (h.not_builds hi hl hd)
  | check t target d rest hp hl hd =>
    have hpc : PcRight mk succeeds s (.check target (d :: rest)) := PcRight.at h hp
    exact h.goto (by simp [hp]) ⟨hpc.1, fun e he => hpc.2 e (List.mem_cons_of_mem _ he)⟩
  | skip t target flag hp hl hd => exact h.goto (by simp [hp]) trivial
  | giveUp t target hp hl hd => exact (PcRight.at h hp).elim
  | begin t target hp hl hd =>
    have hripe : Ripe mk succeeds s target := PcRight.at h hp
    exact h.commands (by simp [hp]) hripe Iff.rfl
  | record t target state hp hl => exact h.record hi hp hl
  | visit t neighbor rest hp => exact h.visit hi hp (visitRule_found s neighbor)
  | passed t hp => exact h.goto (by simp [hp]) trivial
  | goalOpen t v rest hp hv => exact (h.relock none s.made).goto (by simp [hp]) trivial
  | goal t v rest hp hv => exact h.goto (by simp [hp]) trivial
  | goalsOver t hp =>
    have hend := (h.relock none s.made).requeue (s.queue ++ [mk.root]) (by simp; grind)
    exact hend.goto (by simp [hp]) trivial
  | stop t hp =>
    have hend := h.requeue (s.queue ++ [mk.root]) (by simp; grind)
    exact hend.goto (by simp [hp]) trivial
  | create t target f left hp => exact h.create hp (hc target left hp)
  | finish t target command rest hp =>
    have hpc : PcRight mk succeeds s (.running target (command :: rest)) := PcRight.at h hp
    have hok := hc target command rest hp
    apply h.commands (by simp [hp]) hpc.1
    rw [hpc.2, List.all_cons, ← hok, Bool.true_and]
  | fail t target command rest hp =>
    have hpc : PcRight mk succeeds s (.running target (command :: rest)) := PcRight.at h hp
    have hok := hc target command rest hp
    have hfails : ¬ Succeeds mk succeeds target := by
      rw [hpc.2, List.all_cons, ← hok]
      simp
    refine h.goto (by simp [hp]) ⟨hpc.1.1, ?_⟩
    cases hdisk : s.onDisk target with
    | true => exact Or.inl (h.present target hdisk)
    | false => exact Or.inr fun hb => hfails (hb.cases hdisk).2

theorem update_ne_failed {state : V → RuleState} {v : V} {r : RuleState} (h : ∀ y, state y ≠ .failed) (hr : r ≠ .failed)
    (y : V) : update state v r y ≠ .failed := by
  by_cases e : y = v
  · subst e
    rwa [Function.update_self]
  · rw [Function.update_of_ne e]
    exact h y

theorem markExisting_ne_failed {file : V → Bool} {l : List V} {state : V → RuleState} (h : ∀ y, state y ≠ .failed) :
    ∀ y, markExisting file l state y ≠ .failed := by
  induction l generalizing state with
  | nil => exact h
  | cons v l ih =>
    apply ih
    split
    · exact update_ne_failed h (by simp)
    · exact h

theorem pushReady_ne_failed {l : List V} {r : (V → RuleState) × List V} (h : ∀ y, r.1 y ≠ .failed) :
    ∀ y, (pushReady mk l r).1 y ≠ .failed := by
  induction l generalizing r with
  | nil => exact h
  | cons v l ih =>
    rcases r with ⟨state, queue⟩
    rw [pushReady]
    apply ih
    split
    · exact update_ne_failed h (by simp)
    · exact h

omit [DecidableEq T] in
theorem parmakeStart_right (mk : Makefile V) (succeeds : V → String → Bool) (file : V → Bool) (sorted : List V) :
    Right mk succeeds (parmakeStart (T := T) mk file sorted) := by
  have hspec := pushReady_spec (m := mk) (P := fun d => file d = true) (l := sorted)
    (r := (markExisting file sorted fun _ => .waiting, [])) (markExisting_done (by simp)) (by simp)
  have hmem := pushReady_queued mk (l := sorted) (r := (markExisting file sorted fun _ => .waiting, []))
    fun y hy => absurd hy (markExisting_ne_queued (by simp) y)
  refine ⟨fun _ hv => hv, fun v _ hf => .present hf, fun v hv => .present (hspec.1 v hv), ?_, ?_, fun _ => trivial⟩
  · intro v hv
    exact absurd hv (pushReady_ne_failed (markExisting_ne_failed (by simp)) v)
  · intro x hx
    have hripe : ∀ y ∈ (pushReady mk sorted (markExisting file sorted fun _ => .waiting, [])).2,
        Ripe mk succeeds (parmakeStart (T := T) mk file sorted) y := by
      intro y hy
      exact ⟨(hmem.2 y hy).resolve_left (by simp), fun d hd => .present (hspec.2 y hy d hd)⟩
    simp only [parmakeStart] at hx
    split at hx
    · rcases List.mem_append.mp hx with hx | hx
      · exact Or.inr (hripe x hx)
      · exact Or.inl (List.mem_singleton.mp hx)
    · exact Or.inr (hripe x hx)

instance (mk : Makefile V) (succeeds : V → String → Bool) (s : St T V) :
    (a : Act T V) → Decidable (Repeatable mk succeeds s a)
  | .run _ => isTrue trivial
  | .create t f => match h : s.pc t with
    | .running target _ =>
      decidable_of_iff (f ∈ s.sorted → f = target ∧ (mk.commands target).all (succeeds target) = true)
        (by simp [Repeatable, h, Succeeds])
    | .start | .pull | .fetch _ | .check _ _ | .own _ _ | .record _ _ | .pass _ | .goals _ | .stop | .exited =>
      isTrue (by simp [Repeatable, h])
  | .finish t ok => match h : s.pc t with
    | .running target (command :: _) => decidable_of_iff (ok = succeeds target command) (by simp [Repeatable, h])
    | .running _ [] | .start | .pull | .fetch _ | .check _ _ | .own _ _ | .record _ _ | .pass _ | .goals _ | .stop
    | .exited => isTrue (by simp [Repeatable, h])

end SysProg.Parmake
