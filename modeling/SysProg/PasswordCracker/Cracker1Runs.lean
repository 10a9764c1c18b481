/-
  SysProg.PasswordCracker.Cracker1Runs — every record once (see
  `SysProg.PasswordCracker.Cracker1`).

  While a record is left on the queue no NULL has been pulled (`Flow.going`), so the
  workers stop after the last record; the records on the queue, with the workers and in
  `results` are those of the input (`Flow.records`). A worker's counts are those of its
  results (`Counted`), and are added up when all workers are joined (`Joined`).

  Main result: `records_cracked`. A word that does not fit its block is
  `a_long_name_overruns_the_block`.
-/

import Mathlib.Algebra.BigOperators.Ring.Finset
import SysProg.PasswordCracker.Cracker1

namespace SysProg.PasswordCracker.Cracker1

open Function (update)

variable {U : Utils} {completions : Nat → List Text} {n : Nat} {s s' : St n} {d : Data} {tmp : Text} {tried : Nat}
  {t : Fin n} {p : Pc}

/-! ## Records and stop markers -/

def Pc.data : Pc → Multiset Data
  | .crack d _ _ | .result d _ _ => {d}
  | _ => 0

/-- Records, and after them `k` NULLs, are on the queue. -/
structure Flow (users : List User) (s : St n) (rest : List Data) (k : Nat) : Prop where
  queue : s.queue = rest.map some ++ List.replicate k none
  going : rest ≠ [] → ∀ t, s.pc t ≠ .stopped
  markers : k + ∑ t, s.nulls t = n
  nulls : ∀ t, s.nulls t = if s.pc t = .stopped then 1 else 0
  records : (rest : Multiset Data) + ∑ t, (s.pc t).data + (s.results.map Result.data : Multiset Data) = dataOf users

variable {users : List User} {rest : List Data} {k : Nat}

/-- A worker that neither stops nor takes or gives up a record. -/
theorem Flow.goes (hf : Flow users s rest k) (hpc : s.pc t ≠ .stopped) (hp : p ≠ .stopped)
    (hdata : p.data = (s.pc t).data) : Flow users { s with pc := update s.pc t p } rest k where
  queue := hf.queue
  going hne u := by
    by_cases hu : u = t
    · subst hu
      simpa using hp
    · simpa [hu] using hf.going hne u
  markers := hf.markers
  nulls u := by
    by_cases hu : u = t
    · subst hu
      simpa [hp, hpc] using hf.nulls u
    · simpa [hu] using hf.nulls u
  records := by
    show (rest : Multiset Data) + ∑ u, (update s.pc t p u).data + (s.results.map Result.data : Multiset Data) = _
    rw [Threads.sum_update_eq Pc.data s.pc hdata]
    exact hf.records

theorem crack_ne_stopped : crack U d tmp tried ≠ .stopped := by
  unfold crack
  split
  · simp
  · dsimp only
    split <;> simp

theorem crack_data : (crack U d tmp tried).data = {d} := by
  unfold crack
  split
  · rfl
  · dsimp only
    split <;> rfl

theorem Flow.stop {queue : List (Option Data)} (hf : Flow users s rest k) (hpc : s.pc t = .pull)
    (hq : s.queue = none :: queue) :
    ∃ k', Flow users { s with queue := queue, nulls := update s.nulls t (s.nulls t + 1), pc := update s.pc t .stopped }
      [] k' := by
  have hqueue := hf.queue
  rw [hq] at hqueue
  -- no record is left, and there is a marker
  cases rest with
  | cons d rest => simp at hqueue
  | nil =>
    cases k with
    | zero => simp at hqueue
    | succ k =>
      have hnull : s.nulls t = 0 := by rw [hf.nulls t, hpc]; rfl
      have hcount := Threads.sum_update id s.nulls t (s.nulls t + 1)
      have hmarkers := hf.markers
      have hdata : Pc.data .stopped = (s.pc t).data := by rw [hpc]; rfl
      simp only [id, hnull, Nat.zero_add, Nat.add_zero] at hcount
      refine ⟨k, ⟨(List.cons.inj hqueue).2, fun hne => absurd rfl hne, ?_, ?_, ?_⟩⟩
      · dsimp only
        rw [hnull, Nat.zero_add, hcount]
        omega
      · intro u
        dsimp only
        by_cases hu : u = t
        · subst hu
          simp [hnull]
        · simpa [hu] using hf.nulls u
      · show _ + ∑ u, (update s.pc t .stopped u).data + _ = _
        rw [Threads.sum_update_eq Pc.data s.pc hdata]
        exact hf.records

theorem Flow.take {queue : List (Option Data)} (hf : Flow users s rest k) (hpc : s.pc t = .pull)
    (hq : s.queue = some d :: queue) :
    ∃ rest', Flow users { s with queue := queue, pc := update s.pc t (.crack d tmp tried) } rest' k := by
  have hqueue := hf.queue
  rw [hq] at hqueue
  cases rest with
  | nil =>
    cases k with
    | zero => simp at hqueue
    | succ k => simp [List.replicate_succ] at hqueue
  | cons d' rest =>
    rw [List.map_cons, List.cons_append, List.cons.injEq, Option.some.injEq] at hqueue
    rcases hqueue with ⟨hd, hqueue⟩
    subst hd
    have hdata := Threads.sum_update Pc.data s.pc t (.crack d tmp tried)
    have hnone : Pc.pull.data = 0 := rfl
    rw [hpc, hnone, add_zero] at hdata
    have hgoing := hf.going (by simp)
    refine ⟨rest, ⟨hqueue, ?_, hf.markers, ?_, ?_⟩⟩
    · intro _ u
      dsimp only
      by_cases hu : u = t
      · subst hu
        simp
      · simpa [hu] using hgoing u
    · intro u
      dsimp only
      by_cases hu : u = t
      · subst hu
        simpa [hpc] using hf.nulls u
      · simpa [hu] using hf.nulls u
    · have hrecords := hf.records
      show (rest : Multiset Data) + ∑ u, (update s.pc t (.crack d tmp tried) u).data + _ = _
      rw [hdata, ← hrecords, ← Multiset.cons_coe]
      show (rest : Multiset Data) + (_ + {d}) + _ = _
      rw [← Multiset.singleton_add]
      ac_rfl

theorem Flow.report (hf : Flow users s rest k) {result : Option Text} (hpc : s.pc t = .result d result tried) :
    Flow users (report s t d result tried) rest k := by
  have hdata := Threads.sum_update Pc.data s.pc t .pull
  rw [hpc] at hdata
  refine ⟨?_, ?_, ?_, ?_, ?_⟩
  · rw [report_queue]
    exact hf.queue
  · intro hne u
    rw [report_pc]
    by_cases hu : u = t
    · subst hu
      simp
    · simpa [hu] using hf.going hne u
  · rw [report_nulls]
    exact hf.markers
  · intro u
    rw [report_nulls, report_pc]
    by_cases hu : u = t
    · subst hu
      simpa [hpc] using hf.nulls u
    · simpa [hu] using hf.nulls u
  · rw [report_results, report_pc, List.map_append, ← hf.records, ← Multiset.coe_add]
    have hsum : ∑ u, (s.pc u).data = ∑ u, (update s.pc t .pull u).data + {d} := by
      rw [← add_zero (∑ u, (s.pc u).data)]
      exact hdata.symm
    rw [hsum]
    show _ = _ + (_ + ({d} : Multiset Data)) + _
    have hone : (([d] : List Data) : Multiset Data) = {d} := rfl
    rw [List.map_singleton, hone]
    ac_rfl

theorem Flow.move (hf : Flow users s rest k) (hm : Move U s s') : ∃ rest' k', Flow users s' rest' k' := by
  cases hm with
  | start t hpc _ =>
    have hg := hf.goes (t := t) (p := .pull) (by simp [hpc]) (by simp) (by rw [hpc]; rfl)
    exact ⟨rest, k, ⟨hg.queue, hg.going, hg.markers, hg.nulls, hg.records⟩⟩
  | stop t queue hpc hq =>
    rcases hf.stop hpc hq with ⟨k', hf'⟩
    exact ⟨[], k', hf'⟩
  | take t d queue hpc hq =>
    rcases hf.take hpc hq with ⟨rest', hf'⟩
    exact ⟨rest', k, hf'⟩
  | guess t d tmp tried hpc =>
    exact ⟨rest, k, hf.goes (by simp [hpc]) crack_ne_stopped (by rw [crack_data, hpc]; rfl)⟩
  | report t d result tried hpc => exact ⟨rest, k, hf.report hpc⟩
  | main main _ => exact ⟨rest, k, ⟨hf.queue, hf.going, hf.markers, hf.nulls, hf.records⟩⟩
  | summary _ _ => exact ⟨rest, k, ⟨hf.queue, hf.going, hf.markers, hf.nulls, hf.records⟩⟩

theorem Flow.start (users : List User) (successful failed : Fin n → BitVec 32) :
    Flow users (filled n users successful failed) (dataOf users) n := by
  refine ⟨rfl, ?_, ?_, ?_, ?_⟩
  · intro _ t
    simp [filled]
  · simp [filled]
  · intro t
    simp [filled]
  · simp [filled, Pc.data]

/-! ## Counting -/

def printed (l : List (Result n)) (t : Fin n) (status : Nat) : Nat :=
  l.countP fun r => decide (r.thread = t ∧ r.status = status)

structure Counted (s : St n) : Prop where
  successful : ∀ t, s.pc t ≠ .start → s.numSuccessful t = BitVec.ofNat 32 (printed s.results t 0)
  failed : ∀ t, s.pc t ≠ .start → s.numFailed t = BitVec.ofNat 32 (printed s.results t 1)
  started : ∀ r ∈ s.results, s.pc r.thread ≠ .start

theorem printed_append {l : List (Result n)} {r : Result n} {status : Nat} :
    printed (l ++ [r]) t status = printed l t status + if r.thread = t ∧ r.status = status then 1 else 0 := by
  unfold printed
  rw [List.countP_append, List.countP_singleton]
  simp

theorem printed_zero {l : List (Result n)} {status : Nat} (h : ∀ r ∈ l, r.thread ≠ t) : printed l t status = 0 := by
  unfold printed
  rw [List.countP_eq_zero]
  intro r hr hc
  exact h r hr (of_decide_eq_true hc).1

/-- Every result is some worker's. -/
theorem sum_printed (l : List (Result n)) (status : Nat) :
    ∑ t, printed l t status = l.countP fun r => decide (r.status = status) := by
  induction l with
  | nil => simp [printed]
  | cons r l ih =>
    have hcons : ∀ t, printed (r :: l) t status =
        printed l t status + if r.thread = t then (if r.status = status then 1 else 0) else 0 := by
      intro t
      unfold printed
      rw [List.countP_cons]
      by_cases ht : r.thread = t <;> simp [ht]
    simp only [hcons]
    rw [Finset.sum_add_distrib, ih, Finset.sum_ite_eq, List.countP_cons]
    simp

/-- A worker goes on without printing. -/
theorem Counted.goes (hc : Counted s) (hpc : s.pc t ≠ .start) (hp : p ≠ .start) :
    Counted { s with pc := update s.pc t p } := by
  have hback : ∀ u, update s.pc t p u ≠ .start → s.pc u ≠ .start := by
    intro u hu
    by_cases e : u = t
    · subst e
      exact hpc
    · rwa [Function.update_of_ne e] at hu
  refine ⟨fun u hu => hc.successful u (hback u hu), fun u hu => hc.failed u (hback u hu), ?_⟩
  intro r hr
  dsimp only
  by_cases e : r.thread = t
  · rw [e]
    simpa using hp
  · rw [Function.update_of_ne e]
    exact hc.started r hr

theorem crack_ne_start : crack U d tmp tried ≠ .start := by
  unfold crack
  split
  · simp
  · dsimp only
    split <;> simp

theorem Counted.report (hc : Counted s) {result : Option Text} (hpc : s.pc t ≠ .start) :
    Counted (report s t d result tried) := by
  refine ⟨?_, ?_, ?_⟩
  · intro u hu
    rw [report_pc] at hu
    rw [report_numSuccessful, report_results, printed_append]
    by_cases e : u = t
    · subst e
      rw [Function.update_self, hc.successful u hpc, BitVec.ofNat_add]
      cases result <;> simp
    · rw [Function.update_of_ne e] at hu ⊢
      rw [hc.successful u hu, if_neg (fun h => e h.1.symm), Nat.add_zero]
  · intro u hu
    rw [report_pc] at hu
    rw [report_numFailed, report_results, printed_append]
    by_cases e : u = t
    · subst e
      rw [Function.update_self, hc.failed u hpc, BitVec.ofNat_add]
      cases result <;> simp
    · rw [Function.update_of_ne e] at hu ⊢
      rw [hc.failed u hu, if_neg (fun h => e h.1.symm), Nat.add_zero]
  · intro r hr
    rw [report_pc]
    rw [report_results] at hr
    by_cases e : r.thread = t
    · rw [e]
      simp
    · rw [Function.update_of_ne e]
      rcases List.mem_append.mp hr with hr | hr
      · exact hc.started r hr
      · rw [List.mem_singleton.mp hr] at e
        exact absurd rfl e

theorem Counted.move (hc : Counted s) (hm : Move U s s') : Counted s' := by
  cases hm with
  | start t hpc _ =>
    have hnone : ∀ r ∈ s.results, r.thread ≠ t := fun r hr e => hc.started r hr (e ▸ hpc)
    refine ⟨?_, ?_, ?_⟩
    · intro u hu
      dsimp only at hu ⊢
      by_cases e : u = t
      · subst e
        rw [Function.update_self, printed_zero hnone]
        rfl
      · rw [Function.update_of_ne e] at hu ⊢
        exact hc.successful u hu
    · intro u hu
      dsimp only at hu ⊢
      by_cases e : u = t
      · subst e
        rw [Function.update_self, printed_zero hnone]
        rfl
      · rw [Function.update_of_ne e] at hu ⊢
        exact hc.failed u hu
    · intro r hr
      dsimp only
      rw [Function.update_of_ne (hnone r hr)]
      exact hc.started r hr
  | stop t queue hpc _ =>
    have hg := hc.goes (t := t) (p := .stopped) (by simp [hpc]) (by simp)
    exact ⟨hg.successful, hg.failed, hg.started⟩
  | take t d queue hpc _ =>
    have hg := hc.goes (t := t) (p := .crack d (U.setStringPosition (d.user.unknown U) 0) 0) (by simp [hpc]) (by simp)
    exact ⟨hg.successful, hg.failed, hg.started⟩
  | guess t d tmp tried hpc => exact hc.goes (by simp [hpc]) crack_ne_start
  | report t d result tried hpc => exact hc.report (by simp [hpc])
  | main main _ => exact ⟨hc.successful, hc.failed, hc.started⟩
  | summary _ _ => exact ⟨hc.successful, hc.failed, hc.started⟩

/-! ## The main thread -/

structure Joined (s : St n) : Prop where
  main : s.main.Ok s.stopped
  summary : ∀ x, s.summary = some x →
    s.main.joined = n ∧ x = (∑ i, s.numSuccessful i, ∑ i, s.numFailed i)

/-- A worker that moves has not stopped. -/
theorem Joined.works (hj : Joined s) (hpc : s.pc t ≠ .stopped) (hmain : s'.main = s.main)
    (hsummary : s'.summary = s.summary) (hother : ∀ u, u ≠ t → s'.pc u = s.pc u) : Joined s' := by
  refine ⟨?_, ?_⟩
  · rw [hmain]
    apply hj.main.moves
    intro u hu
    have hstop : s.pc u = .stopped := of_decide_eq_true hu
    have hut : u ≠ t := fun e => hpc (e ▸ hstop)
    exact decide_eq_true ((hother u hut).trans hstop)
  · intro x hx
    rw [hsummary] at hx
    have hjoined := (hj.summary x hx).1
    have hstop : s.pc t = .stopped := of_decide_eq_true (hj.main.stopped t (by omega))
    exact absurd hstop hpc

theorem Joined.move (hj : Joined s) (hm : Move U s s') : Joined s' := by
  cases hm with
  | start t hpc _ => exact hj.works (by simp [hpc]) rfl rfl fun u hu => Function.update_of_ne hu _ _
  | stop t queue hpc _ => exact hj.works (by simp [hpc]) rfl rfl fun u hu => Function.update_of_ne hu _ _
  | take t d queue hpc _ => exact hj.works (by simp [hpc]) rfl rfl fun u hu => Function.update_of_ne hu _ _
  | guess t d tmp tried hpc => exact hj.works (by simp [hpc]) rfl rfl fun u hu => Function.update_of_ne hu _ _
  | report t d result tried hpc =>
    apply hj.works (t := t) (by simp [hpc]) (report_main ..) (report_summary ..)
    intro u hu
    rw [report_pc]
    exact Function.update_of_ne hu _ _
  | main main hstep =>
    refine ⟨(hj.main.step hstep).1, ?_⟩
    intro x hx
    rcases hj.summary x hx with ⟨hjoined, e⟩
    -- joined already
    unfold Main.step at hstep
    have hcreated := hj.main.first
    rw [if_neg (by omega), dif_neg (by omega)] at hstep
    cases hstep
  | summary hjoined hnone =>
    refine ⟨hj.main, ?_⟩
    intro x hx
    cases hx
    exact ⟨hjoined, rfl⟩

/-! ## Runs -/

structure Inv (U : Utils) (completions : Nat → List Text) (users : List User) (s : St n) : Prop where
  right : Right U completions s
  flow : ∃ rest k, Flow users s rest k
  counted : Counted s
  joined : Joined s

def entryCost (U : Utils) (completions : Nat → List Text) : Option Data → Nat
  | none => 1
  | some d => (completionsOf U completions d).length + 2

def Pc.cost (U : Utils) (completions : Nat → List Text) : Pc → Nat
  | .start | .result .. => 1
  | .crack d _ tried => (completionsOf U completions d).length - tried + 1
  | .pull | .stopped => 0

def cost (U : Utils) (completions : Nat → List Text) (s : St n) : Nat :=
  (s.queue.map (entryCost U completions)).sum + ∑ t, (s.pc t).cost U completions + s.main.left n +
    s.summary.elim 1 fun _ => 0

@[simp] theorem Pc.cost_start : Pc.cost U completions .start = 1 := rfl

@[simp] theorem Pc.cost_pull : Pc.cost U completions .pull = 0 := rfl

@[simp] theorem Pc.cost_crack : Pc.cost U completions (.crack d tmp tried) =
    (completionsOf U completions d).length - tried + 1 := rfl

@[simp] theorem Pc.cost_result {result : Option Text} : Pc.cost U completions (.result d result tried) = 1 := rfl

@[simp] theorem Pc.cost_stopped : Pc.cost U completions .stopped = 0 := rfl

theorem crack_cost (h : Trying U completions d tmp tried) :
    (crack U d tmp tried).cost U completions < (Pc.crack d tmp tried).cost U completions := by
  have hlt := (List.getElem?_eq_some_iff.mp h.here).1
  unfold crack
  split
  · unfold Pc.cost
    dsimp only
    omega
  · dsimp only
    split <;> unfold Pc.cost <;> dsimp only <;> omega

theorem cost_move (hi : Right U completions s) (hj : Joined s) (hm : Move U s s') :
    cost U completions s' < cost U completions s := by
  unfold cost
  cases hm with
  | start t hpc _ =>
    have hsum := Threads.sum_update (Pc.cost U completions) s.pc t .pull
    rw [hpc, Pc.cost_start, Pc.cost_pull] at hsum
    dsimp only
    omega
  | stop t queue hpc hq =>
    have hsum := Threads.sum_update (Pc.cost U completions) s.pc t .stopped
    rw [hpc, Pc.cost_pull, Pc.cost_stopped] at hsum
    rw [hq, List.map_cons, List.sum_cons, entryCost]
    dsimp only
    omega
  | take t d queue hpc hq =>
    have hsum := Threads.sum_update (Pc.cost U completions) s.pc t
      (.crack d (U.setStringPosition (d.user.unknown U) 0) 0)
    rw [hpc, Pc.cost_pull, Pc.cost_crack] at hsum
    rw [hq, List.map_cons, List.sum_cons, entryCost]
    dsimp only
    omega
  | guess t d tmp tried hpc =>
    have hsum := Threads.sum_update (Pc.cost U completions) s.pc t (crack U d tmp tried)
    have htrying : Trying U completions d tmp tried := by
      have hw := hi.worker t
      rwa [hpc] at hw
    have hlt := crack_cost htrying
    rw [hpc] at hsum
    dsimp only [St.goto]
    omega
  | report t d result tried hpc =>
    have hsum := Threads.sum_update (Pc.cost U completions) s.pc t .pull
    rw [hpc, Pc.cost_result, Pc.cost_pull] at hsum
    rw [report_queue, report_pc, report_main, report_summary]
    omega
  | main main hstep =>
    have hlt := (hj.main.step hstep).2.2
    dsimp only
    omega
  | summary _ hnone =>
    rw [hnone]
    simp

theorem Inv.start (users : List User) (successful failed : Fin n → BitVec 32) :
    Inv U completions users (filled n users successful failed) where
  right := .start users successful failed
  flow := ⟨_, _, .start users successful failed⟩
  counted := ⟨fun _ h => absurd rfl h, fun _ h => absurd rfl h, by simp [filled]⟩
  joined := ⟨.start, by simp [filled]⟩

theorem Inv.move (hU : Enumerates U completions) (hi : Inv U completions users s) (hm : Move U s s') :
    Inv U completions users s' where
  right := hi.right.move hU hm
  flow := by
    rcases hi.flow with ⟨rest, k, hf⟩
    exact hf.move hm
  counted := hi.counted.move hm
  joined := hi.joined.move hm

theorem start_some {successful failed : Fin n → BitVec 32} :
    Cracker1.start n users successful failed = some s ↔ s = filled n users successful failed ∧ ∀ u ∈ users, u.Fits := by
  unfold Cracker1.start
  rw [Option.map_eq_some_iff]
  constructor
  · intro ⟨l, hl, e⟩
    obtain ⟨rfl, hfits⟩ := readUsers_some.mp hl
    exact ⟨e.symm, hfits⟩
  · intro ⟨e, hfits⟩
    exact ⟨users, readUsers_some.mpr ⟨rfl, hfits⟩, e.symm⟩

theorem inv_reach (hU : Enumerates U completions) (h : (sys U n users).Reach s) : Inv U completions users s := by
  refine h.inv (I := Inv U completions users) ?_ ?_
  · intro s h0
    rcases h0 with ⟨successful, failed, e⟩
    rw [(start_some.mp e).1]
    exact .start users successful failed
  · intro s a s' hi hs
    exact hi.move hU (step_move hs)

theorem dataOf_nodup (users : List User) : (dataOf users).Nodup := by
  have hlines : (dataOf users).map Data.line = List.range' 0 users.length := by
    unfold dataOf
    rw [List.map_map]
    exact List.zipIdx_map_snd 0 users
  have hnodup : ((dataOf users).map Data.line).Nodup := by
    rw [hlines]
    exact List.nodup_range'
  exact List.Nodup.of_map Data.line hnodup

/-- A worker can go on until it has stopped. -/
theorem Flow.worker_goes (hf : Flow users s rest k) (hcreated : s.main.created = n) (hpc : s.pc t ≠ .stopped) :
    ∃ s', step U s (.worker t) = some s' := by
  have hlt : t.val < s.main.created := by
    rw [hcreated]
    exact t.isLt
  have hnull : s.nulls t = 0 := by rw [hf.nulls t, if_neg hpc]
  have hmarkers := hf.markers
  show ∃ s', (if t.val < s.main.created then crackerHelper U s t else none) = some s'
  rw [if_pos hlt]
  unfold crackerHelper
  cases hpct : s.pc t with
  | start => exact ⟨_, rfl⟩
  | pull =>
    have hk : 0 < k := by
      have hone : ∀ u, s.nulls u ≤ 1 := by
        intro u
        rw [hf.nulls u]
        split <;> omega
      have hlt := Threads.sum_lt_card hone hnull
      rw [Fintype.card_fin] at hlt
      omega
    have hne : s.queue ≠ [] := by
      rw [hf.queue]
      intro e
      have hlen := congrArg List.length e
      simp at hlen
      omega
    rcases List.exists_cons_of_ne_nil hne with ⟨entry, queue, hq⟩
    rw [hq]
    cases entry with
    | none => exact ⟨_, rfl⟩
    | some d => exact ⟨_, rfl⟩
  | crack d tmp tried => exact ⟨_, rfl⟩
  | result d result tried => exact ⟨_, rfl⟩
  | stopped => exact absurd hpct hpc

/-- The workers have stopped, each at one NULL, every record has one result, and the
    summary has the numbers of those that were cracked and that were not. -/
structure Finished (users : List User) (s : St n) : Prop where
  stopped : ∀ t, s.pc t = .stopped ∧ s.nulls t = 1
  once : (s.results.map Result.data).Perm (dataOf users)
  summary : ∃ successful failed, s.summary = some (BitVec.ofNat 32 successful, BitVec.ofNat 32 failed) ∧
    successful = s.results.countP (fun r => decide (r.status = 0)) ∧ successful + failed = users.length

theorem sum_ofNat {f : Fin n → Nat} : ∑ t, BitVec.ofNat 32 (f t) = BitVec.ofNat 32 (∑ t, f t) := by
  simp only [← BitVec.natCast_eq_ofNat]
  exact (Nat.cast_sum _ _).symm

theorem Inv.finished (hi : Inv U completions users s) (hn : 0 < n) (hstop : ∀ a s', step U s a ≠ some s') :
    Finished users s := by
  rcases hi.flow with ⟨rest, k, hf⟩
  have hmain : startRest s = none := Option.eq_none_iff_forall_ne_some.mpr fun s' => hstop .main s'
  have hmainstep : s.main.step s.stopped = none := by
    unfold startRest at hmain
    split at hmain
    · cases hmain
    · assumption
  rcases hi.joined.main.blocked hmainstep with ⟨hcreated, hjoin⟩
  have hall : ∀ t, s.pc t = .stopped := by
    intro t
    by_contra hpc
    rcases hf.worker_goes (U := U) hcreated hpc with ⟨s', hs⟩
    exact hstop _ s' hs
  have hjoined := hjoin fun t => decide_eq_true (hall t)
  have hrest : rest = [] := by
    by_contra hne
    exact hf.going hne ⟨0, hn⟩ (hall _)
  have hdata : ∑ t, (s.pc t).data = 0 := by
    apply Finset.sum_eq_zero
    intro t _
    rw [hall t]
    rfl
  have hrecords := hf.records
  rw [hdata, hrest, add_zero, Multiset.coe_nil, zero_add, Multiset.coe_eq_coe] at hrecords
  refine ⟨fun t => ⟨hall t, ?_⟩, hrecords, ?_⟩
  · rw [hf.nulls t, if_pos (hall t)]
  · cases hsum : s.summary with
    | none =>
      unfold startRest at hmain
      rw [hmainstep] at hmain
      dsimp only at hmain
      rw [if_pos ⟨hjoined, hsum⟩] at hmain
      cases hmain
    | some x =>
      have hx := (hi.joined.summary x hsum).2
      have hne : ∀ t, s.pc t ≠ .start := fun t => by simp [hall t]
      refine ⟨s.results.countP fun r => decide (r.status = 0), s.results.countP fun r => decide (r.status = 1),
        ?_, rfl, ?_⟩
      · simp only [hx, hi.counted.successful _ (hne _), hi.counted.failed _ (hne _), sum_ofNat, sum_printed]
      · have hlen := hrecords.length_eq
        unfold dataOf at hlen
        rw [List.length_map, List.length_map, List.length_zipIdx] at hlen
        rw [← hlen, List.length_eq_countP_add_countP (fun r : Result n => decide (r.status = 0))]
        congr 1
        apply List.countP_congr
        intro r hr
        have hstatus := (hi.right.results r hr).2
        by_cases hnone : r.result = none <;> simp [hstatus, hnone]

/-- No record is with two workers or printed twice, a worker stops at the first NULL it
    pulls, what is printed of a record is right, and every run ends with all of it done. -/
structure Cracked (U : Utils) (completions : Nat → List Text) (users : List User) (s : St n) : Prop where
  one : (∑ t, (s.pc t).data + (s.results.map Result.data : Multiset Data)).Nodup
  nulls : ∀ t, s.nulls t = if s.pc t = .stopped then 1 else 0
  right : ∀ r ∈ s.results, r.status = 0 ↔ r.data.user.Crackable U completions
  finished : (sys U n users).Rests (Finished users) s

theorem reach_cracked (hU : Enumerates U completions) (hn : 0 < n) (h : (sys U n users).Reach s) :
    Cracked U completions users s := by
  have hi := inv_reach hU h
  rcases hi.flow with ⟨rest, k, hf⟩
  refine ⟨?_, hf.nulls, ?_, ?_⟩
  · have hnodup : (dataOf users : Multiset Data).Nodup := Multiset.coe_nodup.mpr (dataOf_nodup users)
    rw [← hf.records, add_assoc] at hnodup
    exact (Multiset.nodup_add.mp hnodup).2.1
  · intro r hr
    rcases hi.right.results r hr with ⟨hanswer, hstatus⟩
    rw [hstatus]
    cases hresult : r.result with
    | none =>
      rw [hresult] at hanswer
      exact ⟨fun e => absurd e (by simp), fun hc => absurd hc hanswer⟩
    | some password =>
      rw [hresult] at hanswer
      rcases hanswer with ⟨c, hc, e, hcrypt⟩
      simp only [reduceCtorEq, if_false, true_iff]
      exact ⟨c, hc, e ▸ hcrypt⟩
  · refine Run.Sys.Rests.of_measure (cost U completions) ?_ ?_ hi
    · intro s a s' hi hs
      have hm := step_move hs
      exact ⟨hi.move hU hm, cost_move hi.right hi.joined hm⟩
    · intro s hi hstop
      exact hi.finished hn fun a s' hs => hstop a s' hs

/-- The input is read, and every state reached then is right; for all records exactly when
    their words are shorter than the blocks. -/
theorem records_cracked (hU : Enumerates U completions) (hn : 0 < n) :
    ((∀ successful failed, ∃ s, Cracker1.start n users successful failed = some s) ∧
      ∀ s, (sys U n users).Reach s → Cracked U completions users s) ↔ ∀ u ∈ users, u.Fits := by
  constructor
  · intro ⟨hread, _⟩
    obtain ⟨s, hs⟩ := hread (fun _ => 0) fun _ => 0
    exact (start_some.mp hs).2
  · intro hfits
    exact ⟨fun successful failed => ⟨_, start_some.mpr ⟨rfl, hfits⟩⟩, fun s hs => reach_cracked hU hn hs⟩

/-- The record "p." is cracked if the hash is that of "pa", "pb" and so on, by either of
    two threads. -/
theorem records_cracked_letters :
    (∃ s, Cracker1.start 2 [⟨[117], [112, 98], [112, 46]⟩] (fun _ => 0) (fun _ => 0) = some s) ∧
      ∀ s, (sys (letterUtils id) 2 [⟨[117], [112, 98], [112, 46]⟩]).Reach s →
        Cracked (letterUtils id) letterCompletions [⟨[117], [112, 98], [112, 46]⟩] s := by
  have h := (records_cracked (letterUtils_enumerates id) (show 0 < 2 by decide)).mpr
    (show ∀ u ∈ [(⟨[117], [112, 98], [112, 46]⟩ : User)], u.Fits by simp [User.Fits])
  exact ⟨h.1 _ _, h.2⟩

/-- A name of 256 bytes. -/
theorem a_long_name_overruns_the_block :
    Cracker1.start 2 [⟨List.replicate 256 117, [112, 98], [112, 46]⟩] (fun _ => 0) (fun _ => 0) = none ∧
      ¬ ((∀ successful failed : Fin 2 → BitVec 32,
          ∃ s, Cracker1.start 2 [⟨List.replicate 256 117, [112, 98], [112, 46]⟩] successful failed = some s) ∧
        ∀ s, (sys (letterUtils id) 2 [⟨List.replicate 256 117, [112, 98], [112, 46]⟩]).Reach s →
          Cracked (letterUtils id) letterCompletions [⟨List.replicate 256 117, [112, 98], [112, 46]⟩] s) := by
  have hnone : Cracker1.start 2 [⟨List.replicate 256 117, [112, 98], [112, 46]⟩] (fun _ => 0) (fun _ => 0) = none := by
    decide +kernel
  refine ⟨hnone, ?_⟩
  intro ⟨hread, _⟩
  obtain ⟨s, hs⟩ := hread (fun _ => 0) fun _ => 0
  rw [hnone] at hs
  cases hs

end SysProg.PasswordCracker.Cracker1
