/-
  SysProg.Concurrency.QueueFifo — the queue is a first-in first-out list of at most
  `max_size` values, whatever the threads do (see `SysProg.Concurrency.Queue`).

  With the mutex free the linked list from `head` has `size` nodes and ends at `tail`,
  and the values pushed so far are the values pulled so far followed by the values on
  the list (`Settled`). Inside a call each statement leaves one part of this behind:
  `size` runs ahead of the list, a node is allocated but not linked, `tail` is not yet
  moved, a value is linked but its call has not returned (`Held`). `step_inv` is one
  case for each move; `queue_is_fifo` is what it gives over a run, and
  `dereferences_succeed` says that no statement follows a null or freed pointer.
-/

import Mathlib.Data.Fin.VecNotation
import SysProg.Lib.Monitor
import SysProg.Concurrency.Queue

namespace SysProg.BlockingQueue

open Function (update)
open SysProg.Chain (Seg)

variable {T V : Type} [DecidableEq T]

abbrev Nodes (V : Type) := List (Addr × QueueNode V)

def values (l : Nodes V) : List V := l.map fun x => x.2.data

def lastAddr (l : Nodes V) : Option Addr := (l.map Prod.fst).getLast?

@[simp] theorem values_append (l m : Nodes V) : values (l ++ m) = values l ++ values m := List.map_append
@[simp] theorem values_cons (x : Addr × QueueNode V) (l : Nodes V) : values (x :: l) = x.2.data :: values l := rfl
@[simp] theorem values_nil : values ([] : Nodes V) = [] := rfl
@[simp] theorem lastAddr_snoc (l : Nodes V) (x : Addr × QueueNode V) : lastAddr (l ++ [x]) = some x.1 := by
  simp [lastAddr]
@[simp] theorem lastAddr_nil : lastAddr ([] : Nodes V) = none := rfl

theorem lastAddr_eq_some {l : Nodes V} {b : Addr} (h : lastAddr l = some b) : ∃ m n, l = m ++ [(b, n)] := by
  rcases List.eq_nil_or_concat l with rfl | ⟨m, ⟨c, n⟩, rfl⟩
  · cases h
  · rw [List.concat_eq_append, lastAddr_snoc] at h
    cases h
    exact ⟨m, n, List.concat_eq_append⟩

/-- The list from `head` is `l`, `size` is its length plus `ahead`, within the bound. -/
structure Shape (q : Queue V) (l : Nodes V) (ahead : Int) : Prop where
  seg : Seg QueueNode.next q.node q.head l none
  size : q.size = l.length + ahead
  bound : 0 < q.maxSize → q.size ≤ q.maxSize

def TailOk (q : Queue V) (l : Nodes V) : Prop := q.tail = lastAddr l

def Settled (q : Queue V) (ins outs : List V) : Prop :=
  ∃ l, Shape q l 0 ∧ TailOk q l ∧ ins = outs ++ values l

def Held (q : Queue V) (ins outs : List V) : Call V → Pc V → Prop
  | _, .loop => Settled q ins outs
  | .push _, .malloc => ∃ l, Shape q l 1 ∧ TailOk q l ∧ ins = outs ++ values l
  | .push v, .link a => ∃ l, Shape q l 1 ∧ TailOk q l ∧ ins = outs ++ values l ∧ q.node a = some ⟨v, none⟩ ∧
      a ∉ l.map Prod.fst
  | .push v, .setTail a => ∃ l n, Shape q (l ++ [(a, n)]) 0 ∧ ins ++ [v] = outs ++ values (l ++ [(a, n)])
  | .push v, .signal none => Settled q (ins ++ [v]) outs
  | .push v, .unlock none => Settled q (ins ++ [v]) outs
  | .pull, .takeHead => ∃ l, Shape q l (-1) ∧ TailOk q l ∧ ins = outs ++ values l ∧ l ≠ []
  | .pull, .fixTail a d => ∃ l, Shape q l 0 ∧ (l ≠ [] → TailOk q l) ∧ ins = outs ++ [d] ++ values l ∧
      a ∉ l.map Prod.fst
  | .pull, .free a d => ∃ l, Shape q l 0 ∧ TailOk q l ∧ ins = outs ++ [d] ++ values l ∧ a ∉ l.map Prod.fst
  | .pull, .signal (some d) => Settled q ins (outs ++ [d])
  | .pull, .unlock (some d) => Settled q ins (outs ++ [d])
  | _, _ => False

/-! ## One statement -/

theorem shape_nonempty {q : Queue V} {l : Nodes V} {k : Int} (h : Shape q l k) (hk : q.size - k ≠ 0) : l ≠ [] := by
  intro heq
  subst heq
  have := h.size
  simp at this
  omega

theorem enter_held {q : Queue V} {ins outs : List V} {c : Call V} (h : Settled q ins outs) (hw : mustWait q c = false) :
    Held (enter q c).1 ins outs c (enter q c).2 := by
  obtain ⟨l, hs, ht, hv⟩ := h
  cases c with
  | push v =>
    simp only [mustWait, decide_eq_false_iff_not, not_and, not_le] at hw
    refine ⟨l, ⟨hs.seg, ?_, fun hm => ?_⟩, ht, hv⟩
    · simp only [enter]; rw [hs.size]; omega
    · have := hw hm; simp only [enter]; omega
  | pull =>
    simp only [mustWait, decide_eq_false_iff_not] at hw
    refine ⟨l, ⟨hs.seg, ?_, fun hm => ?_⟩, ht, hv, shape_nonempty hs (by omega)⟩
    · simp only [enter]; rw [hs.size]; omega
    · have := hs.bound hm; simp only [enter]; omega

/-- The new node becomes the last one: linked from `head` or from the old last node. -/
theorem link_held {q q' : Queue V} {ins outs : List V} {v : V} {a : Addr} {p' : Pc V}
    (h : Held q ins outs (.push v) (.link a)) (hst : statement q (.link a) = some (q', p')) :
    Held q' ins outs (.push v) p' := by
  obtain ⟨l, hs, ht, hv, ha, hnot⟩ := h
  have hlog : ∀ m : Nodes V, values m = values l → ins ++ [v] = outs ++ values (m ++ [(a, ⟨v, none⟩)]) := by
    intro m hm; rw [values_append, hm, hv]; simp
  simp only [statement] at hst
  split at hst
  · rename_i hhead
    cases hst
    have hl : l = [] := by
      have hseg := hs.seg
      rw [hhead] at hseg
      cases l with
      | nil => rfl
      | cons x l => cases hseg.1
    subst hl
    refine ⟨[], ⟨v, none⟩, ⟨⟨rfl, ha, rfl⟩, ?_, hs.bound⟩, hlog [] rfl⟩
    have := hs.size; simpa using this
  · obtain ⟨b, hb, hst⟩ := Option.bind_eq_some_iff.mp hst
    obtain ⟨n, hn, hst⟩ := Option.map_eq_some_iff.mp hst
    cases hst
    obtain ⟨m, k, rfl⟩ := lastAddr_eq_some (ht.symm.trans hb)
    have hnd := hs.seg.nodup
    simp only [List.map_append, List.map_cons, List.map_nil] at hnd hnot
    have hbm : b ∉ m.map Prod.fst := fun hm => (List.nodup_append.mp hnd).2.2 b hm b (by simp) rfl
    have hab : a ≠ b := by rintro rfl; simp at hnot
    obtain ⟨hm, hk, hnext⟩ := Chain.seg_snoc.mp hs.seg
    obtain rfl : n = k := Option.some.inj (hn.symm.trans hk)
    -- only the old last node changed: it now points at the new one
    have hm' : Seg QueueNode.next (update q.node b (some { n with next := some a })) q.head m (some b) :=
      hm.update_off hbm _
    have ha' : update q.node b (some { n with next := some a }) a = some ⟨v, none⟩ := by
      rw [Function.update_of_ne hab]; exact ha
    refine ⟨m ++ [(b, { n with next := some a })], ⟨v, none⟩, ⟨?_, ?_, hs.bound⟩, ?_⟩
    · exact Chain.seg_snoc.mpr ⟨Chain.seg_snoc.mpr ⟨hm', by simp, rfl⟩, ha', rfl⟩
    · have := hs.size; simp only [List.length_append, List.length_cons, List.length_nil] at this ⊢; omega
    · exact hlog _ (by simp)

theorem statement_held {q q' : Queue V} {ins outs : List V} {c : Call V} {p p' : Pc V} (h : Held q ins outs c p)
    (hst : statement q p = some (q', p')) : Held q' ins outs c p' := by
  cases p with
  | link a =>
    cases c with
    | push v => exact link_held h hst
    | pull => exact h.elim
  | setTail a =>
    cases c with
    | push v =>
      cases hst
      obtain ⟨l, n, hs, hv⟩ := h
      exact ⟨l ++ [(a, n)], ⟨hs.seg, hs.size, hs.bound⟩, by simp [TailOk], hv⟩
    | pull => exact h.elim
  | takeHead =>
    cases c with
    | push v => exact h.elim
    | pull =>
      obtain ⟨a, ha, hst⟩ := Option.bind_eq_some_iff.mp hst
      obtain ⟨n, hn, hst⟩ := Option.map_eq_some_iff.mp hst
      cases hst
      obtain ⟨l, hs, ht, hv, hne⟩ := h
      obtain ⟨⟨b, k⟩, l, rfl⟩ := List.exists_cons_of_ne_nil hne
      have hnd := hs.seg.nodup
      obtain ⟨hb, hk, hrest⟩ := hs.seg
      obtain rfl : a = b := Option.some.inj (ha.symm.trans hb)
      obtain rfl : n = k := Option.some.inj (hn.symm.trans hk)
      refine ⟨l, ⟨hrest, ?_, hs.bound⟩, fun hl => ?_, by simpa using hv, (List.nodup_cons.mp hnd).1⟩
      · have hsize := hs.size
        simp only [List.length_cons] at hsize ⊢
        push_cast at hsize
        show q.size = _
        omega
      · obtain ⟨x, xs, rfl⟩ := List.exists_cons_of_ne_nil hl
        exact ht.trans (by simp [lastAddr])
  | fixTail a d =>
    cases c with
    | push v => exact h.elim
    | pull =>
      cases hst
      obtain ⟨l, hs, ht, hv, ha⟩ := h
      refine ⟨l, ⟨hs.seg, hs.size, hs.bound⟩, ?_, hv, ha⟩
      cases l with
      | nil => simp only [TailOk, Chain.seg_nil.mp hs.seg, Option.isNone_none, if_true, lastAddr_nil]
      | cons x l =>
        have hx : q.head.isNone = false := by rw [hs.seg.1]; rfl
        simp only [TailOk, hx, Bool.false_eq_true, if_false]
        exact ht (by simp)
  | free a d =>
    cases c with
    | push v => exact h.elim
    | pull =>
      cases hst
      obtain ⟨l, hs, ht, hv, ha⟩ := h
      exact ⟨l, ⟨hs.seg.update_off ha _, hs.size, hs.bound⟩, ht, hv⟩
  | _ => cases hst

/-! ## Every step -/

structure Inv (s : St T V) : Prop where
  excl : Monitor.Excl Pc.holds s.owner s.pc
  free : s.owner = none → Settled s.q s.pushed s.pulled
  held : ∀ t, s.owner = some t → ∃ c rest, s.calls t = c :: rest ∧ Held s.q s.pushed s.pulled c (s.pc t)

omit [DecidableEq T] in
theorem create_inv (maxSize : Int) (calls : T → List (Call V)) : Inv (queueCreate maxSize calls) where
  excl t := by simp [queueCreate, Pc.holds]
  free _ := ⟨[], ⟨rfl, rfl, fun h => by simpa [queueCreate] using h.le⟩, rfl, rfl⟩
  held t ht := by cases ht

/-- The owner moves to `p'` with the mutex still held. -/
theorem Inv.owner_moves {s : St T V} (hi : Inv s) {t : T} {c : Call V} {rest : List (Call V)} {q' : Queue V} {p' : Pc V}
    (hc : s.calls t = c :: rest) (ht : (s.pc t).holds = true) (hp : p'.holds = true)
    (hh : Held s.q s.pushed s.pulled c (s.pc t) → Held q' s.pushed s.pulled c p') :
    Inv { s with q := q', pc := update s.pc t p' } := by
  have ho := hi.excl.owner_of ht
  refine ⟨hi.excl.keep (by rw [hp, ht]), fun hn => ?_, fun u hu => ?_⟩
  · have hn : s.owner = none := hn
    rw [ho] at hn; cases hn
  · obtain rfl : t = u := Option.some.inj (ho.symm.trans hu)
    obtain ⟨c', rest', hc', hheld⟩ := hi.held t ho
    obtain ⟨rfl, rfl⟩ := List.cons.inj (hc.symm.trans hc')
    exact ⟨c, rest, hc, by simpa using hh hheld⟩

/-- A thread outside the mutex moves and stays outside. -/
theorem Inv.outside_moves {s : St T V} (hi : Inv s) {t : T} {p' : Pc V} (ht : (s.pc t).holds = false)
    (hp : p'.holds = false) : Inv { s with pc := update s.pc t p' } := by
  refine ⟨hi.excl.keep (by rw [hp, ht]), hi.free, fun u hu => ?_⟩
  have hne : u ≠ t := by
    intro heq
    subst heq
    rw [(hi.excl u).mp hu] at ht; cases ht
  obtain ⟨c, rest, hc, hh⟩ := hi.held u hu
  exact ⟨c, rest, hc, by simpa [Function.update_of_ne hne] using hh⟩

theorem unlock_settled {q : Queue V} {ins outs : List V} {c : Call V} {ret : Option V} :
    Held q ins outs c (.unlock ret) →
      Settled q (match c with | .push v => ins ++ [v] | .pull => ins) (outs ++ ret.toList) := by
  intro h
  cases c <;> cases ret <;> simp only [Held] at h <;> simpa using h

variable [Fintype T]

theorem step_inv {s s' : St T V} {a : Act T} (hi : Inv s) (h : step s a = some s') : Inv s' := by
  cases step_move h with
  | lock t c rest hc ho hp =>
    refine ⟨hi.excl.acquire ho rfl, fun hn => (by cases hn), fun u hu => ?_⟩
    obtain rfl : t = u := Option.some.inj hu
    exact ⟨c, rest, hc, by simpa [Held] using hi.free ho⟩
  | wait t c rest hc hp hw =>
    have ho := hi.excl.owner_of (t := t) (by rw [hp]; rfl)
    refine ⟨hi.excl.release (by rw [hp]; rfl) rfl, fun _ => ?_, fun u hu => (by cases hu)⟩
    obtain ⟨c', _, _, hh⟩ := hi.held t ho
    rw [hp] at hh
    simpa [Held] using hh
  | enter t c rest hc hp hw =>
    refine hi.owner_moves hc (by rw [hp]; rfl) (by cases c <;> rfl) fun hh => enter_held ?_ hw
    rw [hp] at hh
    simpa [Held] using hh
  | statement t c rest q' p' hc hst =>
    have hspec := statement_spec hst
    exact hi.owner_moves hc hspec.holds hspec.holds' fun hh => statement_held hh hst
  | unlock t c rest ret hc hp =>
    have ho := hi.excl.owner_of (t := t) (by rw [hp]; rfl)
    refine ⟨hi.excl.release (by rw [hp]; rfl) rfl, fun _ => ?_, fun u hu => (by cases hu)⟩
    obtain ⟨c', rest', hc', hh⟩ := hi.held t ho
    obtain ⟨rfl, rfl⟩ := List.cons.inj (hc.symm.trans hc')
    rw [hp] at hh
    exact unlock_settled hh
  | malloc t a v rest hc hp ha =>
    refine hi.owner_moves hc (by rw [hp]; rfl) rfl fun hh => ?_
    rw [hp] at hh
    obtain ⟨l, hs, ht, hv⟩ := hh
    have hnot : a ∉ l.map Prod.fst := by
      intro hm
      obtain ⟨⟨b, n⟩, hb, rfl⟩ := List.mem_map.mp hm
      rw [hs.seg.mem hb] at ha; cases ha
    exact ⟨l, ⟨hs.seg.update_off hnot _, hs.size, hs.bound⟩, ht, hv, by simp, hnot⟩
  | signalNone t ret hp hn =>
    have ho := hi.excl.owner_of (t := t) (by rw [hp]; rfl)
    obtain ⟨c, rest, hc, -⟩ := hi.held t ho
    refine hi.owner_moves hc (by rw [hp]; rfl) rfl fun hh => ?_
    rw [hp] at hh
    cases c <;> cases ret <;> exact hh
  | signal t u ret hp hu =>
    have ho := hi.excl.owner_of (t := t) (by rw [hp]; rfl)
    obtain ⟨c, rest, hc, -⟩ := hi.held t ho
    have hmoved : Inv { s with pc := update s.pc t (.unlock ret) } :=
      hi.owner_moves hc (by rw [hp]; rfl) rfl fun hh => by
        rw [hp] at hh
        cases c <;> cases ret <;> exact hh
    have hne : u ≠ t := by rintro rfl; rw [hp] at hu; cases hu
    refine hmoved.outside_moves (t := u) ?_ rfl
    simp only [Function.update_of_ne hne]
    cases hpu : s.pc u <;> simp_all [Pc.isWaiting, Pc.holds]
  | spurious w hw =>
    refine hi.outside_moves ?_ rfl
    cases hpw : s.pc w <;> simp_all [Pc.isWaiting, Pc.holds]

theorem reach_inv {s : St T V} (h : (sys (T := T) (V := V)).Reach s) : Inv s := by
  refine Run.Sys.Reach.inv (I := Inv) ?_ ?_ h
  · rintro _ ⟨m, cs, rfl⟩; exact create_inv m cs
  · intro _ _ _ hi hst; exact step_inv hi hst

omit [DecidableEq T] [Fintype T] in
theorem held_dereferences {q : Queue V} {ins outs : List V} {c : Call V} {p : Pc V} (h : Held q ins outs c p)
    (hp : (∃ a, p = .link a) ∨ p = .takeHead) : (statement q p).isSome = true := by
  rcases hp with ⟨a, rfl⟩ | rfl
  · cases c with
    | pull => exact h.elim
    | push v =>
      obtain ⟨l, hs, ht, -⟩ := h
      cases hhead : q.head with
      | none => simp [statement, hhead]
      | some b =>
        have hne : l ≠ [] := by rintro rfl; have := hs.seg; rw [hhead] at this; cases this
        obtain ⟨m, ⟨e, n⟩, rfl⟩ := (List.eq_nil_or_concat l).resolve_left hne
        rw [List.concat_eq_append] at hs ht
        have htail : q.tail = some e := ht.trans (by simp)
        simp [statement, hhead, htail, (Chain.seg_snoc.mp hs.seg).2.1]
  · cases c with
    | push v => exact h.elim
    | pull =>
      obtain ⟨l, hs, -, -, hne⟩ := h
      obtain ⟨⟨e, n⟩, l, rfl⟩ := List.exists_cons_of_ne_nil hne
      obtain ⟨hhead, hn, -⟩ := hs.seg
      simp [statement, hhead, hn]

/-- The statements that follow a pointer never meet a null or freed one: they can
    always be taken. -/
theorem dereferences_succeed {s : St T V} (h : (sys (T := T) (V := V)).Reach s) {t : T}
    (hp : (∃ a, s.pc t = .link a) ∨ s.pc t = .takeHead) : (step s (.run t)).isSome = true := by
  have hi := reach_inv h
  have ho := hi.excl.owner_of (t := t) (by rcases hp with ⟨a, hp⟩ | hp <;> simp [hp, Pc.holds])
  obtain ⟨c, rest, hc, hh⟩ := hi.held t ho
  have hst := held_dereferences hh hp
  rcases hp with ⟨a, hp⟩ | hp <;> rw [hp] at hst <;> simpa [step, runThread, hc, hp] using hst

/-- With the mutex free: `size` counts the list from `head`, `tail` is its last node,
    `size` is within a positive `max_size`, and what was pushed is what was pulled
    followed by what is on the list. -/
theorem queue_is_fifo {s : St T V} (h : (sys (T := T) (V := V)).Reach s) (hfree : s.owner = none) :
    ∃ l : Nodes V, Seg QueueNode.next s.q.node s.q.head l none ∧ s.q.size = l.length ∧ s.q.tail = lastAddr l ∧
      (0 < s.q.maxSize → s.q.size ≤ s.q.maxSize) ∧ s.pushed = s.pulled ++ values l := by
  obtain ⟨l, hs, ht, hv⟩ := (reach_inv h).free hfree
  exact ⟨l, hs.seg, by simpa using hs.size, ht, hs.bound, hv⟩

/-- Two pushes and a pull over one slot: the second pusher waits until the pull. -/
theorem queue_is_fifo_one_slot :
    let calls : Fin 3 → List (Call Nat) := ![[.push 5], [.push 10], [.pull]]
    let acts : List (Act (Fin 3)) := [.run 0, .run 0, .malloc 0 1, .run 0, .run 0, .signal 0 none, .run 0,
      .run 1, .run 1, .run 2, .run 2, .run 2, .run 2, .run 2, .signal 2 (some 1), .run 2,
      .run 1, .run 1, .malloc 1 2, .run 1, .run 1, .signal 1 none, .run 1]
    ∃ s, Run.exec step (queueCreate 1 calls) acts = some s ∧ s.pushed = [5, 10] ∧ s.pulled = [5] ∧
      ∃ l : Nodes Nat, Seg QueueNode.next s.q.node s.q.head l none ∧ s.q.size = l.length ∧ s.q.tail = lastAddr l ∧
        (0 < s.q.maxSize → s.q.size ≤ s.q.maxSize) ∧ s.pushed = s.pulled ++ values l := by
  intro calls acts
  have hs : (Run.exec step (queueCreate 1 calls) acts).isSome = true := by decide
  have h0 : (sys (T := Fin 3) (V := Nat)).init (queueCreate 1 calls) := ⟨1, calls, rfl⟩
  exact ⟨_, (Option.some_get hs).symm, rfl, rfl, queue_is_fifo (Run.reach_exec h0 (Option.some_get hs).symm) rfl⟩

end SysProg.BlockingQueue
