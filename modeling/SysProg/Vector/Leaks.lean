/-
  SysProg.Vector.Leaks — whether a vector destroys every object it held
  (see `SysProg.Vector.Vector`).

  The loop of `vector_insert` destroys slot `i` and copies slot `i - 1` into it, down to
  the slot above the position; the object at the position has been copied by then, and is
  overwritten by the new element without being destroyed. Every other operation destroys
  what it takes from below the size.
  - `no_leak`: in every run whose insertions are all at the end of the vector and whose
    calls have the memory they need, every in-range call that has its memory returns, and
    once the vector is destroyed, which it can be, every object that was below the size
    between two operations has been given to the destructor. A `malloc` that fails under a
    push or a resize is not looked at: the object is then stored past the array.
  - `insert_leaks`: one element, an insertion before it, and the vector is destroyed.

  `Consumes n R s t` is what every statement keeps: of the slots below `n` those in `R` had
  their objects destroyed, the others are as they were.
-/

import SysProg.Vector.VectorLifetimes

namespace SysProg.Vector

open SysProg.Loop (forUp forDown bind_ok forUp_inv)

variable {V : Type}

def belowSize (s : St V) : List Nat := (s.array.take s.size).filterMap fun x => x.map Obj.id

def seenStep (dflt : V) (p : St V × List Nat) (a : Op V × Bool) : Option (St V × List Nat) :=
  (step dflt p.1 a).map fun t => (t, p.2 ++ belowSize t)

def seenSys (dflt : V) (initialCapacity : Nat) : Run.Sys (St V × List Nat) (Op V × Bool) :=
  Run.ofFun (fun p => (∃ next, vectorCreate dflt initialCapacity next = .ok p.1) ∧ p.2 = belowSize p.1) (seenStep dflt)

def AtEnd (s : St V) : Op V → Prop
  | .insert p _ => p = s.size
  | _ => True

/-- The vector can be destroyed, and then so is every object seen below the size. -/
def Leakless (dflt : V) (p : St V × List Nat) : Prop :=
  ∀ ok, ∃ q, seenStep dflt p (.destroy, ok) = some q ∧ ∀ o ∈ q.2, .destroy o ∈ q.1.log

theorem mem_belowSize {s : St V} {o : Nat} : o ∈ belowSize s ↔ ∃ i x, i < s.size ∧ Holds s i x ∧ x.id = o := by
  unfold belowSize
  rw [List.mem_filterMap]
  constructor
  · intro ⟨y, hy, ho⟩
    obtain ⟨x, rfl, hx⟩ := Option.map_eq_some_iff.mp ho
    obtain ⟨i, hi⟩ := List.mem_iff_getElem?.mp hy
    rw [List.getElem?_take] at hi
    split at hi
    · exact ⟨i, x, ‹_›, hi, hx⟩
    · cases hi
  · intro ⟨i, x, hi, hx, ho⟩
    refine ⟨some x, List.mem_iff_getElem?.mpr ⟨i, ?_⟩, congrArg some ho⟩
    rw [List.getElem?_take, if_pos hi]
    exact hx

/-! ## What a statement does to the slots below a bound -/

structure Consumes (n : Nat) (R : Nat → Prop) (s t : St V) : Prop where
  size : t.size = s.size
  log : ∀ e ∈ s.log, e ∈ t.log
  outside : ∀ i, i < n → ¬ R i → t.array[i]? = s.array[i]?
  inside : ∀ i o, i < n → R i → Holds s i o → .destroy o.id ∈ t.log

variable {n i : Nat} {R Q : Nat → Prop} {s t u : St V} {dflt : V} {ok : Bool}

theorem Consumes.refl (s : St V) : Consumes n (fun _ => False) s s :=
  ⟨rfl, fun _ h => h, fun _ _ _ => rfl, fun _ _ _ h => h.elim⟩

theorem Consumes.trans (h : Consumes n R s t) (k : Consumes n Q t u) : Consumes n (fun i => R i ∨ Q i) s u where
  size := k.size.trans h.size
  log e he := k.log e (h.log e he)
  outside i hi hno := by
    obtain ⟨hR, hQ⟩ := not_or.mp hno
    rw [k.outside i hi hQ, h.outside i hi hR]
  inside i o hi hor ho := by
    by_cases hR : R i
    · exact k.log _ (h.inside i o hi hR ho)
    · exact k.inside i o hi (hor.resolve_left hR) ((h.outside i hi hR).trans ho)

theorem Consumes.congr (h : Consumes n R s t) (hRQ : ∀ i, i < n → (R i ↔ Q i)) : Consumes n Q s t where
  size := h.size
  log := h.log
  outside i hi hno := h.outside i hi fun hR => hno ((hRQ i hi).mp hR)
  inside i o hi hQ ho := h.inside i o hi ((hRQ i hi).mpr hQ) ho

theorem consumes_destroySlot (ht : destroySlot s i = .ok t) : Consumes n (· = i) s t ∧ t.array = s.array := by
  rcases destroySlot_ok.mp ht with ⟨o, ho, rfl⟩ | ⟨hnone, rfl⟩
  · refine ⟨⟨rfl, fun e he => List.mem_cons_of_mem _ he, fun _ _ _ => rfl, fun j p _ hj hp => ?_⟩, rfl⟩
    subst hj
    obtain rfl : o = p := Option.some.inj (Option.some.inj (ho.symm.trans hp))
    exact List.mem_cons_self
  · refine ⟨⟨rfl, fun _ he => he, fun _ _ _ => rfl, fun j p _ hj hp => ?_⟩, rfl⟩
    subst hj
    exact absurd (hnone.symm.trans hp) (by simp)

/-- A slot is written, after some calls of constructors. -/
theorem consumes_put {x : Option (Obj V)} {next : Nat} {log : List Event} (hlog : ∀ e ∈ s.log, e ∈ log) (hi : n ≤ i) :
    Consumes n (fun _ => False) s { s with next := next, log := log, array := s.array.set i x } :=
  ⟨rfl, hlog, fun j hj _ => List.getElem?_set_ne (by omega), fun _ _ _ h => h.elim⟩

/-- A slot whose object has just been destroyed is written. -/
theorem Consumes.rewrite (h : Consumes n (· = i) s t) (x : Option (Obj V)) (next : Nat) {log : List Event}
    (hlog : ∀ e ∈ t.log, e ∈ log) :
    Consumes n (· = i) s { t with next := next, log := log, array := t.array.set i x } :=
  ⟨h.size, fun e he => hlog e (h.log e he),
    fun j hj hno => (List.getElem?_set_ne (Ne.symm hno)).trans (h.outside j hj hno),
    fun j o hj hR ho => hlog _ (h.inside j o hj hR ho)⟩

theorem consumes_copy {src : Obj V} (hi : n ≤ i) (ht : assignCopy s i src = .ok t) :
    Consumes n (fun _ => False) s t := by
  obtain ⟨-, rfl⟩ := put_ok.mp ht
  exact consumes_put (fun e he => List.mem_cons_of_mem _ he) hi

theorem consumes_default (hi : n ≤ i) (ht : assignDefault dflt i s = .ok t) : Consumes n (fun _ => False) s t := by
  obtain ⟨-, rfl⟩ := put_ok.mp ht
  exact consumes_put (fun e he => List.mem_cons_of_mem _ he) hi

theorem consumes_shift {j : Nat} (ht : shiftSlot i j s = .ok t) : Consumes n (· = i) s t := by
  obtain ⟨u, src, hu, -, ht⟩ := shiftSlot_ok.mp ht
  obtain ⟨-, rfl⟩ := put_ok.mp ht
  exact (consumes_destroySlot hu).1.rewrite _ _ fun e he => List.mem_cons_of_mem _ he

theorem consumes_clear (ht : clearSlot i s = .ok t) : Consumes n (· = i) s t := by
  obtain ⟨u, hu, ht⟩ := bind_ok.mp ht
  obtain ⟨-, rfl⟩ := put_ok.mp ht
  exact (consumes_destroySlot hu).1.rewrite _ _ fun _ he => he

theorem consumes_reset (ht : resetSlot dflt i s = .ok t) : Consumes n (· = i) s t := by
  obtain ⟨u, hu, ht⟩ := bind_ok.mp ht
  obtain ⟨-, rfl⟩ := put_ok.mp ht
  exact (consumes_destroySlot hu).1.rewrite _ _ fun e he => List.mem_cons_of_mem _ he

/-- A loop each of whose rounds consumes its own slot. -/
theorem consumes_loop {body : Nat → St V → Except Fault (St V)} {k : Nat}
    (hbody : ∀ j v w, body j v = .ok w → Consumes n (· = j) v w) (ht : forUp body k i s = .ok t) :
    Consumes n (fun j => i ≤ j ∧ j < i + k) s t :=
  forUp_inv (P := fun m v => Consumes n (fun j => i ≤ j ∧ j < m) s v) ht
    (fun m v w hm _ hP hb => (hP.trans (hbody m v w hb)).congr fun j _ => by omega)
    ((Consumes.refl s).congr fun j _ => ⟨False.elim, fun hj => by omega⟩)

theorem consumes_defaults {k : Nat} (hi : n ≤ i) (ht : forUp (assignDefault dflt) k i s = .ok t) :
    Consumes n (fun _ => False) s t :=
  forUp_inv (P := fun _ v => Consumes n (fun _ => False) s v) ht
    (fun m v w hm _ hP hb => (hP.trans (consumes_default (by omega) hb)).congr fun _ _ => or_self_iff)
    (Consumes.refl s)

/-! ## Operations -/

theorem consumes_reserve {m : Nat} (ht : vectorReserve dflt s m ok = .ok t) :
    Consumes s.size (fun _ => False) s t := by
  obtain ⟨hlog, hsize, hslots⟩ := reserve_slots ht
  exact ⟨hsize, hlog, fun i hi _ => hslots i hi, fun _ _ _ h => h.elim⟩

theorem consumes_growIfFull (ht : growIfFull dflt s ok = .ok t) : Consumes s.size (fun _ => False) s t := by
  unfold growIfFull at ht
  split at ht
  · exact consumes_reserve ht
  · cases ht; exact Consumes.refl s

/-- Each object below the size is destroyed or still below it. -/
structure Accounts (s t : St V) : Prop where
  log : ∀ e ∈ s.log, e ∈ t.log
  slots : ∀ i o, i < s.size → Holds s i o → .destroy o.id ∈ t.log ∨ i < t.size ∧ Holds t i o

/-- A new size, above every slot that was not consumed. -/
theorem Consumes.accounts (h : Consumes s.size R s t) {m : Nat} (hm : ∀ i, i < s.size → ¬ R i → i < m) :
    Accounts s { t with size := m } where
  log := h.log
  slots i o hi ho := by
    by_cases hR : R i
    · exact Or.inl (h.inside i o hi hR ho)
    · exact Or.inr ⟨hm i hi hR, (h.outside i hi hR).trans ho⟩

section Ops

variable {e : Obj V} {p : Nat}

theorem pushBack_accounts (ht : vectorPushBack dflt s e ok = .ok t) : Accounts s t := by
  obtain ⟨u, hu, ht⟩ := bind_ok.mp ht
  obtain ⟨v, hv, ht⟩ := bind_ok.mp ht
  cases ht
  have hgrow := consumes_growIfFull hu
  have hcopy := hgrow.trans (consumes_copy (Nat.le_of_eq hgrow.size.symm) hv)
  refine hcopy.accounts fun i hi _ => ?_
  rw [hcopy.size]
  omega

theorem popBack_accounts (ht : vectorPopBack s = .ok t) : Accounts s t := by
  obtain ⟨u, hu, ht⟩ := bind_ok.mp ht
  cases ht
  have hclear := consumes_clear (n := s.size) hu
  refine hclear.accounts fun i hi hno => ?_
  rw [hclear.size]
  omega

/-- The loop of an insertion at the end makes no round. -/
theorem insert_accounts (hp : p = s.size) (ht : vectorInsert dflt s p e ok = .ok t) : Accounts s t := by
  obtain ⟨u, hu, ht⟩ := bind_ok.mp ht
  obtain ⟨v, hv, ht⟩ := bind_ok.mp ht
  obtain ⟨w, hw, ht⟩ := bind_ok.mp ht
  cases ht
  have hgrow := consumes_growIfFull hu
  rw [hgrow.size, hp, Nat.sub_self] at hv
  cases hv
  have hcopy := hgrow.trans (consumes_copy (Nat.le_of_eq hp.symm) hw)
  refine hcopy.accounts fun i hi _ => ?_
  rw [hcopy.size]
  omega

theorem erase_accounts (ht : vectorErase s p = .ok t) : Accounts s t := by
  obtain ⟨u, hu, ht⟩ := bind_ok.mp ht
  obtain ⟨v, hv, ht⟩ := bind_ok.mp ht
  cases ht
  have hloop := consumes_loop (n := s.size) (fun _ _ _ => consumes_shift) hu
  have hlast := hloop.trans (consumes_destroySlot hv).1
  refine hlast.accounts fun i hi hno => ?_
  rw [hloop.size] at hno
  rw [hlast.size]
  omega

theorem set_accounts (ht : vectorSet s p e = .ok t) : Accounts s t := by
  obtain ⟨u, hu, ht⟩ := bind_ok.mp ht
  obtain ⟨-, rfl⟩ := put_ok.mp ht
  have hset := (consumes_destroySlot (n := s.size) hu).1.rewrite (some ⟨u.next, e.val⟩) (u.next + 1) fun _ he =>
    List.mem_cons_of_mem (.copy e.id u.next) he
  refine ⟨hset.log, fun i o hi ho => ?_⟩
  by_cases hip : i = p
  · exact Or.inl (hset.inside i o hi hip ho)
  · refine Or.inr ⟨?_, (hset.outside i hi hip).trans ho⟩
    rw [hset.size]
    exact hi

theorem resize_accounts {m : Nat} (ht : vectorResize dflt s m ok = .ok t) : Accounts s t := by
  unfold vectorResize at ht
  split at ht
  · obtain ⟨u, hu, ht⟩ := bind_ok.mp ht
    cases ht
    exact (consumes_loop (n := s.size) (fun _ _ _ => consumes_reset) hu).accounts fun i hi hno => by omega
  split at ht
  · obtain ⟨u, hu, ht⟩ := bind_ok.mp ht
    obtain ⟨v, hv, ht⟩ := bind_ok.mp ht
    cases ht
    have hgrow : Consumes s.size (fun _ => False) s u := by
      split at hu
      · exact consumes_reserve hu
      · cases hu; exact Consumes.refl s
    exact (hgrow.trans (consumes_defaults (Nat.le_refl _) hv)).accounts fun i hi _ => by omega
  · cases ht
    exact ⟨fun _ he => he, fun i o hi ho => Or.inr ⟨hi, ho⟩⟩

/-- The loop of `vector_clear` and `vector_destroy`. -/
theorem clearAll_destroys (ht : forUp clearSlot s.size 0 s = .ok t) {i : Nat} {o : Obj V} (hi : i < s.size)
    (ho : Holds s i o) : .destroy o.id ∈ t.log :=
  (consumes_loop (n := s.size) (fun _ _ _ => consumes_clear) ht).inside i o hi (by omega) ho

theorem clearAll_log (ht : forUp clearSlot s.size 0 s = .ok t) : ∀ e ∈ s.log, e ∈ t.log :=
  (consumes_loop (n := s.size) (fun _ _ _ => consumes_clear) ht).log

theorem exec_accounts {op : Op V} (hend : AtEnd s op) (ht : exec dflt s ok op = .ok t) :
    Accounts s t := by
  cases op with
  | construct v =>
    cases ht
    exact ⟨fun _ he => List.mem_cons_of_mem _ he, fun i o hi ho => Or.inr ⟨hi, ho⟩⟩
  | pushBack e => exact pushBack_accounts ht
  | popBack => exact popBack_accounts ht
  | insert p e => exact insert_accounts hend ht
  | erase p => exact erase_accounts ht
  | set p e => exact set_accounts ht
  | resize m => exact resize_accounts ht
  | reserve m =>
    have hres := consumes_reserve ht
    exact ⟨hres.log, fun i o hi ho => Or.inr ⟨by rw [hres.size]; exact hi, (hres.outside i hi id).trans ho⟩⟩
  | clear =>
    obtain ⟨u, hu, ht⟩ := bind_ok.mp ht
    cases ht
    have hlog := clearAll_log hu
    exact ⟨hlog, fun i o hi ho => Or.inl (clearAll_destroys hu hi ho)⟩
  | destroy =>
    obtain ⟨u, hu, ht⟩ := bind_ok.mp ht
    cases ht
    have hlog := clearAll_log hu
    exact ⟨hlog, fun i o hi ho => Or.inl (clearAll_destroys hu hi ho)⟩

end Ops

/-! ## Every run -/

def Accounted (p : St V × List Nat) : Prop := ∀ o ∈ p.2, .destroy o ∈ p.1.log ∨ o ∈ belowSize p.1

variable {c₀ : Nat} {p q : St V × List Nat}

theorem seenStep_some {a : Op V × Bool} :
    seenStep dflt p a = some q ↔ step dflt p.1 a = some q.1 ∧ q.2 = p.2 ++ belowSize q.1 := by
  unfold seenStep
  rw [Option.map_eq_some_iff]
  constructor
  · intro ⟨t, ht, hq⟩
    subst hq
    exact ⟨ht, rfl⟩
  · intro ⟨ht, hq⟩
    exact ⟨q.1, ht, Prod.ext rfl hq.symm⟩

theorem seenStep_accounted {a : Op V × Bool} (hp : Accounted p) (hend : AtEnd p.1 a.1)
    (hst : seenStep dflt p a = some q) : Accounted q := by
  obtain ⟨hstep, hseen⟩ := seenStep_some.mp hst
  obtain ⟨-, -, hexec⟩ := step_some.mp hstep
  have hacc := exec_accounts hend hexec
  intro o ho
  rw [hseen, List.mem_append] at ho
  rcases ho with ho | ho
  · rcases hp o ho with hd | hb
    · exact Or.inl (hacc.log _ hd)
    · obtain ⟨i, x, hi, hx, rfl⟩ := mem_belowSize.mp hb
      rcases hacc.slots i x hi hx with hd | ⟨hi', hx'⟩
      · exact Or.inl hd
      · exact Or.inr (mem_belowSize.mpr ⟨i, x, hi', hx', rfl⟩)
  · exact Or.inr ho

/-- After `vector_destroy` no slot is left. -/
theorem destroy_belowSize (h : step dflt s (.destroy, ok) = some t) : belowSize t = [] := by
  obtain ⟨-, -, hexec⟩ := step_some.mp h
  obtain ⟨u, -, ht⟩ := bind_ok.mp hexec
  cases ht
  simp [belowSize]

/-- In every run whose insertions are at the end and whose calls have their memory, nothing
    that was below the size is leaked. -/
theorem no_leak (h : (seenSys dflt c₀).Via (fun p a => AtEnd p.1 a.1 ∧ Roomy p.1 a) p) (hlive : p.1.freed = false) :
    Leakless dflt p ∧ ∀ a, InRange p.1 a.1 → Roomy p.1 a → (seenStep dflt p a).isSome = true := by
  have hinv : Accounted p ∧ Shaped c₀ p.1 := by
    refine Run.Sys.Via.inv (I := fun p => Accounted p ∧ Shaped c₀ p.1) ?_ ?_ h
    · intro p ⟨⟨next, hcreate⟩, hseen⟩
      refine ⟨fun o ho => ?_, create_shaped hcreate⟩
      rw [hseen] at ho
      exact Or.inr ho
    · intro _ _ _ hi hc hst
      exact ⟨seenStep_accounted hi.1 hc.1 hst, step_shaped hi.2 hc.2 (seenStep_some.mp hst).1⟩
  have htotal : ∀ a, InRange p.1 a.1 → Roomy p.1 a → ∃ q, seenStep dflt p a = some q := by
    intro a hin hroom
    obtain ⟨t, ht, -⟩ := step_total dflt hinv.2 hlive hin hroom
    exact ⟨(t, p.2 ++ belowSize t), seenStep_some.mpr ⟨ht, rfl⟩⟩
  refine ⟨fun ok => ?_, fun a hin hroom => Option.isSome_iff_exists.mpr (htotal a hin hroom)⟩
  obtain ⟨q, hq⟩ := htotal (.destroy, ok) trivial (Or.inl (Nat.zero_le _))
  refine ⟨q, hq, fun o ho => ?_⟩
  rcases seenStep_accounted hinv.1 (show AtEnd p.1 (.destroy : Op V) from trivial) hq o ho with hd | hb
  · exact hd
  · rw [destroy_belowSize (seenStep_some.mp hq).1] at hb
    cases hb

instance (s : St V) : (op : Op V) → Decidable (AtEnd s op)
  | .insert p _ => inferInstanceAs (Decidable (p = s.size))
  | .construct _ | .pushBack _ | .popBack | .erase _ | .set _ _ | .resize _ | .reserve _ | .clear
  | .destroy => isTrue trivial

/-- Capacity 3: two elements, one inserted at the end, one set, the first erased, one
    popped, and the vector destroyed. -/
theorem no_leak_at_end :
    let s0 : St Nat := ⟨[some ⟨0, 0⟩, some ⟨1, 0⟩, some ⟨2, 0⟩], 0, 3, 3, [.create 2, .create 1, .create 0], false⟩
    let acts : List (Op Nat × Bool) := [(.construct 7, true), (.pushBack ⟨3, 7⟩, true), (.pushBack ⟨3, 7⟩, true),
      (.insert 2 ⟨3, 7⟩, true), (.set 1 ⟨3, 7⟩, true), (.erase 0, true), (.popBack, true)]
    ∃ p q, Run.exec (Run.guard (fun p a => AtEnd p.1 a.1 ∧ Roomy p.1 a) (seenStep 0)) (s0, []) acts = some p ∧
      seenStep 0 p (.destroy, true) = some q ∧ q.2.length = 12 ∧ ∀ o ∈ q.2, .destroy o ∈ q.1.log := by
  intro s0 acts
  have h0 : (seenSys 0 3).Via (fun p a => AtEnd p.1 a.1 ∧ Roomy p.1 a) (s0, []) := .init ⟨⟨0, by decide⟩, rfl⟩
  have hp : (Run.exec (Run.guard (fun p a => AtEnd p.1 a.1 ∧ Roomy p.1 a) (seenStep 0)) (s0, []) acts).map
      (fun p => (p.1.freed, (seenStep 0 p (.destroy, true)).map fun q => q.2.length)) = some (false, some 12) := by
    decide
  obtain ⟨p, hp, hres⟩ := Option.map_eq_some_iff.mp hp
  simp only [Prod.mk.injEq] at hres
  obtain ⟨q, hq, hall⟩ := (no_leak (Run.via_guard h0 hp) hres.1).1 true
  rw [hq] at hres
  exact ⟨p, q, hp, hq, Option.some.inj hres.2, hall⟩

/-! ## An insertion below the size -/

/-- One element, `vector_insert(v, 0, x)`, `vector_destroy(v)`: the first element's object,
    4, is copied to slot 1 and overwritten. -/
theorem insert_leaks :
    let s0 : St Nat := ⟨[some ⟨0, 0⟩, some ⟨1, 0⟩, some ⟨2, 0⟩], 0, 3, 3, [.create 2, .create 1, .create 0], false⟩
    let acts : List (Op Nat × Bool) := [(.construct 7, true), (.pushBack ⟨3, 7⟩, true), (.insert 0 ⟨3, 7⟩, true)]
    ∃ p, Run.exec (seenStep 0) (s0, []) acts = some p ∧ (seenSys 0 3).Reach p ∧ 4 ∈ p.2 ∧ ¬ Leakless 0 p := by
  intro s0 acts
  have h0 : (seenSys 0 3).Via (fun _ _ => True) (s0, []) := .init ⟨⟨0, by decide⟩, rfl⟩
  have hrun : ((Run.exec (seenStep 0) (s0, []) acts).bind fun p => (seenStep 0 p (.destroy, true)).map fun q =>
      (p.2, q.2, q.1.log)) = some ([4, 6, 5], [4, 6, 5],
      [.destroy 5, .destroy 6, .copy 3 6, .copy 4 5, .destroy 1, .copy 3 4, .create 3, .create 2, .create 1,
        .create 0]) := by decide
  obtain ⟨p, hp, hq⟩ := Option.bind_eq_some_iff.mp hrun
  obtain ⟨q, hq, hvals⟩ := Option.map_eq_some_iff.mp hq
  simp only [Prod.mk.injEq] at hvals
  obtain ⟨hseen, hseen', hlog⟩ := hvals
  refine ⟨p, hp, Run.reach_exec ⟨⟨0, by decide⟩, rfl⟩ hp, by rw [hseen]; simp, fun h => ?_⟩
  obtain ⟨q', hq', hall⟩ := h true
  rw [hq] at hq'
  cases hq'
  have hbad := hall 4 (by rw [hseen']; simp)
  rw [hlog] at hbad
  revert hbad
  decide

end SysProg.Vector
