/-
  SysProg.Vector.VectorRefines — a vector of objects behaves as a list of values
  (see `SysProg.Vector.VectorList` and `SysProg.Vector.VectorLifetimes`).

  `execLive` is a call whose user functions need their objects: one that destroys an object
  twice or copies a destroyed one is a fault, as with the strings of vector.h's
  `string_destructor`, which are freed. `paired` runs it beside the list, with allocations
  that succeed.
  - `vector_refines_list`: in every run of careful calls for at most 2^60 slots the values
    below `size` are the list's, `size` stays within `capacity`, and the capacity is the
    initial one or a power of the growth factor, changed only by an operation that needs
    more. From there an in-range call on live elements has a result exactly when it is
    careful and asks for at most 2^60 slots, or for no more than there are.
  - `set_to_itself_faults`: `vector_set(v, 0, vector_get(v, 0))` destroys what it copies,
    an insertion after an erasure destroys twice, and a reservation of 2^60 + 1 slots
    writes past the 0 bytes that it asks for.
-/

import SysProg.Vector.VectorLifetimes

namespace SysProg.Vector

variable {V : Type}

def execLive (dflt : V) (s : St V) (mallocOk : Bool) (op : Op V) : Except Fault (St V) :=
  (exec dflt s mallocOk op).bind fun t => if Safe t.log then .ok t else .error .destroyedObject

/-- The vector and the list side by side; allocations succeed. -/
def pairedStep (dflt : V) (p : St V × List V) (op : Op V) : Option (St V × List V) :=
  if p.1.freed = false ∧ InRange p.1 op then
    (execLive dflt p.1 true op).toOption.map fun s => (s, listOp dflt p.2 op)
  else none

def paired (dflt : V) (initialCapacity : Nat) : Run.Sys (St V × List V) (Op V) :=
  Run.ofFun (fun p => (∃ next, vectorCreate dflt initialCapacity next = .ok p.1) ∧ p.2 = []) (pairedStep dflt)

def Sensible (s : St V) (op : Op V) : Prop := Careful s (op, true) ∧ Roomy s (op, true)

instance (s : St V) (op : Op V) : Decidable (Sensible s op) := inferInstanceAs (Decidable (_ ∧ _))

variable {dflt : V} {c₀ : Nat} {s t : St V} {l : List V} {op : Op V} {p q : St V × List V}

theorem pairedStep_some : pairedStep dflt p op = some q ↔
    step dflt p.1 (op, true) = some q.1 ∧ Safe q.1.log ∧ q.2 = listOp dflt p.2 op := by
  unfold pairedStep execLive
  rw [step_some]
  by_cases h : p.1.freed = false ∧ InRange p.1 op
  · rw [if_pos h]
    cases he : exec dflt p.1 true op with
    | error e => simp [Except.bind, Except.toOption]
    | ok t =>
      by_cases hs : Safe t.log
      · simp only [Except.bind, if_pos hs, Except.toOption, Option.map_some, Option.some.injEq, Except.ok.injEq]
        constructor
        · intro hq
          subst hq
          exact ⟨⟨h.1, h.2, rfl⟩, hs, rfl⟩
        · intro hq
          obtain ⟨⟨-, -, ht⟩, -, hl⟩ := hq
          exact Prod.ext ht hl.symm
      · simp only [Except.bind, if_neg hs, Except.toOption, Option.map_none, Except.ok.injEq]
        constructor
        · intro hq
          cases hq
        · intro hq
          obtain ⟨⟨-, -, ht⟩, hsafe, -⟩ := hq
          exact absurd (ht ▸ hsafe) hs
  · rw [if_neg h]
    constructor
    · intro hq
      cases hq
    · intro hq
      obtain ⟨⟨hf, hin, -⟩, -⟩ := hq
      exact absurd ⟨hf, hin⟩ h

theorem step_refines (hw : WF c₀ s) (hr : Rep s l) (h : step dflt s (op, true) = some t) (ht : t.freed = false) :
    Post s (need s op) (listOp dflt l op) t := by
  obtain ⟨-, hin, h⟩ := step_some.mp h
  have hd : op ≠ .destroy := by
    intro heq
    subst heq
    obtain ⟨u, -, hu⟩ := Loop.bind_ok.mp h
    cases hu
    cases ht
  obtain ⟨u, hu, hp⟩ := exec_total dflt hw hr op hin (exec_room hw h) hd
  obtain rfl : t = u := Except.ok.inj (h.symm.trans hu)
  exact hp

/-- A reservation that returned did not wrap. -/
theorem reserve_roomy (hw : WF c₀ s) {n : Nat} (h : vectorReserve dflt s n true = .ok t) :
    n ≤ s.capacity ∨ n ≤ 2 ^ 60 := by
  by_cases hn : n ≤ s.capacity
  · exact Or.inl hn
  apply Or.inr
  by_contra hbig
  cases hc : getNewCapacity n with
  | error e => rw [vectorReserve, if_neg hn, hc] at h; cases h
  | ok c => exact reserve_wrapped hw.fits (by omega) hc ((capacity_bytes hc).2 (by omega)) h

structure Refines (c₀ : Nat) (p : St V × List V) : Prop where
  kept : Kept p.1
  list : p.1.freed = false → WF c₀ p.1 ∧ Rep p.1 p.2

theorem Refines.step (h : Refines c₀ p) (hl : LiveElement p.1 (op, true)) (hc : Careful p.1 (op, true))
    (hst : pairedStep dflt p op = some q) : Refines c₀ q := by
  obtain ⟨hst, -, hlist⟩ := pairedStep_some.mp hst
  refine ⟨step_kept h.kept hl hc hst, fun hf => ?_⟩
  obtain ⟨hw, hr⟩ := h.list (step_some.mp hst).1
  have hp := step_refines hw hr hst hf
  rw [hlist]
  exact ⟨post_wf hw hp, hp.rep⟩

/-- A call has a result exactly when it uses no destroyed object and its size does not wrap. -/
theorem Refines.returns_iff (h : Refines c₀ p) (hf : p.1.freed = false) (hin : InRange p.1 op)
    (hl : LiveElement p.1 (op, true)) : (∃ q, pairedStep dflt p op = some q) ↔ Sensible p.1 op := by
  obtain ⟨hw, hr⟩ := h.list hf
  constructor
  · intro ⟨q, hq⟩
    obtain ⟨hst, hsafe, -⟩ := pairedStep_some.mp hq
    have hexec := (step_some.mp hst).2.2
    refine ⟨exec_careful hw.length hin hexec hsafe, ?_⟩
    obtain ⟨u, hu⟩ := exec_room hw hexec
    exact (reserve_roomy hw hu).imp_right fun hn => Or.inl ⟨rfl, hn⟩
  · intro ⟨hc, hroom⟩
    have hshape : Shaped c₀ p.1 := fun _ => ⟨hw, p.2, hr⟩
    obtain ⟨t, ht, -⟩ := step_total dflt hshape hf hin hroom
    exact ⟨(t, listOp dflt p.2 op), pairedStep_some.mpr ⟨ht, (step_kept h.kept hl hc ht).1, rfl⟩⟩

theorem Rep.contents_eq (h : Rep p.1 p.2) : contents p.1 = p.2.map some := by
  have hlen := h.length
  refine List.ext_getElem? fun i => ?_
  simp only [contents, List.getElem?_map]
  by_cases c : i < p.1.size
  · rw [List.getElem?_range c, Option.map_some, h.vals i c, List.getElem?_eq_getElem (by omega)]
    rfl
  · rw [List.getElem?_eq_none (by simp; omega), List.getElem?_eq_none (by omega)]
    rfl

/-- Every run of sensible calls on live elements. -/
theorem vector_refines_list
    (h : (paired dflt c₀).Via (fun p op => LiveElement p.1 (op, true) ∧ Sensible p.1 op) p)
    (hlive : p.1.freed = false) : contents p.1 = p.2.map some ∧ p.1.size ≤ p.1.capacity ∧
      (p.1.capacity = c₀ ∨ ∃ k, p.1.capacity = growthFactor ^ k) ∧
      (∀ op q, pairedStep dflt p op = some q → q.1.freed = false → CapacityFor p.1 (need p.1 op) q.1) ∧
      ∀ op, InRange p.1 op → LiveElement p.1 (op, true) →
        ((∃ q, pairedStep dflt p op = some q) ↔ Sensible p.1 op) := by
  have hinv : Refines c₀ p := by
    refine Run.Sys.Via.inv (I := Refines c₀) ?_ ?_ h
    · intro ⟨s, l⟩ ⟨⟨next, hs⟩, hl⟩
      obtain rfl : l = [] := hl
      exact ⟨(create_own hs).kept, fun _ => create_wf hs⟩
    · intro _ _ _ hi hc hst
      exact hi.step hc.1 hc.2.1 hst
  obtain ⟨hw, hr⟩ := hinv.list hlive
  refine ⟨hr.contents_eq, hw.fits, hw.capacity, fun op q hq hf => ?_, fun op hin hl =>
    hinv.returns_iff hlive hin hl⟩
  exact (step_refines hw hr (pairedStep_some.mp hq).1 hf).capacity

def freshVector : St Nat := ⟨[some ⟨0, 0⟩, some ⟨1, 0⟩], 0, 2, 2, [.create 1, .create 0], false⟩

/-- A run that reallocates, shifts both ways, pads and shrinks. -/
theorem vector_refines_list_mixed : ∃ p,
    (paired 0 2).Via (fun p op => LiveElement p.1 (op, true) ∧ Sensible p.1 op) p ∧ p.2 = [4, 8, 0] ∧
      p.1.capacity = 4 ∧ contents p.1 = p.2.map some ∧ p.1.size ≤ p.1.capacity := by
  have h0 : (paired 0 2).Via (fun p op => LiveElement p.1 (op, true) ∧ Sensible p.1 op) (freshVector, []) :=
    .init ⟨⟨0, by decide⟩, rfl⟩
  have hs : (Run.exec (Run.guard (fun p op => LiveElement p.1 (op, true) ∧ Sensible p.1 op) (pairedStep 0))
      (freshVector, []) [.construct 7, .construct 8, .pushBack ⟨2, 7⟩, .pushBack ⟨3, 8⟩, .insert 1 ⟨2, 9⟩, .erase 0,
        .set 0 ⟨3, 4⟩, .resize 4, .popBack]).map (fun p => (p.2, p.1.capacity, p.1.freed)) =
      some ([4, 8, 0], 4, false) := by decide
  obtain ⟨p, hp, he⟩ := Option.map_eq_some_iff.mp hs
  simp only [Prod.mk.injEq] at he
  obtain ⟨hc, hle, -⟩ := vector_refines_list (Run.via_guard h0 hp) he.2.2
  exact ⟨p, Run.via_guard h0 hp, he.1, he.2.1, hc, hle⟩

/-! ## Without the condition -/

/-- The call is in range and on a live element, and is a fault. -/
def FaultsAt (p : St Nat × List Nat) (op : Op Nat) (e : Fault) : Prop :=
  InRange p.1 op ∧ LiveElement p.1 (op, true) ∧ execLive 0 p.1 true op = .error e

instance (p : St Nat × List Nat) (op : Op Nat) (e : Fault) : Decidable (FaultsAt p op e) :=
  inferInstanceAs (Decidable (_ ∧ _))

/-- After `vector_push_back(v, x)`: an element set to itself, and a reservation that wraps;
    after another push and `vector_erase(v, 0)`: an insertion at the front. -/
theorem set_to_itself_faults :
    (∃ p, (paired 0 2).Via (fun p op => LiveElement p.1 (op, true)) p ∧ p.1.freed = false ∧ p.2 = [7] ∧
      FaultsAt p (.set 0 ⟨3, 7⟩) .destroyedObject ∧ FaultsAt p (.reserve (2 ^ 60 + 1)) .outOfBounds) ∧
    ∃ p, (paired 0 2).Via (fun p op => LiveElement p.1 (op, true)) p ∧ p.1.freed = false ∧ p.2 = [7] ∧
      FaultsAt p (.insert 0 ⟨2, 7⟩) .destroyedObject := by
  have h0 : (paired 0 2).Via (fun p op => LiveElement p.1 (op, true)) (freshVector, []) := .init ⟨⟨0, by decide⟩, rfl⟩
  constructor
  · have hs : (Run.exec (Run.guard (fun p op => LiveElement p.1 (op, true)) (pairedStep 0)) (freshVector, [])
        [.construct 7, .pushBack ⟨2, 7⟩]).map (fun p => decide (p.1.freed = false ∧ p.2 = [7] ∧
          FaultsAt p (.set 0 ⟨3, 7⟩) .destroyedObject ∧ FaultsAt p (.reserve (2 ^ 60 + 1)) .outOfBounds)) =
        some true := by decide +kernel
    obtain ⟨p, hp, he⟩ := Option.map_eq_some_iff.mp hs
    exact ⟨p, Run.via_guard h0 hp, of_decide_eq_true he⟩
  · have hs : (Run.exec (Run.guard (fun p op => LiveElement p.1 (op, true)) (pairedStep 0)) (freshVector, [])
        [.construct 7, .pushBack ⟨2, 7⟩, .pushBack ⟨2, 7⟩, .erase 0]).map (fun p => decide (p.1.freed = false ∧
          p.2 = [7] ∧ FaultsAt p (.insert 0 ⟨2, 7⟩) .destroyedObject)) = some true := by decide +kernel
    obtain ⟨p, hp, he⟩ := Option.map_eq_some_iff.mp hs
    exact ⟨p, Run.via_guard h0 hp, of_decide_eq_true he⟩

end SysProg.Vector
