/-
  SysProg.Vector.VectorLifetimes — the objects a vector destroys and copies
  (see `SysProg.Vector.Vector`).

  `vector_pop_back` and `vector_clear` store NULL in a slot after destroying its object,
  `vector_resize` a new default object. `vector_erase` leaves the pointer: the slot at
  the new size still names the destroyed object, and `vector_insert` below the size
  destroys what is in that slot before it writes it.
  - `erase_then_insert_destroys_twice`: two elements, erase, insert at the front.
  - `lifetimes_sound`: in every run whose insertions below the size find no destroyed
    object in the slot at the size, whose inserted or set element is not an object the
    call itself destroys first, and whose calls have the memory they need, no object is
    destroyed twice, no destroyed object is copied and none is below the size. Every
    in-range call that has its memory returns, and keeps this exactly when it is careful.
    A `malloc` that fails under a push, an insertion or a resize is not looked at: the
    write goes past the array.

  `Own A s` is what every statement keeps: the slots hold distinct objects, and those in
  the slots `A` are alive. A statement that destroys a slot takes it out of `A`, one that
  constructs an object puts its slot in.
-/

import SysProg.Vector.Reserve

namespace SysProg.Vector

open SysProg.Loop (forUp forDown bind_ok forUp_inv forDown_inv)

variable {V : Type}

/-- No object is destroyed twice or copied once destroyed, in a log with its newest
    event first. -/
def Safe : List Event → Prop
  | [] => True
  | .create _ :: l => Safe l
  | .copy src _ :: l => .destroy src ∉ l ∧ Safe l
  | .destroy o :: l => .destroy o ∉ l ∧ Safe l

instance Safe.decidable : (l : List Event) → Decidable (Safe l)
  | [] => isTrue trivial
  | .create _ :: l => Safe.decidable l
  | .copy src _ :: l => @instDecidableAnd _ _ (inferInstanceAs (Decidable (.destroy src ∉ l))) (Safe.decidable l)
  | .destroy o :: l => @instDecidableAnd _ _ (inferInstanceAs (Decidable (.destroy o ∉ l))) (Safe.decidable l)

def Holds (s : St V) (i : Nat) (o : Obj V) : Prop := s.array[i]? = some (some o)

/-- The log is safe, and the objects below `size` are alive until the vector is. -/
def Sound (s : St V) : Prop := Safe s.log ∧ (s.freed = false → ∀ i o, i < s.size → Holds s i o → .destroy o.id ∉ s.log)

/-- An object some constructor returned and no destructor got. -/
def Live (s : St V) (e : Obj V) : Prop := e.id < s.next ∧ .destroy e.id ∉ s.log

def LiveElement (s : St V) : Op V × Bool → Prop
  | (.pushBack e, _) | (.insert _ e, _) | (.set _ e, _) => Live s e
  | _ => True

/-- The call destroys no object that is already destroyed, nor its own element before
    copying it. -/
def Careful (s : St V) : Op V × Bool → Prop
  | (.insert p e, _) => (p < s.size → ∀ o, Holds s s.size o → .destroy o.id ∉ s.log) ∧
      ∀ i o, p < i → i ≤ s.size → Holds s i o → o.id ≠ e.id
  | (.set p e, _) => ∀ o, Holds s p o → o.id ≠ e.id
  | _ => True

instance Holds.decidable (s : St V) (i : Nat) (P : Obj V → Prop) [DecidablePred P] :
    Decidable (∀ o, Holds s i o → P o) :=
  decidable_of_iff (∀ o ∈ s.array[i]?.join, P o) (by simp [Holds, Option.join_eq_some_iff])

instance Holds.decidableRange (s : St V) (p n : Nat) (P : Obj V → Prop) [DecidablePred P] :
    Decidable (∀ i o, p < i → i ≤ n → Holds s i o → P o) :=
  decidable_of_iff (∀ i : Fin (n + 1), p < i.val → ∀ o, Holds s i.val o → P o)
    ⟨fun h i o hp hn => h ⟨i, Nat.lt_succ_of_le hn⟩ hp o, fun h i hp o => h i.val o hp (Nat.le_of_lt_succ i.isLt)⟩

instance (s : St V) (e : Obj V) : Decidable (Live s e) := inferInstanceAs (Decidable (_ ∧ _))

instance (s : St V) : (a : Op V × Bool) → Decidable (LiveElement s a)
  | (.pushBack e, _) | (.insert _ e, _) | (.set _ e, _) => inferInstanceAs (Decidable (Live s e))
  | (.construct _, _) | (.popBack, _) | (.erase _, _) | (.resize _, _) | (.reserve _, _) | (.clear, _)
  | (.destroy, _) => isTrue trivial

instance (s : St V) : (a : Op V × Bool) → Decidable (Careful s a)
  | (.insert _ _, _) => inferInstanceAs (Decidable (_ ∧ _))
  | (.set p _, _) => inferInstanceAs (Decidable (∀ o, Holds s p o → _))
  | (.construct _, _) | (.pushBack _, _) | (.popBack, _) | (.erase _, _) | (.resize _, _) | (.reserve _, _)
  | (.clear, _) | (.destroy, _) => isTrue trivial

/-! ## What a statement keeps -/

structure Own (n : Nat) (A : Nat → Prop) (s : St V) : Prop where
  size : s.size = n
  known : ∀ {i o}, Holds s i o → o.id < s.next
  distinct : ∀ {i j o p}, Holds s i o → Holds s j p → o.id = p.id → i = j
  past : ∀ {o}, .destroy o ∈ s.log → o < s.next
  safe : Safe s.log
  alive : ∀ {i o}, A i → Holds s i o → .destroy o.id ∉ s.log

variable {n : Nat} {A B : Nat → Prop} {s t : St V} {i j : Nat}

theorem Own.mono (h : Own n A s) (hAB : ∀ k, B k → A k) : Own n B s :=
  ⟨h.size, h.known, h.distinct, h.past, h.safe, fun hi => h.alive (hAB _ hi)⟩

theorem Own.live (h : Own n A s) (hi : A i) {o : Obj V} (ho : Holds s i o) : Live s o := ⟨h.known ho, h.alive hi ho⟩

theorem holds_set {a : List (Option (Obj V))} {x : Option (Obj V)} {k : Nat} {o : Obj V}
    (h : (a.set i x)[k]? = some (some o)) : (k = i ∧ x = some o) ∨ (k ≠ i ∧ a[k]? = some (some o)) := by
  rw [List.getElem?_set] at h
  by_cases e : k = i
  · subst e
    rw [if_pos rfl] at h
    split at h
    · exact Or.inl ⟨rfl, Option.some.inj h⟩
    · cases h
  · rw [if_neg (Ne.symm e)] at h; exact Or.inr ⟨e, h⟩

theorem Own.destroy (h : Own n A s) (hi : A i) (ht : destroySlot s i = .ok t) : Own n (fun k => A k ∧ k ≠ i) t := by
  rcases destroySlot_ok.mp ht with ⟨o, ho, rfl⟩ | ⟨-, rfl⟩
  · have ho : Holds s i o := ho
    refine ⟨h.size, h.known, h.distinct, fun hm => ?_, ⟨h.alive hi ho, h.safe⟩, fun ⟨hk, hki⟩ hp hm => ?_⟩
    · rcases List.mem_cons.mp hm with he | hm
      · cases he; exact h.known ho
      · exact h.past hm
    · rcases List.mem_cons.mp hm with he | hm
      · exact hki (h.distinct hp ho (Event.destroy.inj he))
      · exact h.alive hk hp hm
  · exact h.mono fun _ hk => hk.1

/-- Slot `i` gets an object just constructed by the logged call. -/
theorem Own.construct (h : Own n A s) {e : Event} (he : ∀ o, e ≠ .destroy o) (hsafe : Safe (e :: s.log)) (v : V) :
    Own n (fun k => A k ∨ k = i)
      { s with next := s.next + 1, log := e :: s.log, array := s.array.set i (some ⟨s.next, v⟩) } where
  size := h.size
  known hk := by
    rcases holds_set hk with ⟨-, ho⟩ | ⟨-, hk⟩
    · cases ho; exact Nat.lt_succ_self _
    · exact Nat.lt_succ_of_lt (h.known hk)
  distinct hk hl hid := by
    rcases holds_set hk with ⟨hki, ho⟩ | ⟨-, hk'⟩ <;> rcases holds_set hl with ⟨hli, hp⟩ | ⟨-, hl'⟩
    · exact hki.trans hli.symm
    · cases ho; have := h.known hl'; simp only at hid; omega
    · cases hp; have := h.known hk'; simp only at hid; omega
    · exact h.distinct hk' hl' hid
  past hm := by
    rcases List.mem_cons.mp hm with hm | hm
    · exact absurd hm.symm (he _)
    · exact Nat.lt_succ_of_lt (h.past hm)
  safe := hsafe
  alive hA hk hm := by
    rcases List.mem_cons.mp hm with hm | hm
    · exact absurd hm.symm (he _)
    rcases holds_set hk with ⟨-, ho⟩ | ⟨hne, hk⟩
    · cases ho; exact absurd (h.past hm) (Nat.lt_irrefl _)
    · exact h.alive (hA.resolve_right hne) hk hm

theorem Own.copy (h : Own n A s) {src : Obj V} (hsrc : .destroy src.id ∉ s.log) (ht : assignCopy s i src = .ok t) :
    Own n (fun k => A k ∨ k = i) t := by
  obtain ⟨-, rfl⟩ := put_ok.mp ht
  exact h.construct (e := .copy src.id s.next) (by simp) ⟨hsrc, h.safe⟩ src.val

theorem Own.default {dflt : V} (h : Own n A s) (ht : assignDefault dflt i s = .ok t) :
    Own n (fun k => A k ∨ k = i) t := by
  obtain ⟨-, rfl⟩ := put_ok.mp ht
  exact h.construct (e := .create s.next) (by simp) h.safe dflt

theorem Own.clear (h : Own n A s) (hi : A i) (ht : clearSlot i s = .ok t) : Own n A t := by
  obtain ⟨u, hu, ht⟩ := bind_ok.mp ht
  obtain ⟨-, rfl⟩ := put_ok.mp ht
  have hd := h.destroy hi hu
  refine ⟨hd.size, fun hk => ?_, fun hk hl => ?_, hd.past, hd.safe, fun hA hk => ?_⟩
  · rcases holds_set hk with ⟨-, ho⟩ | ⟨-, hk⟩
    · cases ho
    · exact hd.known hk
  · rcases holds_set hk with ⟨-, ho⟩ | ⟨-, hk⟩
    · cases ho
    rcases holds_set hl with ⟨-, ho⟩ | ⟨-, hl⟩
    · cases ho
    · exact hd.distinct hk hl
  · rcases holds_set hk with ⟨-, ho⟩ | ⟨hne, hk⟩
    · cases ho
    · exact hd.alive ⟨hA, hne⟩ hk

theorem Own.reset {dflt : V} (h : Own n A s) (hi : A i) (ht : resetSlot dflt i s = .ok t) : Own n A t := by
  obtain ⟨u, hu, ht⟩ := bind_ok.mp ht
  exact ((h.destroy hi hu).default ht).mono fun k hk => by
    by_cases e : k = i
    · exact Or.inr e
    · exact Or.inl ⟨hk, e⟩

theorem Own.shift (h : Own n A s) (hi : A i) (hj : A j) (hij : j ≠ i) (ht : shiftSlot i j s = .ok t) : Own n A t := by
  obtain ⟨u, src, hu, hsrc, ht⟩ := shiftSlot_ok.mp ht
  have hd := h.destroy hi hu
  exact (hd.copy (hd.alive ⟨hj, hij⟩ hsrc) ht).mono fun k hk => by
    by_cases e : k = i
    · exact Or.inr e
    · exact Or.inl ⟨hk, e⟩

/-! ## The element while other slots are destroyed -/

def Apart (s : St V) (e : Obj V) (p n : Nat) : Prop := ∀ k o, p < k → k ≤ n → Holds s k o → o.id ≠ e.id

theorem Live.destroySlot {e : Obj V} (h : Live s e) (hi : ∀ o, Holds s i o → o.id ≠ e.id)
    (ht : destroySlot s i = .ok t) : Live t e := by
  rcases destroySlot_ok.mp ht with ⟨o, ho, rfl⟩ | ⟨-, rfl⟩
  · refine ⟨h.1, fun hm => ?_⟩
    rcases List.mem_cons.mp hm with he | hm
    · exact hi o ho (Event.destroy.inj he).symm
    · exact h.2 hm
  · exact h

theorem apart_shift {e : Obj V} {p : Nat} (h : Live s e) (ha : Apart s e p n) (hpi : p < i) (hin : i ≤ n)
    (ht : shiftSlot i j s = .ok t) : Live t e ∧ Apart t e p n := by
  obtain ⟨u, src, hu, -, ht⟩ := shiftSlot_ok.mp ht
  have hl := h.destroySlot (ha i · hpi hin) hu
  have harr : u.array = s.array := by
    rcases destroySlot_ok.mp hu with ⟨o, -, rfl⟩ | ⟨-, rfl⟩ <;> rfl
  obtain ⟨-, rfl⟩ := put_ok.mp ht
  refine ⟨⟨Nat.lt_succ_of_lt hl.1, by simpa using hl.2⟩, fun k o hpk hkn hk => ?_⟩
  rcases holds_set hk with ⟨-, ho⟩ | ⟨-, hk⟩
  · cases ho; exact Nat.ne_of_gt hl.1
  · exact ha k o hpk hkn (by rw [harr] at hk; exact hk)

/-! ## Loops -/

theorem Own.defaults {dflt : V} {k : Nat} (h : Own n A s) (ht : forUp (assignDefault dflt) k i s = .ok t) :
    Own n (fun j => A j ∨ (i ≤ j ∧ j < i + k)) t :=
  forUp_inv (P := fun m u => Own n (fun j => A j ∨ (i ≤ j ∧ j < m)) u) ht
    (fun m u u' hm _ hP hb => (hP.default hb).mono fun j hj => by
      rcases hj with hj | hj
      · exact Or.inl (Or.inl hj)
      · by_cases e : j = m
        · exact Or.inr e
        · exact Or.inl (Or.inr (by omega)))
    (h.mono fun j hj => hj.resolve_right (by omega))

/-- A loop over slots whose objects are alive. -/
theorem Own.each {body : Nat → St V → Except Fault (St V)} {k : Nat} (h : Own n A s)
    (hbody : ∀ m u u', i ≤ m → m < i + k → Own n A u → body m u = .ok u' → Own n A u')
    (ht : forUp body k i s = .ok t) : Own n A t :=
  forUp_inv (P := fun _ u => Own n A u) ht hbody h

structure Added (s t : St V) : Prop where
  next : s.next ≤ t.next
  past : ∀ {o}, .destroy o ∈ t.log → .destroy o ∈ s.log
  slots : ∀ {k o}, Holds t k o → Holds s k o ∨ s.next ≤ o.id

theorem Added.refl (s : St V) : Added s s := ⟨Nat.le_refl _, fun h => h, Or.inl⟩

theorem Added.trans {u : St V} (h : Added s t) (k : Added t u) : Added s u :=
  ⟨Nat.le_trans h.next k.next, fun hm => h.past (k.past hm), fun hk => by
    rcases k.slots hk with hk | hk
    · exact h.slots hk
    · exact Or.inr (Nat.le_trans h.next hk)⟩

theorem Added.live {e : Obj V} (h : Added s t) (he : Live s e) : Live t e :=
  ⟨Nat.lt_of_lt_of_le he.1 h.next, fun hm => he.2 (h.past hm)⟩

theorem Added.apart {e : Obj V} {p : Nat} (h : Added s t) (he : Live s e) (ha : Apart s e p n) : Apart t e p n := by
  intro k o hpk hkn hk
  rcases h.slots hk with hk | hk
  · exact ha k o hpk hkn hk
  · exact Nat.ne_of_gt (Nat.lt_of_lt_of_le he.1 hk)

theorem added_default {dflt : V} (ht : assignDefault dflt i s = .ok t) : Added s t := by
  obtain ⟨-, rfl⟩ := put_ok.mp ht
  refine ⟨Nat.le_succ _, fun hm => by simpa using hm, fun hk => ?_⟩
  rcases holds_set hk with ⟨-, ho⟩ | ⟨-, hk⟩
  · cases ho; exact Or.inr (Nat.le_refl _)
  · exact Or.inl hk

theorem added_defaults {dflt : V} {k : Nat} (ht : forUp (assignDefault dflt) k i s = .ok t) : Added s t :=
  forUp_inv (P := fun _ u => Added s u) ht (fun _ _ _ _ _ hP hb => hP.trans (added_default hb)) (Added.refl s)

/-- The new array takes over the slots below `size`, and calls no constructor. -/
theorem copySlots_spec {c : Nat}
    (ht : forUp (fun i t => (s.get i).bind (t.put i)) s.size 0 { s with array := List.replicate c none } = .ok t) :
    t.log = s.log ∧ t.next = s.next ∧ t.size = s.size ∧ ∀ k o, Holds t k o → Holds s k o := by
  obtain ⟨⟨hlog, hnext, hsize⟩, hsub⟩ := forUp_inv
    (P := fun _ u => (u.log = s.log ∧ u.next = s.next ∧ u.size = s.size) ∧ ∀ k o, Holds u k o → Holds s k o) ht
    (fun m u u' _ _ ⟨hP, hk⟩ hb => by
      obtain ⟨x, hx, hb⟩ := bind_ok.mp hb
      obtain ⟨-, rfl⟩ := put_ok.mp hb
      refine ⟨hP, fun k o ho => ?_⟩
      rcases holds_set ho with ⟨rfl, he⟩ | ⟨-, ho⟩
      · rw [he] at hx; exact get_ok.mp hx
      · exact hk k o ho)
    ⟨⟨rfl, rfl, rfl⟩, fun k o ho => by simp [Holds, List.getElem?_replicate] at ho⟩
  exact ⟨hlog, hnext, hsize, hsub⟩

/-- A reallocation takes the pointers below the size along, and destroys nothing. -/
theorem reserve_slots {dflt : V} {ok : Bool} {m : Nat} (ht : vectorReserve dflt s m ok = .ok t) :
    (∀ e ∈ s.log, e ∈ t.log) ∧ t.size = s.size ∧ ∀ k, k < s.size → t.array[k]? = s.array[k]? := by
  unfold vectorReserve at ht
  split at ht
  · cases ht
    exact ⟨fun _ he => he, rfl, fun _ _ => rfl⟩
  obtain ⟨c, -, ht⟩ := bind_ok.mp ht
  split at ht
  · obtain ⟨u, hu, ht⟩ := bind_ok.mp ht
    obtain ⟨v, hv, ht⟩ := bind_ok.mp ht
    cases ht
    obtain ⟨hlog, -, hsize, -⟩ := copySlots_spec hu
    have hdefaults := forUp_inv (P := fun _ w => (∀ e ∈ u.log, e ∈ w.log) ∧ w.size = u.size) hv
      (fun _ w w' _ _ hP hb => by
        obtain ⟨-, rfl⟩ := put_ok.mp hb
        exact ⟨fun e he => List.mem_cons_of_mem _ (hP.1 e he), hP.2⟩)
      ⟨fun _ he => he, rfl⟩
    exact ⟨fun e he => hdefaults.1 e (hlog ▸ he), hdefaults.2.trans hsize, fun k hk => newArray_slots (t := v) hu hv hk⟩
  · cases ht
    exact ⟨fun _ he => he, rfl, fun _ _ => rfl⟩

theorem Own.copySlots {c : Nat} (h : Own n A s)
    (ht : forUp (fun i t => (s.get i).bind (t.put i)) s.size 0 { s with array := List.replicate c none } = .ok t) :
    Own n A t := by
  obtain ⟨hlog, hnext, hsize, hsub⟩ := copySlots_spec ht
  refine ⟨hsize.trans h.size, fun hk => ?_, fun hk hl => h.distinct (hsub _ _ hk) (hsub _ _ hl), fun hm => ?_,
    hlog ▸ h.safe, fun hA hk => hlog ▸ h.alive hA (hsub _ _ hk)⟩
  · rw [hnext]; exact h.known (hsub _ _ hk)
  · rw [hnext]; exact h.past (hlog ▸ hm)

/-! ## Operations -/

/-- Between two calls the objects below `size` are alive. -/
def Owned (s : St V) : Prop := Own s.size (· < s.size) s

/-- A new size, and what is alive below it. -/
theorem Own.resized (h : Own n A t) {m : Nat} (hA : ∀ k, k < m → A k) : Owned { t with size := m } :=
  ⟨rfl, h.known, h.distinct, h.past, h.safe, fun hk ho => h.alive (hA _ hk) ho⟩

section Ops

variable {dflt : V} {ok : Bool} {e : Obj V} {p : Nat}

/-- A reallocation leaves live objects in every slot of the new array. -/
theorem reserve_own {m : Nat} (h : Own n (· < n) s) (ht : vectorReserve dflt s m ok = .ok t) :
    Added s t ∧ Own n (· < n) t ∧ (t = s ∨ Own n (· < m) t) := by
  unfold vectorReserve at ht
  split at ht
  · cases ht; exact ⟨Added.refl _, h, Or.inl rfl⟩
  obtain ⟨c, hc, ht⟩ := bind_ok.mp ht
  split at ht
  · obtain ⟨u, hu, ht⟩ := bind_ok.mp ht
    obtain ⟨v, hv, ht⟩ := bind_ok.mp ht
    cases ht
    obtain ⟨hlog, hnext, -, hsub⟩ := copySlots_spec hu
    have hadd : Added s v := Added.trans
      ⟨Nat.le_of_eq hnext.symm, fun hm => hlog ▸ hm, fun hk => Or.inl (hsub _ _ hk)⟩ (added_defaults hv)
    obtain ⟨-, -, -, hmc, -⟩ := getNewCapacity_ok hc
    have hall := (h.copySlots hu).defaults hv
    rw [h.size] at hall
    have hown : Own n (fun k => k < n ∨ (n ≤ k ∧ k < n + (c - n))) { v with capacity := c } :=
      ⟨hall.size, hall.known, hall.distinct, hall.past, hall.safe, hall.alive⟩
    exact ⟨⟨hadd.next, hadd.past, hadd.slots⟩, hown.mono fun k hk => Or.inl hk,
      Or.inr (hown.mono fun k hk => by omega)⟩
  · cases ht; exact ⟨Added.refl _, h, Or.inl rfl⟩

theorem reserve_owned {m : Nat} (h : Owned s) (ht : vectorReserve dflt s m ok = .ok t) : Owned t := by
  obtain ⟨-, hown, -⟩ := reserve_own h ht
  unfold Owned
  rw [hown.size]
  exact hown

theorem growIfFull_own (h : Owned s) (ht : growIfFull dflt s ok = .ok t) :
    Added s t ∧ Own s.size (· < s.size) t ∧ (t = s ∨ Own s.size (· < s.size + 1) t) := by
  unfold growIfFull at ht
  split at ht
  · exact reserve_own h ht
  · cases ht; exact ⟨Added.refl _, h, Or.inl rfl⟩

theorem pushBack_own (h : Owned s) (he : Live s e) (ht : vectorPushBack dflt s e ok = .ok t) : Owned t := by
  obtain ⟨u, hu, ht⟩ := bind_ok.mp ht
  obtain ⟨v, hv, ht⟩ := bind_ok.mp ht
  cases ht
  obtain ⟨hadd, hown, -⟩ := growIfFull_own h hu
  have hc := hown.copy (hadd.live he).2 hv
  refine hc.resized fun k hk => ?_
  rw [hc.size] at hk
  rw [hown.size]
  show k < s.size ∨ k = s.size
  omega

theorem popBack_own (h : Owned s) (hp : 0 < s.size) (ht : vectorPopBack s = .ok t) : Owned t := by
  obtain ⟨u, hu, ht⟩ := bind_ok.mp ht
  cases ht
  have hc := Own.clear h (show s.size - 1 < s.size by omega) hu
  exact hc.resized fun k hk => by rw [hc.size] at hk; show k < s.size; omega

/-- The loop of `vector_insert` destroys the slot at `size` first: it must be alive. -/
theorem insert_own (h : Owned s) (hp : p ≤ s.size) (he : Live s e)
    (hend : p < s.size → ∀ o, Holds s s.size o → .destroy o.id ∉ s.log) (ha : Apart s e p s.size)
    (ht : vectorInsert dflt s p e ok = .ok t) : Owned t := by
  obtain ⟨u, hu, ht⟩ := bind_ok.mp ht
  obtain ⟨v, hv, ht⟩ := bind_ok.mp ht
  obtain ⟨w, hw, ht⟩ := bind_ok.mp ht
  cases ht
  obtain ⟨hadd, hown, hgrown⟩ := growIfFull_own h hu
  rw [hown.size] at hv
  have hstart : Own s.size (fun k => k < s.size ∨ (p < s.size ∧ k = s.size)) u := by
    rcases hgrown with rfl | hg
    · refine ⟨hown.size, hown.known, hown.distinct, hown.past, hown.safe, fun hk ho => ?_⟩
      rcases hk with hk | ⟨hps, rfl⟩
      · exact hown.alive hk ho
      · exact hend hps _ ho
    · exact hg.mono fun k hk => by show k < s.size + 1; omega
  obtain ⟨hown', hlive, -⟩ := forDown_inv
    (P := fun _ x => Own s.size (fun k => k < s.size ∨ (p < s.size ∧ k = s.size)) x ∧ Live x e ∧ Apart x e p s.size) hv
    (fun k x x' hpk hk ⟨hx, hxe, hxa⟩ hb => by
      have hkA : k < s.size ∨ (p < s.size ∧ k = s.size) := by omega
      exact ⟨hx.shift hkA (Or.inl (by omega)) (by omega) hb, apart_shift hxe hxa hpk (by omega) hb⟩)
    ⟨hstart, hadd.live he, hadd.apart he ha⟩
  have hc := hown'.copy hlive.2 hw
  exact hc.resized fun k hk => by rw [hc.size] at hk; omega

theorem erase_own (h : Owned s) (hp : p < s.size) (ht : vectorErase s p = .ok t) : Owned t := by
  obtain ⟨u, hu, ht⟩ := bind_ok.mp ht
  obtain ⟨v, hv, ht⟩ := bind_ok.mp ht
  cases ht
  have hloop : Own s.size (· < s.size) u := Own.each h
    (fun m x x' hpm hm hx hb => hx.shift (show m < s.size by omega) (show m + 1 < s.size by omega) (by omega) hb) hu
  have hd := hloop.destroy (show u.size - 1 < s.size by rw [hloop.size]; omega) hv
  refine hd.resized fun k hk => ?_
  rw [hd.size] at hk
  rw [hloop.size]
  exact ⟨by show k < s.size; omega, by omega⟩

theorem set_own (h : Owned s) (hp : p < s.size) (he : Live s e) (ha : ∀ o, Holds s p o → o.id ≠ e.id)
    (ht : vectorSet s p e = .ok t) : Owned t := by
  obtain ⟨u, hu, ht⟩ := bind_ok.mp ht
  have hc := (Own.destroy h hp hu).copy (he.destroySlot ha hu).2 ht
  have hsize := hc.size
  refine ⟨rfl, hc.known, hc.distinct, hc.past, hc.safe, fun {k o} hk ho => hc.alive ?_ ho⟩
  rw [hsize] at hk
  by_cases c : k = p
  · exact Or.inr c
  · exact Or.inl ⟨hk, c⟩

theorem shrink_own {m : Nat} (h : Owned s) (hm : m < s.size)
    (ht : forUp (resetSlot dflt) (s.size - m) m s = .ok t) : Owned { t with size := m } :=
  (Own.each h (fun k x x' _ hk hx hb => hx.reset (show k < s.size by omega) hb) ht).resized fun k hk => by
    show k < s.size; omega

theorem grow_own {m : Nat} (h : Own n (· < n) s) (ht : forUp (assignDefault dflt) (m - n) n s = .ok t) :
    Owned { t with size := m } :=
  (h.defaults ht).resized fun k hk => by omega

theorem resize_own {m : Nat} (h : Owned s) (ht : vectorResize dflt s m ok = .ok t) : Owned t := by
  unfold vectorResize at ht
  split at ht
  · obtain ⟨u, hu, ht⟩ := bind_ok.mp ht
    cases ht
    exact shrink_own h ‹_› hu
  split at ht
  · obtain ⟨u, hu, ht⟩ := bind_ok.mp ht
    obtain ⟨v, hv, ht⟩ := bind_ok.mp ht
    cases ht
    have hown : Own s.size (· < s.size) u := by
      split at hu
      · exact (reserve_own h hu).2.1
      · cases hu; exact h
    exact grow_own hown hv
  · cases ht; exact h

/-- The loop of `vector_clear` and `vector_destroy`. -/
theorem clearAll_own (h : Owned s) (ht : forUp clearSlot s.size 0 s = .ok t) : Own s.size (· < s.size) t :=
  Own.each h (fun k x x' _ hk hx hb => hx.clear (show k < s.size by omega) hb) ht

theorem construct_own (h : Owned s) : Owned { s with next := s.next + 1, log := .create s.next :: s.log } :=
  ⟨rfl, fun hk => Nat.lt_succ_of_lt (h.known hk), h.distinct,
    fun hm => Nat.lt_succ_of_lt (h.past (by simpa using hm)), h.safe, fun hk ho => by simpa using h.alive hk ho⟩

def Kept (s : St V) : Prop := Safe s.log ∧ (s.freed = false → Owned s)

theorem Owned.kept (h : Owned s) : Kept s := ⟨h.safe, fun _ => h⟩

theorem Kept.sound (h : Kept s) : Sound s := ⟨h.1, fun hf _ _ hi ho => (h.2 hf).alive hi ho⟩

theorem exec_own (h : Owned s) (op : Op V) (hin : InRange s op) (hl : LiveElement s (op, ok)) (hc : Careful s (op, ok))
    (ht : exec dflt s ok op = .ok t) : Kept t := by
  cases op with
  | construct v => cases ht; exact (construct_own h).kept
  | pushBack e => exact (pushBack_own h hl ht).kept
  | popBack => exact (popBack_own h hin ht).kept
  | insert p e => exact (insert_own h hin hl hc.1 hc.2 ht).kept
  | erase p => exact (erase_own h hin ht).kept
  | set p e => exact (set_own h hin hl hc ht).kept
  | resize m => exact (resize_own h ht).kept
  | reserve m => exact (reserve_owned h ht).kept
  | clear =>
    obtain ⟨u, hu, ht⟩ := bind_ok.mp ht
    cases ht
    exact ((clearAll_own h hu).resized (m := 0) fun k hk => absurd hk (Nat.not_lt_zero k)).kept
  | destroy =>
    obtain ⟨u, hu, ht⟩ := bind_ok.mp ht
    cases ht
    exact ⟨(clearAll_own h hu).safe, fun hf => by cases hf⟩

end Ops

/-! ## A call that is not careful -/

theorem Safe.of_append {l m : List Event} (h : Safe (l ++ m)) : Safe m := by
  induction l with
  | nil => exact h
  | cons e l ih =>
    cases e with
    | create o => exact ih h
    | copy src o => exact ih h.2
    | destroy o => exact ih h.2

def Grows (s t : St V) : Prop := ∃ l, t.log = l ++ s.log

theorem Grows.trans {u : St V} (h : Grows s t) (k : Grows t u) : Grows s u := by
  obtain ⟨l, hl⟩ := h
  obtain ⟨m, hm⟩ := k
  exact ⟨m ++ l, by rw [hm, hl, List.append_assoc]⟩

theorem Grows.safe (h : Grows s t) (ht : Safe t.log) : Safe s.log := by
  obtain ⟨l, hl⟩ := h
  rw [hl] at ht
  exact ht.of_append

theorem grows_copy {src : Obj V} (ht : assignCopy s i src = .ok t) : Grows s t := by
  obtain ⟨-, rfl⟩ := put_ok.mp ht
  exact ⟨[.copy src.id s.next], rfl⟩

/-- What a shift destroys, and the slot it writes. -/
theorem shiftSlot_log (ht : shiftSlot i j s = .ok t) : Grows s t ∧ (∀ k, k ≠ i → t.array[k]? = s.array[k]?) ∧
    ∀ o, Holds s i o → .destroy o.id ∈ t.log ∧ (Safe t.log → .destroy o.id ∉ s.log) := by
  obtain ⟨u, src, hu, -, ht⟩ := shiftSlot_ok.mp ht
  obtain ⟨-, rfl⟩ := put_ok.mp ht
  rcases destroySlot_ok.mp hu with ⟨o, ho, rfl⟩ | ⟨hnone, rfl⟩
  · refine ⟨⟨[.copy src.id _, .destroy o.id], rfl⟩, fun k hk => List.getElem?_set_ne (Ne.symm hk), ?_⟩
    intro p hp
    obtain rfl : o = p := Option.some.inj (Option.some.inj (ho.symm.trans hp))
    exact ⟨by simp, fun hs => hs.2.1⟩
  · refine ⟨⟨[.copy src.id _], rfl⟩, fun k hk => List.getElem?_set_ne (Ne.symm hk), ?_⟩
    intro p hp
    exact absurd (hnone.symm.trans hp) (by simp)

/-- The loop of `vector_insert` destroys the objects above the position. -/
theorem shiftAll_log {p k : Nat} (ht : forDown (fun i => shiftSlot i (i - 1)) p k s = .ok t) : Grows s t ∧
    (∀ i o, p < i → i ≤ p + k → Holds s i o → .destroy o.id ∈ t.log) ∧
    ∀ o, 0 < k → Holds s (p + k) o → Safe t.log → .destroy o.id ∉ s.log := by
  have hgrows : ∀ v, ∀ m, forDown (fun i => shiftSlot i (i - 1)) p m v = .ok t → Grows v t := fun v m hv =>
    forDown_inv (P := fun _ w => Grows v w) hv (fun _ _ _ _ _ hP hb => hP.trans (shiftSlot_log hb).1) ⟨[], rfl⟩
  refine ⟨hgrows s k ht, ?_, ?_⟩
  · intro i o hpi hik ho
    -- at index `j`, the slots up to `j` are as they were
    have h := forDown_inv (P := fun j v => (∀ m, m ≤ j → v.array[m]? = s.array[m]?) ∧ (j < i → .destroy o.id ∈ v.log))
      ht (fun j v w _ _ ⟨hslots, hlog⟩ hb => by
        obtain ⟨⟨l, hl⟩, hothers, hown⟩ := shiftSlot_log hb
        refine ⟨fun m hm => (hothers m (by omega)).trans (hslots m (by omega)), fun hji => ?_⟩
        by_cases e : j = i
        · subst e
          exact (hown o ((hslots j (Nat.le_refl j)).trans ho)).1
        · rw [hl]
          exact List.mem_append_right _ (hlog (by omega)))
      ⟨fun _ _ => rfl, fun hlt => absurd hik (Nat.not_le.mpr hlt)⟩
    exact h.2 hpi
  · intro o hk ho hsafe
    cases k with
    | zero => cases hk
    | succ k =>
      obtain ⟨v, hv, hrest⟩ := bind_ok.mp ht
      exact ((shiftSlot_log hv).2.2 o ho).2 ((hgrows v k hrest).safe hsafe)

theorem set_careful {ok : Bool} {e : Obj V} {p : Nat} (ht : vectorSet s p e = .ok t) (hsafe : Safe t.log) :
    Careful s (.set p e, ok) := by
  obtain ⟨u, hu, ht⟩ := bind_ok.mp ht
  obtain ⟨-, rfl⟩ := put_ok.mp ht
  intro o ho hid
  rcases destroySlot_ok.mp hu with ⟨q, hq, rfl⟩ | ⟨hnone, rfl⟩
  · obtain rfl : q = o := Option.some.inj (Option.some.inj (hq.symm.trans ho))
    exact hsafe.1 (by rw [hid]; exact List.mem_cons_self)
  · exact absurd (hnone.symm.trans ho) (by simp)

theorem growIfFull_slots {dflt : V} {ok : Bool} (ht : growIfFull dflt s ok = .ok t) :
    t.size = s.size ∧ (s.size ≠ s.capacity → t = s) ∧ ∀ k, k < s.size → t.array[k]? = s.array[k]? := by
  unfold growIfFull at ht
  split at ht
  · rename_i hfull
    obtain ⟨-, hsize, hslots⟩ := reserve_slots ht
    exact ⟨hsize, fun hne => absurd hfull hne, hslots⟩
  · cases ht
    exact ⟨rfl, fun _ => rfl, fun _ _ => rfl⟩

theorem insert_careful {dflt : V} {ok : Bool} {e : Obj V} {p : Nat} (hlen : s.array.length = s.capacity)
    (hp : p ≤ s.size) (ht : vectorInsert dflt s p e ok = .ok t) (hsafe : Safe t.log) : Careful s (.insert p e, ok) := by
  obtain ⟨u, hu, ht⟩ := bind_ok.mp ht
  obtain ⟨v, hv, ht⟩ := bind_ok.mp ht
  obtain ⟨w, hw, ht⟩ := bind_ok.mp ht
  cases ht
  obtain ⟨hsize, hsame, hslots⟩ := growIfFull_slots hu
  rw [hsize] at hv
  obtain ⟨-, hdestroyed, hlast⟩ := shiftAll_log hv
  have hend : p + (s.size - p) = s.size := by omega
  rw [hend] at hdestroyed hlast
  -- a slot at the size is there only if the array is not full
  have hheld : ∀ i o, i ≤ s.size → Holds s i o → Holds u i o := by
    intro i o hi ho
    rcases Nat.lt_or_eq_of_le hi with hlt | rfl
    · exact (hslots i hlt).trans ho
    · have hin : s.size < s.array.length := (List.getElem?_eq_some_iff.mp ho).1
      rw [hsame (by omega)]
      exact ho
  have hv' : Safe v.log := (grows_copy hw).safe hsafe
  obtain ⟨-, rfl⟩ := put_ok.mp hw
  constructor
  · intro hps o ho
    have hin : s.size < s.array.length := (List.getElem?_eq_some_iff.mp ho).1
    have hus := hsame (by omega)
    subst hus
    exact hlast o (by omega) ho hv'
  · intro i o hpi hi ho hid
    have hmem := hdestroyed i o hpi hi (hheld i o hi ho)
    rw [hid] at hmem
    exact hsafe.1 hmem

/-- Only a careful call leaves the log safe. -/
theorem exec_careful {dflt : V} {ok : Bool} {op : Op V} (hlen : s.array.length = s.capacity) (hin : InRange s op)
    (ht : exec dflt s ok op = .ok t) (hsafe : Safe t.log) : Careful s (op, ok) := by
  cases op with
  | insert p e => exact insert_careful hlen hin ht hsafe
  | set p e => exact set_careful ht hsafe
  | _ => trivial

/-! ## Every run -/

theorem create_own {dflt : V} {c₀ next : Nat} (h : vectorCreate dflt c₀ next = .ok s) : Owned s := by
  have h0 : Own 0 (· < 0) (⟨List.replicate c₀ none, 0, c₀, next, [], false⟩ : St V) :=
    ⟨rfl, fun hk => by simp [Holds, List.getElem?_replicate] at hk,
      fun hk => by simp [Holds, List.getElem?_replicate] at hk, fun hm => (by cases hm), trivial,
      fun hk => absurd hk (Nat.not_lt_zero _)⟩
  have hd := h0.defaults h
  unfold Owned
  rw [hd.size]
  exact hd.mono fun k hk => Or.inl hk

variable {dflt : V} {c₀ : Nat}

theorem step_kept {a : Op V × Bool} (h : Kept s) (hl : LiveElement s a) (hc : Careful s a)
    (hst : step dflt s a = some t) : Kept t := by
  obtain ⟨hfreed, hin, he⟩ := step_some.mp hst
  exact exec_own (h.2 hfreed) a.1 hin hl hc he

/-- A vector in use is well formed, and its slots below the size hold values. -/
def Shaped (c₀ : Nat) (s : St V) : Prop := s.freed = false → WF c₀ s ∧ ∃ l, Rep s l

/-- An in-range call that has its memory returns. -/
theorem step_total (dflt : V) {a : Op V × Bool} (h : Shaped c₀ s) (hf : s.freed = false) (hin : InRange s a.1)
    (hroom : Roomy s a) : ∃ t, step dflt s a = some t ∧ Shaped c₀ t := by
  obtain ⟨hw, l, hr⟩ := h hf
  by_cases hd : a.1 = .destroy
  · obtain ⟨t, ht, hfreed⟩ := destroy_total hw
    refine ⟨t, step_some.mpr ⟨hf, hin, by rw [hd]; exact ht⟩, fun hlive => ?_⟩
    rw [hfreed] at hlive
    cases hlive
  · obtain ⟨t, n, ht, hp⟩ := exec_roomy dflt hw hr a.1 hin hroom hd
    exact ⟨t, step_some.mpr ⟨hf, hin, ht⟩, fun _ => ⟨post_wf hw hp, _, hp.rep⟩⟩

theorem create_shaped {next : Nat} (h : vectorCreate dflt c₀ next = .ok s) : Shaped c₀ s := by
  obtain ⟨hw, hr⟩ := create_wf h
  exact fun _ => ⟨hw, [], hr⟩

theorem step_shaped {a : Op V × Bool} (h : Shaped c₀ s) (hroom : Roomy s a) (hst : step dflt s a = some t) :
    Shaped c₀ t := by
  obtain ⟨hf, hin, -⟩ := step_some.mp hst
  obtain ⟨u, hu, hshape⟩ := step_total dflt h hf hin hroom
  rw [hst] at hu
  cases hu
  exact hshape

/-- In every run of careful calls that have their memory no object is destroyed twice, no
    destroyed object is copied, and none is below the size. -/
theorem lifetimes_sound (h : (sys dflt c₀).Via (fun s a => LiveElement s a ∧ Careful s a ∧ Roomy s a) s) :
    Sound s ∧ (s.freed = false → ∀ a, InRange s a.1 → LiveElement s a → Roomy s a →
      ∃ t, step dflt s a = some t ∧ (Sound t ↔ Careful s a)) := by
  have hk : Kept s ∧ Shaped c₀ s := by
    refine Run.Sys.Via.inv (I := fun s => Kept s ∧ Shaped c₀ s) ?_ ?_ h
    · intro _ ⟨next, hs⟩
      exact ⟨(create_own hs).kept, create_shaped hs⟩
    · intro _ _ _ hi hc hst
      exact ⟨step_kept hi.1 hc.1 hc.2.1 hst, step_shaped hi.2 hc.2.2 hst⟩
  refine ⟨hk.1.sound, fun hf a hin hl hroom => ?_⟩
  obtain ⟨t, ht, -⟩ := step_total dflt hk.2 hf hin hroom
  refine ⟨t, ht, fun hsound => ?_, fun hc => (step_kept hk.1 hl hc ht).sound⟩
  exact exec_careful (hk.2 hf).1.length hin (step_some.mp ht).2.2 hsound.1

/-- Capacity 3, the caller's objects 3, 4 and 5: insert below the size, set, erase,
    clear. -/
theorem lifetimes_sound_careful :
    let s0 : St Nat := ⟨[some ⟨0, 0⟩, some ⟨1, 0⟩, some ⟨2, 0⟩], 0, 3, 3, [.create 2, .create 1, .create 0], false⟩
    let acts : List (Op Nat × Bool) := [(.construct 7, true), (.construct 8, true), (.construct 9, true),
      (.pushBack ⟨3, 7⟩, true), (.pushBack ⟨4, 8⟩, true), (.insert 0 ⟨5, 9⟩, true), (.set 1 ⟨4, 8⟩, true),
      (.popBack, true), (.erase 0, true), (.clear, true)]
    ∃ s, (sys 0 3).Via (fun s a => LiveElement s a ∧ Careful s a ∧ Roomy s a) s ∧
      Run.exec (Run.guard (fun s a => LiveElement s a ∧ Careful s a ∧ Roomy s a) (step 0)) s0 acts = some s ∧
        Sound s := by
  intro s0 acts
  have h0 : (sys 0 3).Via (fun s a => LiveElement s a ∧ Careful s a ∧ Roomy s a) s0 := .init ⟨0, by decide⟩
  have hs : (Run.exec (Run.guard (fun s a => LiveElement s a ∧ Careful s a ∧ Roomy s a) (step 0)) s0 acts).isSome =
      true := by decide
  obtain ⟨s, hs⟩ := Option.isSome_iff_exists.mp hs
  exact ⟨s, Run.via_guard h0 hs, hs, (lifetimes_sound (Run.via_guard h0 hs)).1⟩

/-! ## Without the condition -/

/-- Two elements, `vector_erase(v, 0)`, `vector_insert(v, 0, x)`: the second object is
    destroyed by both. -/
theorem erase_then_insert_destroys_twice : ∃ s : St Nat, (sys 0 3).Via LiveElement s ∧ ¬ Sound s := by
  let s0 : St Nat := ⟨[some ⟨0, 0⟩, some ⟨1, 0⟩, some ⟨2, 0⟩], 0, 3, 3, [.create 2, .create 1, .create 0], false⟩
  let acts : List (Op Nat × Bool) := [(.construct 7, true), (.construct 8, true), (.construct 9, true),
    (.pushBack ⟨3, 7⟩, true), (.pushBack ⟨4, 8⟩, true), (.erase 0, true), (.insert 0 ⟨5, 9⟩, true)]
  have h0 : (sys 0 3).Via LiveElement s0 := .init ⟨0, by decide⟩
  have hs : (Run.exec (Run.guard LiveElement (step 0)) s0 acts).map (fun s => decide (Safe s.log)) = some false := by
    decide
  obtain ⟨s, hs, hsafe⟩ := Option.map_eq_some_iff.mp hs
  exact ⟨s, Run.via_guard h0 hs, fun h => of_decide_eq_false hsafe h.1⟩

end SysProg.Vector
