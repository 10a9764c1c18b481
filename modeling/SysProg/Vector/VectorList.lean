/-
  SysProg.Vector.VectorList — a vector behaves as the list of its values
  (see `SysProg.Vector.Vector`).

  The abstract vector is a list of values and `listOp` does to it what each operation
  says. An in-range operation that has its memory returns (`exec_roomy`): the values below
  `size` are the list's (`Rep`), `size` stays within `capacity`, and the capacity is the
  initial one or a power of the growth factor, changed only by an operation that needs
  more. A request for more than 2^60 slots wraps in the size passed to `malloc`: then the
  operation writes outside its array or never ends. The values are those that the objects
  were built with, also after they are destroyed: `SysProg.Vector.VectorRefines` has the
  runs in which none is used then.

  Each statement that writes slot `i` is a `Put`: slot `i` has the new value, every other
  slot its old one. The loops compose them.
-/

import Mathlib.Data.List.InsertIdx
import SysProg.Vector.Vector

namespace SysProg.Vector

open SysProg.Loop (forUp forDown bind_ok forUp_total forUp_inv forDown_total)

variable {V : Type}

def listOp (dflt : V) (l : List V) : Op V → List V
  | .construct _ | .reserve _ => l
  | .pushBack e => l ++ [e.val]
  | .popBack => l.dropLast
  | .insert p e => l.insertIdx p e.val
  | .erase p => l.eraseIdx p
  | .set p e => l.set p e.val
  | .resize n => l.take n ++ List.replicate (n - l.length) dflt
  | .clear | .destroy => []

def valAt (s : St V) (i : Nat) : Option V := s.array[i]?.join.map Obj.val

def contents (s : St V) : List (Option V) := (List.range s.size).map (valAt s)

/-! ## Statements -/

/-- Nothing but slots, objects and the log changed. -/
structure Frame (s t : St V) : Prop where
  size : t.size = s.size
  capacity : t.capacity = s.capacity
  freed : t.freed = s.freed
  length : t.array.length = s.array.length

theorem Frame.refl (s : St V) : Frame s s := ⟨rfl, rfl, rfl, rfl⟩

theorem Frame.trans {s t u : St V} (h : Frame s t) (k : Frame t u) : Frame s u :=
  ⟨k.size.trans h.size, k.capacity.trans h.capacity, k.freed.trans h.freed, k.length.trans h.length⟩

structure Put (s : St V) (i : Nat) (v : Option V) (t : St V) : Prop where
  frame : Frame s t
  vals : ∀ k, valAt t k = if k = i then v else valAt s k

theorem valAt_set {a : List (Option (Obj V))} {i : Nat} (hi : i < a.length) (x : Option (Obj V)) (k : Nat) :
    ((a.set i x)[k]?.join.map Obj.val) = if k = i then x.map Obj.val else a[k]?.join.map Obj.val := by
  rw [List.getElem?_set]
  by_cases e : k = i
  · subst e; simp [hi]
  · simp [e, Ne.symm e]

theorem destroySlot_total {s : St V} {i : Nat} (hi : i < s.array.length) :
    ∃ t, destroySlot s i = .ok t ∧ Frame s t ∧ ∀ k, valAt t k = valAt s k := by
  cases h : s.array[i] with
  | none => exact ⟨s, destroySlot_ok.mpr (Or.inr ⟨by simp [hi, h], rfl⟩), Frame.refl s, fun _ => rfl⟩
  | some o =>
    exact ⟨_, destroySlot_ok.mpr (Or.inl ⟨o, by simp [hi, h], rfl⟩), ⟨rfl, rfl, rfl, rfl⟩, fun _ => rfl⟩

theorem assignCopy_total {s : St V} {i : Nat} (hi : i < s.array.length) (src : Obj V) :
    ∃ t, assignCopy s i src = .ok t ∧ Put s i (some src.val) t :=
  ⟨_, put_ok.mpr ⟨hi, rfl⟩, ⟨rfl, rfl, rfl, by simp⟩, fun k => valAt_set hi _ k⟩

theorem assignDefault_total {d : V} {s : St V} {i : Nat} (hi : i < s.array.length) :
    ∃ t, assignDefault d i s = .ok t ∧ Put s i (some d) t :=
  ⟨_, put_ok.mpr ⟨hi, rfl⟩, ⟨rfl, rfl, rfl, by simp⟩, fun k => valAt_set hi _ k⟩

theorem clearSlot_total {s : St V} {i : Nat} (hi : i < s.array.length) :
    ∃ t, clearSlot i s = .ok t ∧ Put s i none t := by
  obtain ⟨t, ht, hf, hv⟩ := destroySlot_total hi
  have hit : i < t.array.length := by rw [hf.length]; exact hi
  refine ⟨_, bind_ok.mpr ⟨t, ht, put_ok.mpr ⟨hit, rfl⟩⟩, hf.trans ⟨rfl, rfl, rfl, by simp⟩, fun k => ?_⟩
  rw [← hv k]
  exact valAt_set hit none k

theorem resetSlot_total {dflt : V} {s : St V} {i : Nat} (hi : i < s.array.length) :
    ∃ t, resetSlot dflt i s = .ok t ∧ Put s i (some dflt) t := by
  obtain ⟨t, ht, hf, hv⟩ := destroySlot_total hi
  obtain ⟨u, hu, hp⟩ := assignDefault_total (d := dflt) (s := t) (i := i) (by rw [hf.length]; exact hi)
  exact ⟨u, bind_ok.mpr ⟨t, ht, hu⟩, hf.trans hp.frame, fun k => by rw [hp.vals, hv]⟩

theorem shiftSlot_total {s : St V} {i j : Nat} {v : V} (hi : i < s.array.length) (hj : valAt s j = some v) :
    ∃ t, shiftSlot i j s = .ok t ∧ Put s i (some v) t := by
  obtain ⟨t, ht, hf, hv⟩ := destroySlot_total hi
  rw [← hv j] at hj
  obtain ⟨src, hsrc, rfl⟩ := Option.map_eq_some_iff.mp hj
  obtain ⟨u, hu, hp⟩ := assignCopy_total (s := t) (i := i) (by rw [hf.length]; exact hi) src
  refine ⟨u, shiftSlot_ok.mpr ⟨t, src, ht, Option.join_eq_some_iff.mp hsrc, hu⟩, hf.trans hp.frame, fun k => ?_⟩
  rw [hp.vals, hv]

/-! ## Loops -/

/-- One more slot has the value that a loop gives it. -/
theorem Put.extend {s t u : St V} {j : Nat} {v : Option V} {g : Nat → Option V} {done done' : Nat → Prop}
    [DecidablePred done] [DecidablePred done'] (hp : Put t j v u)
    (hk : ∀ k, valAt t k = if done k then g k else valAt s k) (hv : v = g j)
    (hdone : ∀ k, done' k ↔ k = j ∨ done k) (k : Nat) : valAt u k = if done' k then g k else valAt s k := by
  rw [hp.vals, hk]
  by_cases e : k = j
  · rw [if_pos e, if_pos ((hdone k).mpr (Or.inl e)), e, hv]
  · rw [if_neg e]
    by_cases c : done k
    · rw [if_pos c, if_pos ((hdone k).mpr (Or.inr c))]
    · rw [if_neg c, if_neg fun h => ((hdone k).mp h).elim e c]

/-- The slots above `position` take the values one slot below. -/
theorem shiftUp_total {s : St V} {p n : Nat} (hlen : p + n < s.array.length)
    (hv : ∀ k, p ≤ k → k < p + n → (valAt s k).isSome = true) :
    ∃ t, forDown (fun i => shiftSlot i (i - 1)) p n s = .ok t ∧ Frame s t ∧
      ∀ k, valAt t k = if p < k ∧ k ≤ p + n then valAt s (k - 1) else valAt s k := by
  -- at index `j`, the slots above `j` are already shifted
  have h := forDown_total (ε := Fault) (f := fun i => shiftSlot i (i - 1)) (l := p) (n := n) (s := s)
    (P := fun j t => Frame s t ∧ ∀ k, valAt t k = if j < k ∧ k ≤ p + n then valAt s (k - 1) else valAt s k)
    (fun j t hj hle ⟨hf, hk⟩ => by
      obtain ⟨v, hjv⟩ := Option.isSome_iff_exists.mp (hv (j - 1) (by omega) (by omega))
      have hold : valAt t (j - 1) = some v := by rw [hk, if_neg (by omega), hjv]
      obtain ⟨u, hu, hp⟩ := shiftSlot_total (i := j) (by rw [hf.length]; omega) hold
      exact ⟨u, hu, hf.trans hp.frame, hp.extend (g := fun k => valAt s (k - 1)) hk hjv.symm fun k => by omega⟩)
    ⟨Frame.refl s, fun k => by rw [if_neg (by omega)]⟩
  exact h

/-- The slots from `position` on take the values one slot above. -/
theorem shiftDown_total {s : St V} {p n : Nat} (hlen : p + n < s.array.length)
    (hv : ∀ k, p < k → k ≤ p + n → (valAt s k).isSome = true) :
    ∃ t, forUp (fun i => shiftSlot i (i + 1)) n p s = .ok t ∧ Frame s t ∧
      ∀ k, valAt t k = if p ≤ k ∧ k < p + n then valAt s (k + 1) else valAt s k :=
  forUp_total (f := fun i => shiftSlot i (i + 1))
    (P := fun j t => Frame s t ∧ ∀ k, valAt t k = if p ≤ k ∧ k < j then valAt s (k + 1) else valAt s k)
    (fun j t hj hlt ⟨hf, hk⟩ => by
      obtain ⟨v, hjv⟩ := Option.isSome_iff_exists.mp (hv (j + 1) (by omega) (by omega))
      have hold : valAt t (j + 1) = some v := by rw [hk, if_neg (by omega), hjv]
      obtain ⟨u, hu, hp⟩ := shiftSlot_total (i := j) (by rw [hf.length]; omega) hold
      exact ⟨u, hu, hf.trans hp.frame, hp.extend (g := fun k => valAt s (k + 1)) hk hjv.symm fun k => by omega⟩)
    ⟨Frame.refl s, fun k => by rw [if_neg (by omega)]⟩

/-- A loop that puts `v` in every slot of a range. -/
theorem fill_total {body : Nat → St V → Except Fault (St V)} {v : Option V}
    (hbody : ∀ {s i}, i < s.array.length → ∃ t, body i s = .ok t ∧ Put s i v t) {s : St V} {n i : Nat}
    (hlen : i + n ≤ s.array.length) :
    ∃ t, forUp body n i s = .ok t ∧ Frame s t ∧ ∀ k, valAt t k = if i ≤ k ∧ k < i + n then v else valAt s k :=
  forUp_total (P := fun j t => Frame s t ∧ ∀ k, valAt t k = if i ≤ k ∧ k < j then v else valAt s k)
    (fun j t hj hlt ⟨hf, hk⟩ => by
      obtain ⟨u, hu, hp⟩ := hbody (s := t) (i := j) (by rw [hf.length]; omega)
      exact ⟨u, hu, hf.trans hp.frame, hp.extend (g := fun _ => v) hk rfl fun k => by omega⟩)
    ⟨Frame.refl s, fun k => by rw [if_neg (by omega)]⟩

/-! ## Reallocation -/

structure WF (initialCapacity : Nat) (s : St V) : Prop where
  length : s.array.length = s.capacity
  fits : s.size ≤ s.capacity
  capacity : s.capacity = initialCapacity ∨ ∃ k, s.capacity = growthFactor ^ k
  inUse : s.freed = false

/-- The capacity after an operation that needs `n` slots. -/
def CapacityFor (s : St V) (n : Nat) (t : St V) : Prop :=
  (n ≤ s.capacity ∧ t.capacity = s.capacity) ∨ (s.capacity < n ∧ n ≤ t.capacity ∧ ∃ k, t.capacity = growthFactor ^ k)

structure Grown (s : St V) (n : Nat) (t : St V) : Prop where
  length : t.array.length = t.capacity
  size : t.size = s.size
  freed : t.freed = s.freed
  vals : ∀ k, k < s.size → valAt t k = valAt s k
  capacity : CapacityFor s n t

theorem Grown.room {s t : St V} {n : Nat} (h : Grown s n t) : n ≤ t.capacity := by
  rcases h.capacity with ⟨hn, hc⟩ | ⟨-, hn, -⟩
  · omega
  · exact hn

/-- A loop of writes that ended stayed inside the array. -/
theorem defaults_inside {dflt : V} {n i : Nat} {s t : St V} (h : forUp (assignDefault dflt) n i s = .ok t) :
    n = 0 ∨ i + n ≤ s.array.length := by
  have hlen := forUp_inv (P := fun j u => u.array.length = s.array.length ∧ (j = i ∨ j ≤ s.array.length)) h
    (fun k u u' _ _ hP hb => by
      obtain ⟨hlt, rfl⟩ := put_ok.mp hb
      exact ⟨by simpa using hP.1, Or.inr (by have := hP.1; simp only at hlt; omega)⟩)
    ⟨rfl, Or.inl rfl⟩
  omega

/-- The copy into the new array: the slots below `size`, then default objects. -/
theorem copy_total {d : V} {s : St V} {c : Nat} (hfit : s.size ≤ s.array.length) (hc : s.size ≤ c)
    (hlen : 8 * c % wordSize / 8 = c) :
    ∃ u t, forUp (fun i t => (s.get i).bind (t.put i)) s.size 0
        { s with array := List.replicate (8 * c % wordSize / 8) none } = .ok u ∧
      forUp (assignDefault d) (c - s.size) s.size u = .ok t ∧ Frame u t ∧ u.array.length = c ∧
      u.size = s.size ∧ u.freed = s.freed ∧ ∀ k, k < s.size → valAt t k = valAt s k := by
  obtain ⟨u, hu, ⟨hul, hus, huf⟩, huv⟩ := forUp_total (ε := Fault) (f := fun i t => (s.get i).bind (t.put i))
    (n := s.size) (i := 0) (s := { s with array := List.replicate (8 * c % wordSize / 8) none })
    (P := fun j t => (t.array.length = c ∧ t.size = s.size ∧ t.freed = s.freed) ∧ ∀ k, k < j → valAt t k = valAt s k)
    (fun j t _ hlt ⟨⟨h1, h2, h3⟩, hk⟩ => by
      have hjs : j < s.array.length := by omega
      have hjt : j < t.array.length := by omega
      refine ⟨_, bind_ok.mpr ⟨s.array[j], get_ok.mpr (by simp [hjs]), put_ok.mpr ⟨hjt, rfl⟩⟩,
        ⟨by simpa using h1, h2, h3⟩, fun k hk' => ?_⟩
      have hset := valAt_set hjt s.array[j] k
      simp only [valAt] at hset ⊢
      rw [hset]
      by_cases e : k = j
      · subst e; simp [hjs]
      · rw [if_neg e]; exact hk k (by omega))
    ⟨⟨by simpa using hlen, rfl, rfl⟩, fun k hk => by omega⟩
  obtain ⟨t, ht, hf, htv⟩ := fill_total (v := some d) (fun hi => assignDefault_total hi) (s := u) (n := c - s.size)
    (i := s.size) (by omega)
  exact ⟨u, t, hu, ht, hf, hul, hus, huf, fun k hk => by rw [htv, if_neg (by omega)]; exact huv k (by omega)⟩

theorem reserve_grown {dflt : V} {c₀ : Nat} {s t : St V} {n : Nat} (hw : WF c₀ s)
    (h : vectorReserve dflt s n true = .ok t) : Grown s n t := by
  unfold vectorReserve at h
  split at h
  · rename_i hn
    cases h
    exact ⟨hw.length, rfl, rfl, fun _ _ => rfl, Or.inl ⟨hn, rfl⟩⟩
  · rename_i hn
    obtain ⟨c, hc, h⟩ := bind_ok.mp h
    simp only [if_true] at h
    obtain ⟨u, hu, h⟩ := bind_ok.mp h
    obtain ⟨v, hv, h⟩ := bind_ok.mp h
    cases h
    obtain ⟨m, -, hcm, hnc, -⟩ := getNewCapacity_ok hc
    have hfit := hw.fits
    have hlen := hw.length
    -- the writes succeeded, so the product did not wrap
    have hsize : u.array.length = 8 * c % wordSize / 8 :=
      forUp_inv (P := fun _ t => t.array.length = 8 * c % wordSize / 8) hu
        (fun k t t' _ _ hP hb => by
          obtain ⟨x, -, hb⟩ := bind_ok.mp hb
          obtain ⟨-, rfl⟩ := put_ok.mp hb
          simpa using hP)
        (by simp)
    have hnowrap : 8 * c % wordSize / 8 = c := by
      have hin := defaults_inside hv
      have hle : 8 * c % wordSize ≤ 8 * c := Nat.mod_le _ _
      omega
    obtain ⟨u', t', hu', ht', hf, hul, hus, huf, hvals⟩ :=
      copy_total (d := dflt) (c := c) (hlen ▸ hfit) (by omega) hnowrap
    obtain rfl : u = u' := Except.ok.inj (hu.symm.trans hu')
    obtain rfl : v = t' := Except.ok.inj (hv.symm.trans ht')
    exact ⟨hf.length.trans hul, hf.size.trans hus, hf.freed.trans huf, hvals,
      Or.inr ⟨by omega, hnc, m, by rw [growthFactor]; exact hcm⟩⟩

theorem reserve_total {dflt : V} {c₀ : Nat} {s : St V} {n : Nat} (hw : WF c₀ s) (hn : n ≤ 2 ^ 60) :
    ∃ t, vectorReserve dflt s n true = .ok t := by
  unfold vectorReserve
  split
  · exact ⟨s, rfl⟩
  · rename_i hlt
    obtain ⟨c, hc⟩ := getNewCapacity_total (show n ≤ 2 ^ 63 by omega)
    obtain ⟨m, -, hcm, hnc, hleast⟩ := getNewCapacity_ok hc
    have hm : m ≤ 60 := by
      by_contra hgt
      have : 2 ^ 60 ≤ 2 ^ (m - 1) := Nat.pow_le_pow_right (by omega) (by omega)
      omega
    have hbound : c ≤ 2 ^ 60 := hcm ▸ Nat.pow_le_pow_right (by omega) hm
    have hnowrap : 8 * c % wordSize / 8 = c := by
      rw [Nat.mod_eq_of_lt (by unfold wordSize; omega)]; omega
    have hfit := hw.fits
    obtain ⟨u, t, hu, ht, -⟩ := copy_total (d := dflt) (c := c) (hw.length ▸ hfit) (by omega) hnowrap
    exact ⟨_, bind_ok.mpr ⟨c, hc, by
      rw [if_pos rfl]; exact bind_ok.mpr ⟨u, hu, bind_ok.mpr ⟨t, ht, rfl⟩⟩⟩⟩

/-- `vector_push_back` and `vector_insert` make room for one more. -/
theorem growIfFull_eq {dflt : V} {c₀ : Nat} {s : St V} (hw : WF c₀ s) (ok : Bool) :
    growIfFull dflt s ok = vectorReserve dflt s (s.size + 1) ok := by
  have hfit := hw.fits
  unfold growIfFull
  split
  · rfl
  · rw [vectorReserve, if_pos (by omega)]

/-! ## Operations -/

structure Rep (s : St V) (l : List V) : Prop where
  length : l.length = s.size
  vals : ∀ i, i < s.size → valAt s i = l[i]?

/-- What an operation that needs `n` slots leaves, `l` being the list it should hold. -/
structure Post (s : St V) (n : Nat) (l : List V) (t : St V) : Prop where
  length : t.array.length = t.capacity
  fits : t.size ≤ t.capacity
  freed : t.freed = s.freed
  rep : Rep t l
  capacity : CapacityFor s n t

theorem Rep.isSome {s : St V} {l : List V} (h : Rep s l) {i : Nat} (hi : i < s.size) : (valAt s i).isSome = true := by
  rw [h.vals i hi, List.getElem?_eq_getElem (by rw [h.length]; exact hi)]; rfl

/-- An operation that allocates nothing leaves the capacity alone. -/
theorem Frame.post {s t : St V} {c₀ : Nat} (hw : WF c₀ s) (hf : Frame s t) {m : Nat} (hm : m ≤ s.size) {l : List V}
    (hl : l.length = m) (hv : ∀ i, i < m → valAt t i = l[i]?) : Post s 0 l { t with size := m } where
  length := hf.length.trans (hw.length.trans hf.capacity.symm)
  fits := by
    have h1 := hw.fits
    have h2 := hf.capacity
    show m ≤ t.capacity
    omega
  freed := hf.freed
  rep := ⟨hl, hv⟩
  capacity := Or.inl ⟨Nat.zero_le _, hf.capacity⟩

theorem Grown.post {s u t : St V} {n : Nat} (hg : Grown s n u) (hf : Frame u t) {m : Nat} (hm : m ≤ u.capacity)
    {l : List V} (hl : l.length = m) (hv : ∀ i, i < m → valAt t i = l[i]?) : Post s n l { t with size := m } where
  length := hf.length.trans (hg.length.trans hf.capacity.symm)
  fits := by
    have h := hf.capacity
    show m ≤ t.capacity
    omega
  freed := hf.freed.trans hg.freed
  rep := ⟨hl, hv⟩
  capacity := by
    have h := hf.capacity
    rcases hg.capacity with ⟨h1, h2⟩ | ⟨h1, h2, k, h3⟩
    · exact Or.inl ⟨h1, h.trans h2⟩
    · exact Or.inr ⟨h1, h ▸ h2, k, h.trans h3⟩

section Ops

variable {dflt : V} {c₀ : Nat} {s : St V} {l : List V}

theorem pushBack_total (hr : Rep s l) (e : Obj V) {u : St V} (hu : growIfFull dflt s true = .ok u)
    (hg : Grown s (s.size + 1) u) :
    ∃ t, vectorPushBack dflt s e true = .ok t ∧ Post s (s.size + 1) (l ++ [e.val]) t := by
  have hroom := hg.room
  obtain ⟨t, ht, hp⟩ := assignCopy_total (s := u) (i := u.size) (by rw [hg.length, hg.size]; omega) e
  have hsize : t.size + 1 = s.size + 1 := by rw [hp.frame.size, hg.size]
  refine ⟨{ t with size := t.size + 1 }, bind_ok.mpr ⟨u, hu, bind_ok.mpr ⟨t, ht, rfl⟩⟩, ?_⟩
  refine hg.post hp.frame (by omega) (by rw [List.length_append, hr.length]; simpa using hsize.symm) fun i hi => ?_
  rw [hp.vals, hg.size]
  by_cases e' : i = s.size
  · subst e'; rw [if_pos rfl, ← hr.length]; simp
  · rw [if_neg e', hg.vals i (by omega), hr.vals i (by omega), List.getElem?_append_left (by rw [hr.length]; omega)]

theorem insert_total (hr : Rep s l) {p : Nat} (hp : p ≤ s.size) (e : Obj V) {u : St V}
    (hu : growIfFull dflt s true = .ok u) (hg : Grown s (s.size + 1) u) :
    ∃ t, vectorInsert dflt s p e true = .ok t ∧ Post s (s.size + 1) (l.insertIdx p e.val) t := by
  have hroom := hg.room
  have hlen := hg.length
  have husize := hg.size
  obtain ⟨v, hv, hf, hvals⟩ := shiftUp_total (s := u) (p := p) (n := u.size - p) (by omega) fun k _ hk => by
    rw [hg.vals k (by omega)]; exact hr.isSome (by omega)
  obtain ⟨t, ht, hput⟩ := assignCopy_total (s := v) (i := p) (by rw [hf.length]; omega) e
  have hft := hf.trans hput.frame
  have hsize : t.size + 1 = s.size + 1 := by rw [hft.size, husize]
  refine ⟨{ t with size := t.size + 1 },
    bind_ok.mpr ⟨u, hu, bind_ok.mpr ⟨v, hv, bind_ok.mpr ⟨t, ht, rfl⟩⟩⟩, ?_⟩
  have hlp : p ≤ l.length := by rw [hr.length]; exact hp
  refine hg.post hft (by omega) (by rw [List.length_insertIdx_of_le_length hlp, hr.length]; omega) fun i hi => ?_
  rw [hput.vals, hvals, List.getElem?_insertIdx]
  have hll := hr.length
  rcases Nat.lt_trichotomy i p with c | c | c
  · rw [if_neg (by omega), if_neg (by omega), if_pos c, hg.vals i (by omega), hr.vals i (by omega)]
  · rw [if_pos c, if_neg (by omega), if_pos c, if_pos (by omega)]
  · rw [if_neg (by omega), if_pos (by omega), if_neg (by omega), if_neg (by omega), hg.vals (i - 1) (by omega),
      hr.vals (i - 1) (by omega)]

theorem erase_total (hw : WF c₀ s) (hr : Rep s l) {p : Nat} (hp : p < s.size) :
    ∃ t, vectorErase s p = .ok t ∧ Post s 0 (l.eraseIdx p) t := by
  have hfit := hw.fits
  have hlen := hw.length
  obtain ⟨u, hu, hf, hvals⟩ := shiftDown_total (s := s) (p := p) (n := s.size - 1 - p) (by omega) fun k _ hk =>
    hr.isSome (by omega)
  have husize := hf.size
  obtain ⟨t, ht, hft, htv⟩ := destroySlot_total (s := u) (i := u.size - 1) (by rw [hf.length]; omega)
  have hsize : t.size - 1 = s.size - 1 := by rw [hft.size, husize]
  refine ⟨{ t with size := t.size - 1 }, bind_ok.mpr ⟨u, hu, bind_ok.mpr ⟨t, ht, rfl⟩⟩, ?_⟩
  have hll := hr.length
  refine (hf.trans hft).post hw (by omega) (by rw [List.length_eraseIdx_of_lt (by omega)]; omega) fun i hi => ?_
  rw [htv, hvals, List.getElem?_eraseIdx]
  by_cases c : i < p
  · rw [if_neg (by omega), if_pos c, hr.vals i (by omega)]
  · rw [if_pos (by omega), if_neg c, hr.vals (i + 1) (by omega)]

theorem set_total (hw : WF c₀ s) (hr : Rep s l) {p : Nat} (hp : p < s.size) (e : Obj V) :
    ∃ t, vectorSet s p e = .ok t ∧ Post s 0 (l.set p e.val) t := by
  have hfit := hw.fits
  have hlen := hw.length
  obtain ⟨u, hu, hf, huv⟩ := destroySlot_total (s := s) (i := p) (by omega)
  obtain ⟨t, ht, hput⟩ := assignCopy_total (s := u) (i := p) (by rw [hf.length]; omega) e
  have hft := hf.trans hput.frame
  refine ⟨t, bind_ok.mpr ⟨u, hu, ht⟩, ?_⟩
  have hll := hr.length
  have hpost := hft.post hw (Nat.le_refl s.size) (l := l.set p e.val) (by simpa using hll) fun i hi => by
    rw [hput.vals, huv, List.getElem?_set]
    by_cases c : i = p
    · subst c; rw [if_pos rfl, if_pos rfl, if_pos (by omega)]
    · rw [if_neg c, if_neg (Ne.symm c), hr.vals i hi]
  rwa [show ({ t with size := s.size } : St V) = t by rw [← hft.size]] at hpost

theorem popBack_total (hw : WF c₀ s) (hr : Rep s l) (hp : 0 < s.size) :
    ∃ t, vectorPopBack s = .ok t ∧ Post s 0 l.dropLast t := by
  have hfit := hw.fits
  have hlen := hw.length
  obtain ⟨t, ht, hput⟩ := clearSlot_total (s := s) (i := s.size - 1) (by omega)
  have hsize := hput.frame.size
  refine ⟨{ t with size := t.size - 1 }, bind_ok.mpr ⟨t, ht, rfl⟩, ?_⟩
  have hll := hr.length
  refine hput.frame.post hw (by omega) (by rw [List.length_dropLast]; omega) fun i hi => ?_
  rw [hput.vals, if_neg (by omega), hr.vals i (by omega), List.getElem?_dropLast, if_pos (by omega)]

theorem clear_total (hw : WF c₀ s) : ∃ t, vectorClear s = .ok t ∧ Post s 0 ([] : List V) t := by
  have hfit := hw.fits
  have hlen := hw.length
  obtain ⟨t, ht, hf, -⟩ := fill_total (fun hi => clearSlot_total hi) (s := s) (n := s.size) (i := 0) (by omega)
  exact ⟨{ t with size := 0 }, bind_ok.mpr ⟨t, ht, rfl⟩, hf.post hw (Nat.zero_le _) rfl fun i hi => by omega⟩

theorem shrink_total (hw : WF c₀ s) (hr : Rep s l) {n : Nat} (hn : n < s.size) :
    ∃ t, vectorResize dflt s n true = .ok t ∧ Post s 0 (l.take n ++ List.replicate (n - l.length) dflt) t := by
  have hfit := hw.fits
  have hlen := hw.length
  have hll := hr.length
  obtain ⟨t, ht, hf, hv⟩ := fill_total (v := some dflt) (fun hi => resetSlot_total hi) (s := s) (n := s.size - n)
    (i := n) (by omega)
  refine ⟨{ t with size := n }, ?_, hf.post hw (by omega) (by simp; omega) fun i hi => ?_⟩
  · unfold vectorResize
    rw [if_pos hn]
    exact bind_ok.mpr ⟨t, ht, rfl⟩
  · rw [hv, if_neg (by omega), hr.vals i (by omega), List.getElem?_append_left (by simp; omega),
      List.getElem?_take_of_lt hi]

theorem grow_total (hr : Rep s l) {n : Nat} (hn : s.size < n) {u : St V}
    (hu : (if s.capacity < n then vectorReserve dflt s n true else .ok s) = .ok u) (hg : Grown s n u) :
    ∃ t, vectorResize dflt s n true = .ok t ∧ Post s n (l.take n ++ List.replicate (n - l.length) dflt) t := by
  have hroom := hg.room
  have hlen := hg.length
  have husize := hg.size
  have hll := hr.length
  obtain ⟨t, ht, hf, hv⟩ := fill_total (v := some dflt) (fun hi => assignDefault_total hi) (s := u) (n := n - s.size)
    (i := s.size) (by omega)
  refine ⟨{ t with size := n }, ?_, hg.post hf hroom (by simp; omega) fun i hi => ?_⟩
  · unfold vectorResize
    rw [if_neg (by omega), if_pos hn]
    exact bind_ok.mpr ⟨u, hu, bind_ok.mpr ⟨t, ht, rfl⟩⟩
  · rw [hv, List.getElem?_append]
    by_cases c : i < s.size
    · rw [if_neg (by omega), hg.vals i c, hr.vals i c, if_pos (by simp; omega), List.getElem?_take_of_lt hi]
    · rw [if_pos (by omega), if_neg (by simp; omega), List.getElem?_replicate, if_pos (by simp; omega)]

/-- Every in-range operation for which the memory is there returns, and does to the
    list what it does to the vector. -/
theorem exec_total (dflt : V) (hw : WF c₀ s) (hr : Rep s l) (op : Op V) (hin : InRange s op)
    (hroom : ∃ u, vectorReserve dflt s (need s op) true = .ok u) (hd : op ≠ .destroy) :
    ∃ t, exec dflt s true op = .ok t ∧ Post s (need s op) (listOp dflt l op) t := by
  obtain ⟨u, hu⟩ := hroom
  have hg := reserve_grown hw hu
  have hfit := hw.fits
  cases op with
  | construct v =>
    exact ⟨_, rfl, hw.length, hw.fits, rfl, ⟨hr.length, hr.vals⟩, Or.inl ⟨Nat.zero_le _, rfl⟩⟩
  | pushBack e => exact pushBack_total hr e ((growIfFull_eq hw true).trans hu) hg
  | popBack => exact popBack_total hw hr hin
  | insert p e => exact insert_total hr hin e ((growIfFull_eq hw true).trans hu) hg
  | erase p => exact erase_total hw hr hin
  | set p e => exact set_total hw hr hin e
  | resize n =>
    rcases Nat.lt_trichotomy n s.size with c | c | c
    · obtain ⟨t, ht, hp⟩ := shrink_total hw hr c
      exact ⟨t, ht, hp.length, hp.fits, hp.freed, hp.rep, Or.inl ⟨by simp only [need]; omega, by
        rcases hp.capacity with ⟨-, h⟩ | ⟨h, -⟩
        · exact h
        · omega⟩⟩
    · refine ⟨s, by simp [exec, vectorResize, c], hw.length, hw.fits, rfl, ⟨?_, fun i hi => ?_⟩,
        Or.inl ⟨by simp only [need]; omega, rfl⟩⟩
      · simp [listOp, c, hr.length]
      · simp [listOp, c, ← hr.length, hr.vals i hi]
    · refine grow_total hr c ?_ hg
      split
      · exact hu
      · rename_i hn; rw [← hu, vectorReserve, if_pos (by simp only [need]; omega)]
  | reserve n =>
    refine ⟨u, hu, hg.length, ?_, hg.freed, ⟨hr.length.trans hg.size.symm, fun i hi => ?_⟩, hg.capacity⟩
    · rw [hg.size]
      rcases hg.capacity with ⟨-, h⟩ | ⟨h1, h2, -⟩ <;> omega
    · rw [hg.size] at hi; rw [hg.vals i hi, hr.vals i hi]; rfl
  | clear => exact clear_total hw
  | destroy => exact absurd rfl hd

theorem destroy_total (hw : WF c₀ s) : ∃ t, vectorDestroy s = .ok t ∧ t.freed = true := by
  have hfit := hw.fits
  have hlen := hw.length
  obtain ⟨t, ht, -⟩ := fill_total (fun hi => clearSlot_total hi) (s := s) (n := s.size) (i := 0) (by omega)
  exact ⟨_, bind_ok.mpr ⟨t, ht, rfl⟩, rfl⟩

/-- An operation that returned had the memory it needed. -/
theorem exec_room (hw : WF c₀ s) {op : Op V} {t : St V} (h : exec dflt s true op = .ok t) :
    ∃ u, vectorReserve dflt s (need s op) true = .ok u := by
  have small : ∀ n, n ≤ s.capacity → ∃ u, vectorReserve dflt s n true = .ok u := fun n hn =>
    ⟨s, by rw [vectorReserve, if_pos hn]⟩
  have hfit := hw.fits
  cases op with
  | pushBack e =>
    obtain ⟨u, hu, -⟩ := bind_ok.mp h
    exact ⟨u, (growIfFull_eq hw true).symm.trans hu⟩
  | insert p e =>
    obtain ⟨u, hu, -⟩ := bind_ok.mp h
    exact ⟨u, (growIfFull_eq hw true).symm.trans hu⟩
  | resize n =>
    by_cases c : s.capacity < n
    · simp only [exec, vectorResize, if_neg (show ¬ n < s.size by omega), if_pos (show s.size < n by omega),
        if_pos c] at h
      obtain ⟨u, hu, -⟩ := bind_ok.mp h
      exact ⟨u, hu⟩
    · exact small n (by omega)
  | reserve n => exact ⟨t, h⟩
  | _ => exact small 0 (Nat.zero_le _)

/-- Where the capacity is enough, `malloc` is not called. -/
theorem exec_small {ok : Bool} {op : Op V} (hn : need s op ≤ s.capacity) : exec dflt s ok op = exec dflt s true op := by
  have hgrow : s.size + 1 ≤ s.capacity → growIfFull dflt s ok = growIfFull dflt s true := by
    intro h
    rw [growIfFull, growIfFull, if_neg (by omega), if_neg (by omega)]
  cases op with
  | pushBack e => simp only [exec, vectorPushBack, hgrow hn]
  | insert p e => simp only [exec, vectorInsert, hgrow hn]
  | resize n => simp only [exec, vectorResize, if_neg (show ¬ s.capacity < n from Nat.not_lt.mpr hn)]
  | reserve n => simp only [exec, vectorReserve, if_pos (show n ≤ s.capacity from hn)]
  | _ => rfl

/-- An operation that has its memory returns; one that is refused changes nothing. -/
theorem exec_roomy (dflt : V) {ok : Bool} (hw : WF c₀ s) (hr : Rep s l) (op : Op V) (hin : InRange s op)
    (hroom : Roomy s (op, ok)) (hd : op ≠ .destroy) :
    ∃ t n, exec dflt s ok op = .ok t ∧ Post s n (listOp dflt l op) t := by
  rcases hroom with hn | ⟨hok, hn⟩ | ⟨hok, hres, hn⟩
  · obtain ⟨t, ht, hp⟩ := exec_total dflt hw hr op hin ⟨s, by rw [vectorReserve, if_pos hn]⟩ hd
    exact ⟨t, _, (exec_small hn).trans ht, hp⟩
  · obtain ⟨t, ht, hp⟩ := exec_total dflt hw hr op hin (reserve_total hw hn) hd
    exact ⟨t, _, by rw [show ok = true from hok, ht], hp⟩
  · cases op with
    | reserve n =>
      obtain ⟨c, hc⟩ := getNewCapacity_total (show n ≤ 2 ^ 63 from hn)
      have hcall : exec dflt s ok (.reserve n) = .ok s := by
        simp only [exec, vectorReserve, show ok = false from hok, hc]
        split <;> rfl
      exact ⟨s, 0, hcall, hw.length, hw.fits, rfl, hr, Or.inl ⟨Nat.zero_le _, rfl⟩⟩
    | _ => cases hres

end Ops

/-! ## Every run -/

variable {dflt : V} {c₀ : Nat}

theorem step_some {s t : St V} {a : Op V × Bool} : step dflt s a = some t ↔
    s.freed = false ∧ InRange s a.1 ∧ exec dflt s a.2 a.1 = .ok t := by
  unfold step
  by_cases h : s.freed = false ∧ InRange s a.1
  · rw [if_pos h]
    cases exec dflt s a.2 a.1 <;> simp [Except.toOption, h]
  · rw [if_neg h]
    constructor
    · intro h'; cases h'
    · intro ⟨h1, h2, _⟩; exact absurd ⟨h1, h2⟩ h

theorem create_wf {s : St V} {next : Nat} (h : vectorCreate dflt c₀ next = .ok s) : WF c₀ s ∧ Rep s [] := by
  obtain ⟨t, ht, hf, -⟩ := fill_total (v := some dflt) (fun hi => assignDefault_total hi) (n := c₀) (i := 0)
    (s := (⟨List.replicate c₀ none, 0, c₀, next, [], false⟩ : St V)) (by simp)
  obtain rfl : s = t := Except.ok.inj (h.symm.trans ht)
  have hlen := hf.length
  have hcap := hf.capacity
  have hsize := hf.size
  simp only [List.length_replicate] at hlen hcap hsize
  exact ⟨⟨by omega, by omega, Or.inl hcap, hf.freed⟩, ⟨by simp [hsize], fun i hi => by omega⟩⟩

theorem post_wf {s t : St V} {n : Nat} {l : List V} (hw : WF c₀ s) (hp : Post s n l t) : WF c₀ t where
  length := hp.length
  fits := hp.fits
  capacity := by
    rcases hp.capacity with ⟨-, h⟩ | ⟨-, -, h⟩
    · rw [h]; exact hw.capacity
    · exact Or.inr h
  inUse := hp.freed.trans hw.inUse

end SysProg.Vector
