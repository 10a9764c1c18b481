/-
  SysProg.Vector.Reserve — `vector_reserve` over the whole range of `size_t`
  (see `SysProg.Vector.Vector`).

  `get_new_capacity` doubles from 1. Above 2^63 the capacity wraps to 0 before it reaches
  its target and the loop goes on for ever (`growTo_never`). Above 2^60 the capacity is
  reached, but 8 times it wraps to 0: `malloc` is asked for no bytes, and what it gives
  for them is too small for the copy.
  - `reserve_exact_iff`: the call does what it is for exactly when there is nothing to do,
    or the request is at most 2^60, or it is at most 2^63 and `malloc` refuses.
  - `reserve_wraps`: a request for 2^60 + 1 slots.
-/

import SysProg.Vector.VectorList

namespace SysProg.Vector

open SysProg.Loop (forUp bind_ok forUp_inv)

variable {V : Type}

def LeastPower (n c : Nat) : Prop := ∃ m, c = 2 ^ m ∧ n ≤ 2 ^ m ∧ ∀ j, n ≤ 2 ^ j → m ≤ j

/-- `vector_reserve(v, n)` ends and leaves the vector as it was, or in an array of exactly
    as many slots as its new capacity, with the same elements. -/
def ReservesExactly (dflt : V) (s : St V) (n : Nat) (mallocOk : Bool) : Prop :=
  ∃ t, vectorReserve dflt s n mallocOk = .ok t ∧
    (t = s ∨ LeastPower n t.capacity ∧ 8 * t.capacity < wordSize ∧ t.array.length = t.capacity ∧ t.size = s.size ∧
      ∀ k, k < s.size → t.array[k]? = s.array[k]?)

variable {dflt : V} {s t : St V} {n c : Nat} {mallocOk : Bool}

theorem growTo_error {fuel : Nat} {e : Fault} (h : growTo n fuel c = .error e) : e = .diverges := by
  induction fuel generalizing c with
  | zero => cases h; rfl
  | succ fuel ih =>
    unfold growTo at h
    split at h
    · exact ih h
    · cases h

/-- However many rounds it is given, the loop is not over. -/
theorem growTo_never (hn : 2 ^ 63 < n) (fuel : Nat) : growTo n fuel 1 = .error .diverges := by
  cases h : growTo n fuel 1 with
  | error e => rw [growTo_error h]
  | ok c =>
    obtain ⟨m, hm, rfl, hle, -⟩ := growTo_pow fuel 0 (by omega) (Or.inl rfl) h
    have hpow : 2 ^ m ≤ 2 ^ 63 := Nat.pow_le_pow_right (by omega) (by omega)
    omega

theorem getNewCapacity_least (h : getNewCapacity n = .ok c) : LeastPower n c := by
  obtain ⟨m, -, rfl, hle, hlow⟩ := getNewCapacity_ok h
  refine ⟨m, rfl, hle, fun j hj => ?_⟩
  by_contra hjm
  have hpow : 2 ^ j ≤ 2 ^ (m - 1) := Nat.pow_le_pow_right (by omega) (by omega)
  omega

/-- A capacity for at most 2^60 slots is at most 2^60, and otherwise its bytes wrap to 0. -/
theorem capacity_bytes (h : getNewCapacity n = .ok c) :
    (n ≤ 2 ^ 60 → c ≤ 2 ^ 60) ∧ (2 ^ 60 < n → 8 * c % wordSize = 0) := by
  obtain ⟨m, hm, rfl, hle, hlow⟩ := getNewCapacity_ok h
  constructor
  · intro hn
    apply Nat.pow_le_pow_right (by omega)
    by_contra hgt
    have hpow : 2 ^ 60 ≤ 2 ^ (m - 1) := Nat.pow_le_pow_right (by omega) (by omega)
    omega
  · intro hn
    have hgt : 60 < m := by
      by_contra hno
      have hpow : 2 ^ m ≤ 2 ^ 60 := Nat.pow_le_pow_right (by omega) (by omega)
      omega
    have hdvd : wordSize ∣ 8 * 2 ^ m := ⟨2 ^ (m - 61), by
      unfold wordSize
      rw [← Nat.pow_add, show 64 + (m - 61) = 3 + m by omega, Nat.pow_add]⟩
    exact Nat.mod_eq_zero_of_dvd hdvd

/-! ## The new array -/

/-- The pointers below `size` are copied, whatever is constructed above them. -/
theorem newArray_slots {u : St V} {k : Nat}
    (hu : forUp (fun i t => (s.get i).bind (t.put i)) s.size 0
      { s with array := List.replicate (8 * c % wordSize / 8) none } = .ok u)
    (ht : forUp (assignDefault dflt) (c - s.size) s.size u = .ok t) (hk : k < s.size) : t.array[k]? = s.array[k]? := by
  have hcopied := forUp_inv (P := fun j v => ∀ k, k < j → v.array[k]? = s.array[k]?) hu
    (fun j v v' _ _ hP hb k hk => by
      obtain ⟨x, hx, hb⟩ := bind_ok.mp hb
      obtain ⟨hlt, rfl⟩ := put_ok.mp hb
      by_cases e : k = j
      · subst e
        rw [get_ok.mp hx]
        exact List.getElem?_set_self hlt
      · rw [List.getElem?_set_ne (Ne.symm e)]
        exact hP k (by omega))
    (fun k hk => absurd hk (Nat.not_lt_zero k))
  have hkept := forUp_inv (P := fun _ v => ∀ k, k < s.size → v.array[k]? = u.array[k]?) ht
    (fun j v v' hj _ hP hb k hk => by
      obtain ⟨-, rfl⟩ := put_ok.mp hb
      rw [List.getElem?_set_ne (by omega)]
      exact hP k hk)
    (fun _ _ => rfl)
  rw [hkept k hk, hcopied k (by omega)]

/-- Up to 2^60 slots. -/
theorem reserve_small (hlen : s.array.length = s.capacity) (hfit : s.size ≤ s.capacity) (hn : s.capacity < n)
    (hsmall : n ≤ 2 ^ 60) : ReservesExactly dflt s n mallocOk := by
  obtain ⟨c, hc⟩ := getNewCapacity_total (show n ≤ 2 ^ 63 by omega)
  obtain ⟨m, -, -, hnc, -⟩ := getNewCapacity_ok hc
  have hbound := (capacity_bytes hc).1 hsmall
  have hbytes : 8 * c < wordSize := by unfold wordSize; omega
  have hnowrap : 8 * c % wordSize / 8 = c := by
    rw [Nat.mod_eq_of_lt hbytes]
    omega
  unfold ReservesExactly vectorReserve
  rw [if_neg (by omega), hc]
  cases mallocOk with
  | false => exact ⟨s, rfl, Or.inl rfl⟩
  | true =>
    have hroom : s.size ≤ c := by omega
    obtain ⟨u, t, hu, ht, hf, hul, hus, -⟩ := copy_total (d := dflt) (hlen ▸ hfit) hroom hnowrap
    have hslots : ∀ k, k < s.size → t.array[k]? = s.array[k]? := fun k hk => newArray_slots hu ht hk
    refine ⟨{ t with capacity := c }, ?_, Or.inr ⟨getNewCapacity_least hc, hbytes, hf.length.trans hul,
      hf.size.trans hus, hslots⟩⟩
    exact bind_ok.mpr ⟨c, rfl, bind_ok.mpr ⟨u, hu, bind_ok.mpr ⟨t, ht, rfl⟩⟩⟩

/-- An array of no bytes has no slot to write. -/
theorem reserve_wrapped (hfit : s.size ≤ s.capacity) (hn : s.capacity < n) (hc : getNewCapacity n = .ok c)
    (hbytes : 8 * c % wordSize = 0) : vectorReserve dflt s n true ≠ .ok t := by
  intro h
  obtain ⟨m, -, -, hnc, -⟩ := getNewCapacity_ok hc
  unfold vectorReserve at h
  rw [if_neg (by omega), hc] at h
  change (forUp _ _ _ _).bind _ = _ at h
  obtain ⟨u, hu, h⟩ := bind_ok.mp h
  obtain ⟨v, hv, -⟩ := bind_ok.mp h
  have hsize : u.array.length = 0 :=
    forUp_inv (P := fun _ t => t.array.length = 0) hu
      (fun k t t' _ _ hP hb => by
        obtain ⟨x, -, hb⟩ := bind_ok.mp hb
        obtain ⟨-, rfl⟩ := put_ok.mp hb
        simpa using hP)
      (by simp [hbytes])
  have hin := defaults_inside hv
  omega

/-- For every request and every answer of `malloc`. -/
theorem reserve_exact_iff (hlen : s.array.length = s.capacity) (hfit : s.size ≤ s.capacity) :
    ReservesExactly dflt s n mallocOk ↔ n ≤ s.capacity ∨ n ≤ 2 ^ 60 ∨ n ≤ 2 ^ 63 ∧ mallocOk = false := by
  by_cases hn : n ≤ s.capacity
  · refine ⟨fun _ => Or.inl hn, fun _ => ⟨s, ?_, Or.inl rfl⟩⟩
    rw [vectorReserve, if_pos hn]
  constructor
  · intro h
    by_contra hno
    obtain ⟨t, ht, -⟩ := h
    cases hc : getNewCapacity n with
    | error e =>
      rw [vectorReserve, if_neg hn, hc] at ht
      cases ht
    | ok c =>
      -- the loop ended, so what went wrong is the product
      have hle : n ≤ 2 ^ 63 := by
        by_contra hgt
        rw [getNewCapacity, growTo_never (by omega)] at hc
        cases hc
      cases mallocOk with
      | false => exact hno (Or.inr (Or.inr ⟨hle, rfl⟩))
      | true => exact reserve_wrapped hfit (by omega) hc ((capacity_bytes hc).2 (by omega)) ht
  · intro h
    rcases h with h | hsmall | ⟨hle, rfl⟩
    · exact absurd h hn
    · exact reserve_small hlen hfit (by omega) hsmall
    · obtain ⟨c, hc⟩ := getNewCapacity_total hle
      refine ⟨s, ?_, Or.inl rfl⟩
      rw [vectorReserve, if_neg hn, hc]
      rfl

def twoElements : St Nat := ⟨[some ⟨3, 7⟩, some ⟨4, 8⟩], 2, 2, 5, [], false⟩

theorem reserve_exact_two : ReservesExactly 0 twoElements 10 true :=
  (reserve_exact_iff rfl (by decide)).mpr (Or.inr (Or.inl (by decide)))

/-- 2^60 + 1 slots need a capacity of 2^61, whose bytes are none; 2^63 + 1 slots never end. -/
theorem reserve_wraps :
    8 * 2 ^ 61 % wordSize = 0 ∧ ¬ ReservesExactly 0 twoElements (2 ^ 60 + 1) true ∧
    (∀ fuel, growTo (2 ^ 63 + 1) fuel 1 = .error .diverges) ∧
      ¬ ReservesExactly 0 twoElements (2 ^ 63 + 1) true := by
  refine ⟨by decide, fun ⟨t, ht, _⟩ => ?_, growTo_never (by omega), fun ⟨t, ht, _⟩ => ?_⟩
  · obtain ⟨c, hc⟩ := getNewCapacity_total (show 2 ^ 60 + 1 ≤ 2 ^ 63 by decide)
    exact reserve_wrapped (by decide) (by decide) hc ((capacity_bytes hc).2 (by decide)) ht
  · rw [vectorReserve, if_neg (by decide), getNewCapacity, growTo_never (by omega)] at ht
    cases ht

end SysProg.Vector
