/-
  SysProg.Vector.Vector — the resizable array of vector/vector.c over a user's element
  type.

  A vector is an array of pointers to objects, its `size` and its `capacity`. The user
  supplies `copy_constructor`, `destructor` and `default_constructor`: a constructor
  returns an object never returned before, holding the value of the object it copies or
  the default value `dflt`, and every call is recorded in `log` (newest first). A slot
  holds an object or NULL; `destructor(NULL)` destroys nothing, and a copy of NULL is a
  `Fault`. Slots are never cleared by anything but the code: a slot may keep the pointer
  to an object that was destroyed. The user's functions are called with whatever pointer
  the slot holds, and the log shows whether it is that of a destroyed object; a call that
  goes on from there has no defined values (`execLive` makes it a fault).

  Accesses outside the allocated array are faults. Sizes are `size_t`: the product
  passed to `malloc` and the capacity wrap at 2^64. `mallocOk` is what `malloc` answers.
  `GROWTH_FACTOR` and `INITIAL_CAPACITY` come from vector.h, which the repository does
  not hold: the first is 2 (the test reserves 10 and expects a capacity of 16), the
  second a parameter.
-/

import Mathlib.Algebra.Group.Nat.Defs
import Mathlib.Data.List.Basic
import SysProg.Lib.Run
import SysProg.Lib.Loop

namespace SysProg.Vector

open SysProg.Loop (forUp forDown bind_ok)

structure Obj (V : Type) where
  id : Nat
  val : V
  deriving DecidableEq

inductive Event where
  | create (o : Nat)
  | copy (src o : Nat)
  | destroy (o : Nat)
  deriving DecidableEq

structure St (V : Type) where
  array : List (Option (Obj V))
  size : Nat
  capacity : Nat
  /-- No constructor has returned this object or a later one yet. -/
  next : Nat
  log : List Event
  freed : Bool
  deriving DecidableEq

inductive Fault where
  | outOfBounds
  | nullElement
  | destroyedObject
  | diverges
  deriving DecidableEq

instance exceptDecidableEq {ε α : Type} [DecidableEq ε] [DecidableEq α] : DecidableEq (Except ε α)
  | .ok a, .ok b => decidable_of_iff (a = b) (by simp)
  | .error a, .error b => decidable_of_iff (a = b) (by simp)
  | .ok _, .error _ => isFalse (by simp)
  | .error _, .ok _ => isFalse (by simp)

variable {V : Type}

/-! ## Slots -/

def St.get (s : St V) (i : Nat) : Except Fault (Option (Obj V)) :=
  match s.array[i]? with
  | some x => .ok x
  | none => .error .outOfBounds

def St.put (s : St V) (i : Nat) (x : Option (Obj V)) : Except Fault (St V) :=
  if i < s.array.length then .ok { s with array := s.array.set i x } else .error .outOfBounds

/-- `destructor(array[i])` -/
def destroySlot (s : St V) (i : Nat) : Except Fault (St V) :=
  (s.get i).bind fun
    | some o => .ok { s with log := .destroy o.id :: s.log }
    | none => .ok s

/-- `array[i] = copy_constructor(src)` -/
def assignCopy (s : St V) (i : Nat) (src : Obj V) : Except Fault (St V) :=
  { s with next := s.next + 1, log := .copy src.id s.next :: s.log }.put i (some ⟨s.next, src.val⟩)

/-- `array[i] = default_constructor()` -/
def assignDefault (dflt : V) (i : Nat) (s : St V) : Except Fault (St V) :=
  { s with next := s.next + 1, log := .create s.next :: s.log }.put i (some ⟨s.next, dflt⟩)

/-- `destructor(array[i]); array[i] = copy_constructor(array[j])` -/
def shiftSlot (i j : Nat) (s : St V) : Except Fault (St V) :=
  (destroySlot s i).bind fun s => (s.get j).bind fun
    | some src => assignCopy s i src
    | none => .error .nullElement

/-- `destructor(array[i]); array[i] = NULL` -/
def clearSlot (i : Nat) (s : St V) : Except Fault (St V) := (destroySlot s i).bind fun s => s.put i none

/-- `destructor(array[i]); array[i] = default_constructor()` -/
def resetSlot (dflt : V) (i : Nat) (s : St V) : Except Fault (St V) := (destroySlot s i).bind (assignDefault dflt i)

/-! ## The operations -/

def growthFactor : Nat := 2

def wordSize : Nat := 2 ^ 64

def growTo (target : Nat) : Nat → Nat → Except Fault Nat
  | 0, _ => .error .diverges
  | fuel + 1, c => if c < target then growTo target fuel (c * growthFactor % wordSize) else .ok c

/-- After 64 doublings the capacity has wrapped to 0 and stays 0: a loop that is not
    over by then never ends. -/
def getNewCapacity (target : Nat) : Except Fault Nat := growTo target 65 1

def vectorCreate (dflt : V) (initialCapacity next : Nat) : Except Fault (St V) :=
  forUp (assignDefault dflt) initialCapacity 0
    ⟨List.replicate initialCapacity none, 0, initialCapacity, next, [], false⟩

def vectorReserve (dflt : V) (s : St V) (n : Nat) (mallocOk : Bool) : Except Fault (St V) :=
  if n ≤ s.capacity then .ok s
  else (getNewCapacity n).bind fun newCapacity =>
    if mallocOk then
      -- sizeof(void*) * new_capacity bytes hold that many slots unless the product wrapped
      let newArray := { s with array := List.replicate (8 * newCapacity % wordSize / 8) none }
      (forUp (fun i t => (s.get i).bind (t.put i)) s.size 0 newArray).bind fun t =>
        (forUp (assignDefault dflt) (newCapacity - s.size) s.size t).bind fun t =>
          .ok { t with capacity := newCapacity }
    else .ok s

def vectorResize (dflt : V) (s : St V) (n : Nat) (mallocOk : Bool) : Except Fault (St V) :=
  if n < s.size then
    (forUp (resetSlot dflt) (s.size - n) n s).bind fun t => .ok { t with size := n }
  else if s.size < n then
    (if s.capacity < n then vectorReserve dflt s n mallocOk else .ok s).bind fun t =>
      (forUp (assignDefault dflt) (n - s.size) s.size t).bind fun t => .ok { t with size := n }
  else .ok s

/-- The reallocation `vector_push_back` and `vector_insert` start with. -/
def growIfFull (dflt : V) (s : St V) (mallocOk : Bool) : Except Fault (St V) :=
  if s.size = s.capacity then vectorReserve dflt s (s.size + 1) mallocOk else .ok s

def vectorPushBack (dflt : V) (s : St V) (element : Obj V) (mallocOk : Bool) : Except Fault (St V) :=
  (growIfFull dflt s mallocOk).bind fun t => (assignCopy t t.size element).bind fun t =>
    .ok { t with size := t.size + 1 }

def vectorPopBack (s : St V) : Except Fault (St V) :=
  (clearSlot (s.size - 1) s).bind fun t => .ok { t with size := t.size - 1 }

def vectorInsert (dflt : V) (s : St V) (position : Nat) (element : Obj V) (mallocOk : Bool) :
    Except Fault (St V) :=
  (growIfFull dflt s mallocOk).bind fun t =>
    (forDown (fun i => shiftSlot i (i - 1)) position (t.size - position) t).bind fun t =>
      (assignCopy t position element).bind fun t => .ok { t with size := t.size + 1 }

def vectorErase (s : St V) (position : Nat) : Except Fault (St V) :=
  (forUp (fun i => shiftSlot i (i + 1)) (s.size - 1 - position) position s).bind fun t =>
    (destroySlot t (t.size - 1)).bind fun t => .ok { t with size := t.size - 1 }

def vectorSet (s : St V) (position : Nat) (element : Obj V) : Except Fault (St V) :=
  (destroySlot s position).bind fun t => assignCopy t position element

def vectorClear (s : St V) : Except Fault (St V) :=
  (forUp clearSlot s.size 0 s).bind fun t => .ok { t with size := 0 }

def vectorDestroy (s : St V) : Except Fault (St V) :=
  (forUp clearSlot s.size 0 s).bind fun t => .ok { t with array := [], freed := true }

inductive Op (V : Type) where
  /-- The caller builds an object of its own. -/
  | construct (v : V)
  | pushBack (element : Obj V)
  | popBack
  | insert (position : Nat) (element : Obj V)
  | erase (position : Nat)
  | set (position : Nat) (element : Obj V)
  | resize (n : Nat)
  | reserve (n : Nat)
  | clear
  | destroy

def exec (dflt : V) (s : St V) (mallocOk : Bool) : Op V → Except Fault (St V)
  | .construct _ => .ok { s with next := s.next + 1, log := .create s.next :: s.log }
  | .pushBack e => vectorPushBack dflt s e mallocOk
  | .popBack => vectorPopBack s
  | .insert p e => vectorInsert dflt s p e mallocOk
  | .erase p => vectorErase s p
  | .set p e => vectorSet s p e
  | .resize n => vectorResize dflt s n mallocOk
  | .reserve n => vectorReserve dflt s n mallocOk
  | .clear => vectorClear s
  | .destroy => vectorDestroy s

def InRange (s : St V) : Op V → Prop
  | .popBack => 0 < s.size
  | .insert p _ => p ≤ s.size
  | .erase p => p < s.size
  | .set p _ => p < s.size
  | _ => True

instance (s : St V) : (op : Op V) → Decidable (InRange s op)
  | .popBack => inferInstanceAs (Decidable (0 < s.size))
  | .insert p _ => inferInstanceAs (Decidable (p ≤ s.size))
  | .erase p => inferInstanceAs (Decidable (p < s.size))
  | .set p _ => inferInstanceAs (Decidable (p < s.size))
  | .construct _ | .pushBack _ | .resize _ | .reserve _ | .clear | .destroy => isTrue trivial

def need (s : St V) : Op V → Nat
  | .pushBack _ | .insert _ _ => s.size + 1
  | .resize n | .reserve n => n
  | _ => 0

def Op.reserves : Op V → Bool
  | .reserve _ => true
  | _ => false

/-- The operation needs no more than the capacity, or its size does not wrap and the
    memory is there. A reservation may be refused. -/
def Roomy (s : St V) (a : Op V × Bool) : Prop :=
  need s a.1 ≤ s.capacity ∨
    (a.2 = true ∧ need s a.1 ≤ 2 ^ 60) ∨ a.2 = false ∧ a.1.reserves = true ∧ need s a.1 ≤ 2 ^ 63

instance (s : St V) (a : Op V × Bool) : Decidable (Roomy s a) := inferInstanceAs (Decidable (_ ∨ _))

def step (dflt : V) (s : St V) (a : Op V × Bool) : Option (St V) :=
  if s.freed = false ∧ InRange s a.1 then (exec dflt s a.2 a.1).toOption else none

def sys (dflt : V) (initialCapacity : Nat) : Run.Sys (St V) (Op V × Bool) :=
  Run.ofFun (fun s => ∃ next, vectorCreate dflt initialCapacity next = .ok s) (step dflt)

/-! ## What each statement does -/

theorem get_ok {s : St V} {i : Nat} {x : Option (Obj V)} : s.get i = .ok x ↔ s.array[i]? = some x := by
  unfold St.get
  cases s.array[i]? <;> simp

theorem put_ok {s s' : St V} {i : Nat} {x : Option (Obj V)} :
    s.put i x = .ok s' ↔ i < s.array.length ∧ s' = { s with array := s.array.set i x } := by
  unfold St.put
  by_cases h : i < s.array.length
  · simp [h, eq_comm]
  · simp [h]

theorem destroySlot_ok {s s' : St V} {i : Nat} : destroySlot s i = .ok s' ↔
    (∃ o, s.array[i]? = some (some o) ∧ s' = { s with log := .destroy o.id :: s.log }) ∨
      (s.array[i]? = some none ∧ s' = s) := by
  unfold destroySlot
  rw [bind_ok]
  constructor
  · rintro ⟨_ | o, hx, h⟩ <;> cases h
    · exact Or.inr ⟨get_ok.mp hx, rfl⟩
    · exact Or.inl ⟨o, get_ok.mp hx, rfl⟩
  · rintro (⟨o, hx, rfl⟩ | ⟨hx, rfl⟩)
    · exact ⟨some o, get_ok.mpr hx, rfl⟩
    · exact ⟨none, get_ok.mpr hx, rfl⟩

theorem shiftSlot_ok {s s' : St V} {i j : Nat} : shiftSlot i j s = .ok s' ↔
    ∃ t src, destroySlot s i = .ok t ∧ t.array[j]? = some (some src) ∧ assignCopy t i src = .ok s' := by
  unfold shiftSlot
  simp only [bind_ok, get_ok]
  constructor
  · rintro ⟨t, ht, _ | src, hj, h⟩
    · cases h
    · exact ⟨t, src, ht, hj, h⟩
  · intro ⟨t, src, ht, hj, h⟩; exact ⟨t, ht, some src, hj, h⟩

theorem growTo_zero {target : Nat} (ht : 0 < target) : ∀ fuel c, growTo target fuel 0 ≠ .ok c := by
  intro fuel
  induction fuel with
  | zero => intro c h; cases h
  | succ fuel ih => intro c h; simp only [growTo, if_pos ht] at h; exact ih c (by simpa using h)

/-- A doubling below 2^63 does not wrap. -/
theorem double_pow {k : Nat} (hk : k < 63) : 2 ^ k * growthFactor % wordSize = 2 ^ (k + 1) := by
  have hle : 2 ^ (k + 1) ≤ 2 ^ 63 := Nat.pow_le_pow_right (by omega) (by omega)
  rw [growthFactor, ← Nat.pow_succ]
  exact Nat.mod_eq_of_lt (Nat.lt_of_le_of_lt hle (by decide))

theorem growTo_pow {target c : Nat} : ∀ fuel k, k < 64 → (k = 0 ∨ 2 ^ (k - 1) < target) →
    growTo target fuel (2 ^ k) = .ok c → ∃ m, m < 64 ∧ c = 2 ^ m ∧ target ≤ c ∧ (m = 0 ∨ 2 ^ (m - 1) < target) := by
  intro fuel
  induction fuel with
  | zero => intro k _ _ h; cases h
  | succ fuel ih =>
    intro k hk hlow h
    simp only [growTo] at h
    split at h
    · rename_i hlt
      by_cases hk63 : k = 63
      · subst hk63
        have hwrap : 2 ^ 63 * growthFactor % wordSize = 0 := by decide
        rw [hwrap] at h
        exact absurd h (growTo_zero (by omega) fuel c)
      · rw [double_pow (by omega)] at h
        exact ih (k + 1) (by omega) (Or.inr (by simpa using hlt)) h
    · rename_i hge
      cases h
      exact ⟨k, hk, rfl, by omega, hlow⟩

/-- What `get_new_capacity` returns is the least power of two at least `target`. -/
theorem getNewCapacity_ok {target c : Nat} (h : getNewCapacity target = .ok c) :
    ∃ m, m < 64 ∧ c = 2 ^ m ∧ target ≤ c ∧ (m = 0 ∨ 2 ^ (m - 1) < target) :=
  growTo_pow 65 0 (by omega) (Or.inl rfl) h

theorem growTo_total {target : Nat} (ht : target ≤ 2 ^ 63) : ∀ fuel k, k < 64 → 64 ≤ fuel + k →
    ∃ c, growTo target fuel (2 ^ k) = .ok c := by
  intro fuel
  induction fuel with
  | zero => intro k hk hf; omega
  | succ fuel ih =>
    intro k hk hf
    simp only [growTo]
    split
    · rename_i hlt
      have hk62 : k < 63 := by
        by_contra hge
        have : 2 ^ 63 ≤ 2 ^ k := Nat.pow_le_pow_right (by omega) (by omega)
        omega
      rw [double_pow hk62]
      exact ih (k + 1) (by omega) (by omega)
    · exact ⟨_, rfl⟩

/-- Up to 2^63 the loop of `get_new_capacity` ends. -/
theorem getNewCapacity_total {target : Nat} (ht : target ≤ 2 ^ 63) : ∃ c, getNewCapacity target = .ok c :=
  growTo_total ht 65 0 (by omega) (by omega)

end SysProg.Vector
