/-
  SysProg.Lib.Dll — doubly linked lists in a heap.

  A heap maps addresses to nodes. A list element `b` is kept at `addr b`, and
  `node b next prev` is its node with these links. `Seg h p l q` says that the heap holds
  the elements `l` linked both ways: the first one's `prev` is `p`, the last one's `next`
  is `q`. Segments split (`seg_append`) and survive any change off their addresses
  (`Seg.congr`). Four edits keep a segment: another content in place (`Seg.set`), an
  element added at the end (`Seg.snoc`) or between two (`Seg.insert`), and an element
  taken out after its predecessor, which may change content (`Seg.join_last`, `Seg.join`).
-/

import Mathlib.Data.List.Nodup
import Mathlib.Logic.Function.Basic

namespace SysProg.Dll

open Function (update)

variable {A B N : Type}

def first (addr : B → A) : List B → Option A → Option A
  | [], q => q
  | b :: _, _ => some (addr b)

def last (addr : B → A) : Option A → List B → Option A
  | p, [] => p
  | _, b :: l => last addr (some (addr b)) l

def Seg (addr : B → A) (node : B → Option A → Option A → N) (h : A → Option N) :
    Option A → List B → Option A → Prop
  | _, [], _ => True
  | p, b :: l, q => h (addr b) = some (node b (first addr l q) p) ∧ Seg addr node h (some (addr b)) l q

variable {addr : B → A} {node : B → Option A → Option A → N} {h h' : A → Option N} {p q : Option A} {l m : List B}

theorem first_append : first addr (l ++ m) q = first addr l (first addr m q) := by
  cases l <;> rfl

theorem last_append : last addr p (l ++ m) = last addr (last addr p l) m := by
  induction l generalizing p with
  | nil => rfl
  | cons b l ih => exact ih

theorem last_mem {a : A} (h : last addr p l = some a) : p = some a ∨ a ∈ l.map addr := by
  induction l generalizing p with
  | nil => exact Or.inl h
  | cons b l ih =>
    rcases ih h with hb | hl
    · exact Or.inr (Option.some.inj hb ▸ List.mem_cons_self)
    · exact Or.inr (List.mem_cons_of_mem _ hl)

theorem seg_append :
    Seg addr node h p (l ++ m) q ↔ Seg addr node h p l (first addr m q) ∧ Seg addr node h (last addr p l) m q := by
  induction l generalizing p with
  | nil => simp [Seg, last]
  | cons b l ih => simp [Seg, last, first_append, ih, and_assoc]

theorem Seg.congr (hs : Seg addr node h p l q) (he : ∀ b ∈ l, h' (addr b) = h (addr b)) : Seg addr node h' p l q := by
  induction l generalizing p with
  | nil => trivial
  | cons b l ih =>
    obtain ⟨hb, hrest⟩ := hs
    exact ⟨(he b (by simp)).trans hb, ih hrest fun c hc => he c (List.mem_cons_of_mem _ hc)⟩

/-- The node of an element, with the links it has. -/
theorem Seg.node_at {b : B} (hs : Seg addr node h p (l ++ b :: m) q) :
    h (addr b) = some (node b (first addr m q) (last addr p l)) := (seg_append.mp hs).2.1

variable [DecidableEq A]

theorem Seg.update_off (hs : Seg addr node h p l q) {a : A} (ha : a ∉ l.map addr) (x : Option N) :
    Seg addr node (update h a x) p l q := by
  refine hs.congr fun b hb => Function.update_of_ne ?_ _ _
  intro e
  exact ha (e ▸ List.mem_map_of_mem hb)

/-- Another content in place. -/
theorem Seg.set {b b' : B} (hs : Seg addr node h p (l ++ b :: m) q) (hn : ((l ++ b :: m).map addr).Nodup)
    (hb : addr b' = addr b) :
    Seg addr node (update h (addr b) (some (node b' (first addr m q) (last addr p l)))) p (l ++ b' :: m) q := by
  rw [List.map_append, List.map_cons, List.nodup_append] at hn
  obtain ⟨-, hbm, hlm⟩ := hn
  obtain ⟨hl, -, hm⟩ := seg_append.mp hs
  rw [seg_append]
  have hbl : addr b ∉ l.map addr := fun hmem => hlm _ hmem _ List.mem_cons_self rfl
  refine ⟨?_, by rw [hb]; exact Function.update_self .., ?_⟩
  · rw [show first addr (b' :: m) q = first addr (b :: m) q from congrArg some hb]
    exact hl.update_off hbl _
  · rw [hb]
    exact hm.update_off (List.nodup_cons.mp hbm).1 _

/-- A new element `c` after the last one, `b`. -/
theorem Seg.snoc {b b' c : B} (hs : Seg addr node h p (l ++ [b]) q) (hn : ((l ++ [b, c]).map addr).Nodup)
    (hb : addr b' = addr b) :
    Seg addr node (update (update h (addr c) (some (node c q (some (addr b))))) (addr b)
      (some (node b' (some (addr c)) (last addr p l)))) p (l ++ [b', c]) q := by
  rw [List.map_append, List.map_cons, List.map_singleton, List.nodup_append] at hn
  obtain ⟨-, hbc, hl⟩ := hn
  have hne : addr c ≠ addr b := fun e => (List.nodup_cons.mp hbc).1 (by rw [e]; simp)
  have hbl : addr b ∉ l.map addr := fun hmem => hl _ hmem _ List.mem_cons_self rfl
  have hcl : addr c ∉ l.map addr := fun hmem => hl _ hmem _ (by simp) rfl
  obtain ⟨hs, -⟩ := seg_append.mp hs
  rw [seg_append]
  refine ⟨?_, by rw [hb]; exact Function.update_self .., ?_, trivial⟩
  · rw [show first addr [b', c] q = first addr [b] q from congrArg some hb]
    exact (hs.update_off hcl _).update_off hbl _
  · rw [Function.update_of_ne hne, Function.update_self, hb]
    rfl

/-- A new element `c` between `b`, which becomes `b'`, and `z`. -/
theorem Seg.insert {b b' c z : B} (hs : Seg addr node h p (l ++ b :: z :: m) q)
    (hn : ((l ++ b :: c :: z :: m).map addr).Nodup) (hb : addr b' = addr b) :
    Seg addr node (update (update (update h (addr c) (some (node c (some (addr z)) (some (addr b))))) (addr b)
      (some (node b' (some (addr c)) (last addr p l)))) (addr z) (some (node z (first addr m q) (some (addr c))))) p
      (l ++ b' :: c :: z :: m) q := by
  rw [List.map_append, List.nodup_append] at hn
  obtain ⟨-, hbm, hl⟩ := hn
  simp only [List.map_cons, List.nodup_cons, List.mem_cons, not_or] at hbm
  obtain ⟨⟨hbc, hbz, hbm⟩, ⟨hcz, hcm⟩, hzm, -⟩ := hbm
  have hbl : addr b ∉ l.map addr := fun hmem => hl _ hmem _ (by simp) rfl
  have hcl : addr c ∉ l.map addr := fun hmem => hl _ hmem _ (by simp) rfl
  have hzl : addr z ∉ l.map addr := fun hmem => hl _ hmem _ (by simp) rfl
  obtain ⟨hs, -, -, hm⟩ := seg_append.mp hs
  rw [seg_append]
  refine ⟨?_, ?_, ?_, Function.update_self .., ?_⟩
  · rw [show first addr (b' :: c :: z :: m) q = first addr (b :: z :: m) q from congrArg some hb]
    exact ((hs.update_off hcl _).update_off hbl _).update_off hzl _
  · rw [hb, Function.update_of_ne hbz, Function.update_self]
    rfl
  · rw [Function.update_of_ne hcz, Function.update_of_ne (Ne.symm hbc), Function.update_self, hb]
    rfl
  · exact ((hm.update_off hcm _).update_off hbm _).update_off hzm _

/-- The last element `y` taken out, its predecessor `x` becoming `x'`. -/
theorem Seg.join_last {x y : B} (hs : Seg addr node h p (l ++ [x, y]) q) (hn : ((l ++ [x, y]).map addr).Nodup) (x' : B)
    (hx : addr x' = addr x) :
    Seg addr node (update h (addr x) (some (node x' q (last addr p l)))) p (l ++ [x']) q := by
  rw [List.map_append, List.map_cons, List.nodup_append] at hn
  have hxl : addr x ∉ l.map addr := fun hmem => hn.2.2 _ hmem _ List.mem_cons_self rfl
  obtain ⟨hs, -⟩ := seg_append.mp hs
  rw [seg_append]
  refine ⟨?_, by rw [hx]; exact Function.update_self .., trivial⟩
  rw [show first addr [x'] q = first addr [x, y] q from congrArg some hx]
  exact hs.update_off hxl _

/-- The element `y` taken out from between `x`, which becomes `x'`, and `z`. -/
theorem Seg.join {x y z : B} (hs : Seg addr node h p (l ++ x :: y :: z :: m) q)
    (hn : ((l ++ x :: y :: z :: m).map addr).Nodup) (x' : B) (hx : addr x' = addr x) :
    Seg addr node (update (update h (addr x) (some (node x' (some (addr z)) (last addr p l)))) (addr z)
      (some (node z (first addr m q) (some (addr x))))) p (l ++ x' :: z :: m) q := by
  rw [List.map_append, List.nodup_append] at hn
  obtain ⟨-, hxm, hl⟩ := hn
  simp only [List.map_cons, List.nodup_cons, List.mem_cons, not_or] at hxm
  obtain ⟨⟨-, hxz, hxm⟩, -, hzm, -⟩ := hxm
  have hxl : addr x ∉ l.map addr := fun hmem => hl _ hmem _ (by simp) rfl
  have hzl : addr z ∉ l.map addr := fun hmem => hl _ hmem _ (by simp) rfl
  obtain ⟨hs, -, -, -, hm⟩ := seg_append.mp hs
  rw [seg_append]
  refine ⟨?_, ?_, by rw [hx]; exact Function.update_self .., ?_⟩
  · rw [show first addr (x' :: z :: m) q = first addr (x :: y :: z :: m) q from congrArg some hx]
    exact (hs.update_off hxl _).update_off hzl _
  · rw [hx, Function.update_of_ne hxz, Function.update_self]
    rfl
  · exact (hm.update_off hxm _).update_off hzm _

end SysProg.Dll
