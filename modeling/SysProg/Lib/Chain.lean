/-
  SysProg.Lib.Chain — singly linked lists in a heap.

  A heap maps addresses to nodes (`none`: nothing allocated there) and `next` reads a
  node's link. `Seg next h p l q` says that following the links from the pointer `p`
  visits exactly the nodes `l`, each with its address, and ends at the pointer `q`; a
  list ends at the null pointer. A segment is determined by where it starts
  (`Seg.functional`), so a list visits no address twice (`Seg.nodup`); it survives any
  change of the heap off its addresses (`Seg.congr`, `Seg.update_off`), and it splits and
  grows at its end (`seg_append`, `seg_snoc`). A list stays one when a node is added at
  its end (`Seg.link`), keeps its link but changes content (`Seg.set`) or is taken out
  (`Seg.unlink_first`, `Seg.unlink`).
-/

import Mathlib.Data.List.Nodup
import Mathlib.Logic.Function.Basic

namespace SysProg.Chain

variable {A N : Type}

/-- The links from `p` visit `l` and end at `q`. -/
def Seg (next : N → Option A) (h : A → Option N) : Option A → List (A × N) → Option A → Prop
  | p, [], q => p = q
  | p, (a, n) :: l, q => p = some a ∧ h a = some n ∧ Seg next h (next n) l q

variable {next : N → Option A} {h h' : A → Option N}

@[simp] theorem seg_nil {p q : Option A} : Seg next h p [] q ↔ p = q := Iff.rfl

@[simp] theorem seg_cons {p q : Option A} {a : A} {n : N} {l : List (A × N)} :
    Seg next h p ((a, n) :: l) q ↔ p = some a ∧ h a = some n ∧ Seg next h (next n) l q := Iff.rfl

theorem seg_append {p q : Option A} {l m : List (A × N)} :
    Seg next h p (l ++ m) q ↔ ∃ r, Seg next h p l r ∧ Seg next h r m q := by
  induction l generalizing p with
  | nil => simp
  | cons x l ih => obtain ⟨a, n⟩ := x; simp [ih, and_assoc]

theorem seg_snoc {p q : Option A} {l : List (A × N)} {a : A} {n : N} :
    Seg next h p (l ++ [(a, n)]) q ↔ Seg next h p l (some a) ∧ h a = some n ∧ next n = q := by
  rw [seg_append]
  constructor
  · rintro ⟨r, hl, rfl, hn, hq⟩; exact ⟨hl, hn, hq⟩
  · intro ⟨hl, hn, hq⟩; exact ⟨some a, hl, rfl, hn, hq⟩

/-- Every visited node is in the heap at its address. -/
theorem Seg.mem {p q : Option A} {l : List (A × N)} (hl : Seg next h p l q) {a : A} {n : N} (hm : (a, n) ∈ l) :
    h a = some n := by
  induction l generalizing p with
  | nil => cases hm
  | cons x l ih =>
    obtain ⟨b, k⟩ := x
    obtain ⟨-, hb, hrest⟩ := hl
    rcases List.mem_cons.mp hm with he | hm
    · cases he; exact hb
    · exact ih hrest hm

theorem Seg.congr {p q : Option A} {l : List (A × N)} (hl : Seg next h p l q)
    (he : ∀ a ∈ l.map Prod.fst, h' a = h a) : Seg next h' p l q := by
  induction l generalizing p with
  | nil => exact hl
  | cons x l ih =>
    obtain ⟨b, k⟩ := x
    obtain ⟨hp, hb, hrest⟩ := hl
    refine ⟨hp, ?_, ih hrest fun a ha => he a (List.mem_cons_of_mem _ ha)⟩
    rw [he b (by simp), hb]

/-- A change of the heap at an address the list does not visit. -/
theorem Seg.update_off [DecidableEq A] {p q : Option A} {l : List (A × N)} (hl : Seg next h p l q) {a : A}
    (ha : a ∉ l.map Prod.fst) (x : Option N) : Seg next (Function.update h a x) p l q := by
  refine hl.congr fun b hb => Function.update_of_ne ?_ _ _
  intro heq
  subst heq
  exact ha hb

/-- A null-terminated list is determined by the pointer it starts at. -/
theorem Seg.functional {p : Option A} {l m : List (A × N)} (hl : Seg next h p l none) (hm : Seg next h p m none) :
    l = m := by
  induction l generalizing p m with
  | nil =>
    cases m with
    | nil => rfl
    | cons y m => cases hl; cases hm.1
  | cons x l ih =>
    obtain ⟨a, n⟩ := x
    obtain ⟨rfl, ha, hrest⟩ := hl
    cases m with
    | nil => cases hm
    | cons y m =>
      obtain ⟨b, k⟩ := y
      obtain ⟨hab, hb, hmrest⟩ := hm
      cases hab
      have hnk : n = k := by rw [ha] at hb; exact Option.some.inj hb
      subst hnk
      rw [ih hrest hmrest]

/-- A null-terminated list visits no address twice. -/
theorem Seg.nodup {p : Option A} {l : List (A × N)} (hl : Seg next h p l none) : (l.map Prod.fst).Nodup := by
  induction l generalizing p with
  | nil => exact List.nodup_nil
  | cons x l ih =>
    obtain ⟨a, n⟩ := x
    refine List.nodup_cons.mpr ⟨fun hm => ?_, ih hl.2.2⟩
    -- a second visit of `a` would start the same list again, strictly shorter
    obtain ⟨⟨b, k⟩, hb, rfl⟩ := List.mem_map.mp hm
    obtain ⟨l₁, l₂, rfl⟩ := List.append_of_mem hb
    obtain ⟨r, -, hr⟩ := seg_append.mp hl.2.2
    obtain ⟨rfl, -, -⟩ := id hr
    have hfull : Seg next h (some b) ((b, n) :: (l₁ ++ (b, k) :: l₂)) none := ⟨rfl, hl.2.1, hl.2.2⟩
    have he := hfull.functional hr
    have := congrArg List.length he
    simp at this
    omega

/-! ## Edits -/

variable [DecidableEq A]

/-- A new node `a` after the last one, `b`. -/
theorem Seg.link {p : Option A} {l : List (A × N)} {b a : A} {n n' m : N} (hs : Seg next h p (l ++ [(b, n)]) none)
    (ha : a ∉ (l ++ [(b, n)]).map Prod.fst) (hn : next n' = some a) (hm : next m = none) :
    Seg next (Function.update (Function.update h b (some n')) a (some m)) p (l ++ [(b, n'), (a, m)]) none := by
  have hnd := hs.nodup
  rw [List.map_append, List.map_singleton, List.nodup_append] at hnd
  rw [List.map_append, List.map_singleton, List.mem_append, List.mem_singleton, not_or] at ha
  obtain ⟨hl, -, -⟩ := seg_snoc.mp hs
  have hbl : b ∉ l.map Prod.fst := fun hmem => hnd.2.2 _ hmem _ (List.mem_singleton_self _) rfl
  have hsplit : l ++ [(b, n'), (a, m)] = (l ++ [(b, n')]) ++ [(a, m)] := by simp
  rw [hsplit, seg_snoc, seg_snoc]
  refine ⟨⟨(hl.update_off hbl _).update_off ha.1 _, ?_, hn⟩, Function.update_self .., hm⟩
  rw [Function.update_of_ne (Ne.symm ha.2)]
  exact Function.update_self ..

/-- Another content in place. -/
theorem Seg.set {p : Option A} {l l' : List (A × N)} {a : A} {m m' : N} (hs : Seg next h p (l ++ (a, m) :: l') none)
    (hm : next m' = next m) : Seg next (Function.update h a (some m')) p (l ++ (a, m') :: l') none := by
  have hnd := hs.nodup
  rw [List.map_append, List.map_cons, List.nodup_append, List.nodup_cons] at hnd
  obtain ⟨-, ⟨hal', -⟩, hl⟩ := hnd
  have hal : a ∉ l.map Prod.fst := fun hmem => hl _ hmem _ (by simp) rfl
  obtain ⟨r, hs, hr, -, hl'⟩ := seg_append.mp hs
  refine seg_append.mpr ⟨r, hs.update_off hal _, hr, Function.update_self .., ?_⟩
  rw [hm]
  exact hl'.update_off hal' _

/-- The first node is taken out. -/
theorem Seg.unlink_first {p : Option A} {l : List (A × N)} {a : A} {m : N} (hs : Seg next h p ((a, m) :: l) none) :
    Seg next (Function.update h a none) (next m) l none :=
  hs.2.2.update_off (List.nodup_cons.mp hs.nodup).1 _

/-- The node `a` after `b` is taken out. -/
theorem Seg.unlink {p : Option A} {l l' : List (A × N)} {b a : A} {n n' m : N}
    (hs : Seg next h p (l ++ (b, n) :: (a, m) :: l') none) (hn : next n' = next m) :
    Seg next (Function.update (Function.update h b (some n')) a none) p (l ++ (b, n') :: l') none := by
  have hnd := hs.nodup
  rw [List.map_append, List.nodup_append] at hnd
  obtain ⟨-, hba, hl⟩ := hnd
  simp only [List.map_cons, List.nodup_cons, List.mem_cons, not_or] at hba
  obtain ⟨⟨hne, hbl'⟩, hal', -⟩ := hba
  have hbl : b ∉ l.map Prod.fst := fun hmem => hl _ hmem _ (by simp) rfl
  have hal : a ∉ l.map Prod.fst := fun hmem => hl _ hmem _ (by simp) rfl
  obtain ⟨r, hs, rfl, -, -, -, hl'⟩ := seg_append.mp hs
  refine seg_append.mpr ⟨some b, (hs.update_off hbl _).update_off hal _, rfl, ?_, ?_⟩
  · rw [Function.update_of_ne hne]
    exact Function.update_self ..
  · rw [hn]
    exact (hl'.update_off hbl' _).update_off hal' _

end SysProg.Chain
