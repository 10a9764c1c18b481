/-
  SysProg.Net.FileMap — the server's directory as a map from names to contents.

  `Rep C fs m` says that the files of the server are those of `m`: every path is that of a
  valid name, no two paths share an inode, inodes in use are below the next one, and what
  is in the file of a name is what `m` says. `Rep.put` and `Rep.remove` keep it;
  `Rep.mem_names` and `Rep.names_nodup` say that a listing has the names of `m`, once each.
-/

import Mathlib.Data.List.Nodup
import SysProg.Net.Requests

namespace SysProg.Net

open Function (update)

variable {C : Config} {fs : Fs} {p q name : Text} {i j : Nat}

/-! ## Paths -/

theorem path_inj {name name' : Text} (h : path C name = path C name') : name = name' := by
  rw [← path_drop C name, h, path_drop]

theorem ValidName.requestFilename (h : ValidName name) : requestFilename name = name := by
  apply List.take_of_length_le
  have hlen := h.length
  unfold maxFilename
  omega

/-! ## Inodes -/

theorem inode_mem (h : fs.inode p = some i) : (p, i) ∈ fs.dir := by
  rcases List.lookup_eq_some_iff.mp h with ⟨l, l', hl, _⟩
  rw [hl]
  simp

theorem inode_of_mem (h : (p, i) ∈ fs.dir) : fs.inode p ≠ none := by
  intro hn
  have hne := List.lookup_eq_none_iff.mp hn _ h
  rw [bne_self_eq_false] at hne
  cases hne

theorem lookup_filter_ne {l : List (Text × Nat)} :
    (l.filter fun e => e.1 ≠ p).lookup q = if q = p then none else l.lookup q := by
  induction l with
  | nil => simp
  | cons e l ih =>
    by_cases he : e.1 = p
    · rw [List.filter_cons_of_neg (by simpa using he), ih, List.lookup_cons, he]
      by_cases hq : q = p
      · rw [if_pos hq, if_pos hq]
      · have hne : (q == p) = false := by simpa using hq
        rw [if_neg hq, if_neg hq, hne]
    · rw [List.filter_cons_of_pos (by simpa using he), List.lookup_cons, List.lookup_cons, ih]
      by_cases hq : q = p
      · have hne : (q == e.1) = false := by
          rw [hq]
          simpa using fun h => he h.symm
        simp only [hne, if_pos hq]
      · rw [if_neg hq, if_neg hq]

theorem inode_remove : (fs.remove p).inode q = if q = p then none else fs.inode q := lookup_filter_ne

/-- Creating a file gives its path an inode, which it may have had, and empties it. -/
structure Creates (fs : Fs) (p : Text) (fs' : Fs) (i : Nat) : Prop where
  inode : ∀ q, fs'.inode q = if q = p then some i else fs.inode q
  dir : (fs'.dir = fs.dir ∧ fs.inode p = some i) ∨ (fs'.dir = fs.dir ++ [(p, i)] ∧ fs.inode p = none ∧ i = fs.next)
  data : ∀ j, j ≠ i → fs'.data j = fs.data j
  next : fs.next ≤ fs'.next
  fresh : fs.inode p = none → i < fs'.next

theorem create_spec (fs : Fs) (p : Text) : Creates fs p (fs.create p).1 (fs.create p).2 := by
  unfold Fs.create
  cases h : fs.inode p with
  | some i =>
    refine ⟨?_, Or.inl ⟨rfl, h⟩, ?_, Nat.le_refl _, ?_⟩
    · intro q
      by_cases hq : q = p
      · rw [if_pos hq, hq]
        exact h
      · rw [if_neg hq]
        rfl
    · intro j hj
      exact Function.update_of_ne hj ..
    · intro hn
      rw [h] at hn
      cases hn
  | none =>
    refine ⟨?_, Or.inr ⟨rfl, h, rfl⟩, ?_, Nat.le_succ _, fun _ => Nat.lt_succ_self _⟩
    · intro q
      unfold Fs.inode at h ⊢
      dsimp only
      rw [List.lookup_append, List.lookup_cons]
      by_cases hq : q = p
      · rw [if_pos hq, hq, h, Option.none_or, beq_self_eq_true]
      · have hne : (q == p) = false := by simpa using hq
        rw [if_neg hq, hne]
        exact Option.or_none
    · intro j hj
      exact Function.update_of_ne hj ..

/-! ## The map -/

abbrev Files := Text → Option Text

structure Rep (C : Config) (fs : Fs) (m : Files) : Prop where
  valid : ∀ e ∈ fs.dir, ∃ name, ValidName name ∧ e.1 = path C name
  keys : (fs.dir.map Prod.fst).Nodup
  distinct : ∀ p q i, fs.inode p = some i → fs.inode q = some i → p = q
  fresh : ∀ p i, fs.inode p = some i → i < fs.next
  contents : ∀ name, (fs.inode (path C name)).map fs.data = m name
  bound : ∀ name file, m name = some file → file.length < 2 ^ 63

variable {m : Files}

/-- The directory is empty at first. -/
theorem Rep.empty : Rep C Fs.empty fun _ => none where
  valid := by simp [Fs.empty]
  keys := List.nodup_nil
  distinct := by simp [Fs.empty, Fs.inode]
  fresh := by simp [Fs.empty, Fs.inode]
  contents := by simp [Fs.empty, Fs.inode]
  bound := by simp

/-- The inode that a path is given is no other path's. -/
theorem Rep.create_other {fs' : Fs} (h : Rep C fs m) (hc : Creates fs p fs' i) (hq : q ≠ p) (hj : fs.inode q = some j) :
    j ≠ i := by
  intro e
  rw [e] at hj
  rcases hc.dir with ⟨_, hi⟩ | ⟨_, _, hi⟩
  · exact hq (h.distinct _ _ _ hj hi)
  · have hlt := h.fresh _ _ hj
    omega

theorem Rep.put {fs' : Fs} {contents : Text} (h : Rep C fs m) (hv : ValidName name) (hmax : contents.length < 2 ^ 63)
    (hc : Creates fs (path C name) fs' i) :
    Rep C { fs' with data := update fs'.data i contents } (update m name (some contents)) where
  valid := by
    intro e he
    rcases hc.dir with ⟨hd, _⟩ | ⟨hd, _, _⟩
    · rw [hd] at he
      exact h.valid e he
    · rw [hd] at he
      rcases List.mem_append.mp he with he | he
      · exact h.valid e he
      · rw [List.mem_singleton.mp he]
        exact ⟨name, hv, rfl⟩
  keys := by
    rcases hc.dir with ⟨hd, _⟩ | ⟨hd, hn, _⟩
    · rw [hd]
      exact h.keys
    · dsimp only
      rw [hd, List.map_append, List.nodup_append]
      refine ⟨h.keys, List.nodup_singleton _, ?_⟩
      intro a ha b hb hab
      rcases List.mem_map.mp ha with ⟨e, he, hea⟩
      refine inode_of_mem (p := path C name) (i := e.2) ?_ hn
      have hpath : path C name = e.1 := by
        rw [hea, hab]
        exact (List.mem_singleton.mp hb).symm
      rw [hpath]
      exact he
  distinct := by
    intro p q j hp hq
    have hp' := (hc.inode p).symm.trans hp
    have hq' := (hc.inode q).symm.trans hq
    by_cases hpn : p = path C name
    · by_cases hqn : q = path C name
      · rw [hpn, hqn]
      · rw [if_pos hpn] at hp'
        rw [if_neg hqn] at hq'
        exact absurd (Option.some.inj hp').symm (h.create_other hc hqn hq')
    · by_cases hqn : q = path C name
      · rw [if_neg hpn] at hp'
        rw [if_pos hqn] at hq'
        exact absurd (Option.some.inj hq').symm (h.create_other hc hpn hp')
      · rw [if_neg hpn] at hp'
        rw [if_neg hqn] at hq'
        exact h.distinct p q j hp' hq'
  fresh := by
    intro p j hp
    have hp' := (hc.inode p).symm.trans hp
    by_cases hpn : p = path C name
    · rw [if_pos hpn] at hp'
      rw [← Option.some.inj hp']
      rcases hc.dir with ⟨_, hi⟩ | ⟨_, hn, _⟩
      · exact Nat.lt_of_lt_of_le (h.fresh _ _ hi) hc.next
      · exact hc.fresh hn
    · rw [if_neg hpn] at hp'
      exact Nat.lt_of_lt_of_le (h.fresh _ _ hp') hc.next
  contents := by
    intro other
    have hin := hc.inode (path C other)
    by_cases ho : other = name
    · rw [ho, if_pos rfl] at hin
      show (fs'.inode (path C other)).map _ = _
      rw [ho, hin, Function.update_self]
      exact congrArg some (Function.update_self ..)
    · have hne : path C other ≠ path C name := fun e => ho (path_inj e)
      rw [if_neg hne] at hin
      rw [Function.update_of_ne ho, ← h.contents other]
      show (fs'.inode (path C other)).map _ = _
      rw [hin]
      cases hj : fs.inode (path C other) with
      | none => rfl
      | some j =>
        have hji := h.create_other hc hne hj
        exact congrArg some ((Function.update_of_ne hji ..).trans (hc.data j hji))
  bound := by
    intro other file hf
    by_cases ho : other = name
    · rw [ho, Function.update_self] at hf
      rw [← Option.some.inj hf]
      exact hmax
    · rw [Function.update_of_ne ho] at hf
      exact h.bound other file hf

theorem Rep.remove (h : Rep C fs m) : Rep C (fs.remove (path C name)) (update m name none) where
  valid := by
    intro e he
    exact h.valid e (List.mem_of_mem_filter he)
  keys := h.keys.sublist (List.filter_sublist.map _)
  distinct := by
    intro p q j hp hq
    rw [inode_remove, Option.ite_none_left_eq_some] at hp hq
    exact h.distinct p q j hp.2 hq.2
  fresh := by
    intro p j hp
    rw [inode_remove, Option.ite_none_left_eq_some] at hp
    exact h.fresh p j hp.2
  contents := by
    intro other
    rw [inode_remove]
    by_cases ho : other = name
    · rw [ho, if_pos rfl, Function.update_self]
      rfl
    · rw [if_neg fun e => ho (path_inj e), Function.update_of_ne ho]
      exact h.contents other
  bound := by
    intro other file hf
    by_cases ho : other = name
    · rw [ho, Function.update_self] at hf
      cases hf
    · rw [Function.update_of_ne ho] at hf
      exact h.bound other file hf

/-- The file of a name, there or not. -/
theorem Rep.file (h : Rep C fs m) (hi : fs.inode (path C name) = some i) : m name = some (fs.data i) := by
  rw [← h.contents name, hi]
  rfl

theorem Rep.noFile (h : Rep C fs m) (hi : fs.inode (path C name) = none) : m name = none := by
  rw [← h.contents name, hi]
  rfl

/-! ## Listings -/

theorem Rep.names_valid (h : Rep C fs m) (hn : name ∈ fs.names C) : ValidName name := by
  rcases List.mem_map.mp hn with ⟨e, he, hdrop⟩
  rcases h.valid e he with ⟨name', hv, hpath⟩
  rw [hpath, path_drop] at hdrop
  exact hdrop ▸ hv

theorem Rep.mem_names (h : Rep C fs m) : name ∈ fs.names C ↔ m name ≠ none := by
  constructor
  · intro hn hnone
    rcases List.mem_map.mp hn with ⟨e, he, hdrop⟩
    rcases h.valid e he with ⟨name', _, hpath⟩
    rw [hpath, path_drop] at hdrop
    rw [hdrop] at hpath
    rw [← h.contents name, Option.map_eq_none_iff] at hnone
    refine inode_of_mem (i := e.2) ?_ hnone
    rw [← hpath]
    exact he
  · intro hn
    rw [← h.contents name] at hn
    have hin : fs.inode (path C name) ≠ none := fun e => hn (by rw [e]; rfl)
    rcases Option.ne_none_iff_exists'.mp hin with ⟨i, hi⟩
    exact List.mem_map.mpr ⟨_, inode_mem hi, path_drop C name⟩

theorem Rep.names_nodup (h : Rep C fs m) : (fs.names C).Nodup := by
  have hnames : fs.names C = (fs.dir.map Prod.fst).map fun p => p.drop (C.tempDirectory.length + 1) := by
    rw [List.map_map]
    rfl
  rw [hnames]
  apply h.keys.map_on
  intro p hp q hq hpq
  rcases List.mem_map.mp hp with ⟨e, he, hep⟩
  rcases List.mem_map.mp hq with ⟨f, hf, hfq⟩
  rcases h.valid e he with ⟨name, _, hname⟩
  rcases h.valid f hf with ⟨name', _, hname'⟩
  rw [← hep, ← hfq, hname, hname', path_drop, path_drop] at hpq
  rw [← hep, ← hfq, hname, hname', hpq]

end SysProg.Net
