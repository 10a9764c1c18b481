/-
  SysProg.Lib.Pipe — pipes with what goes through them.

  A `Pipe` has what was read from it and what is still inside, in the order in which it was
  written. Reading moves the first part of the one to the end of the other, so `all` of it
  only changes by a write. `Handed` says of a writer that it has handed over a first part
  of a text, with so much left. Where several writers share a pipe each element has its
  writer, and `from_` is what one of them wrote.
-/

import Mathlib.Data.List.Basic

namespace SysProg.Lib

structure Pipe (α : Type) where
  taken : List α
  inside : List α

namespace Pipe

variable {α ι : Type} [DecidableEq ι] {p : Pipe α} {l text sent : List α} {k left : Nat} {i j : ι}

def empty : Pipe α := ⟨[], []⟩

def write (p : Pipe α) (l : List α) : Pipe α := { p with inside := p.inside ++ l }

def read (p : Pipe α) (k : Nat) : Pipe α := ⟨p.taken ++ p.inside.take k, p.inside.drop k⟩

def all (p : Pipe α) : List α := p.taken ++ p.inside

@[simp] theorem write_taken : (p.write l).taken = p.taken := rfl

@[simp] theorem write_inside : (p.write l).inside = p.inside ++ l := rfl

@[simp] theorem write_nil : p.write [] = p := by
  unfold write
  rw [List.append_nil]

@[simp] theorem read_zero : p.read 0 = p := by
  unfold read
  rw [List.take_zero, List.drop_zero, List.append_nil]

@[simp] theorem all_write : (p.write l).all = p.all ++ l := (List.append_assoc ..).symm

@[simp] theorem all_read : (p.read k).all = p.all := by
  unfold read all
  rw [List.append_assoc, List.take_append_drop]

theorem length_inside_read : (p.read k).inside.length = p.inside.length - k := List.length_drop

theorem taken_first : p.taken <+: p.all := List.prefix_append _ _

theorem taken_eq_all (h : p.inside = []) : p.taken = p.all := by
  unfold all
  rw [h, List.append_nil]

/-! ## Writers -/

/-- What was handed over of a text, with `left` more to come. -/
def Handed (sent text : List α) (left : Nat) : Prop := ∃ rest, sent ++ rest = text ∧ rest.length = left

theorem Handed.start : Handed [] text text.length := ⟨text, rfl, rfl⟩

theorem Handed.isFirst (h : Handed sent text left) : sent <+: text := by
  obtain ⟨rest, hrest, _⟩ := h
  exact ⟨rest, hrest⟩

theorem Handed.done (h : Handed sent text 0) : sent = text := by
  obtain ⟨rest, hrest, hlen⟩ := h
  rw [List.length_eq_zero_iff.mp hlen, List.append_nil] at hrest
  exact hrest

/-- The next `k` of the text. -/
theorem Handed.more (h : Handed sent text left) (k : Nat) :
    Handed (sent ++ (text.drop sent.length).take k) text (left - k) := by
  obtain ⟨rest, rfl, hlen⟩ := h
  refine ⟨rest.drop k, ?_, ?_⟩
  · rw [List.drop_left, List.append_assoc, List.take_append_drop]
  · rw [List.length_drop, hlen]

theorem Handed.length_next (h : Handed sent text left) (hk : k ≤ left) :
    ((text.drop sent.length).take k).length = k := by
  obtain ⟨rest, rfl, hlen⟩ := h
  rw [List.drop_left, List.length_take]
  omega

/-! ## Several writers -/

def from_ (i : ι) (l : List (ι × α)) : List α := (l.filter fun x => x.1 = i).map Prod.snd

theorem from_append (i : ι) (l l' : List (ι × α)) : from_ i (l ++ l') = from_ i l ++ from_ i l' := by
  unfold from_
  rw [List.filter_append, List.map_append]

theorem from_self (i : ι) (l : List α) : from_ i (l.map fun x => (i, x)) = l := by
  unfold from_
  rw [List.filter_eq_self.mpr (by simp), List.map_map]
  exact List.map_id l

theorem from_other (h : j ≠ i) (l : List α) : from_ j (l.map fun x => (i, x)) = [] := by
  unfold from_
  rw [List.filter_eq_nil_iff.mpr (by simp [Ne.symm h]), List.map_nil]

theorem from_first {l l' : List (ι × α)} (h : l <+: l') : from_ i l <+: from_ i l' := by
  obtain ⟨rest, rfl⟩ := h
  rw [from_append]
  exact List.prefix_append _ _

end Pipe

end SysProg.Lib
