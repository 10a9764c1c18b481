/-
  SysProg.Lib.InPlace — cells that are written in place and read in blocks.

  A writer empties a cell and appends to it until all it has to write is there. A reader
  takes the size of a cell and a first block in one step, and the other blocks one at a time,
  each from where it is. Any of them may be gone at any time, and what it has written stays.
  Nothing keeps a copy, so what a reader gets may be of several versions, or of a part of one.

  `Step` has two rules: a cell is emptied when no one is writing it or is half through
  reading it, and a reader begins with a cell when the one who emptied it last has written
  all. Whatever the order of the steps, a reader then has the size and a first part of all
  that some writer wrote (`reading_whole`), and the rest of it is in the cell until the
  reader has it (`reading_rest`).
-/

import Mathlib.Data.List.Basic
import Mathlib.Logic.Function.Basic
import SysProg.Lib.Run

namespace SysProg.InPlace

open Function (update)

variable {ι α β : Type}

inductive Role (ι β : Type) where
  | idle
  | writing (cell : ι) (whole : List β) (n : Nat)
  | wrote (cell : ι) (whole : List β)
  | reading (cell : ι) (size : Nat) (got : List β)

structure St (ι α β : Type) where
  cells : ι → List β
  role : α → Role ι β
  /-- Who emptied the cell last. -/
  last : ι → Option α
  gone : α → Bool

def St.Writes (s : St ι α β) (a : α) (i : ι) : Prop := s.gone a = false ∧ ∃ whole n, s.role a = .writing i whole n

/-- It has begun with the cell and is not through. -/
def St.Reads (s : St ι α β) (a : α) (i : ι) : Prop :=
  s.gone a = false ∧ ∃ size got, s.role a = .reading i size got ∧ got.length < size

/-- Who emptied a cell last writes it or has written all; who writes it is that one, and what it
    wrote is there; when it has written all, that is in the cell; and a reader has a part of what
    someone has written. -/
structure Sound (s : St ι α β) : Prop where
  emptied : ∀ a i, s.last i = some a → ∃ whole, s.role a = .wrote i whole ∨ ∃ n, s.role a = .writing i whole n
  last : ∀ a i, s.Writes a i → s.last i = some a
  sofar : ∀ a i whole n, s.gone a = false → s.role a = .writing i whole n →
    s.cells i = whole.take n ∧ n ≤ whole.length
  whole : ∀ a i whole, s.last i = some a → s.role a = .wrote i whole → s.cells i = whole
  part : ∀ a i size got, s.role a = .reading i size got → ∃ b whole, s.role b = .wrote i whole ∧
    size = whole.length ∧ got <+: whole ∧ (s.Reads a i → s.last i = some b)

variable {s s' : St ι α β} {a b : α} {i j : ι} {whole : List β} {n : Nat}

theorem Sound.init (h : ∀ a, s.role a = .idle) (hlast : ∀ i, s.last i = none) : Sound s where
  emptied a i hl := by cases hl.symm.trans (hlast i)
  last a i hw := by
    obtain ⟨-, whole, n, hr⟩ := hw
    cases hr.symm.trans (h a)
  sofar a i whole n _ hr := by cases hr.symm.trans (h a)
  whole a i whole _ hr := by cases hr.symm.trans (h a)
  part a i size got hr := by cases hr.symm.trans (h a)

/-- What a reader goes on with. -/
theorem Sound.rest {size : Nat} {got : List β} (h : Sound s) (hr : s.role a = .reading i size got)
    (hread : s.Reads a i) : ∃ b whole, s.role b = .wrote i whole ∧ s.last i = some b ∧ size = whole.length ∧
      s.cells i = whole ∧ whole = got ++ (s.cells i).drop got.length := by
  obtain ⟨b, whole, hb, hsize, hgot, hlast⟩ := h.part a i size got hr
  have hcell := h.whole b i whole (hlast hread) hb
  refine ⟨b, whole, hb, hlast hread, hsize, hcell, ?_⟩
  obtain ⟨t, rfl⟩ := hgot
  rw [hcell, List.drop_left]

/-! ## Steps -/

variable [DecidableEq ι] [DecidableEq α]

inductive Step (s : St ι α β) (a : α) : St ι α β → Prop
  | skip : Step s a s
  | create (i : ι) (whole : List β) : s.role a = .idle → (∀ b, ¬ s.Writes b i) → (∀ b, ¬ s.Reads b i) →
      Step s a ⟨update s.cells i [], update s.role a (.writing i whole 0), update s.last i (some a), s.gone⟩
  | write {i : ι} {whole : List β} {n : Nat} (part rest : List β) : s.gone a = false →
      s.role a = .writing i whole n → whole.drop n = part ++ rest →
      Step s a ⟨update s.cells i (s.cells i ++ part), update s.role a (.writing i whole (n + part.length)), s.last,
        s.gone⟩
  | finish {i : ι} {whole : List β} {n : Nat} : s.gone a = false → s.role a = .writing i whole n →
      Step s a ⟨update s.cells i (s.cells i ++ whole.drop n), update s.role a (.wrote i whole), s.last, s.gone⟩
  | begin {i : ι} {b : α} {whole : List β} (k : Nat) : s.role a = .idle → s.last i = some b →
      s.role b = .wrote i whole →
      Step s a ⟨s.cells, update s.role a (.reading i (s.cells i).length ((s.cells i).take k)), s.last, s.gone⟩
  | read {i : ι} {size : Nat} {got : List β} (k : Nat) : s.gone a = false → s.role a = .reading i size got →
      got.length < size →
      Step s a ⟨s.cells, update s.role a (.reading i size (got ++ ((s.cells i).drop got.length).take k)), s.last,
        s.gone⟩
  | leave : Step s a ⟨s.cells, s.role, s.last, update s.gone a true⟩

def inPlace (ι α β : Type) [DecidableEq ι] [DecidableEq α] : Run.Sys (St ι α β) α :=
  ⟨fun s => (∀ a, s.role a = .idle) ∧ ∀ i, s.last i = none, Step⟩

omit [DecidableEq ι] in
/-- A role that is not the new one of the actor is another's, and as it was. -/
theorem role_other {r r' : Role ι β} (hr : update s.role a r b = r') (hne : r ≠ r') : b ≠ a ∧ s.role b = r' := by
  have hb : b ≠ a := by
    intro e
    subst e
    rw [Function.update_self] at hr
    exact hne hr
  rw [Function.update_of_ne hb] at hr
  exact ⟨hb, hr⟩

/-- The cell is emptied. -/
theorem Sound.create (h : Sound s) (ha : s.role a = .idle) (hwrites : ∀ b, ¬ s.Writes b i)
    (hreads : ∀ b, ¬ s.Reads b i) :
    Sound ⟨update s.cells i [], update s.role a (.writing i whole 0), update s.last i (some a), s.gone⟩ := by
  -- who was at work is another actor, at another cell
  have hbusy : ∀ b, s.role b ≠ .idle → b ≠ a := by
    intro b hb e
    subst e
    exact hb ha
  have hwriter : ∀ b j, s.Writes b j → j ≠ i := by
    intro b j hw e
    subst e
    exact hwrites b hw
  have hreader : ∀ b j, s.Reads b j → j ≠ i := by
    intro b j hr e
    subst e
    exact hreads b hr
  refine ⟨?_, ?_, ?_, ?_, ?_⟩
  · intro b j hl
    dsimp only at hl ⊢
    by_cases hj : j = i
    · subst hj
      rw [Function.update_self] at hl
      cases hl
      exact ⟨whole, Or.inr ⟨0, Function.update_self ..⟩⟩
    · rw [Function.update_of_ne hj] at hl
      have hold := h.emptied b j hl
      have hb : b ≠ a := hbusy b (by rcases hold with ⟨whole', hr | ⟨n, hr⟩⟩ <;> simp [hr])
      rw [Function.update_of_ne hb]
      exact hold
  · intro b j ⟨hgone, whole', n, hr⟩
    dsimp only at hgone hr ⊢
    by_cases hb : b = a
    · subst hb
      rw [Function.update_self] at hr
      cases hr
      exact Function.update_self ..
    · rw [Function.update_of_ne hb] at hr
      have hw : s.Writes b j := ⟨hgone, whole', n, hr⟩
      rw [Function.update_of_ne (hwriter b j hw)]
      exact h.last b j hw
  · intro b j whole' n hgone hr
    dsimp only at hgone hr ⊢
    by_cases hb : b = a
    · subst hb
      rw [Function.update_self] at hr
      cases hr
      exact ⟨Function.update_self .., Nat.zero_le _⟩
    · rw [Function.update_of_ne hb] at hr
      rw [Function.update_of_ne (hwriter b j ⟨hgone, whole', n, hr⟩)]
      exact h.sofar b j whole' n hgone hr
  · intro b j whole' hlast hr
    dsimp only at hlast hr ⊢
    obtain ⟨hb, hold⟩ := role_other hr (by simp)
    have hj : j ≠ i := by
      intro e
      subst e
      rw [Function.update_self] at hlast
      exact hb (Option.some.inj hlast).symm
    rw [Function.update_of_ne hj] at hlast ⊢
    exact h.whole b j whole' hlast hold
  · intro b j size got hr
    obtain ⟨-, hold⟩ := role_other hr (by simp)
    obtain ⟨c, whole', hc, hsize, hgot, hlast⟩ := h.part b j size got hold
    have hca : c ≠ a := hbusy c (by simp [hc])
    refine ⟨c, whole', (Function.update_of_ne hca ..).trans hc, hsize, hgot, ?_⟩
    intro ⟨hgone, size', got', hr', hlt⟩
    cases hr'.symm.trans hr
    have hread : s.Reads b j := ⟨hgone, size, got, hold, hlt⟩
    dsimp only
    rw [Function.update_of_ne (hreader b j hread)]
    exact hlast hread

/-- More is written to the cell, up to all of it. -/
theorem Sound.append {part rest : List β} {r : Role ι β} (h : Sound s) (hgone : s.gone a = false)
    (ha : s.role a = .writing i whole n) (hpart : whole.drop n = part ++ rest)
    (hr : r = .writing i whole (n + part.length) ∨ r = .wrote i whole ∧ rest = []) :
    Sound ⟨update s.cells i (s.cells i ++ part), update s.role a r, s.last, s.gone⟩ := by
  have hlast : s.last i = some a := h.last a i ⟨hgone, whole, n, ha⟩
  obtain ⟨hsofar, hn⟩ := h.sofar a i whole n hgone ha
  have hnow : s.cells i ++ part = whole.take (n + part.length) ∧ n + part.length ≤ whole.length := by
    have hlen := congrArg List.length hpart
    rw [List.length_drop, List.length_append] at hlen
    refine ⟨?_, by omega⟩
    rw [hsofar, List.take_add, hpart, List.take_left]
  -- no one else is writing the cell
  have hother : ∀ b j whole n, b ≠ a → s.gone b = false → s.role b = .writing j whole n → j ≠ i := by
    intro b j whole' n' hb hgone' hr' heq
    subst heq
    exact hb (Option.some.inj ((h.last b j ⟨hgone', whole', n', hr'⟩).symm.trans hlast))
  refine ⟨?_, ?_, ?_, ?_, ?_⟩
  · intro b j hl
    dsimp only at hl ⊢
    by_cases hba : b = a
    · subst hba
      have hj : j = i := by
        rcases h.emptied b j hl with ⟨whole', hold | ⟨n', hold⟩⟩
        · cases hold.symm.trans ha
        · cases hold.symm.trans ha
          rfl
      subst hj
      rw [Function.update_self]
      rcases hr with rfl | ⟨rfl, -⟩
      · exact ⟨whole, Or.inr ⟨_, rfl⟩⟩
      · exact ⟨whole, Or.inl rfl⟩
    · rw [Function.update_of_ne hba]
      exact h.emptied b j hl
  · intro b j ⟨hgone', whole', n', hb⟩
    dsimp only at hgone' hb ⊢
    by_cases hba : b = a
    · subst hba
      rw [Function.update_self] at hb
      subst hb
      rcases hr with hr | ⟨hr, -⟩
      · cases hr
        exact hlast
      · cases hr
    · rw [Function.update_of_ne hba] at hb
      exact h.last b j ⟨hgone', whole', n', hb⟩
  · intro b j whole' n' hgone' hb
    dsimp only at hgone' hb ⊢
    by_cases hba : b = a
    · subst hba
      rw [Function.update_self] at hb
      subst hb
      rcases hr with hr | ⟨hr, -⟩
      · cases hr
        rw [Function.update_self]
        exact hnow
      · cases hr
    · rw [Function.update_of_ne hba] at hb
      rw [Function.update_of_ne (hother b j whole' n' hba hgone' hb)]
      exact h.sofar b j whole' n' hgone' hb
  · intro b j whole' hlast' hb
    dsimp only at hlast' hb ⊢
    by_cases hba : b = a
    · subst hba
      rw [Function.update_self] at hb
      subst hb
      rcases hr with hr | ⟨hr, hrest⟩
      · cases hr
      · cases hr
        rw [Function.update_self, hsofar, ← List.append_nil part, ← hrest, ← hpart, List.take_append_drop]
    · rw [Function.update_of_ne hba] at hb
      have hj : j ≠ i := by
        intro e
        subst e
        exact hba (Option.some.inj (hlast'.symm.trans hlast))
      rw [Function.update_of_ne hj]
      exact h.whole b j whole' hlast' hb
  · intro b j size got hb
    obtain ⟨-, hold⟩ := role_other hb (by rcases hr with rfl | ⟨rfl, -⟩ <;> simp)
    obtain ⟨c, whole', hc, hsize, hgot, hread⟩ := h.part b j size got hold
    have hca : c ≠ a := by
      intro e
      subst e
      cases hc.symm.trans ha
    refine ⟨c, whole', (Function.update_of_ne hca ..).trans hc, hsize, hgot, ?_⟩
    intro ⟨hgone', size', got', hr', hlt⟩
    cases hr'.symm.trans hb
    exact hread ⟨hgone', size, got, hold, hlt⟩

omit [DecidableEq ι] in
/-- An actor comes to have read a part of what the last who emptied the cell has written. -/
theorem Sound.reads {size : Nat} {got : List β} (h : Sound s)
    (hbefore : s.role a = .idle ∨ ∃ j size got, s.role a = .reading j size got)
    (hb : s.role b = .wrote i whole) (hlast : s.last i = some b) (hsize : size = whole.length) (hgot : got <+: whole) :
    Sound ⟨s.cells, update s.role a (.reading i size got), s.last, s.gone⟩ := by
  have hkept : ∀ d j whole n, (s.role d = .wrote j whole ∨ s.role d = .writing j whole n) →
      update s.role a (.reading i size got) d = s.role d := by
    intro d j whole n hd
    refine Function.update_of_ne ?_ ..
    intro e
    subst e
    rcases hbefore with ha | ⟨_, _, _, ha⟩ <;> rcases hd with hd | hd <;> cases hd.symm.trans ha
  refine ⟨?_, ?_, ?_, ?_, ?_⟩
  · intro c j hl
    obtain ⟨whole', hc | ⟨n, hc⟩⟩ := h.emptied c j hl
    · exact ⟨whole', Or.inl ((hkept c j whole' 0 (Or.inl hc)).trans hc)⟩
    · exact ⟨whole', Or.inr ⟨n, (hkept c j whole' n (Or.inr hc)).trans hc⟩⟩
  · intro c j ⟨hgone, whole', n, hr⟩
    obtain ⟨-, hold⟩ := role_other hr (by simp)
    exact h.last c j ⟨hgone, whole', n, hold⟩
  · intro c j whole' n hgone hr
    obtain ⟨-, hold⟩ := role_other hr (by simp)
    exact h.sofar c j whole' n hgone hold
  · intro c j whole' hlast' hr
    obtain ⟨-, hold⟩ := role_other hr (by simp)
    exact h.whole c j whole' hlast' hold
  · intro c j size' got' hr
    dsimp only at hr ⊢
    by_cases hca : c = a
    · subst hca
      rw [Function.update_self] at hr
      cases hr
      exact ⟨b, whole, (hkept b i whole 0 (Or.inl hb)).trans hb, hsize, hgot, fun _ => hlast⟩
    · rw [Function.update_of_ne hca] at hr
      obtain ⟨d, whole', hd, hsize', hgot', hread⟩ := h.part c j size' got' hr
      refine ⟨d, whole', (hkept d j whole' 0 (Or.inl hd)).trans hd, hsize', hgot', ?_⟩
      intro ⟨hgone, size'', got'', hr', hlt⟩
      dsimp only at hgone hr'
      rw [Function.update_of_ne hca] at hr'
      exact hread ⟨hgone, size'', got'', hr', hlt⟩

omit [DecidableEq ι] in
theorem Sound.leave (h : Sound s) : Sound ⟨s.cells, s.role, s.last, update s.gone a true⟩ := by
  have hstill : ∀ b, update s.gone a true b = false → s.gone b = false := by
    intro b hb
    rw [Function.update_of_ne ?_] at hb
    · exact hb
    · intro e
      subst e
      rw [Function.update_self] at hb
      cases hb
  refine ⟨h.emptied, ?_, fun b j whole n hgone hr => h.sofar b j whole n (hstill b hgone) hr, h.whole, ?_⟩
  · intro b j ⟨hgone, hr⟩
    exact h.last b j ⟨hstill b hgone, hr⟩
  · intro b j size got hr
    obtain ⟨c, whole, hc, hsize, hgot, hread⟩ := h.part b j size got hr
    exact ⟨c, whole, hc, hsize, hgot, fun ⟨hgone, hmid⟩ => hread ⟨hstill b hgone, hmid⟩⟩

theorem Step.sound (hs : Step s a s') (h : Sound s) : Sound s' := by
  cases hs with
  | skip => exact h
  | create i whole ha hwrites hreads => exact h.create ha hwrites hreads
  | write part rest hgone ha hpart => exact h.append hgone ha hpart (Or.inl rfl)
  | finish hgone ha => exact h.append hgone ha (List.append_nil _).symm (Or.inr ⟨rfl, rfl⟩)
  | begin k ha hlast hb =>
    rw [h.whole _ _ _ hlast hb]
    exact h.reads (Or.inl ha) hb hlast rfl (List.take_prefix _ _)
  | read k hgone ha hlt =>
    obtain ⟨b, whole, hb, hlast, hsize, hcell, hsplit⟩ := h.rest ha ⟨hgone, _, _, ha, hlt⟩
    refine h.reads (Or.inr ⟨_, _, _, ha⟩) hb hlast hsize ?_
    conv => rhs; rw [hsplit]
    exact (List.prefix_append_right_inj _).mpr (List.take_prefix _ _)
  | leave => exact h.leave

theorem reach_sound (h : (inPlace ι α β).Reach s) : Sound s := by
  refine Run.Sys.Reach.inv (I := Sound) ?_ (fun _ _ _ hi hs => Step.sound hs hi) h
  intro s ⟨hrole, hlast⟩
  exact .init hrole hlast

/-- A reader has the size and a first part of all that some writer wrote. -/
theorem reading_whole {size : Nat} {got : List β} (h : (inPlace ι α β).Reach s) (ha : s.role a = .reading i size got) :
    ∃ b whole, s.role b = .wrote i whole ∧ size = whole.length ∧ got <+: whole := by
  obtain ⟨b, whole, hb, hsize, hgot, -⟩ := (reach_sound h).part a i size got ha
  exact ⟨b, whole, hb, hsize, hgot⟩

/-- And the rest is still there. -/
theorem reading_rest {size : Nat} {got : List β} (h : (inPlace ι α β).Reach s) (hgone : s.gone a = false)
    (ha : s.role a = .reading i size got) (hlt : got.length < size) : (s.cells i).length = size := by
  obtain ⟨b, whole, -, -, hsize, hcell, -⟩ := (reach_sound h).rest ha ⟨hgone, size, got, ha, hlt⟩
  rw [hcell, hsize]

end SysProg.InPlace
