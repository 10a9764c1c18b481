/-
  SysProg.Lib.Loop — loops over a state.

  `forUp body n i` runs `body` at `i`, `i + 1`, .., `i + n - 1`, `forDown body low n` at
  `low + n`, .., `low + 1`; either stops at the first failure. A loop invariant is
  indexed by the next index to run. `forUp_total` and `forDown_total` show that the
  loop ends without failing and establish the invariant at its end; `forUp_inv` and
  `forDown_inv` assume that it ended. A loop over a list whose steps are all in a
  preorder, and whose results for each element last along it, has them all at the end
  (`foldl_each`).
-/

import Mathlib.Tactic.Common

namespace SysProg.Loop

variable {ε σ : Type}

def forUp (body : Nat → σ → Except ε σ) : Nat → Nat → σ → Except ε σ
  | 0, _, s => .ok s
  | n + 1, i, s => (body i s).bind (forUp body n (i + 1))

def forDown (body : Nat → σ → Except ε σ) (low : Nat) : Nat → σ → Except ε σ
  | 0, s => .ok s
  | n + 1, s => (body (low + n + 1) s).bind (forDown body low n)

theorem bind_ok {α β : Type} {x : Except ε α} {f : α → Except ε β} {b : β} :
    x.bind f = .ok b ↔ ∃ a, x = .ok a ∧ f a = .ok b := by
  cases x <;> simp [Except.bind]

variable {f : Nat → σ → Except ε σ} {P : Nat → σ → Prop}

theorem forUp_total {n i : Nat} {s : σ}
    (hbody : ∀ k t, i ≤ k → k < i + n → P k t → ∃ t', f k t = .ok t' ∧ P (k + 1) t') (h : P i s) :
    ∃ t, forUp f n i s = .ok t ∧ P (i + n) t := by
  induction n generalizing i s with
  | zero => exact ⟨s, rfl, h⟩
  | succ n ih =>
    obtain ⟨t, ht, hP⟩ := hbody i s (by omega) (by omega) h
    obtain ⟨u, hu, hPu⟩ := ih (fun k t hk hlt => hbody k t (by omega) (by omega)) hP
    exact ⟨u, bind_ok.mpr ⟨t, ht, hu⟩, by rwa [show i + (n + 1) = i + 1 + n by omega]⟩

theorem forUp_inv {n i : Nat} {s u : σ} (hrun : forUp f n i s = .ok u)
    (hbody : ∀ k t t', i ≤ k → k < i + n → P k t → f k t = .ok t' → P (k + 1) t') (h : P i s) : P (i + n) u := by
  induction n generalizing i s with
  | zero => cases hrun; exact h
  | succ n ih =>
    obtain ⟨t, ht, hrest⟩ := bind_ok.mp hrun
    have := ih hrest (fun k t t' hk hlt => hbody k t t' (by omega) (by omega)) (hbody i s t (by omega) (by omega) h ht)
    rwa [show i + (n + 1) = i + 1 + n by omega]

/-- The invariant of a descending loop is indexed by the index it runs next. -/
theorem forDown_total {l n : Nat} {s : σ}
    (hbody : ∀ k t, l < k → k ≤ l + n → P k t → ∃ t', f k t = .ok t' ∧ P (k - 1) t') (h : P (l + n) s) :
    ∃ t, forDown f l n s = .ok t ∧ P l t := by
  induction n generalizing s with
  | zero => exact ⟨s, rfl, h⟩
  | succ n ih =>
    obtain ⟨t, ht, hP⟩ := hbody (l + n + 1) s (by omega) (by omega) h
    obtain ⟨u, hu, hPu⟩ := ih (fun k t hk hle => hbody k t hk (by omega)) hP
    exact ⟨u, bind_ok.mpr ⟨t, ht, hu⟩, hPu⟩

theorem forDown_inv {l n : Nat} {s u : σ} (hrun : forDown f l n s = .ok u)
    (hbody : ∀ k t t', l < k → k ≤ l + n → P k t → f k t = .ok t' → P (k - 1) t') (h : P (l + n) s) :
    P l u := by
  induction n generalizing s with
  | zero => cases hrun; exact h
  | succ n ih =>
    obtain ⟨t, ht, hrest⟩ := bind_ok.mp hrun
    exact ih hrest (fun k t t' hk hle => hbody k t t' hk (by omega)) (hbody _ s t (by omega) (by omega) h ht)

/-- What the body does for an element (`D`) along steps that are in the preorder `R`. -/
theorem foldl_each {α : Type} {f : σ → α → σ} {R : σ → σ → Prop} {D : α → σ → Prop} {s : σ} (hrefl : R s s)
    (htrans : ∀ t u, R s t → R t u → R s u) (hbody : ∀ t a, R s t → R t (f t a) ∧ D a (f t a))
    (hlast : ∀ t u a, R t u → D a t → D a u) (l : List α) : R s (l.foldl f s) ∧ ∀ a ∈ l, D a (l.foldl f s) := by
  suffices h : ∀ t, R s t → ∀ P : α → Prop, (∀ a, P a → D a t) →
      R s (l.foldl f t) ∧ ∀ a, P a ∨ a ∈ l → D a (l.foldl f t) by
    rcases h s hrefl (fun _ => False) (fun _ hf => hf.elim) with ⟨hR, hD⟩
    exact ⟨hR, fun a ha => hD a (Or.inr ha)⟩
  induction l with
  | nil =>
    intro t ht P hP
    refine ⟨ht, ?_⟩
    intro a ha
    rcases ha with ha | ha
    · exact hP a ha
    · cases ha
  | cons b l ih =>
    intro t ht P hP
    rcases hbody t b ht with ⟨hstep, hD⟩
    rcases ih (f t b) (htrans t _ ht hstep) (fun a => P a ∨ a = b) (by
      intro a ha
      rcases ha with ha | ha
      · exact hlast t _ a hstep (hP a ha)
      · exact ha ▸ hD) with ⟨hR, hall⟩
    refine ⟨hR, ?_⟩
    intro a ha
    apply hall a
    rcases ha with ha | ha
    · exact Or.inl (Or.inl ha)
    · rcases List.mem_cons.mp ha with ha | ha
      · exact Or.inl (Or.inr ha)
      · exact Or.inr ha

end SysProg.Loop
