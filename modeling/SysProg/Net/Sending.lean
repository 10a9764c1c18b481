/-
  SysProg.Net.Sending — what `sendall` hands to the socket.

  `Socket` gives what each `send` of a connection comes to, one after the other: a failure,
  or a count from one to the number of bytes it was asked to take. `sendallTurns` is the loop
  of `sendall` on a socket; it may go on for ever, so it has a result only when the turns
  are enough (with `sendallTurns_eq` the `sendall` of `SysProg.Net.Common`).

  A count that is short of what was asked is not added to `total`, so the bytes taken are
  sent again. `hands_prefix_iff`: `sendall` hands over a first part of its buffer, and
  returns its length, exactly when no `send` up to the first that fails is cut short.
-/

import SysProg.Net.Common

namespace SysProg.Net

structure Socket where
  /-- What the `i`-th `send` takes of `n` bytes; nothing when it fails. -/
  send : Nat → Nat → Option Nat
  bounds : ∀ {i n k}, send i n = some k → 1 ≤ k ∧ k ≤ n

def Socket.next (s : Socket) : Socket := ⟨fun i => s.send (i + 1), s.bounds⟩

/-- What one call of `sendall` comes to. -/
structure Handed where
  taken : Text
  value : Nat
  socket : Socket

def sendallTurns : Nat → Socket → Text → Option Handed
  | 0, _, _ => none
  | turns + 1, s, buf =>
    if buf = [] then some ⟨[], 0, s⟩
    else
      let tryToSend := min buf.length dataSize
      match s.send 0 tryToSend with
      | none => some ⟨[], 0, s.next⟩
      | some n =>
        if n ≠ tryToSend then
          (sendallTurns turns s.next buf).map fun h => { h with taken := buf.take n ++ h.taken }
        else
          (sendallTurns turns s.next (buf.drop n)).map fun h =>
            { h with taken := buf.take n ++ h.taken, value := n + h.value }

variable {s : Socket} {buf : Text} {turns : Nat} {h : Handed}

theorem sendallTurns_eq {results : List (Option Nat)}
    (hs : ∀ i n, 0 < n → s.send i n = (results[i]?).getD (some n)) (hr : sendallTurns turns s buf = some h) :
    sendall turns results buf = (h.taken, h.value) := by
  induction turns generalizing s results buf h with
  | zero => cases hr
  | succ turns ih =>
    unfold sendallTurns at hr
    unfold sendall
    split at hr
    · rename_i hnil
      cases hr
      rw [if_pos hnil]
    · rename_i hne
      have hpos := List.length_pos_iff.mpr hne
      have hhead : results.headD (some (min buf.length dataSize)) = s.send 0 (min buf.length dataSize) := by
        rw [hs 0 _ (by unfold dataSize; omega)]
        cases results <;> rfl
      have htail : ∀ i n, 0 < n → s.next.send i n = (results.tail[i]?).getD (some n) := by
        intro i n hn
        rw [List.getElem?_tail]
        exact hs (i + 1) n hn
      rw [if_neg hne]
      dsimp only at hr ⊢
      rw [hhead]
      cases hn : s.send 0 (min buf.length dataSize) with
      | none =>
        rw [hn] at hr
        cases hr
        rfl
      | some n =>
        rw [hn] at hr
        dsimp only at hr ⊢
        split at hr
        · rename_i hshort
          rcases Option.map_eq_some_iff.mp hr with ⟨h', hr', e⟩
          cases e
          rw [if_pos hshort, ih htail hr']
        · rename_i hfull
          rcases Option.map_eq_some_iff.mp hr with ⟨h', hr', e⟩
          cases e
          rw [if_neg hfull, ih htail hr']

/-! ## Short counts -/

/-- What is asked of the `i`-th `send` when all before have taken what they were asked. -/
def asked (len i : Nat) : Nat := min (len - dataSize * i) dataSize

def Socket.NoShortCount (s : Socket) (len : Nat) : Prop :=
  ∀ i, dataSize * i < len → (∀ j, j < i → s.send j (asked len j) ≠ none) →
    ∀ n, s.send i (asked len i) = some n → n = asked len i

/-- `sendall` returns; the bytes taken are a first part of the buffer, of the length
    returned. -/
def HandsPrefix (s : Socket) (buf : Text) : Prop :=
  ∃ turns h, sendallTurns turns s buf = some h ∧ h.taken <+: buf ∧ h.value = h.taken.length

theorem asked_zero {len : Nat} : asked len 0 = min len dataSize := rfl

theorem asked_succ (len i : Nat) : asked len (i + 1) = asked (len - dataSize) i := by
  unfold asked
  rw [Nat.mul_succ]
  omega

theorem noShortCount_nil : s.NoShortCount 0 := fun _ hi => absurd hi (Nat.not_lt_zero _)

theorem noShortCount_iff {len : Nat} (hlen : 0 < len) : s.NoShortCount len ↔
    ∀ n, s.send 0 (min len dataSize) = some n → n = min len dataSize ∧ s.next.NoShortCount (len - n) := by
  have hdata : 0 < dataSize := by decide
  constructor
  · intro h n hn
    have hfull : n = min len dataSize := h 0 hlen (fun j hj => absurd hj (Nat.not_lt_zero j)) n hn
    refine ⟨hfull, ?_⟩
    intro i hi hbefore
    have hblock : n = dataSize := by omega
    rw [hblock] at hi hbefore ⊢
    rw [← asked_succ]
    apply h (i + 1) (by rw [Nat.mul_succ]; omega)
    intro j hj
    cases j with
    | zero =>
      rw [asked_zero, hn]
      exact Option.some_ne_none n
    | succ j =>
      have hj' := hbefore j (Nat.lt_of_succ_lt_succ hj)
      rw [← asked_succ] at hj'
      exact hj'
  · intro h i hi hbefore n hn
    cases i with
    | zero => exact (h n hn).1
    | succ i =>
      rcases Option.ne_none_iff_exists'.mp (hbefore 0 (Nat.succ_pos i)) with ⟨k, hk⟩
      rcases h k hk with ⟨hfull, hnext⟩
      rw [Nat.mul_succ] at hi
      have hblock : k = dataSize := by omega
      rw [hblock] at hnext
      rw [asked_succ] at hn ⊢
      refine hnext i (by omega) ?_ n hn
      intro j hj
      have hj' := hbefore (j + 1) (Nat.succ_lt_succ hj)
      rw [asked_succ] at hj'
      exact hj'

/-- A byte that is sent again is not counted again. -/
theorem value_le (hr : sendallTurns turns s buf = some h) : h.value ≤ h.taken.length := by
  induction turns generalizing s buf h with
  | zero => cases hr
  | succ turns ih =>
    unfold sendallTurns at hr
    split at hr
    · cases hr
      exact Nat.le_refl _
    dsimp only at hr
    cases hn : s.send 0 (min buf.length dataSize) with
    | none =>
      rw [hn] at hr
      cases hr
      exact Nat.le_refl _
    | some n =>
      rw [hn] at hr
      dsimp only at hr
      have hle := (s.bounds hn).2
      split at hr <;>
      · rcases Option.map_eq_some_iff.mp hr with ⟨h', hr', e⟩
        cases e
        have hih := ih hr'
        dsimp only
        rw [List.length_append, List.length_take]
        omega

theorem noShortCount_of_value (hr : sendallTurns turns s buf = some h) (hv : h.value = h.taken.length) :
    s.NoShortCount buf.length := by
  induction turns generalizing s buf h with
  | zero => cases hr
  | succ turns ih =>
    unfold sendallTurns at hr
    split at hr
    · rename_i hnil
      rw [hnil]
      exact noShortCount_nil
    rename_i hne
    dsimp only at hr
    rw [noShortCount_iff (List.length_pos_iff.mpr hne)]
    intro n hn
    rw [hn] at hr
    dsimp only at hr
    rcases s.bounds hn with ⟨hpos, hle⟩
    split at hr
    · rcases Option.map_eq_some_iff.mp hr with ⟨h', hr', e⟩
      cases e
      have hvalue := value_le hr'
      dsimp only at hv
      rw [List.length_append, List.length_take] at hv
      omega
    · rename_i hfull
      rcases Option.map_eq_some_iff.mp hr with ⟨h', hr', e⟩
      cases e
      dsimp only at hv
      rw [List.length_append, List.length_take] at hv
      have hrest := ih hr' (by omega)
      rw [List.length_drop] at hrest
      exact ⟨not_not.mp hfull, hrest⟩

theorem handsPrefix_of_noShortCount (hs : s.NoShortCount buf.length) : HandsPrefix s buf := by
  generalize hlen : buf.length = len at hs
  induction len using Nat.strongRecOn generalizing s buf with
  | _ len ih =>
    by_cases hnil : buf = []
    · exact ⟨1, ⟨[], 0, s⟩, by rw [sendallTurns, if_pos hnil], List.nil_prefix, rfl⟩
    have hpos := List.length_pos_iff.mpr hnil
    cases hn : s.send 0 (min buf.length dataSize) with
    | none =>
      refine ⟨1, ⟨[], 0, s.next⟩, ?_, List.nil_prefix, rfl⟩
      rw [sendallTurns, if_neg hnil]
      dsimp only
      rw [hn]
    | some n =>
      rw [← hlen] at hs
      rcases (noShortCount_iff hpos).mp hs n hn with ⟨hfull, hnext⟩
      have hone := (s.bounds hn).1
      have hdrop : (buf.drop n).length = buf.length - n := List.length_drop
      rcases ih (buf.length - n) (by omega) hdrop hnext with ⟨turns, h, hr, hpre, hv⟩
      refine ⟨turns + 1, { h with taken := buf.take n ++ h.taken, value := n + h.value }, ?_, ?_, ?_⟩
      · rw [sendallTurns, if_neg hnil]
        dsimp only
        rw [hn]
        dsimp only
        rw [if_neg (not_not.mpr hfull), hr, Option.map_some]
      · conv => rhs; rw [← List.take_append_drop n buf]
        exact (List.prefix_append_right_inj _).mpr hpre
      · dsimp only
        rw [List.length_append, List.length_take, hv]
        omega

theorem hands_prefix_iff (s : Socket) (buf : Text) : HandsPrefix s buf ↔ s.NoShortCount buf.length := by
  constructor
  · intro ⟨turns, h, hr, _, hv⟩
    exact noShortCount_of_value hr hv
  · exact handsPrefix_of_noShortCount

def oneByteFirst : Socket where
  send i n := if n = 0 then none else if i = 0 then some 1 else some n
  bounds {i n k} h := by
    split at h
    · cases h
    · split at h <;> cases h <;> omega

theorem first_byte_twice : ¬ HandsPrefix oneByteFirst (ascii ['O', 'K']) := by
  intro ⟨turns, h, hr, _, hv⟩
  have hshort := noShortCount_of_value hr hv 0 (by decide) (fun j hj => absurd hj (Nat.not_lt_zero j)) 1 rfl
  exact absurd hshort (by decide)

end SysProg.Net
