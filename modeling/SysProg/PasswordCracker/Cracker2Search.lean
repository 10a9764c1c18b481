/-
  SysProg.PasswordCracker.Cracker2Search — one worker's search (see
  `SysProg.PasswordCracker.Cracker2`).

  `Move` lists what a worker does next. While it searches its range (`Search`) the
  candidates before the one at hand do not have the hash (`Searching`), so when it comes
  to print its result, either `found` is set or none of the range has (`Searched`). The
  ranges of all threads leave no candidate out (`not_crackable`).
-/

import SysProg.PasswordCracker.Cracker2

namespace SysProg.PasswordCracker.Cracker2

open Function (update)

/-! ## What a step can do -/

/-- A worker searches, without changing what is shared. -/
inductive Search (U : Utils) (found : Bool) : Pc → Pc → Prop
  | ready (d : Data) : Search U found (.ready d) (.loop d (U.setStringPosition (d.user.unknown U) d.start) d.count 0)
  | through (d : Data) (tmp : Text) (hashCount : BitVec 32) :
      Search U found (.loop d tmp 0 hashCount) (.result d hashCount 2)
  | more (d : Data) (tmp : Text) (left : Nat) (hashCount : BitVec 32) :
      Search U found (.loop d tmp (left + 1) hashCount) (.look d tmp left hashCount)
  | look (d : Data) (tmp : Text) (left : Nat) (hashCount : BitVec 32) :
      Search U found (.look d tmp left hashCount) (if found then .result d hashCount 1 else .guess d tmp left hashCount)
  | guess (d : Data) (tmp : Text) (left : Nat) (hashCount : BitVec 32) :
      Search U found (.guess d tmp left hashCount) (guess U d tmp left hashCount)

inductive Move (U : Utils) {n : Nat} (s : St n) (t : Fin n) : St n → Prop
  | stop (queue : List (Option Data)) : s.pc t = .pull → s.queue = none :: queue →
      Move U s t { s with queue := queue, pc := update s.pc t .stopped }
  | take (d : Data) (queue : List (Option Data)) : s.pc t = .pull → s.queue = some d :: queue →
      Move U s t { s with queue := queue, pc := update s.pc t (.begun d) }
  | first (d : Data) : s.pc t = .begun d → s.complete = true → Move U s t { s with
      started := s.started ++ [d.user.username]
      complete := false
      pc := update s.pc t (.ready d) }
  | next (d : Data) : s.pc t = .begun d → s.complete = false → Move U s t (s.goto t (.ready d))
  | search (p : Pc) : Search U s.found (s.pc t) p → Move U s t (s.goto t p)
  | publish (d : Data) (tmp : Text) (hashCount : BitVec 32) : s.pc t = .publish d tmp hashCount → Move U s t { s with
      password := d.user.known U ++ tmp
      found := true
      pc := update s.pc t (.result d hashCount 0) }
  | result (d : Data) (hashCount : BitVec 32) (status : Nat) : s.pc t = .result d hashCount status → Move U s t { s with
      results := s.results ++ [⟨t, d.line, hashCount, status⟩]
      pc := update s.pc t (.add d hashCount) }
  | add (d : Data) (hashCount : BitVec 32) : s.pc t = .add d hashCount →
      Move U s t { s with hashCount := s.hashCount + hashCount, pc := update s.pc t (.arrive d) }
  | arrive (d : Data) : s.pc t = .arrive d → Move U s t { s with
      barrier := s.barrier.arrive n
      pc := update s.pc t (.wait d s.barrier.gen) }
  | pass (d : Data) (gen : Nat) : s.pc t = .wait d gen → gen ≠ s.barrier.gen → Move U s t (s.goto t (.summary d))
  | told (d : Data) : s.pc t = .summary d → s.complete = true → Move U s t (s.goto t .arriveAgain)
  | tell (d : Data) : s.pc t = .summary d → s.complete = false → Move U s t { s with
      summaries := s.summaries ++ [⟨d.user.username, s.password, s.hashCount, if s.found then 0 else 1⟩]
      complete := true
      hashCount := 0
      found := false
      pc := update s.pc t .arriveAgain }
  | arriveAgain : s.pc t = .arriveAgain → Move U s t { s with
      barrier := s.barrier.arrive n
      pc := update s.pc t (.waitAgain s.barrier.gen) }
  | passAgain (gen : Nat) : s.pc t = .waitAgain gen → gen ≠ s.barrier.gen → Move U s t (s.goto t .pull)

variable {U : Utils} {completions : Nat → List Text} {n : Nat} {s s' : St n} {t : Fin n} {users : List User} {k : Nat}
  {u : User} {d : Data} {tmp : Text} {left : Nat} {p : Pc}

theorem crack_move (h : crack U s t = some s') : Move U s t s' := by
  have hsearch : ∀ q p, s.pc t = q → Search U s.found q p → Move U s t (s.goto t p) := by
    intro q p hpc hs
    exact .search p (hpc ▸ hs)
  unfold crack at h
  split at h
  · rename_i hpc
    split at h
    · cases h
    · rename_i queue hq
      cases h
      exact .stop queue hpc hq
    · rename_i d queue hq
      cases h
      exact .take d queue hpc hq
  · rename_i d hpc
    split at h
    · rename_i hc
      cases h
      exact .first d hpc hc
    · rename_i hc
      cases h
      exact .next d hpc (Bool.not_eq_true _ ▸ hc)
  · rename_i d hpc
    cases h
    exact hsearch _ _ hpc (.ready d)
  · rename_i d tmp hashCount hpc
    cases h
    exact hsearch _ _ hpc (.through d tmp hashCount)
  · rename_i d tmp left hashCount hpc
    cases h
    exact hsearch _ _ hpc (.more d tmp left hashCount)
  · rename_i d tmp left hashCount hpc
    cases h
    exact hsearch _ _ hpc (.look d tmp left hashCount)
  · rename_i d tmp left hashCount hpc
    cases h
    exact hsearch _ _ hpc (.guess d tmp left hashCount)
  · rename_i d tmp hashCount hpc
    cases h
    exact .publish d tmp hashCount hpc
  · rename_i d hashCount status hpc
    cases h
    exact .result d hashCount status hpc
  · rename_i d hashCount hpc
    cases h
    exact .add d hashCount hpc
  · rename_i d hpc
    cases h
    exact .arrive d hpc
  · rename_i d gen hpc
    rw [Option.ite_none_right_eq_some] at h
    rcases h with ⟨hgen, e⟩
    cases e
    exact .pass d gen hpc hgen
  · rename_i d hpc
    split at h
    · rename_i hc
      cases h
      exact .told d hpc hc
    · rename_i hc
      cases h
      exact .tell d hpc (Bool.not_eq_true _ ▸ hc)
  · rename_i hpc
    cases h
    exact .arriveAgain hpc
  · rename_i gen hpc
    rw [Option.ite_none_right_eq_some] at h
    rcases h with ⟨hgen, e⟩
    cases e
    exact .passAgain gen hpc hgen
  · cases h

/-! ## The search of a range -/

def candidates (U : Utils) (completions : Nat → List Text) (u : User) : List Text :=
  completions (u.unknown U).length

/-- No candidate from position `a` up to `b` has the hash. -/
def Clear (U : Utils) (completions : Nat → List Text) (u : User) (a b : Nat) : Prop :=
  ∀ i c, a ≤ i → i < b → (candidates U completions u)[i]? = some c → U.crypt (u.known U ++ c) ≠ u.hash

def Named (U : Utils) (completions : Nat → List Text) (u : User) (password : Text) : Prop :=
  ∃ c ∈ candidates U completions u, password = u.known U ++ c ∧ U.crypt password = u.hash

def Searching (U : Utils) (completions : Nat → List Text) (d : Data) (tmp : Text) (left : Nat) : Prop :=
  ∃ i, i + left = d.start + d.count ∧ (0 < left → (candidates U completions d.user)[i]? = some tmp) ∧
    Clear U completions d.user d.start i

/-- Some worker has found a password, or the range has none. -/
def Searched (U : Utils) (completions : Nat → List Text) (found : Bool) (d : Data) : Prop :=
  found = true ∨ Clear U completions d.user d.start (d.start + d.count)

def Data.InRange (U : Utils) (completions : Nat → List Text) (d : Data) : Prop :=
  d.start + d.count ≤ (candidates U completions d.user).length

def PcOk (U : Utils) (completions : Nat → List Text) (found : Bool) : Pc → Prop
  | .loop d tmp left _ => Searching U completions d tmp left
  | .look d tmp left _ | .guess d tmp left _ => Searching U completions d tmp (left + 1)
  | .publish d tmp _ => Named U completions d.user (d.user.known U ++ tmp)
  | .result d _ _ | .add d _ | .arrive d | .wait d _ => Searched U completions found d
  | _ => True

theorem Searching.start (hU : Enumerates U completions) (hd : d.InRange U completions) :
    Searching U completions d (U.setStringPosition (d.user.unknown U) d.start) d.count := by
  refine ⟨d.start, rfl, ?_, ?_⟩
  · intro hpos
    unfold Data.InRange candidates at hd
    have hlt : d.start < (completions (d.user.unknown U).length).length := by omega
    have hget := List.getElem?_eq_getElem hlt
    unfold candidates
    rw [hU.position _ _ _ hget]
    exact hget
  · intro i c h1 h2
    omega

/-- A guess: the password, the next candidate, or the end of all of them. -/
theorem Searching.guess (hU : Enumerates U completions) (h : Searching U completions d tmp (left + 1)) (found : Bool)
    (hashCount : BitVec 32) : PcOk U completions found (guess U d tmp left hashCount) := by
  rcases h with ⟨i, hi, htmp, hclear⟩
  have htmp := htmp (Nat.succ_pos left)
  unfold Cracker2.guess
  split
  · rename_i hhash
    exact ⟨tmp, List.mem_of_getElem? htmp, rfl, hhash⟩
  rename_i hhash
  have hnow : Clear U completions d.user d.start (i + 1) := by
    intro j c h1 h2 hc
    rcases Nat.lt_succ_iff_lt_or_eq.mp h2 with hj | hj
    · exact hclear j c h1 hj hc
    · rw [hj, htmp] at hc
      rw [← Option.some.inj hc]
      exact hhash
  cases hnext : (candidates U completions d.user)[i + 1]? with
  | some c =>
    rw [hU.next _ i tmp c htmp hnext]
    exact ⟨i + 1, by omega, fun _ => hnext, hnow⟩
  | none =>
    have hlen := List.getElem?_eq_none_iff.mp hnext
    have hlt := (List.getElem?_eq_some_iff.mp htmp).1
    have hlast := hU.last _ i tmp htmp (Nat.le_antisymm hlt hlen)
    cases hincr : U.incrementString tmp with
    | mk next more =>
    rw [hincr] at hlast
    cases hlast
    apply Or.inr
    intro j c h1 _ hc
    have hjlt := (List.getElem?_eq_some_iff.mp hc).1
    exact hnow j c h1 (Nat.lt_of_lt_of_le hjlt hlen) hc

theorem Search.ok (hU : Enumerates U completions) {found : Bool} {q : Pc} (hs : Search U found q p)
    (hr : ∀ d, q = .ready d → d.InRange U completions) (hq : PcOk U completions found q) :
    PcOk U completions found p := by
  cases hs with
  | ready d => exact Searching.start hU (hr d rfl)
  | through d tmp hashCount =>
    rcases hq with ⟨i, hi, -, hclear⟩
    rw [Nat.add_zero] at hi
    exact Or.inr (hi ▸ hclear)
  | more d tmp left hashCount => exact hq
  | look d tmp left hashCount =>
    cases found with
    | true => exact Or.inl rfl
    | false => exact hq
  | guess d tmp left hashCount => exact hq.guess hU found hashCount

/-- `found` stays set. -/
theorem PcOk.mono {found found' : Bool} (hf : found = true → found' = true) (h : PcOk U completions found p) :
    PcOk U completions found' p := by
  cases p with
  | result d _ _ => exact h.imp_left hf
  | add d _ => exact h.imp_left hf
  | arrive d => exact h.imp_left hf
  | wait d _ => exact h.imp_left hf
  | _ => exact h

/-- When all ranges are clear no completion has the hash. -/
theorem not_crackable (hS : Splits U completions n) (hn : 0 < n) (line : Nat)
    (h : ∀ i < n, Clear U completions u (dataFor U n line u i).start
      ((dataFor U n line u i).start + (dataFor U n line u i).count)) : ¬ u.Crackable U completions := by
  intro hc
  rcases hc with ⟨c, hc, hcrypt⟩
  rcases List.getElem?_of_mem hc with ⟨j, hj⟩
  rcases hS.covers hn _ (List.getElem?_eq_some_iff.mp hj).1 with ⟨i, hi, h1, h2⟩
  exact h i hi j c h1 h2 hj hcrypt

theorem dataFor_inRange (hS : Splits U completions n) {line i : Nat} (hi : i < n) :
    (dataFor U n line u i).InRange U completions := hS.end_le _ (Nat.succ_pos i) hi

end SysProg.PasswordCracker.Cracker2
