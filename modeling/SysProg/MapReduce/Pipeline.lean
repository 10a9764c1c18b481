/-
  SysProg.MapReduce.Pipeline — who is there, who has which end of which pipe, and how much
  is in the pipes, after every step of every process (see `SysProg.MapReduce.Mapreduce`).

  The parent starts the mappers when all splitters have exited, so all of a share has to
  be in its pipe before anything is read from it (`SplitterOk`), and the reducer when all
  mappers have exited, so the outputs of all mappers have to be in the reducer's pipe
  (`Bytes.gathered`). A mapper has the write ends of the pipes to later mappers until it
  exits, but none to itself or an earlier one once it runs (`Held.later`).

  Main results: `inv_step` and `inv_reach`.
-/

import SysProg.Lib.Threads
import SysProg.MapReduce.Mapreduce

namespace SysProg.MapReduce

open Function (update)

variable {n cap : Nat} {share out : Fin n → Nat} {s s' : St n} {i : Fin n} {k : Nat}

/-! ## What a process can do -/

inductive SplitterMove (cap : Nat) (share : Fin n → Nat) (s : St n) (i : Fin n) : St n → Prop
  | ready : s.splitter i = .forked → SplitterMove cap share s i { s with
      splitter := update s.splitter i (.writing (share i))
      ends := close s (.splitter i) (· ≠ .inputRead i) }
  | exits (left : Nat) : s.splitter i = .writing left → left = 0 ∨ s.Closed (.inputRead i) →
      SplitterMove cap share s i (s.splitterExits i)
  | write (left k : Nat) : s.splitter i = .writing left → Fits cap (s.input i) left k →
      SplitterMove cap share s i { s with
        splitter := update s.splitter i (.writing (left - k))
        input := update s.input i (s.input i + k) }

theorem splitter_move (h : splitterRun cap share s i k = some s') : SplitterMove cap share s i s' := by
  unfold splitterRun at h
  split at h
  · cases h
  · rename_i hm
    cases h
    exact .ready hm
  · rename_i left hm
    split at h
    · rename_i hleft
      cases h
      exact .exits left hm (Or.inl hleft)
    · split at h
      · rename_i hclosed
        cases h
        exact .exits left hm (Or.inr hclosed)
      · rw [Option.ite_none_right_eq_some] at h
        rcases h with ⟨hfits, e⟩
        cases e
        exact .write left k hm hfits
  · cases h

def Mapper.left (total : Nat) : Mapper → Nat
  | .absent | .forked => total
  | .reading left | .finishing left => left
  | .writing size left => size + left
  | .exited => 0

inductive Mapper.Goes (m m' : Mapper) (k : Nat) : Prop
  | some_ (size left : Nat) : m = .writing size left → k < size → m' = .writing (size - k) left → Goes m m' k
  | all (left : Nat) : m = .writing k left → m' = .reading left → Goes m m' k
  | last (left : Nat) : m = .finishing left → k ≤ left → m' = .finishing (left - k) → Goes m m' k

inductive MapperMove (cap : Nat) (out : Fin n → Nat) (s : St n) (i : Fin n) : St n → Prop
  | ready : s.mapper i = .forked → MapperMove cap out s i { s with
      mapper := update s.mapper i (.reading (out i))
      ends := close s (.mapper i) fun e => e ≠ .inputWrite i && e ≠ .reducerRead }
  | begins (left k : Nat) : s.mapper i = .reading left → 0 < k → k ≤ left →
      MapperMove cap out s i { s with mapper := update s.mapper i (.writing k (left - k)) }
  | ends (left : Nat) : s.mapper i = .reading left → s.Closed (.inputWrite i) →
      MapperMove cap out s i { s with mapper := update s.mapper i (.finishing left) }
  | read (left k : Nat) : s.mapper i = .reading left → 0 < k → k ≤ s.input i →
      MapperMove cap out s i { s with input := update s.input i (s.input i - k) }
  | write (m : Mapper) (k : Nat) : (s.mapper i).Goes m k → 0 < k → s.output + k ≤ cap →
      MapperMove cap out s i { s with
        mapper := update s.mapper i m
        output := s.output + k }
  | killed : s.Closed .reducerRead → MapperMove cap out s i (s.mapperExits i)
  | exits : s.mapper i = .finishing 0 → MapperMove cap out s i (s.mapperExits i)

theorem mapperWrite_move {size : Nat} {next : Mapper} (h : mapperWrite cap s i size k next = some s')
    (hgoes : k ≤ size → (s.mapper i).Goes next k) : MapperMove cap out s i s' := by
  unfold mapperWrite at h
  split at h
  · rename_i hclosed
    cases h
    exact .killed hclosed
  · rw [Option.ite_none_right_eq_some] at h
    rcases h with ⟨⟨hk, hsize, hroom⟩, e⟩
    cases e
    exact .write next k (hgoes hsize) hk hroom

theorem mapper_move {writes : Bool} (h : mapperRun cap out s i writes k = some s') : MapperMove cap out s i s' := by
  unfold mapperRun at h
  split at h
  · cases h
  · rename_i hm
    cases h
    exact .ready hm
  · rename_i left hm
    split at h
    · rw [Option.ite_none_right_eq_some] at h
      rcases h with ⟨⟨hk, hle⟩, e⟩
      cases e
      exact .begins left k hm hk hle
    · split at h
      · rw [Option.ite_none_right_eq_some] at h
        rcases h with ⟨hclosed, e⟩
        cases e
        exact .ends left hm hclosed
      · rw [Option.ite_none_right_eq_some] at h
        rcases h with ⟨⟨hk, hle⟩, e⟩
        cases e
        exact .read left k hm hk hle
  · rename_i size left hm
    apply mapperWrite_move h
    intro hle
    rw [hm]
    split
    · rename_i e
      subst e
      exact .all left rfl rfl
    · exact .some_ size left rfl (by omega) rfl
  · rename_i left hm
    split at h
    · rename_i hleft
      subst hleft
      cases h
      exact .exits hm
    · apply mapperWrite_move h
      intro hle
      exact .last left hm hle rfl
  · cases h

inductive ReducerMove (s : St n) : St n → Prop
  | ready : s.reducer = .forked → ReducerMove s { s with
      reducer := .reading
      ends := close s .reducer (· ≠ .reducerWrite) }
  | ends : s.reducer = .reading → ReducerMove s { s with reducer := .exited, ends := exit s .reducer }
  | read (k : Nat) : s.reducer = .reading → 0 < k → k ≤ s.output → ReducerMove s { s with output := s.output - k }

theorem reducer_move (h : reducerRun s k = some s') : ReducerMove s s' := by
  unfold reducerRun at h
  split at h
  · cases h
  · rename_i hr
    cases h
    exact .ready hr
  · rename_i hr
    split at h
    · rw [Option.ite_none_right_eq_some] at h
      rcases h with ⟨-, e⟩
      cases e
      exact .ends hr
    · rw [Option.ite_none_right_eq_some] at h
      rcases h with ⟨⟨hk, hle⟩, e⟩
      cases e
      exact .read k hr hk hle
  · cases h

/-! ## What the parent has done -/

def Parent.forked (n : Nat) : Parent → Nat
  | .forkSplitter i => i
  | _ => n

def Parent.waited (n : Nat) : Parent → Nat
  | .forkSplitter _ => 0
  | .waitSplitter i => i
  | _ => n

def Parent.mapped (n : Nat) : Parent → Nat
  | .forkSplitter _ | .waitSplitter _ => 0
  | .forkMapper i => i
  | .closeInput i => i + 1
  | _ => n

def Parent.closed (n : Nat) : Parent → Nat
  | .forkSplitter _ | .waitSplitter _ => 0
  | .forkMapper i | .closeInput i => i
  | _ => n

def Parent.joined (n : Nat) : Parent → Nat
  | .forkSplitter _ | .waitSplitter _ | .forkMapper _ | .closeInput _ => 0
  | .waitMapper i => i
  | _ => n

def Parent.shut : Parent → Bool
  | .forkReducer | .waitReducer | .done => true
  | _ => false

def Parent.reducing : Parent → Bool
  | .waitReducer | .done => true
  | _ => false

structure Stage (s : St n) : Prop where
  splitterAbsent : ∀ j : Fin n, s.splitter j = .absent ↔ s.parent.forked n ≤ j
  splitterExited : ∀ j : Fin n, j < s.parent.waited n → s.splitter j = .exited
  mapperAbsent : ∀ j : Fin n, s.mapper j = .absent ↔ s.parent.mapped n ≤ j
  mapperExited : ∀ j : Fin n, j < s.parent.joined n → s.mapper j = .exited
  reducerAbsent : s.reducer = .absent ↔ s.parent.reducing = false
  reducerExited : s.parent = .done → s.reducer = .exited
  closing : ∀ i, s.parent = .closeInput i → i < n

/-- Who has the write ends, and the read end of the reducer's pipe. -/
structure Held (s : St n) : Prop where
  parentRead : ∀ j : Fin n, s.ends .parent (.inputRead j) = true ↔ s.parent.closed n ≤ j
  parentWrite : ∀ j : Fin n, s.ends .parent (.inputWrite j) = true ↔ s.parent.closed n ≤ j
  reducerRead : s.ends .parent .reducerRead = true
  reducerWrite : s.ends .parent .reducerWrite = !s.parent.shut
  splitter : ∀ j, s.splitter j = .absent ∨ s.splitter j = .exited → ∀ e, s.ends (.splitter j) e = false
  mapper : ∀ j, s.mapper j = .absent ∨ s.mapper j = .exited → ∀ e, s.ends (.mapper j) e = false
  -- of the pipes to mappers before it a mapper has no end
  later : ∀ j i, s.ends (.mapper j) (.inputWrite i) = true → j < i ∨ j = i ∧ s.mapper j = .forked
  reducer : ∀ e, (∃ i, e = .inputWrite i) ∨ e = .reducerWrite → s.ends .reducer e = false

/-- How much of a share is in the pipe; all of it has been when the splitter has exited. -/
def SplitterOk (cap share input : Nat) : Splitter → Prop
  | .absent | .forked => input = 0
  | .writing left => input + left = share ∧ input ≤ cap
  | .exited => share ≤ cap

structure Bytes (cap : Nat) (share out : Fin n → Nat) (s : St n) : Prop where
  room : s.output ≤ cap
  splitter : ∀ j, SplitterOk cap (share j) (s.input j) (s.splitter j)
  writing : ∀ j size left, s.mapper j = .writing size left → 0 < size
  outputs : s.reducer = .absent → s.output + ∑ j, (s.mapper j).left (out j) = ∑ j, out j
  gathered : s.reducer ≠ .absent → ∑ j, out j ≤ cap

structure Inv (cap : Nat) (share out : Fin n → Nat) (s : St n) : Prop where
  stage : Stage s
  held : Held s
  bytes : Bytes cap share out s

/-- No mapper is there until all splitters have exited. -/
theorem Stage.splitters (h : Stage s) (hm : s.mapper i ≠ .absent) (j : Fin n) : s.splitter j = .exited := by
  have hlt : ¬ s.parent.mapped n ≤ i := fun hle => hm ((h.mapperAbsent i).mpr hle)
  apply h.splitterExited j
  cases hp : s.parent <;> rw [hp] at hlt <;> simp [Parent.mapped, Parent.waited] at hlt ⊢

/-- No pipe is closed while a splitter runs. -/
theorem Stage.open_ (h : Stage s) (hs : s.splitter i ≠ .exited) : s.parent.closed n ≤ i := by
  have hlt : ¬ i.val < s.parent.waited n := fun hlt => hs (h.splitterExited i hlt)
  cases hp : s.parent <;> rw [hp] at hlt <;> simp [Parent.closed, Parent.waited] at hlt ⊢

/-- No reducer is there until all mappers have exited. -/
theorem Stage.mappers (h : Stage s) (hr : s.reducer ≠ .absent) (j : Fin n) : s.mapper j = .exited := by
  have hred : s.parent.reducing ≠ false := fun e => hr (h.reducerAbsent.mpr e)
  apply h.mapperExited j
  cases hp : s.parent <;> rw [hp] at hred <;> simp [Parent.reducing, Parent.joined] at hred ⊢

/-- A child goes on: it is there before and after, and what has exited stays so. -/
theorem Stage.child (h : Stage s) (hp : s'.parent = s.parent)
    (hs : ∀ j, (s'.splitter j = .absent ↔ s.splitter j = .absent) ∧ (s.splitter j = .exited → s'.splitter j = .exited))
    (hm : ∀ j, (s'.mapper j = .absent ↔ s.mapper j = .absent) ∧ (s.mapper j = .exited → s'.mapper j = .exited))
    (hr : (s'.reducer = .absent ↔ s.reducer = .absent) ∧ (s.reducer = .exited → s'.reducer = .exited)) : Stage s' where
  splitterAbsent j := by rw [hp, (hs j).1, h.splitterAbsent j]
  splitterExited j hj := (hs j).2 (h.splitterExited j (hp ▸ hj))
  mapperAbsent j := by rw [hp, (hm j).1, h.mapperAbsent j]
  mapperExited j hj := (hm j).2 (h.mapperExited j (hp ▸ hj))
  reducerAbsent := by rw [hp, hr.1, h.reducerAbsent]
  reducerExited hd := hr.2 (h.reducerExited (hp ▸ hd))
  closing i hi := h.closing i (hp ▸ hi)

/-- One process of a kind goes on. -/
theorem goes_on {P : Type} {absent exited p : P} {pc : Fin n → P} (hpc : pc i ≠ absent ∧ pc i ≠ exited)
    (hp : p ≠ absent) (j : Fin n) :
    (update pc i p j = absent ↔ pc j = absent) ∧ (pc j = exited → update pc i p j = exited) := by
  by_cases hj : j = i
  · subst hj
    rw [Function.update_self]
    exact ⟨⟨fun h => absurd h hp, fun h => absurd h hpc.1⟩, fun h => absurd h hpc.2⟩
  · rw [Function.update_of_ne hj]
    exact ⟨Iff.rfl, id⟩

theorem stays {P : Type} {absent exited : P} {pc : Fin n → P} (j : Fin n) :
    (pc j = absent ↔ pc j = absent) ∧ (pc j = exited → pc j = exited) := ⟨Iff.rfl, id⟩

@[simp] theorem fork_self {p : Process n} : fork s p p = s.ends .parent := Function.update_self ..

theorem fork_of_ne {p q : Process n} (h : q ≠ p) : fork s p q = s.ends q := Function.update_of_ne h ..

@[simp] theorem close_self {p : Process n} {keep : End n → Bool} {e : End n} :
    close s p keep p e = (s.ends p e && keep e) := by
  unfold close
  rw [Function.update_self]

theorem close_of_ne {p q : Process n} {keep : End n → Bool} (h : q ≠ p) : close s p keep q = s.ends q :=
  Function.update_of_ne h ..

@[simp] theorem exit_self {p : Process n} {e : End n} : exit s p p e = false := by
  unfold exit
  rw [Function.update_self]

theorem exit_of_ne {p q : Process n} (h : q ≠ p) : exit s p q = s.ends q := Function.update_of_ne h ..

/-! ## Splitters -/

/-- A splitter has no part in who holds which end, but for the ends it gives up. -/
theorem Held.splitterGoes (h : Held s) (hi : s.splitter i ≠ .absent) {p : Splitter}
    (hp : s'.splitter = update s.splitter i p) (hm : s'.mapper = s.mapper) (hparent : s'.parent = s.parent)
    (hother : ∀ q, q ≠ .splitter i → s'.ends q = s.ends q)
    (hexit : p = .absent ∨ p = .exited → ∀ e, s'.ends (.splitter i) e = false) : Held s' where
  parentRead j := by rw [hother _ (by simp), hparent, h.parentRead j]
  parentWrite j := by rw [hother _ (by simp), hparent, h.parentWrite j]
  reducerRead := by rw [hother _ (by simp), h.reducerRead]
  reducerWrite := by rw [hother _ (by simp), hparent, h.reducerWrite]
  splitter j hj e := by
    rw [hp] at hj
    by_cases hji : j = i
    · subst hji
      rw [Function.update_self] at hj
      exact hexit hj e
    · rw [Function.update_of_ne hji] at hj
      rw [hother _ (by simpa using hji), h.splitter j hj e]
  mapper j hj e := by
    rw [hm] at hj
    rw [hother _ (by simp), h.mapper j hj e]
  later j i hji := by
    rw [hother _ (by simp)] at hji
    rw [hm]
    exact h.later j i hji
  reducer e he := by rw [hother _ (by simp), h.reducer e he]

/-- A splitter goes on, at the same bytes. -/
theorem splitter_update {p : Splitter} (h : ∀ j, SplitterOk cap (share j) (s.input j) (s.splitter j))
    (hp : SplitterOk cap (share i) (s.input i) p) (j : Fin n) :
    SplitterOk cap (share j) (s.input j) (update s.splitter i p j) :=
  (Function.forall_update_iff s.splitter fun j p => SplitterOk cap (share j) (s.input j) p).mpr
    ⟨hp, fun j _ => h j⟩ j

theorem Inv.splitterMove (hi : Inv cap share out s) (hm : SplitterMove cap share s i s') : Inv cap share out s' := by
  have hb := hi.bytes
  have hok := hb.splitter i
  cases hm with
  | ready hpc =>
    rw [hpc] at hok
    have hempty : s.input i = 0 := hok
    refine ⟨hi.stage.child rfl (goes_on (by simp [hpc]) (by simp)) stays ⟨Iff.rfl, id⟩, ?_, ?_⟩
    · exact hi.held.splitterGoes (i := i) (by simp [hpc]) rfl rfl rfl (fun q hq => close_of_ne hq) (by simp)
    · exact ⟨hb.room, splitter_update hb.splitter ⟨by omega, by omega⟩, hb.writing, hb.outputs, hb.gathered⟩
  | exits left hpc hwhy =>
    rw [hpc] at hok
    rcases hok with ⟨hsum, hle⟩
    -- the parent has the read end
    have hleft : left = 0 := by
      rcases hwhy with h | h
      · exact h
      · have hread := (hi.held.parentRead i).mpr (hi.stage.open_ (by simp [hpc]))
        rw [h.1] at hread
        cases hread
    have hfits : share i ≤ cap := by omega
    refine ⟨hi.stage.child rfl (goes_on (by simp [hpc]) (by simp)) stays ⟨Iff.rfl, id⟩, ?_, ?_⟩
    · exact hi.held.splitterGoes (i := i) (by simp [hpc]) rfl rfl rfl (fun q hq => exit_of_ne hq) fun _ _ => exit_self
    · exact ⟨hb.room, splitter_update hb.splitter hfits, hb.writing, hb.outputs, hb.gathered⟩
  | write left k hpc hfits =>
    rw [hpc] at hok
    rcases hok with ⟨hsum, hle⟩
    rcases hfits with ⟨hk, hsize, hroom⟩
    refine ⟨hi.stage.child rfl (goes_on (by simp [hpc]) (by simp)) stays ⟨Iff.rfl, id⟩, ?_, ?_⟩
    · exact hi.held.splitterGoes (i := i) (by simp [hpc]) rfl rfl rfl (fun q _ => rfl) (by simp)
    · refine ⟨hb.room, ?_, hb.writing, hb.outputs, hb.gathered⟩
      intro j
      dsimp only
      by_cases hji : j = i
      · subst hji
        rw [Function.update_self, Function.update_self]
        exact ⟨by omega, hroom⟩
      · rw [Function.update_of_ne hji, Function.update_of_ne hji]
        exact hb.splitter j

/-! ## Mappers -/

theorem Held.mapperGoes (h : Held s) {p : Mapper} (hs : s'.splitter = s.splitter)
    (hp : s'.mapper = update s.mapper i p) (hparent : s'.parent = s.parent)
    (hother : ∀ q, q ≠ .mapper i → s'.ends q = s.ends q)
    (hexit : p = .absent ∨ p = .exited → ∀ e, s'.ends (.mapper i) e = false)
    (hlater : ∀ j, s'.ends (.mapper i) (.inputWrite j) = true → i < j) : Held s' where
  parentRead j := by rw [hother _ (by simp), hparent, h.parentRead j]
  parentWrite j := by rw [hother _ (by simp), hparent, h.parentWrite j]
  reducerRead := by rw [hother _ (by simp), h.reducerRead]
  reducerWrite := by rw [hother _ (by simp), hparent, h.reducerWrite]
  splitter j hj e := by
    rw [hs] at hj
    rw [hother _ (by simp), h.splitter j hj e]
  mapper j hj e := by
    rw [hp] at hj
    by_cases hji : j = i
    · subst hji
      rw [Function.update_self] at hj
      exact hexit hj e
    · rw [Function.update_of_ne hji] at hj
      rw [hother _ (by simpa using hji), h.mapper j hj e]
  later j k hjk := by
    by_cases hji : j = i
    · subst hji
      exact Or.inl (hlater k hjk)
    · rw [hother _ (by simpa using hji)] at hjk
      rw [hp, Function.update_of_ne hji]
      exact h.later j k hjk
  reducer e he := by rw [hother _ (by simp), h.reducer e he]

/-- A mapper past its start has no end of the pipes up to its own. -/
theorem Held.running (h : Held s) (hm : s.mapper i ≠ .forked) {j : Fin n}
    (hj : s.ends (.mapper i) (.inputWrite j) = true) : i < j := by
  rcases h.later i j hj with h | h
  · exact h
  · exact absurd h.2 hm

/-- What the other mappers have left is as it was. -/
theorem left_update (out : Fin n → Nat) {m : Mapper} :
    ∑ j, (update s.mapper i m j).left (out j) + (s.mapper i).left (out i) =
      ∑ j, (s.mapper j).left (out j) + m.left (out i) :=
  Threads.sum_update_at (fun j m => Mapper.left (out j) m) s.mapper i m

/-- A mapper goes on, with all splitters gone. -/
theorem Bytes.mapperGoes (hb : Bytes cap share out s) (hgone : ∀ j, s.splitter j = .exited)
    (hreducer : s.reducer = .absent) {m : Mapper} {input : Fin n → Nat} {output : Nat} (hroom : output ≤ cap)
    (ends : Process n → End n → Bool) (hwriting : ∀ size left, m = .writing size left → 0 < size)
    (hleft : output + m.left (out i) = s.output + (s.mapper i).left (out i)) :
    Bytes cap share out { s with mapper := update s.mapper i m, input := input, output := output, ends := ends } where
  room := hroom
  splitter j := by
    have hok := hb.splitter j
    dsimp only
    rw [hgone j] at hok ⊢
    exact hok
  writing := (Function.forall_update_iff s.mapper fun _ m => ∀ size left, m = .writing size left → 0 < size).mpr
    ⟨hwriting, fun j _ => hb.writing j⟩
  outputs h := by
    have hsum := hb.outputs h
    have hupdate := left_update out (s := s) (i := i) (m := m)
    dsimp only
    omega
  gathered h := absurd hreducer h

theorem Mapper.Goes.spec {m m' : Mapper} (h : m.Goes m' k) (total : Nat) :
    m'.left total + k = m.left total ∧ (m ≠ .absent ∧ m ≠ .exited) ∧ m ≠ .forked ∧ (m' ≠ .absent ∧ m' ≠ .exited) ∧
      ∀ size left, m' = .writing size left → 0 < size := by
  cases h with
  | some_ size left h1 hlt h2 =>
    subst h1 h2
    refine ⟨?_, by simp, by simp, by simp, ?_⟩
    · show size - k + left + k = size + left
      omega
    · intro size' left' e
      rw [Mapper.writing.injEq] at e
      omega
  | all left h1 h2 =>
    subst h1 h2
    refine ⟨?_, by simp, by simp, by simp, by simp⟩
    show left + k = k + left
    omega
  | last left h1 hle h2 =>
    subst h1 h2
    refine ⟨?_, by simp, by simp, by simp, by simp⟩
    show left - k + k = left
    omega

theorem Inv.mapperMove (hi : Inv cap share out s) (hm : MapperMove cap out s i s') : Inv cap share out s' := by
  have hb := hi.bytes
  have halive : s.mapper i ≠ .absent → s.mapper i ≠ .exited →
      (∀ j, s.splitter j = .exited) ∧ s.reducer = .absent := by
    intro h1 h2
    refine ⟨hi.stage.splitters h1, ?_⟩
    by_contra hr
    exact h2 (hi.stage.mappers hr i)
  have hrun := hi.held.running (i := i)
  cases hm with
  | ready hpc =>
    rcases halive (by simp [hpc]) (by simp [hpc]) with ⟨hgone, hreducer⟩
    refine ⟨hi.stage.child rfl stays (goes_on (by simp [hpc]) (by simp)) ⟨Iff.rfl, id⟩, ?_, ?_⟩
    · refine hi.held.mapperGoes (i := i) rfl rfl rfl (fun q hq => close_of_ne hq) (by simp) ?_
      intro j hj
      simp only [close_self, Bool.and_eq_true, decide_eq_true_eq] at hj
      rcases hi.held.later i j hj.1 with h | h
      · exact h
      · exact absurd (congrArg End.inputWrite h.1.symm) hj.2.1
    · apply hb.mapperGoes hgone hreducer hb.room _ (by simp)
      rw [hpc]
      rfl
  | begins left k hpc hk hle =>
    rcases halive (by simp [hpc]) (by simp [hpc]) with ⟨hgone, hreducer⟩
    refine ⟨hi.stage.child rfl stays (goes_on (by simp [hpc]) (by simp)) ⟨Iff.rfl, id⟩, ?_, ?_⟩
    · exact hi.held.mapperGoes (i := i) rfl rfl rfl (fun q _ => rfl) (by simp) fun j hj => hrun (by simp [hpc]) hj
    · refine hb.mapperGoes hgone hreducer hb.room _ (fun _ _ e => ?_) ?_
      · rw [Mapper.writing.injEq] at e
        omega
      rw [hpc]
      show s.output + (k + (left - k)) = s.output + left
      omega
  | ends left hpc _ =>
    rcases halive (by simp [hpc]) (by simp [hpc]) with ⟨hgone, hreducer⟩
    refine ⟨hi.stage.child rfl stays (goes_on (by simp [hpc]) (by simp)) ⟨Iff.rfl, id⟩, ?_, ?_⟩
    · exact hi.held.mapperGoes (i := i) rfl rfl rfl (fun q _ => rfl) (by simp) fun j hj => hrun (by simp [hpc]) hj
    · apply hb.mapperGoes hgone hreducer hb.room _ (by simp)
      rw [hpc]
      rfl
  | read left k hpc _ _ =>
    rcases halive (by simp [hpc]) (by simp [hpc]) with ⟨hgone, hreducer⟩
    refine ⟨hi.stage.child rfl stays stays ⟨Iff.rfl, id⟩, ?_, ?_⟩
    · exact ⟨hi.held.parentRead, hi.held.parentWrite, hi.held.reducerRead, hi.held.reducerWrite, hi.held.splitter,
        hi.held.mapper, hi.held.later, hi.held.reducer⟩
    · refine ⟨hb.room, ?_, hb.writing, hb.outputs, hb.gathered⟩
      intro j
      have hok := hb.splitter j
      dsimp only
      rw [hgone j] at hok ⊢
      exact hok
  | write m k hgoes hk hroom =>
    rcases hgoes.spec (out i) with ⟨hleft, hpc, hrunning, ⟨habsent, hexited⟩, hwriting⟩
    rcases halive hpc.1 hpc.2 with ⟨hgone, hreducer⟩
    refine ⟨hi.stage.child rfl stays (goes_on hpc habsent) ⟨Iff.rfl, id⟩, ?_, ?_⟩
    · refine hi.held.mapperGoes (i := i) rfl rfl rfl (fun q _ => rfl) ?_ fun j hj => hrun hrunning hj
      intro h
      rcases h with h | h
      · exact absurd h habsent
      · exact absurd h hexited
    · apply hb.mapperGoes hgone hreducer hroom _ hwriting
      omega
  | killed hclosed =>
    -- the parent has the read end
    have hread := hi.held.reducerRead
    rw [hclosed.1] at hread
    cases hread
  | exits hpc =>
    rcases halive (by simp [hpc]) (by simp [hpc]) with ⟨hgone, hreducer⟩
    refine ⟨hi.stage.child rfl stays (goes_on (by simp [hpc]) (by simp)) ⟨Iff.rfl, id⟩, ?_, ?_⟩
    · refine hi.held.mapperGoes (i := i) rfl rfl rfl (fun q hq => exit_of_ne hq) (fun _ _ => exit_self) ?_
      intro j hj
      exact absurd hj (by simp [St.mapperExits])
    · apply hb.mapperGoes hgone hreducer hb.room _ (by simp)
      rw [hpc]
      rfl

/-! ## The reducer -/

theorem Held.reducerGoes (h : Held s) (hs : s'.splitter = s.splitter) (hm : s'.mapper = s.mapper)
    (hparent : s'.parent = s.parent) (hother : ∀ q, q ≠ .reducer → s'.ends q = s.ends q)
    (hreducer : ∀ e, (∃ i, e = .inputWrite i) ∨ e = .reducerWrite → s'.ends .reducer e = false) : Held s' where
  parentRead j := by rw [hother _ (by simp), hparent, h.parentRead j]
  parentWrite j := by rw [hother _ (by simp), hparent, h.parentWrite j]
  reducerRead := by rw [hother _ (by simp), h.reducerRead]
  reducerWrite := by rw [hother _ (by simp), hparent, h.reducerWrite]
  splitter j hj e := by
    rw [hs] at hj
    rw [hother _ (by simp), h.splitter j hj e]
  mapper j hj e := by
    rw [hm] at hj
    rw [hother _ (by simp), h.mapper j hj e]
  later j k hjk := by
    rw [hother _ (by simp)] at hjk
    rw [hm]
    exact h.later j k hjk
  reducer := hreducer

theorem Inv.reducerMove (hi : Inv cap share out s) (hm : ReducerMove s s') : Inv cap share out s' := by
  have hb := hi.bytes
  have hh := hi.held
  cases hm with
  | ready hpc =>
    have hne : s.reducer ≠ .absent := by simp [hpc]
    refine ⟨hi.stage.child rfl stays stays ⟨by simp [hpc], by simp [hpc]⟩, ?_, ?_⟩
    · refine hh.reducerGoes rfl rfl rfl (fun q hq => close_of_ne hq) ?_
      intro e he
      simp [hh.reducer e he]
    · exact ⟨hb.room, hb.splitter, hb.writing, fun h => absurd h (by simp), fun _ => hb.gathered hne⟩
  | ends hpc =>
    have hne : s.reducer ≠ .absent := by simp [hpc]
    refine ⟨hi.stage.child rfl stays stays ⟨by simp [hpc], fun _ => rfl⟩, ?_, ?_⟩
    · exact hh.reducerGoes rfl rfl rfl (fun q hq => exit_of_ne hq) (by simp)
    · exact ⟨hb.room, hb.splitter, hb.writing, fun h => absurd h (by simp), fun _ => hb.gathered hne⟩
  | read k hpc _ _ =>
    have hne : s.reducer ≠ .absent := by simp [hpc]
    refine ⟨hi.stage.child rfl stays stays ⟨Iff.rfl, id⟩, ?_, ?_⟩
    · exact hh.reducerGoes rfl rfl rfl (fun _ _ => rfl) hh.reducer
    · exact ⟨Nat.le_trans (Nat.sub_le _ _) hb.room, hb.splitter, hb.writing, fun h => absurd h hne, hb.gathered⟩

/-! ## The parent -/

/-- A loop ends, or a child has been waited for. -/
inductive Passes (s : St n) : Parent → Parent → Prop
  | forked (i : Nat) : n ≤ i → Passes s (.forkSplitter i) (.waitSplitter 0)
  | waited (i : Fin n) : s.splitter i = .exited → Passes s (.waitSplitter i) (.waitSplitter (i + 1))
  | waitedAll (i : Nat) : n ≤ i → Passes s (.waitSplitter i) (.forkMapper 0)
  | mapped (i : Nat) : n ≤ i → Passes s (.forkMapper i) (.waitMapper 0)
  | joined (i : Fin n) : s.mapper i = .exited → Passes s (.waitMapper i) (.waitMapper (i + 1))
  | joinedAll (i : Nat) : n ≤ i → Passes s (.waitMapper i) .closeReducer
  | reduced : s.reducer = .exited → Passes s .waitReducer .done

inductive ParentMove (s : St n) : St n → Prop
  | passes (p : Parent) : Passes s s.parent p → ParentMove s { s with parent := p }
  | forkSplitter (i : Fin n) : s.parent = .forkSplitter i → ParentMove s { s with
      splitter := update s.splitter i .forked
      ends := fork s (.splitter i)
      parent := .forkSplitter (i + 1) }
  | forkMapper (i : Fin n) : s.parent = .forkMapper i → ParentMove s { s with
      mapper := update s.mapper i .forked
      ends := fork s (.mapper i)
      parent := .closeInput i }
  | closeInput (i : Fin n) : s.parent = .closeInput i → ParentMove s { s with
      ends := close s .parent fun e => e ≠ .inputRead i && e ≠ .inputWrite i
      parent := .forkMapper (i + 1) }
  | closeReducer : s.parent = .closeReducer → ParentMove s { s with
      ends := close s .parent (· ≠ .reducerWrite)
      parent := .forkReducer }
  | forkReducer : s.parent = .forkReducer → ParentMove s { s with
      reducer := .forked
      ends := fork s .reducer
      parent := .waitReducer }

theorem parent_move (h : main s = some s') : ParentMove s s' := by
  have hpass : ∀ q p, s.parent = q → Passes s q p → ParentMove s { s with parent := p } := by
    intro q p hq hp
    exact .passes p (hq ▸ hp)
  unfold main at h
  split at h
  · rename_i i hp
    split at h
    · rename_i hi
      cases h
      exact .forkSplitter ⟨i, hi⟩ hp
    · rename_i hi
      cases h
      exact hpass _ _ hp (.forked i (Nat.le_of_not_lt hi))
  · rename_i i hp
    split at h
    · rename_i hi
      rw [Option.ite_none_right_eq_some] at h
      rcases h with ⟨hexited, e⟩
      cases e
      exact hpass _ _ hp (.waited ⟨i, hi⟩ hexited)
    · rename_i hi
      cases h
      exact hpass _ _ hp (.waitedAll i (Nat.le_of_not_lt hi))
  · rename_i i hp
    split at h
    · rename_i hi
      cases h
      exact .forkMapper ⟨i, hi⟩ hp
    · rename_i hi
      cases h
      exact hpass _ _ hp (.mapped i (Nat.le_of_not_lt hi))
  · rename_i i hp
    split at h
    · rename_i hi
      cases h
      exact .closeInput ⟨i, hi⟩ hp
    · cases h
  · rename_i i hp
    split at h
    · rename_i hi
      rw [Option.ite_none_right_eq_some] at h
      rcases h with ⟨hexited, e⟩
      cases e
      exact hpass _ _ hp (.joined ⟨i, hi⟩ hexited)
    · rename_i hi
      cases h
      exact hpass _ _ hp (.joinedAll i (Nat.le_of_not_lt hi))
  · rename_i hp
    cases h
    exact .closeReducer hp
  · rename_i hp
    cases h
    exact .forkReducer hp
  · rename_i hp
    rw [Option.ite_none_right_eq_some] at h
    rcases h with ⟨hexited, e⟩
    cases e
    exact hpass _ _ hp (.reduced hexited)
  · cases h

/-- Nothing is forked or closed, and what has been waited for has exited. -/
structure Passes.Spec (s : St n) (q p : Parent) : Prop where
  forked : ∀ j : Fin n, p.forked n ≤ j ↔ q.forked n ≤ j
  waited : ∀ j : Fin n, j < p.waited n → j < q.waited n ∨ s.splitter j = .exited
  mapped : ∀ j : Fin n, p.mapped n ≤ j ↔ q.mapped n ≤ j
  joined : ∀ j : Fin n, j < p.joined n → j < q.joined n ∨ s.mapper j = .exited
  closed : ∀ j : Fin n, p.closed n ≤ j ↔ q.closed n ≤ j
  shut : p.shut = q.shut
  reducing : p.reducing = q.reducing
  done : p = .done → s.reducer = .exited
  closing : ∀ i, p ≠ .closeInput i

theorem Passes.spec {q p : Parent} (h : Passes s q p) : Passes.Spec s q p := by
  have hlt : ∀ {i : Nat}, n ≤ i → ∀ j : Fin n, ¬ i ≤ j := fun hi j => Nat.not_le.mpr (Nat.lt_of_lt_of_le j.isLt hi)
  have hnext : ∀ {C : Fin n → Prop} {i : Fin n}, C i → ∀ j : Fin n, j.val < i.val + 1 → j.val < i.val ∨ C j := by
    intro C i hi j hj
    rcases Nat.lt_succ_iff_lt_or_eq.mp hj with hj | hj
    · exact Or.inl hj
    · rw [Fin.ext hj]
      exact Or.inr hi
  cases h with
  | forked i hi =>
    refine ⟨?_, fun _ h => absurd h (Nat.not_lt_zero _), fun _ => Iff.rfl, fun _ => Or.inl, fun _ => Iff.rfl, rfl, rfl,
      by simp, by simp⟩
    intro j
    exact ⟨fun h => absurd h (hlt (Nat.le_refl n) j), fun h => absurd h (hlt hi j)⟩
  | waited i hi =>
    exact ⟨fun _ => Iff.rfl, hnext hi, fun _ => Iff.rfl, fun _ => Or.inl, fun _ => Iff.rfl, rfl, rfl, by simp, by simp⟩
  | waitedAll i hi =>
    refine ⟨fun _ => Iff.rfl, ?_, fun _ => Iff.rfl, fun _ => Or.inl, fun _ => Iff.rfl, rfl, rfl, by simp, by simp⟩
    intro j _
    exact Or.inl (Nat.lt_of_lt_of_le j.isLt hi)
  | mapped i hi =>
    refine ⟨fun _ => Iff.rfl, fun _ => Or.inl, ?_, fun _ h => absurd h (Nat.not_lt_zero _), ?_, rfl, rfl,
      by simp, by simp⟩
    · intro j
      exact ⟨fun h => absurd h (hlt (Nat.le_refl n) j), fun h => absurd h (hlt hi j)⟩
    · intro j
      exact ⟨fun h => absurd h (hlt (Nat.le_refl n) j), fun h => absurd h (hlt hi j)⟩
  | joined i hi =>
    exact ⟨fun _ => Iff.rfl, fun _ => Or.inl, fun _ => Iff.rfl, hnext hi, fun _ => Iff.rfl, rfl, rfl, by simp, by simp⟩
  | joinedAll i hi =>
    refine ⟨fun _ => Iff.rfl, fun _ => Or.inl, fun _ => Iff.rfl, ?_, fun _ => Iff.rfl, rfl, rfl, by simp, by simp⟩
    intro j _
    exact Or.inl (Nat.lt_of_lt_of_le j.isLt hi)
  | reduced hi =>
    exact ⟨fun _ => Iff.rfl, fun _ => Or.inl, fun _ => Iff.rfl, fun _ => Or.inl, fun _ => Iff.rfl, rfl, rfl,
      fun _ => hi, by simp⟩

theorem Inv.passes (hi : Inv cap share out s) {p : Parent} (h : Passes s s.parent p) :
    Inv cap share out { s with parent := p } := by
  have hp := h.spec
  have hst := hi.stage
  have hh := hi.held
  have hb := hi.bytes
  refine ⟨⟨?_, ?_, ?_, ?_, ?_, hp.done, fun i e => absurd e (hp.closing i)⟩, ?_,
    ⟨hb.room, hb.splitter, hb.writing, hb.outputs, hb.gathered⟩⟩
  · intro j
    rw [hp.forked j]
    exact hst.splitterAbsent j
  · intro j hj
    rcases hp.waited j hj with hj | hj
    · exact hst.splitterExited j hj
    · exact hj
  · intro j
    rw [hp.mapped j]
    exact hst.mapperAbsent j
  · intro j hj
    rcases hp.joined j hj with hj | hj
    · exact hst.mapperExited j hj
    · exact hj
  · rw [hp.reducing]
    exact hst.reducerAbsent
  · refine ⟨?_, ?_, hh.reducerRead, ?_, hh.splitter, hh.mapper, hh.later, hh.reducer⟩
    · intro j
      rw [hp.closed j]
      exact hh.parentRead j
    · intro j
      rw [hp.closed j]
      exact hh.parentWrite j
    · rw [hp.shut]
      exact hh.reducerWrite

/-- One more of a kind of process is there. -/
theorem forks {P : Type} {absent forked : P} {pc : Fin n → P} (h : ∀ j : Fin n, pc j = absent ↔ i ≤ j)
    (hne : forked ≠ absent) (j : Fin n) : update pc i forked j = absent ↔ i.val + 1 ≤ j := by
  by_cases hj : j = i
  · subst hj
    rw [Function.update_self]
    exact ⟨fun e => absurd e hne, fun hle => absurd hle (Nat.not_succ_le_self _)⟩
  · rw [Function.update_of_ne hj, h j]
    have hval : j.val ≠ i.val := fun e => hj (Fin.ext e)
    rw [Fin.le_def]
    omega

theorem Inv.forkSplitter (hi : Inv cap share out s) (hp : s.parent = .forkSplitter i) :
    Inv cap share out { s with
      splitter := update s.splitter i .forked
      ends := fork s (.splitter i)
      parent := .forkSplitter (i + 1) } := by
  rcases hi with ⟨hst, hh, hb⟩
  have habsent := hst.splitterAbsent
  have hread := hh.parentRead
  have hwrite := hh.parentWrite
  have hmapped := hst.mapperAbsent
  have hreducing := hst.reducerAbsent
  have hshut := hh.reducerWrite
  simp only [hp] at habsent hread hwrite hmapped hreducing hshut
  refine ⟨⟨forks habsent (by simp), fun j hj => absurd hj (Nat.not_lt_zero _), hmapped,
    fun j hj => absurd hj (Nat.not_lt_zero _), hreducing, by simp, by simp⟩, ?_, ?_⟩
  · refine ⟨hread, hwrite, hh.reducerRead, hshut, ?_, hh.mapper, hh.later, hh.reducer⟩
    intro j hj e
    by_cases hji : j = i
    · subst hji
      simp at hj
    · dsimp only at hj ⊢
      rw [Function.update_of_ne hji] at hj
      rw [fork_of_ne (by simpa using hji)]
      exact hh.splitter j hj e
  · refine ⟨hb.room, splitter_update hb.splitter ?_, hb.writing, hb.outputs, hb.gathered⟩
    have hok := hb.splitter i
    rw [(habsent i).mpr (Nat.le_refl _)] at hok
    exact hok

theorem Inv.forkMapper (hi : Inv cap share out s) (hp : s.parent = .forkMapper i) :
    Inv cap share out { s with
      mapper := update s.mapper i .forked
      ends := fork s (.mapper i)
      parent := .closeInput i } := by
  rcases hi with ⟨hst, hh, hb⟩
  have habsent := hst.mapperAbsent
  have hread := hh.parentRead
  have hwrite := hh.parentWrite
  have hforked := hst.splitterAbsent
  have hwaited := hst.splitterExited
  have hreducing := hst.reducerAbsent
  have hshut := hh.reducerWrite
  simp only [hp] at habsent hread hwrite hforked hwaited hreducing hshut
  refine ⟨⟨hforked, hwaited, forks habsent (by simp), fun j hj => absurd hj (Nat.not_lt_zero _), hreducing, by simp,
    fun j e => Parent.closeInput.inj e ▸ i.isLt⟩, ?_, ?_⟩
  · refine ⟨hread, hwrite, hh.reducerRead, hshut, hh.splitter, ?_, ?_, hh.reducer⟩
    · intro j hj e
      by_cases hji : j = i
      · subst hji
        simp at hj
      · dsimp only at hj ⊢
        rw [Function.update_of_ne hji] at hj
        rw [fork_of_ne (by simpa using hji)]
        exact hh.mapper j hj e
    · intro j k hjk
      by_cases hji : j = i
      · subst hji
        dsimp only at hjk ⊢
        rw [fork_self, hwrite k] at hjk
        rw [Function.update_self]
        rcases Nat.lt_or_eq_of_le hjk with hlt | heq
        · exact Or.inl hlt
        · exact Or.inr ⟨Fin.ext heq, rfl⟩
      · dsimp only at hjk ⊢
        rw [fork_of_ne (by simpa using hji)] at hjk
        rw [Function.update_of_ne hji]
        exact hh.later j k hjk
  · refine ⟨hb.room, hb.splitter, ?_, ?_, hb.gathered⟩
    · exact (Function.forall_update_iff s.mapper fun _ m => ∀ size left, m = .writing size left → 0 < size).mpr
        ⟨by simp, fun j _ => hb.writing j⟩
    intro hr
    have hsum := hb.outputs hr
    have hupdate := left_update out (s := s) (i := i) (m := .forked)
    have hsame : (s.mapper i).left (out i) = Mapper.left (out i) .forked := by
      rw [(habsent i).mpr (Nat.le_refl _)]
      rfl
    dsimp only
    omega

theorem Inv.closeInput (hi : Inv cap share out s) (hp : s.parent = .closeInput i) :
    Inv cap share out { s with
      ends := close s .parent fun e => e ≠ .inputRead i && e ≠ .inputWrite i
      parent := .forkMapper (i + 1) } := by
  rcases hi with ⟨hst, hh, hb⟩
  have hmapped := hst.mapperAbsent
  have hread := hh.parentRead
  have hwrite := hh.parentWrite
  have hforked := hst.splitterAbsent
  have hwaited := hst.splitterExited
  have hreducing := hst.reducerAbsent
  have hshut := hh.reducerWrite
  simp only [hp] at hmapped hread hwrite hforked hwaited hreducing hshut
  have hnext : ∀ j : Fin n, i.val ≤ j ∧ ¬ j = i ↔ i.val + 1 ≤ j := by
    intro j
    rw [Fin.ext_iff]
    omega
  refine ⟨⟨hforked, hwaited, hmapped, fun j hj => absurd hj (Nat.not_lt_zero _), hreducing, by simp, by simp⟩, ?_,
    ⟨hb.room, hb.splitter, hb.writing, hb.outputs, hb.gathered⟩⟩
  refine ⟨?_, ?_, ?_, ?_, hh.splitter, hh.mapper, hh.later, hh.reducer⟩
  · intro j
    refine Iff.trans ?_ (hnext j)
    simp [hread j, Parent.closed]
  · intro j
    refine Iff.trans ?_ (hnext j)
    simp [hwrite j, Parent.closed]
  · simp [hh.reducerRead]
  · simp [hshut, Parent.shut]

theorem Inv.closeReducer (hi : Inv cap share out s) (hp : s.parent = .closeReducer) :
    Inv cap share out { s with
      ends := close s .parent (· ≠ .reducerWrite)
      parent := .forkReducer } := by
  rcases hi with ⟨hst, hh, hb⟩
  have hmapped := hst.mapperAbsent
  have hread := hh.parentRead
  have hwrite := hh.parentWrite
  have hforked := hst.splitterAbsent
  have hwaited := hst.splitterExited
  have hjoined := hst.mapperExited
  have hreducing := hst.reducerAbsent
  simp only [hp] at hmapped hread hwrite hforked hwaited hjoined hreducing
  refine ⟨⟨hforked, hwaited, hmapped, hjoined, hreducing, by simp, by simp⟩, ?_,
    ⟨hb.room, hb.splitter, hb.writing, hb.outputs, hb.gathered⟩⟩
  refine ⟨?_, ?_, ?_, ?_, hh.splitter, hh.mapper, hh.later, hh.reducer⟩
  · intro j
    simp [hread j, Parent.closed]
  · intro j
    simp [hwrite j, Parent.closed]
  · simp [hh.reducerRead]
  · simp [Parent.shut]

theorem Inv.forkReducer (hi : Inv cap share out s) (hp : s.parent = .forkReducer) :
    Inv cap share out { s with
      reducer := .forked
      ends := fork s .reducer
      parent := .waitReducer } := by
  rcases hi with ⟨hst, hh, hb⟩
  have hmapped := hst.mapperAbsent
  have hread := hh.parentRead
  have hwrite := hh.parentWrite
  have hforked := hst.splitterAbsent
  have hwaited := hst.splitterExited
  have hjoined := hst.mapperExited
  have hreducing := hst.reducerAbsent
  have hshut := hh.reducerWrite
  simp only [hp] at hmapped hread hwrite hforked hwaited hjoined hreducing hshut
  refine ⟨⟨hforked, hwaited, hmapped, hjoined, ⟨by simp, by simp [Parent.reducing]⟩, by simp, by simp⟩, ?_, ?_⟩
  · refine ⟨hread, hwrite, hh.reducerRead, hshut, hh.splitter, hh.mapper, hh.later, ?_⟩
    intro e he
    dsimp only
    rw [fork_self]
    rcases he with ⟨j, e⟩ | e
    · subst e
      have hnot : ¬ s.ends .parent (.inputWrite j) = true := fun h => Nat.not_le.mpr j.isLt ((hwrite j).mp h)
      simpa using hnot
    · subst e
      exact hshut
  · refine ⟨hb.room, hb.splitter, hb.writing, fun h => absurd h (by simp), fun _ => ?_⟩
    have hsum := hb.outputs (hreducing.mpr rfl)
    have hnone : ∑ j, (s.mapper j).left (out j) = 0 := by
      refine Finset.sum_eq_zero fun j _ => ?_
      rw [hjoined j j.isLt]
      rfl
    have hroom := hb.room
    omega

theorem Inv.parentMove (hi : Inv cap share out s) (hm : ParentMove s s') : Inv cap share out s' := by
  cases hm with
  | passes p h => exact hi.passes h
  | forkSplitter i hp => exact hi.forkSplitter hp
  | forkMapper i hp => exact hi.forkMapper hp
  | closeInput i hp => exact hi.closeInput hp
  | closeReducer hp => exact hi.closeReducer hp
  | forkReducer hp => exact hi.forkReducer hp

theorem Inv.start : Inv cap share out (start n) := by
  refine ⟨⟨?_, ?_, ?_, ?_, ?_, ?_, ?_⟩, ⟨?_, ?_, ?_, ?_, ?_, ?_, ?_, ?_⟩, ⟨?_, ?_, ?_, ?_, ?_⟩⟩ <;>
    simp [MapReduce.start, Parent.forked, Parent.waited, Parent.mapped, Parent.joined, Parent.closed, Parent.shut,
      Parent.reducing, SplitterOk, Mapper.left]

theorem inv_step (hi : Inv cap share out s) {a : Act n} (h : step cap share out s a = some s') :
    Inv cap share out s' := by
  cases a with
  | parent => exact hi.parentMove (parent_move h)
  | splitter i k => exact hi.splitterMove (splitter_move h)
  | mapper i writes k => exact hi.mapperMove (mapper_move h)
  | reducer k => exact hi.reducerMove (reducer_move h)

theorem inv_reach (h : (sys cap share out).Reach s) : Inv cap share out s := by
  refine h.inv (I := Inv cap share out) ?_ fun s a s' hi hs => inv_step hi hs
  intro s hs
  have hs : s = MapReduce.start n := hs
  exact hs ▸ Inv.start

end SysProg.MapReduce
