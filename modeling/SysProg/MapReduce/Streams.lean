/-
  SysProg.MapReduce.Streams — what goes through the pipes of mapreduce/mapreduce.c (see
  `SysProg.MapReduce.Mapreduce` and `SysProg.MapReduce.Stuck`).

  `Streams` is a state of the processes with the bytes: of the pipe to each mapper those
  that it has read and those inside, and the same of the reducer's pipe, where each byte
  has the mapper that wrote it. A step moves as many bytes as the counts of the state say.
  The descriptors decide what a reader has seen at the end of file: no mapper is forked
  until all of its share is in the pipe, and no reducer until every mapper has written all
  of its output.

  Main result: `streams_are_carried`, for every number of mappers, shares and outputs of
  any bytes and pipes of any capacity.
-/

import SysProg.Lib.Pipe
import SysProg.MapReduce.Stuck

namespace SysProg.MapReduce

open Function (update)
open Lib (Pipe)
open Lib.Pipe (Handed from_)

variable {n cap : Nat}

structure Streams (n : Nat) where
  st : St n
  input : Fin n → Pipe UInt8
  /-- Each byte with the mapper that wrote it. -/
  output : Pipe (Fin n × UInt8)

def Streams.start (n : Nat) : Streams n := ⟨MapReduce.start n, fun _ => .empty, .empty⟩

variable (cap) (shares outputs : Fin n → List UInt8)

def Streams.fromShare (x : Streams n) (i : Fin n) (k : Nat) : List UInt8 :=
  ((shares i).drop (x.input i).all.length).take k

def Streams.fromOutput (x : Streams n) (i : Fin n) (k : Nat) : List UInt8 :=
  ((outputs i).drop (from_ i x.output.all).length).take k

def Streams.next (x : Streams n) (a : Act n) (s : St n) : Streams n :=
  match a with
  | .parent => { x with st := s }
  | .splitter i _ => { x with
      st := s
      input := update x.input i ((x.input i).write (x.fromShare shares i (s.input i - x.st.input i))) }
  | .mapper i _ _ => {
      st := s
      input := update x.input i ((x.input i).read (x.st.input i - s.input i))
      output := x.output.write ((x.fromOutput outputs i (s.output - x.st.output)).map fun b => (i, b)) }
  | .reducer _ => { x with
      st := s
      output := x.output.read (x.st.output - s.output) }

def Streams.step (x : Streams n) (a : Act n) : Option (Streams n) :=
  (MapReduce.step cap (fun i => (shares i).length) (fun i => (outputs i).length) x.st a).map
    (x.next shares outputs a)

def streams : Run.Sys (Streams n) (Act n) :=
  Run.ofFun (fun x => x = Streams.start n) (Streams.step cap shares outputs)

variable {cap} {shares outputs} {share out : Fin n → Nat} {s s' : St n} {i : Fin n} {k : Nat} {x x' : Streams n}

/-! ## The bytes of one step -/

def Splitter.left (total : Nat) : Splitter → Nat
  | .absent | .forked => total
  | .writing left => left
  | .exited => 0

def Mapper.AtEnd (m : Mapper) : Prop := (∃ left, m = .finishing left) ∨ m = .exited

structure SplitterWrote (share : Fin n → Nat) (s : St n) (i : Fin n) (p : Splitter) (k : Nat) (s' : St n) : Prop where
  splitter : s'.splitter = update s.splitter i p
  input : s'.input = update s.input i (s.input i + k)
  mapper : s'.mapper = s.mapper
  output : s'.output = s.output
  reducer : s'.reducer = s.reducer
  le : k ≤ (s.splitter i).left (share i)
  left : p.left (share i) = (s.splitter i).left (share i) - k

theorem Inv.splitterWrote (hi : Inv cap share out s) (h : SplitterMove cap share s i s') :
    ∃ p k, SplitterWrote share s i p k s' := by
  cases h with
  | ready hpc => exact ⟨_, 0, rfl, (Function.update_eq_self ..).symm, rfl, rfl, rfl, Nat.zero_le _, by rw [hpc]; rfl⟩
  | exits left hpc hwhy =>
    -- the parent has the read end
    have hleft : left = 0 := by
      rcases hwhy with h | h
      · exact h
      · have hread := (hi.held.parentRead i).mpr (hi.stage.open_ (by simp [hpc]))
        rw [h.1] at hread
        cases hread
    subst hleft
    exact ⟨_, 0, rfl, (Function.update_eq_self ..).symm, rfl, rfl, rfl, Nat.zero_le _, by rw [hpc]; rfl⟩
  | write left k hpc hfits =>
    refine ⟨_, k, rfl, rfl, rfl, rfl, rfl, ?_, by rw [hpc]; rfl⟩
    rw [hpc]
    exact hfits.2.1

structure MapperMoved (out : Fin n → Nat) (s : St n) (i : Fin n) (m : Mapper) (r k : Nat) (s' : St n) : Prop where
  mapper : s'.mapper = update s.mapper i m
  input : s'.input = update s.input i (s.input i - r)
  output : s'.output = s.output + k
  splitter : s'.splitter = s.splitter
  reducer : s'.reducer = s.reducer
  read : r ≤ s.input i
  le : k ≤ (s.mapper i).left (out i)
  left : m.left (out i) = (s.mapper i).left (out i) - k

theorem Inv.mapperMoved (hi : Inv cap share out s) (h : MapperMove cap out s i s') :
    ∃ m r k, MapperMoved out s i m r k s' := by
  have hsame : s.input = update s.input i (s.input i - 0) := (Function.update_eq_self ..).symm
  cases h with
  | ready hpc => exact ⟨_, 0, 0, rfl, hsame, rfl, rfl, rfl, Nat.zero_le _, Nat.zero_le _, by rw [hpc]; rfl⟩
  | begins left k hpc hk hle =>
    refine ⟨_, 0, 0, rfl, hsame, rfl, rfl, rfl, Nat.zero_le _, Nat.zero_le _, ?_⟩
    rw [hpc]
    show k + (left - k) = left
    omega
  | ends left hpc _ => exact ⟨_, 0, 0, rfl, hsame, rfl, rfl, rfl, Nat.zero_le _, Nat.zero_le _, by rw [hpc]; rfl⟩
  | read left k hpc _ hle =>
    exact ⟨_, k, 0, (Function.update_eq_self ..).symm, rfl, rfl, rfl, rfl, hle, Nat.zero_le _, rfl⟩
  | write m k hgoes _ _ =>
    have hleft := (hgoes.spec (out i)).1
    exact ⟨m, 0, k, rfl, hsame, rfl, rfl, rfl, Nat.zero_le _, by omega, by omega⟩
  | killed hclosed =>
    -- the parent has the read end
    have hread := hi.held.reducerRead
    rw [hclosed.1] at hread
    cases hread
  | exits hpc => exact ⟨_, 0, 0, rfl, hsame, rfl, rfl, rfl, Nat.zero_le _, Nat.zero_le _, by rw [hpc]; rfl⟩

/-- A mapper comes to the end of file when there is nothing in its pipe. -/
theorem mapper_at_end {writes : Bool} (hi : Inv cap share out s) (h : mapperRun cap out s i writes k = some s')
    (hend : (s'.mapper i).AtEnd) : (s.mapper i).AtEnd ∨ s.input i = 0 := by
  cases hpc : s.mapper i with
  | finishing left => exact Or.inl (Or.inl ⟨left, rfl⟩)
  | exited => exact Or.inl (Or.inr rfl)
  | absent =>
    rw [mapperRun, hpc] at h
    cases h
  | forked =>
    rw [mapperRun, hpc] at h
    cases h
    simp [Mapper.AtEnd] at hend
  | reading left =>
    apply Or.inr
    by_contra hinput
    rw [mapperRun, hpc] at h
    dsimp only at h
    split at h
    · rw [Option.ite_none_right_eq_some] at h
      rcases h with ⟨_, e⟩
      cases e
      simp [Mapper.AtEnd] at hend
    · rw [Option.ite_none_right_eq_some] at h
      rcases h with ⟨_, e⟩
      cases e
      simp [Mapper.AtEnd, hpc] at hend
  | writing size left =>
    rw [mapperRun, hpc] at h
    have hopen : ¬ s.Closed .reducerRead := by
      intro hclosed
      have hread := hi.held.reducerRead
      rw [hclosed.1] at hread
      cases hread
    dsimp only at h
    rw [mapperWrite, if_neg hopen, Option.ite_none_right_eq_some] at h
    rcases h with ⟨_, e⟩
    cases e
    dsimp only at hend
    rw [Function.update_self] at hend
    split at hend <;> simp [Mapper.AtEnd] at hend

/-- The reducer comes to the end of file when there is nothing in its pipe. -/
theorem reducer_at_end (h : reducerRun s k = some s') (hend : s'.reducer = .exited) :
    s.reducer = .exited ∨ s.output = 0 := by
  cases hpc : s.reducer with
  | exited => exact Or.inl rfl
  | absent =>
    rw [reducerRun, hpc] at h
    cases h
  | forked =>
    rw [reducerRun, hpc] at h
    cases h
    cases hend
  | reading =>
    apply Or.inr
    by_contra houtput
    rw [reducerRun, hpc] at h
    dsimp only at h
    rw [if_neg houtput, Option.ite_none_right_eq_some] at h
    rcases h with ⟨_, e⟩
    cases e
    simp at hend

/-! ## What has been carried -/

/-- The bytes are as many as the counts say, and each writer has handed over a first part
    of its text; who is at the end of file has left nothing in the pipe. -/
structure Carried (shares outputs : Fin n → List UInt8) (x : Streams n) : Prop where
  input : ∀ i, (x.input i).inside.length = x.st.input i
  output : x.output.inside.length = x.st.output
  share : ∀ i, Handed (x.input i).all (shares i) ((x.st.splitter i).left (shares i).length)
  out : ∀ i, Handed (from_ i x.output.all) (outputs i) ((x.st.mapper i).left (outputs i).length)
  read : ∀ i, (x.st.mapper i).AtEnd → (x.input i).inside = []
  reduced : x.st.reducer = .exited → x.output.inside = []

theorem Carried.splitter (h : Carried shares outputs x) {p : Splitter}
    (hm : SplitterWrote (fun i => (shares i).length) x.st i p k s') (hgone : (x.st.mapper i).AtEnd → k = 0) :
    Carried shares outputs (x.next shares outputs (.splitter i 0) s') := by
  have hk : s'.input i - x.st.input i = k := by
    rw [hm.input, Function.update_self]
    omega
  have hlen := (h.share i).length_next hm.le
  simp only [Streams.next, hk]
  refine ⟨?_, ?_, ?_, ?_, ?_, ?_⟩
  · intro j
    dsimp only
    rw [hm.input]
    by_cases hj : j = i
    · subst hj
      rw [Function.update_self, Function.update_self, Pipe.write_inside, List.length_append, h.input j]
      exact congrArg _ hlen
    · rw [Function.update_of_ne hj, Function.update_of_ne hj, h.input j]
  · show x.output.inside.length = s'.output
    rw [hm.output, h.output]
  · intro j
    dsimp only
    rw [hm.splitter]
    by_cases hj : j = i
    · subst hj
      rw [Function.update_self, Function.update_self, Pipe.all_write, hm.left]
      exact (h.share j).more k
    · rw [Function.update_of_ne hj, Function.update_of_ne hj]
      exact h.share j
  · intro j
    show Handed (from_ j x.output.all) (outputs j) ((s'.mapper j).left _)
    rw [hm.mapper]
    exact h.out j
  · intro j hend
    dsimp only at hend ⊢
    rw [hm.mapper] at hend
    by_cases hj : j = i
    · subst hj
      rw [Function.update_self, hgone hend]
      simpa [Streams.fromShare] using h.read j hend
    · rw [Function.update_of_ne hj]
      exact h.read j hend
  · intro hr
    dsimp only at hr ⊢
    rw [hm.reducer] at hr
    exact h.reduced hr

theorem Carried.mapper (h : Carried shares outputs x) {m : Mapper} {r : Nat}
    (hm : MapperMoved (fun i => (outputs i).length) x.st i m r k s')
    (hend : m.AtEnd → (x.st.mapper i).AtEnd ∨ x.st.input i = 0) (hrun : x.st.reducer = .exited → k = 0) :
    Carried shares outputs (x.next shares outputs (.mapper i false 0) s') := by
  have hr : x.st.input i - s'.input i = r := by
    rw [hm.input, Function.update_self]
    have hle := hm.read
    omega
  have hk : s'.output - x.st.output = k := by
    rw [hm.output]
    omega
  have hlen := (h.out i).length_next hm.le
  simp only [Streams.next, hr, hk]
  refine ⟨?_, ?_, ?_, ?_, ?_, ?_⟩
  · intro j
    dsimp only
    rw [hm.input]
    by_cases hj : j = i
    · subst hj
      rw [Function.update_self, Function.update_self, Pipe.length_inside_read, h.input j]
    · rw [Function.update_of_ne hj, Function.update_of_ne hj, h.input j]
  · show (x.output.inside ++ _).length = s'.output
    rw [List.length_append, List.length_map, hm.output, h.output]
    exact congrArg _ hlen
  · intro j
    dsimp only
    rw [hm.splitter]
    by_cases hj : j = i
    · subst hj
      rw [Function.update_self, Pipe.all_read]
      exact h.share j
    · rw [Function.update_of_ne hj]
      exact h.share j
  · intro j
    dsimp only
    rw [hm.mapper, Pipe.all_write, Pipe.from_append]
    by_cases hj : j = i
    · subst hj
      rw [Function.update_self, Pipe.from_self, hm.left]
      exact (h.out j).more k
    · rw [Function.update_of_ne hj, Pipe.from_other hj, List.append_nil]
      exact h.out j
  · intro j hj
    dsimp only at hj ⊢
    rw [hm.mapper] at hj
    by_cases hji : j = i
    · subst hji
      rw [Function.update_self] at hj ⊢
      have hempty : (x.input j).inside = [] := by
        rcases hend hj with he | he
        · exact h.read j he
        · exact List.length_eq_zero_iff.mp ((h.input j).trans he)
      show (x.input j).inside.drop r = []
      rw [hempty, List.drop_nil]
    · rw [Function.update_of_ne hji] at hj ⊢
      exact h.read j hj
  · intro hd
    dsimp only at hd ⊢
    rw [hm.reducer] at hd
    rw [hrun hd]
    simpa [Streams.fromOutput] using h.reduced hd

theorem Carried.reducer (h : Carried shares outputs x) (hm : ReducerMove x.st s')
    (hend : s'.reducer = .exited → x.st.reducer = .exited ∨ x.st.output = 0) :
    Carried shares outputs (x.next shares outputs (.reducer 0) s') := by
  have hall : (x.next shares outputs (.reducer 0) s').output.all = x.output.all := Pipe.all_read
  have hempty : s'.reducer = .exited → (x.next shares outputs (.reducer 0) s').output.inside = [] := by
    intro hr
    have hnone : x.output.inside = [] := by
      rcases hend hr with he | he
      · exact h.reduced he
      · exact List.length_eq_zero_iff.mp (h.output.trans he)
    show x.output.inside.drop _ = []
    rw [hnone, List.drop_nil]
  cases hm with
  | ready _ | ends _ =>
    refine ⟨h.input, ?_, h.share, fun j => hall ▸ h.out j, h.read, hempty⟩
    simpa [Streams.next] using h.output
  | read k _ hk hle =>
    refine ⟨h.input, ?_, h.share, fun j => hall ▸ h.out j, h.read, hempty⟩
    have hlen := h.output
    simp only [Streams.next, Pipe.length_inside_read]
    omega

/-- No byte moves, and who was not there is forked. -/
theorem Carried.parent (h : Carried shares outputs x) (hin : s'.input = x.st.input) (hout : s'.output = x.st.output)
    (hs : s'.splitter = x.st.splitter ∨ ∃ i, x.st.splitter i = .absent ∧ s'.splitter = update x.st.splitter i .forked)
    (hm : s'.mapper = x.st.mapper ∨ ∃ i, x.st.mapper i = .absent ∧ s'.mapper = update x.st.mapper i .forked)
    (hr : s'.reducer = .exited → x.st.reducer = .exited) : Carried shares outputs { x with st := s' } := by
  have hleft : ∀ j, (s'.splitter j).left (shares j).length = (x.st.splitter j).left (shares j).length := by
    intro j
    rcases hs with hs | ⟨i, habsent, hs⟩
    · rw [hs]
    · rw [hs]
      by_cases hj : j = i
      · subst hj
        rw [Function.update_self, habsent]
        rfl
      · rw [Function.update_of_ne hj]
  have hmleft : ∀ j, (s'.mapper j).left (outputs j).length = (x.st.mapper j).left (outputs j).length ∧
      ((s'.mapper j).AtEnd → (x.st.mapper j).AtEnd) := by
    intro j
    rcases hm with hm | ⟨i, habsent, hm⟩
    · rw [hm]
      exact ⟨rfl, id⟩
    · rw [hm]
      by_cases hj : j = i
      · subst hj
        rw [Function.update_self, habsent]
        refine ⟨rfl, ?_⟩
        intro hend
        simp [Mapper.AtEnd] at hend
      · rw [Function.update_of_ne hj]
        exact ⟨rfl, id⟩
  refine ⟨?_, h.output.trans hout.symm, ?_, ?_, ?_, fun he => h.reduced (hr he)⟩
  · intro j
    show (x.input j).inside.length = s'.input j
    rw [hin, h.input j]
  · intro j
    show Handed (x.input j).all (shares j) ((s'.splitter j).left _)
    rw [hleft j]
    exact h.share j
  · intro j
    show Handed (from_ j x.output.all) (outputs j) ((s'.mapper j).left _)
    rw [(hmleft j).1]
    exact h.out j
  · intro j hend
    exact h.read j ((hmleft j).2 hend)

theorem carried_step (hi : Inv cap (fun i => (shares i).length) (fun i => (outputs i).length) x.st)
    (h : Carried shares outputs x) {a : Act n} (hs : x.step cap shares outputs a = some x') :
    Carried shares outputs x' := by
  rcases Option.map_eq_some_iff.mp hs with ⟨s', hstep, e⟩
  subst e
  have hst := hi.stage
  cases a with
  | parent =>
    have hfree : ∀ {i : Fin n}, x.st.parent = .forkSplitter i → x.st.splitter i = .absent := by
      intro i hp
      rw [hst.splitterAbsent, hp]
      exact Nat.le_refl _
    have hnone : ∀ {i : Fin n}, x.st.parent = .forkMapper i → x.st.mapper i = .absent := by
      intro i hp
      rw [hst.mapperAbsent, hp]
      exact Nat.le_refl _
    have hm := parent_move hstep
    show Carried shares outputs { x with st := s' }
    cases hm with
    | passes | closeInput | closeReducer => exact h.parent rfl rfl (Or.inl rfl) (Or.inl rfl) id
    | forkSplitter i hp => exact h.parent rfl rfl (Or.inr ⟨i, hfree hp, rfl⟩) (Or.inl rfl) id
    | forkMapper i hp => exact h.parent rfl rfl (Or.inl rfl) (Or.inr ⟨i, hnone hp, rfl⟩) id
    | forkReducer hp => exact h.parent rfl rfl (Or.inl rfl) (Or.inl rfl) fun he => by cases he
  | splitter i k =>
    rcases hi.splitterWrote (splitter_move hstep) with ⟨p, m, hm⟩
    apply h.splitter hm
    intro hend
    have hthere : x.st.mapper i ≠ .absent := by
      intro habsent
      simp [Mapper.AtEnd, habsent] at hend
    have hle := hm.le
    rw [hst.splitters hthere i] at hle
    exact Nat.le_zero.mp hle
  | mapper i writes k =>
    rcases hi.mapperMoved (mapper_move hstep) with ⟨m, r, w, hm⟩
    refine h.mapper hm ?_ ?_
    · intro hend
      apply mapper_at_end hi hstep
      rw [hm.mapper, Function.update_self]
      exact hend
    · intro hr
      have hle := hm.le
      rw [hst.mappers (by rw [hr]; simp) i] at hle
      exact Nat.le_zero.mp hle
  | reducer k => exact h.reducer (reducer_move hstep) (reducer_at_end hstep)

/-- What the processes do is a run of `sys`, with the bytes carried. -/
theorem streams_reach (h : (streams cap shares outputs).Reach x) :
    (sys cap (fun i => (shares i).length) fun i => (outputs i).length).Reach x.st ∧ Carried shares outputs x := by
  refine h.inv (I := fun x => (sys cap (fun i => (shares i).length) fun i => (outputs i).length).Reach x.st ∧
    Carried shares outputs x) ?_ ?_
  · intro x hx
    subst hx
    refine ⟨.init rfl, fun _ => rfl, rfl, fun _ => Handed.start, fun _ => Handed.start, ?_, fun _ => rfl⟩
    intro i _
    rfl
  · intro x a x' ⟨hr, hc⟩ hs
    rcases Option.map_eq_some_iff.mp hs with ⟨s', hstep, e⟩
    refine ⟨?_, carried_step (inv_reach hr) hc hs⟩
    subst e
    have hnext : (x.next shares outputs a s').st = s' := by cases a <;> rfl
    rw [hnext]
    exact .step a hr trivial hstep

theorem Carried.end_of_share (hi : Inv cap (fun i => (shares i).length) (fun i => (outputs i).length) x.st)
    (h : Carried shares outputs x) (hend : (x.st.mapper i).AtEnd) : (x.input i).taken = shares i := by
  have hthere : x.st.mapper i ≠ .absent := by
    intro habsent
    simp [Mapper.AtEnd, habsent] at hend
  have hshare := h.share i
  rw [hi.stage.splitters hthere i] at hshare
  rw [Pipe.taken_eq_all (h.read i hend)]
  exact hshare.done

theorem Carried.end_of_output (hi : Inv cap (fun i => (shares i).length) (fun i => (outputs i).length) x.st)
    (h : Carried shares outputs x) (hr : x.st.reducer = .exited) (i : Fin n) :
    from_ i x.output.taken = outputs i := by
  have hout := h.out i
  rw [hi.stage.mappers (by rw [hr]; simp) i] at hout
  rw [Pipe.taken_eq_all (h.reduced hr)]
  exact hout.done

end SysProg.MapReduce
