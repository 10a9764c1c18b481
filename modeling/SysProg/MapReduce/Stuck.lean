/-
  SysProg.MapReduce.Stuck — when every process of mapreduce is blocked (see
  `SysProg.MapReduce.Pipeline`).

  A share that is larger than its pipe is never written, as no mapper is started before
  the splitters have exited, and neither are outputs that are together larger than the
  reducer's pipe. When they fit nothing else stands in the way (`Inv.goes`): of the
  mappers that have not exited the first comes to the end of file, since a mapper has
  write ends of the pipes to later ones only. And no process goes on for ever
  (`cost_lt`), so when they do not fit some run is stuck.

  Main results: `never_stuck_iff`, for every number of mappers, every share and output
  and every capacity, and `stuck_on_share`.
-/

import SysProg.MapReduce.Pipeline

namespace SysProg.MapReduce

open Function (update)

variable {n cap : Nat} {share out : Fin n → Nat} {s s' : St n} {i : Fin n} {k : Nat}

/-! ## What can go on -/

/-- In a write, while there are readers. -/
theorem splitter_writing (share : Fin n → Nat) {left : Nat} (hpc : s.splitter i = .writing left) (hleft : left ≠ 0)
    (hopen : ¬ s.Closed (.inputRead i)) : splitterRun cap share s i k =
      if Fits cap (s.input i) left k then some { s with
        splitter := update s.splitter i (.writing (left - k))
        input := update s.input i (s.input i + k) }
      else none := by
  rw [splitterRun, hpc]
  exact (if_neg hleft).trans (if_neg hopen)

theorem Inv.splitterRuns (hi : Inv cap share out s) (hfit : share i ≤ cap) (hthere : s.splitter i ≠ .absent)
    (hrun : s.splitter i ≠ .exited) : ∃ k s', splitterRun cap share s i k = some s' := by
  have hok := hi.bytes.splitter i
  cases hpc : s.splitter i with
  | absent => exact absurd hpc hthere
  | forked => exact ⟨0, _, by rw [splitterRun, hpc]⟩
  | writing left =>
    rw [hpc] at hok
    rcases hok with ⟨hsum, -⟩
    by_cases hleft : left = 0
    · exact ⟨0, _, by rw [splitterRun, hpc]; exact if_pos hleft⟩
    by_cases hclosed : s.Closed (.inputRead i)
    · exact ⟨0, _, by rw [splitterRun, hpc]; exact (if_neg hleft).trans (if_pos hclosed)⟩
    have hfits : Fits cap (s.input i) left 1 := ⟨Nat.one_pos, by omega, by omega⟩
    exact ⟨1, _, (splitter_writing share hpc hleft hclosed).trans (if_pos hfits)⟩
  | exited => exact absurd hpc hrun

/-- No mapper waits for room. -/
theorem Bytes.mapperRoom (hb : Bytes cap share out s) (hfit : ∑ j, out j ≤ cap) (hr : s.reducer = .absent) :
    s.output + (s.mapper i).left (out i) ≤ cap := by
  have hle : (s.mapper i).left (out i) ≤ ∑ j, (s.mapper j).left (out j) :=
    Finset.single_le_sum (f := fun j => (s.mapper j).left (out j)) (fun _ _ => Nat.zero_le _) (Finset.mem_univ i)
  have hsum := hb.outputs hr
  omega

theorem mapperWrite_runs {size : Nat} (hsize : 0 < size) (hroom : s.output + size ≤ cap) (next : Mapper) :
    ∃ s', mapperWrite cap s i size 1 next = some s' := by
  unfold mapperWrite
  by_cases hclosed : s.Closed .reducerRead
  · exact ⟨_, if_pos hclosed⟩
  · have hfits : Fits cap s.output size 1 := ⟨Nat.one_pos, hsize, by omega⟩
    exact ⟨_, (if_neg hclosed).trans (if_pos hfits)⟩

/-- The parent has closed the pipe to the first mapper that runs, the splitters have
    exited and so have the mappers before it; the later ones have no end of it. -/
theorem Inv.inputClosed (hi : Inv cap share out s) (hparent : i < s.parent.closed n) (hrun : s.mapper i ≠ .absent)
    (hforked : s.mapper i ≠ .forked) (hfirst : ∀ j, j < i → s.mapper j = .exited) : s.Closed (.inputWrite i) := by
  have hh := hi.held
  refine ⟨?_, ?_, ?_, hh.reducer _ (Or.inl ⟨i, rfl⟩)⟩
  · have hnot : ¬ s.ends .parent (.inputWrite i) = true := fun h => Nat.not_le.mpr hparent ((hh.parentWrite i).mp h)
    simpa using hnot
  · intro j
    exact hh.splitter j (Or.inr (hi.stage.splitters hrun j)) _
  · intro j
    by_contra hopen
    rcases hh.later j i (by simpa using hopen) with hlt | ⟨rfl, hf⟩
    · exact hopen (hh.mapper j (Or.inr (hfirst j hlt)) _)
    · exact hforked hf

theorem Inv.mapperRuns (hi : Inv cap share out s) (hfit : ∑ j, out j ≤ cap) (hparent : i < s.parent.closed n)
    (hr : s.reducer = .absent) (hthere : s.mapper i ≠ .absent) (hrun : s.mapper i ≠ .exited)
    (hfirst : ∀ j, j < i → s.mapper j = .exited) : ∃ writes k s', mapperRun cap out s i writes k = some s' := by
  have hroom := hi.bytes.mapperRoom (i := i) hfit hr
  cases hpc : s.mapper i with
  | absent => exact absurd hpc hthere
  | forked => exact ⟨false, 0, _, by rw [mapperRun, hpc]⟩
  | reading left =>
    by_cases hinput : s.input i = 0
    · have hclosed := hi.inputClosed hparent hthere (by simp [hpc]) hfirst
      refine ⟨false, 0, { s with mapper := update s.mapper i (.finishing left) }, ?_⟩
      rw [mapperRun, hpc]
      exact (if_neg Bool.false_ne_true).trans ((if_pos hinput).trans (if_pos hclosed))
    · refine ⟨false, 1, { s with input := update s.input i (s.input i - 1) }, ?_⟩
      rw [mapperRun, hpc]
      exact (if_neg Bool.false_ne_true).trans ((if_neg hinput).trans (if_pos ⟨Nat.one_pos, Nat.pos_of_ne_zero hinput⟩))
  | writing size left =>
    rw [hpc] at hroom
    have hroom : s.output + (size + left) ≤ cap := hroom
    have hsize := hi.bytes.writing i size left hpc
    rcases mapperWrite_runs (i := i) hsize (show s.output + size ≤ cap by omega) _ with ⟨s', hs⟩
    exact ⟨false, 1, s', by rw [mapperRun, hpc]; exact hs⟩
  | finishing left =>
    by_cases hleft : left = 0
    · exact ⟨false, 0, _, by rw [mapperRun, hpc]; exact if_pos hleft⟩
    rw [hpc] at hroom
    rcases mapperWrite_runs (i := i) (Nat.pos_of_ne_zero hleft) hroom _ with ⟨s', hs⟩
    exact ⟨false, 1, s', by rw [mapperRun, hpc]; exact (if_neg hleft).trans hs⟩
  | exited => exact absurd hpc hrun

theorem Inv.reducerRuns (hi : Inv cap share out s) (hthere : s.reducer ≠ .absent) (hrun : s.reducer ≠ .exited) :
    ∃ k s', reducerRun s k = some s' := by
  cases hpc : s.reducer with
  | absent => exact absurd hpc hthere
  | forked => exact ⟨0, _, by rw [reducerRun, hpc]⟩
  | reading =>
    by_cases houtput : s.output = 0
    · have hh := hi.held
      have hreducing : s.parent.reducing ≠ false := fun h => hthere (hi.stage.reducerAbsent.mpr h)
      have hshut : s.parent.shut = true := by
        cases hp : s.parent <;> rw [hp] at hreducing <;> simp [Parent.reducing, Parent.shut] at hreducing ⊢
      have hmappers := hi.stage.mappers hthere
      have hclosed : s.Closed .reducerWrite := by
        refine ⟨?_, ?_, fun j => hh.mapper j (Or.inr (hmappers j)) _, hh.reducer _ (Or.inr rfl)⟩
        · rw [hh.reducerWrite, hshut]
          rfl
        · intro j
          exact hh.splitter j (Or.inr (hi.stage.splitters (by rw [hmappers j]; simp) j)) _
      refine ⟨0, { s with reducer := .exited, ends := exit s .reducer }, ?_⟩
      rw [reducerRun, hpc]
      exact (if_pos houtput).trans (if_pos hclosed)
    · refine ⟨1, { s with output := s.output - 1 }, ?_⟩
      rw [reducerRun, hpc]
      exact (if_neg houtput).trans (if_pos ⟨Nat.one_pos, Nat.pos_of_ne_zero houtput⟩)
  | exited => exact absurd hpc hrun

theorem Inv.goes (hi : Inv cap share out s) (hshare : ∀ i, share i ≤ cap) (hout : ∑ i, out i ≤ cap)
    (hrun : s.reducer ≠ .exited) : ∃ a s', step cap share out s a = some s' := by
  have hparent : ∀ {s'}, main s = some s' → ∃ a s', step cap share out s a = some s' := fun h => ⟨.parent, _, h⟩
  have hst := hi.stage
  cases hp : s.parent with
  | forkSplitter i =>
    by_cases hin : i < n
    · exact hparent (by rw [main, hp]; exact dif_pos hin)
    · exact hparent (by rw [main, hp]; exact dif_neg hin)
  | waitSplitter i =>
    by_cases hin : i < n
    · by_cases hexited : s.splitter ⟨i, hin⟩ = .exited
      · exact hparent (by rw [main, hp]; exact (dif_pos hin).trans (if_pos hexited))
      have hthere : s.splitter ⟨i, hin⟩ ≠ .absent := by
        intro h
        have hle := (hst.splitterAbsent ⟨i, hin⟩).mp h
        rw [hp] at hle
        exact Nat.not_le.mpr hin hle
      rcases hi.splitterRuns (hshare _) hthere hexited with ⟨k, s', hs⟩
      exact ⟨.splitter ⟨i, hin⟩ k, s', hs⟩
    · exact hparent (by rw [main, hp]; exact dif_neg hin)
  | forkMapper i =>
    by_cases hin : i < n
    · exact hparent (by rw [main, hp]; exact dif_pos hin)
    · exact hparent (by rw [main, hp]; exact dif_neg hin)
  | closeInput i => exact hparent (by rw [main, hp]; exact dif_pos (hst.closing i hp))
  | waitMapper i =>
    by_cases hin : i < n
    · by_cases hexited : s.mapper ⟨i, hin⟩ = .exited
      · exact hparent (by rw [main, hp]; exact (dif_pos hin).trans (if_pos hexited))
      -- the first mapper that runs
      rcases WellFounded.has_min (r := (· < ·)) wellFounded_lt {j : Fin n | s.mapper j ≠ .exited} ⟨_, hexited⟩ with
        ⟨m, hm, hmin⟩
      have hthere : s.mapper m ≠ .absent := by
        intro h
        have hle := (hst.mapperAbsent m).mp h
        rw [hp] at hle
        exact Nat.not_le.mpr m.isLt hle
      have hfirst : ∀ j, j < m → s.mapper j = .exited := fun j hj => not_not.mp fun h => hmin j h hj
      have hreducer : s.reducer = .absent := by
        rw [hst.reducerAbsent, hp]
        rfl
      rcases hi.mapperRuns hout (by rw [hp]; exact m.isLt) hreducer hthere hm hfirst with ⟨writes, k, s', hs⟩
      exact ⟨.mapper m writes k, s', hs⟩
    · exact hparent (by rw [main, hp]; exact dif_neg hin)
  | closeReducer => exact hparent (by rw [main, hp])
  | forkReducer => exact hparent (by rw [main, hp])
  | waitReducer =>
    have hthere : s.reducer ≠ .absent := by
      rw [Ne, hst.reducerAbsent, hp]
      simp [Parent.reducing]
    rcases hi.reducerRuns hthere hrun with ⟨k, s', hs⟩
    exact ⟨.reducer k, s', hs⟩
  | done => exact absurd (hst.reducerExited hp) hrun

/-! ## No process goes on for ever -/

def Parent.cost (n : Nat) : Parent → Nat
  | .forkSplitter i => 7 + 4 * n + (n - i)
  | .waitSplitter i => 6 + 3 * n + (n - i)
  | .forkMapper i => 5 + n + 2 * (n - i)
  | .closeInput i => 4 + n + 2 * (n - i)
  | .waitMapper i => 4 + (n - i)
  | .closeReducer => 3
  | .forkReducer => 2
  | .waitReducer => 1
  | .done => 0

/-- A byte costs its writer more than the reader of the pipe. -/
def Splitter.cost (share : Nat) : Splitter → Nat
  | .absent => 2 * share + 3
  | .forked => 2 * share + 2
  | .writing left => 2 * left + 1
  | .exited => 0

def Mapper.cost (total : Nat) : Mapper → Nat
  | .absent => 3 * total + 4
  | .forked => 3 * total + 3
  | .reading left => 3 * left + 2
  | .writing size left => 2 * size + 3 * left + 2
  | .finishing left => 3 * left + 1
  | .exited => 0

def Reducer.cost : Reducer → Nat
  | .absent => 3
  | .forked => 2
  | .reading => 1
  | .exited => 0

def St.cost (share out : Fin n → Nat) (s : St n) : Nat :=
  s.parent.cost n + ∑ j, (s.splitter j).cost (share j) + ∑ j, s.input j + ∑ j, (s.mapper j).cost (out j) + s.output +
    s.reducer.cost

/-- One process gets on, and puts `k` bytes into a pipe. -/
theorem splitter_cost (share : Fin n → Nat) {p : Splitter} (h : p.cost (share i) + k < (s.splitter i).cost (share i)) :
    ∑ j, (update s.splitter i p j).cost (share j) + k < ∑ j, (s.splitter j).cost (share j) := by
  have hsum := Threads.sum_update_at (fun j p => Splitter.cost (share j) p) s.splitter i p
  omega

theorem mapper_cost (out : Fin n → Nat) {m : Mapper} (h : m.cost (out i) + k < (s.mapper i).cost (out i)) :
    ∑ j, (update s.mapper i m j).cost (out j) + k < ∑ j, (s.mapper j).cost (out j) := by
  have hsum := Threads.sum_update_at (fun j m => Mapper.cost (out j) m) s.mapper i m
  omega

theorem input_cost {b : Nat} : ∑ j, update s.input i b j + s.input i = ∑ j, s.input j + b :=
  Threads.sum_update id s.input i b

theorem SplitterMove.cost_lt (h : SplitterMove cap share s i s') : s'.cost share out < s.cost share out := by
  cases h with
  | ready hpc =>
    have hlt := splitter_cost share (s := s) (i := i) (p := .writing (share i)) (k := 0)
      (by simp [hpc, Splitter.cost])
    simp only [St.cost]
    omega
  | exits left hpc _ =>
    have hlt := splitter_cost share (s := s) (i := i) (p := .exited) (k := 0) (by simp [hpc, Splitter.cost])
    simp only [St.cost, St.splitterExits]
    omega
  | write left k hpc hfits =>
    rcases hfits with ⟨hk, hle, -⟩
    have hlt := splitter_cost share (s := s) (i := i) (p := .writing (left - k)) (k := k) (by
      rw [hpc]
      simp only [Splitter.cost]
      omega)
    have hinput := input_cost (s := s) (i := i) (b := s.input i + k)
    simp only [St.cost]
    omega

theorem Mapper.Goes.cost_lt {m m' : Mapper} (h : m.Goes m' k) (hk : 0 < k) (total : Nat) :
    m'.cost total + k < m.cost total := by
  cases h with
  | some_ size left h1 hlt h2 =>
    subst h1 h2
    simp only [Mapper.cost]
    omega
  | all left h1 h2 =>
    subst h1 h2
    simp only [Mapper.cost]
    omega
  | last left h1 hle h2 =>
    subst h1 h2
    simp only [Mapper.cost]
    omega

theorem MapperMove.cost_lt (h : MapperMove cap out s i s') (hread : ¬ s.Closed .reducerRead) :
    s'.cost share out < s.cost share out := by
  have hlt : ∀ {m : Mapper} {k : Nat}, m.cost (out i) + k < (s.mapper i).cost (out i) →
      ∑ j, (update s.mapper i m j).cost (out j) + k < ∑ j, (s.mapper j).cost (out j) := mapper_cost out
  cases h with
  | ready hpc =>
    have hlt := hlt (m := .reading (out i)) (k := 0) (by simp [hpc, Mapper.cost])
    simp only [St.cost]
    omega
  | begins left k hpc hk hle =>
    have hlt := hlt (m := .writing k (left - k)) (k := 0) (by
      rw [hpc]
      simp only [Mapper.cost]
      omega)
    simp only [St.cost]
    omega
  | ends left hpc _ =>
    have hlt := hlt (m := .finishing left) (k := 0) (by simp [hpc, Mapper.cost])
    simp only [St.cost]
    omega
  | read left k hpc hk hle =>
    have hinput := input_cost (s := s) (i := i) (b := s.input i - k)
    simp only [St.cost]
    omega
  | write m k hgoes hk _ =>
    have hlt := hlt (hgoes.cost_lt hk (out i))
    simp only [St.cost]
    omega
  | killed hclosed => exact absurd hclosed hread
  | exits hpc =>
    have hlt := hlt (m := .exited) (k := 0) (by simp [hpc, Mapper.cost])
    simp only [St.cost, St.mapperExits]
    omega

theorem ReducerMove.cost_lt (h : ReducerMove s s') : s'.cost share out < s.cost share out := by
  cases h with
  | ready hpc =>
    simp only [St.cost, hpc, Reducer.cost]
    omega
  | ends hpc =>
    simp only [St.cost, hpc, Reducer.cost]
    omega
  | read k hpc hk hle =>
    simp only [St.cost]
    omega

theorem Passes.cost_lt {q p : Parent} (h : Passes s q p) : p.cost n < q.cost n := by
  cases h with
  | forked i hi => simp only [Parent.cost]; omega
  | waited i hi => simp only [Parent.cost]; omega
  | waitedAll i hi => simp only [Parent.cost]; omega
  | mapped i hi => simp only [Parent.cost]; omega
  | joined i hi => simp only [Parent.cost]; omega
  | joinedAll i hi => simp only [Parent.cost]; omega
  | reduced hi => simp only [Parent.cost]; omega

theorem ParentMove.cost_lt (hi : Inv cap share out s) (h : ParentMove s s') : s'.cost share out < s.cost share out := by
  have hst := hi.stage
  cases h with
  | passes p h =>
    have hlt := h.cost_lt
    simp only [St.cost]
    omega
  | forkSplitter i hp =>
    have habsent : s.splitter i = .absent := by
      rw [hst.splitterAbsent, hp]
      exact Nat.le_refl _
    have hlt := splitter_cost share (s := s) (i := i) (p := .forked) (k := 0)
      (by simp [habsent, Splitter.cost])
    simp only [St.cost, hp, Parent.cost]
    omega
  | forkMapper i hp =>
    have habsent : s.mapper i = .absent := by
      rw [hst.mapperAbsent, hp]
      exact Nat.le_refl _
    have hlt := mapper_cost out (s := s) (i := i) (m := .forked) (k := 0) (by simp [habsent, Mapper.cost])
    simp only [St.cost, hp, Parent.cost]
    omega
  | closeInput i hp =>
    simp only [St.cost, hp, Parent.cost]
    omega
  | closeReducer hp =>
    simp only [St.cost, hp, Parent.cost]
    omega
  | forkReducer hp =>
    have habsent : s.reducer = .absent := by
      rw [hst.reducerAbsent, hp]
      rfl
    simp only [St.cost, hp, habsent, Parent.cost, Reducer.cost]
    omega

theorem cost_lt (hi : Inv cap share out s) {a : Act n} (h : step cap share out s a = some s') :
    s'.cost share out < s.cost share out := by
  cases a with
  | parent => exact (parent_move h).cost_lt hi
  | splitter i k => exact (splitter_move h).cost_lt
  | mapper i writes k =>
    refine (mapper_move h).cost_lt fun hclosed => ?_
    have hread := hi.held.reducerRead
    rw [hclosed.1] at hread
    cases hread
  | reducer k => exact (reducer_move h).cost_lt

/-! ## When no process can go on -/

/-- When the reducer has finished, all shares and all outputs have been in the pipes. -/
theorem Inv.fits (hi : Inv cap share out s) (hr : s.reducer = .exited) : (∀ i, share i ≤ cap) ∧ ∑ i, out i ≤ cap := by
  have hthere : s.reducer ≠ .absent := by simp [hr]
  have hmappers := hi.stage.mappers hthere
  refine ⟨?_, hi.bytes.gathered hthere⟩
  intro i
  have hok := hi.bytes.splitter i
  rwa [hi.stage.splitters (by rw [hmappers i]; simp) i] at hok

/-- Before the reducer has finished some process can go on, exactly when each share fits
    in a pipe, and the outputs together do. -/
theorem never_stuck_iff : (∀ s, (sys cap share out).Reach s → s.reducer ≠ .exited →
    ∃ a s', step cap share out s a = some s') ↔ (∀ i, share i ≤ cap) ∧ ∑ i, out i ≤ cap := by
  constructor
  · intro hgoes
    have hrests : (sys cap share out).Rests (fun s => s.reducer = .exited) (start n) := by
      refine Run.Sys.Rests.of_measure (I := fun s => (sys cap share out).Reach s) (St.cost share out) ?_ ?_ (.init rfl)
      · intro s a s' hr hs
        exact ⟨.step a hr trivial hs, cost_lt (inv_reach hr) hs⟩
      · intro s hr hno
        by_contra hrun
        rcases hgoes s hr hrun with ⟨a, s', hs⟩
        exact hno a s' hs
    rcases hrests.stops (.init rfl) with ⟨s, hr, -, hexited⟩
    exact (inv_reach hr).fits hexited
  · intro ⟨hshare, hout⟩ s hr hrun
    exact (inv_reach hr).goes hshare hout hrun

/-- With one mapper the splitter is started, and the parent waits for it. -/
theorem started (cap : Nat) (share out : Fin 1 → Nat) : ∃ s, (sys cap share out).Reach s ∧ s.parent = .waitSplitter 0 ∧
    s.splitter 0 = .writing (share 0) ∧ s.input 0 = 0 ∧ s.mapper 0 = .absent ∧ s.reducer = .absent ∧
    s.ends .parent (.inputRead 0) = true :=
  ⟨_, .step (.splitter 0 0) (.step .parent (.step .parent (.init rfl) trivial rfl) trivial rfl) trivial rfl,
    rfl, rfl, rfl, rfl, rfl, rfl⟩

/-- A splitter that has filled its pipe waits for room, and the parent for the splitter. -/
theorem stuck_of_full {s : St 1} {share out : Fin 1 → Nat} {left : Nat} (hparent : s.parent = .waitSplitter 0)
    (hsplitter : s.splitter 0 = .writing left) (hleft : left ≠ 0) (hopen : ¬ s.Closed (.inputRead 0))
    (hfull : s.input 0 = cap) (hmapper : s.mapper 0 = .absent) (hreducer : s.reducer = .absent) (a : Act 1) :
    step cap share out s a = none := by
  cases a with
  | parent =>
    rw [step, main, hparent]
    exact (dif_pos Nat.one_pos).trans (if_neg (by rw [Fin.zero_eta, hsplitter]; simp))
  | splitter i k =>
    rw [Subsingleton.elim i 0]
    refine (splitter_writing share hsplitter hleft hopen).trans (if_neg ?_)
    intro ⟨hk, _, hroom⟩
    omega
  | mapper i writes k => rw [Subsingleton.elim i 0, step, mapperRun, hmapper]
  | reducer k => rw [step, reducerRun, hreducer]

/-- One mapper, 64 KiB in a pipe and a share of a byte more. -/
theorem stuck_on_share : ∃ s, (sys 65536 (fun _ : Fin 1 => 65537) fun _ => 0).Reach s ∧ s.reducer ≠ .exited ∧
    ∀ a, step 65536 (fun _ => 65537) (fun _ => 0) s a = none := by
  rcases started 65536 (fun _ => 65537) fun _ => 0 with
    ⟨s, hr, hparent, hsplitter, hinput, hmapper, hreducer, hread⟩
  have hopen : ¬ s.Closed (.inputRead 0) := by
    intro hclosed
    rw [hclosed.1] at hread
    cases hread
  have hwrite := (splitter_writing (fun _ => 65537) (k := 65536) hsplitter (by omega) hopen).trans
    (if_pos (show Fits 65536 (s.input 0) 65537 65536 from ⟨by omega, by omega, by omega⟩))
  refine ⟨_, .step (.splitter 0 65536) hr trivial hwrite, by simp [hreducer], ?_⟩
  refine stuck_of_full hparent (by simp) Nat.one_ne_zero hopen ?_ hmapper hreducer
  simp [hinput]

end SysProg.MapReduce
