/-
  SysProg.Net.FileUse — how a connection of nonstop_networking/server.c uses its file (see
  `SysProg.Net.Poll`).

  `Usage` reads the calls of a connection in order: it opens a file at most once, what it then
  reads, writes and closes is that file, and it does nothing with it that comes before the
  `fopen` or after the `fclose`. `Using` says how far a connection in each state is with it.

  Main result: `files_used_once`. In every run of the event loop, whatever the other connections
  do to the files, each connection's calls are such a usage. The file of one that is complete is
  closed, unless its request was a GET whose file was opened and then found to be gone, and one
  that is read or written has it open. A client that hangs up leaves it open: `cleanup_client`
  does not close it, as the second one of `files_used_once_put` shows.
-/

import SysProg.Net.Poll

namespace SysProg.Net

open SysProg.Bytes (Mem load leEncode)

inductive Stream where
  | fresh
  | opened (i : Nat)
  | over
  deriving DecidableEq

def FileCall.bystander : FileCall → Bool
  | .access _ | .remove _ | .readdir => true
  | _ => false

/-- The calls use one file at most, which is opened first and closed last. -/
inductive Usage : List FileCall → Stream → Prop
  | nil : Usage [] .fresh
  | openWb {l : List FileCall} {path : Text} (i : Nat) : Usage l .fresh → Usage (l ++ [.fopenWb path]) (.opened i)
  | openRb {l : List FileCall} {path : Text} (i : Nat) : Usage l .fresh → Usage (l ++ [.fopenRb path]) (.opened i)
  /-- There is no such file. -/
  | missing {l : List FileCall} {path : Text} : Usage l .fresh → Usage (l ++ [.fopenRb path]) .over
  | read {l : List FileCall} {i offset count : Nat} : Usage l (.opened i) →
      Usage (l ++ [.fread i offset count]) (.opened i)
  | write {l : List FileCall} {i : Nat} {bytes : Text} : Usage l (.opened i) →
      Usage (l ++ [.fwrite i bytes]) (.opened i)
  | close {l : List FileCall} {i : Nat} : Usage l (.opened i) → Usage (l ++ [.fclose i]) .over
  | other {l : List FileCall} {st : Stream} {call : FileCall} : call.bystander = true → Usage l st →
      Usage (l ++ [call]) st

/-- Nothing is open, unless the file of a GET was gone when it had been opened. -/
def Finished (c : Client) (calls : List FileCall) : Prop :=
  ∃ st, Usage calls st ∧ ∀ i, st = .opened i → c.method = .get ∧ c.errorType = some .noSuchFile ∧ c.fp = some i

def Opened (c : Client) (calls : List FileCall) : Prop := ∃ i, c.fp = some i ∧ Usage calls (.opened i)

def Using (c : Client) (calls : List FileCall) : Prop :=
  match c.state with
  | .readingVerb | .readingFilename => c.errorType = none ∧ Usage calls .fresh
  | .readingSize | .readingData => c.method = .put ∧ c.errorType = none ∧ Opened c calls
  | .writingResponse => if c.errorType = none ∧ c.method = .get then Opened c calls else Finished c calls
  | .complete => Finished c calls

variable {C : Config} {fs fs' : Fs} {c c' : Client} {k k' : Conn} {s s' : Server} {calls : List FileCall} {st : Stream}
  {i : Nat}

/-! ## The states -/

theorem Using.state (h : c'.state = c.state) (hm : c'.method = c.method) (ht : c'.errorType = c.errorType)
    (hf : c'.fp = c.fp) (hu : Using c calls) : Using c' calls := by
  unfold Using Opened Finished at hu ⊢
  rw [h, hm, ht, hf]
  exact hu

theorem Finished.of_over (h : Usage calls .over) : Finished c calls := by
  refine ⟨.over, h, ?_⟩
  intro i hi
  cases hi

theorem Finished.of_fresh (h : Usage calls .fresh) : Finished c calls := by
  refine ⟨.fresh, h, ?_⟩
  intro i hi
  cases hi

theorem Using.writing (hs : c.state = .writingResponse) (h : Finished c calls)
    (hno : c.errorType = none → c.method ≠ .get) : Using c calls := by
  unfold Using
  rw [hs]
  dsimp only
  rw [if_neg (fun hc => hno hc.1 hc.2)]
  exact h

theorem Using.complete (hs : c.state = .complete) (h : Finished c calls) : Using c calls := by
  unfold Using
  rw [hs]
  exact h

/-! ## A turn -/

theorem readVerb_using (ht : c.errorType = none) (h : Usage calls .fresh) : Using (readVerb c) calls := by
  unfold readVerb
  split
  · exact ⟨ht, h⟩
  split
  · exact ⟨ht, h⟩
  split
  · exact ⟨ht, h⟩
  split
  · exact .writing rfl (.of_fresh h) (by simp)
  · exact .writing rfl (.of_fresh h) (by simp)

/-- What is done with the file that was named. -/
theorem openFile_using {a : Nat} {path : Text} (hs : c.state = .readingFilename) (ht : c.errorType = none)
    (h : Usage calls .fresh) (hpath : path = C.tempDirectory ++ slash :: load c.buffer c.boffset (a - c.boffset))
    (hline : strchr c.buffer newline (dataSize - c.boffset) c.boffset = some (some a))
    (ho : openFile C fs { c with filename := path, fileOffset := 0, boffset := a + 1 } = some (fs', c')) :
    Using c' (calls ++ fileCalls C fs c) := by
  unfold fileCalls
  rw [hs]
  dsimp only
  rw [hline]
  dsimp only
  rw [← hpath]
  unfold openFile at ho
  dsimp only at ho
  cases hm : c.method with
  | put =>
    rw [hm] at ho
    obtain ⟨⟨fs₁, i⟩, _, he⟩ := Option.map_eq_some_iff.mp ho
    cases he
    exact ⟨rfl, ht, i, rfl, h.openWb i⟩
  | get =>
    rw [hm] at ho
    dsimp only at ho ⊢
    cases hi : C.inode fs path with
    | none =>
      rw [hi] at ho
      cases ho
      exact .writing rfl (.of_over h.missing) (by simp)
    | some i =>
      rw [hi] at ho
      dsimp only at ho ⊢
      have hopen : Usage (calls ++ [.fopenRb path, .access path]) (.opened i) := by
        have haccess : Usage ((calls ++ [.fopenRb path]) ++ [.access path]) (.opened i) := (h.openRb i).other rfl
        rwa [List.append_assoc] at haccess
      rw [Option.isSome_some, if_pos rfl]
      split at ho
      · cases ho
        unfold Using
        dsimp only
        rw [if_pos ⟨ht, rfl⟩]
        exact ⟨i, rfl, hopen⟩
      · cases ho
        refine .writing rfl ⟨.opened i, hopen, ?_⟩ (by simp)
        intro j hj
        cases hj
        exact ⟨rfl, rfl, rfl⟩
  | delete =>
    rw [hm] at ho
    dsimp only at ho ⊢
    have haccess : Usage (calls ++ [.access path]) .fresh := h.other rfl
    split at ho
    · rename_i hexists
      cases ho
      have hremove : Usage ((calls ++ [.access path]) ++ [.remove path]) .fresh := haccess.other rfl
      rw [List.append_assoc] at hremove
      rw [if_pos hexists]
      exact .writing rfl (.of_fresh hremove) (by simp)
    · rename_i hgone
      cases ho
      rw [if_neg hgone]
      exact .writing rfl (.of_fresh haccess) (by simp)
  | list | unknown =>
    rw [hm] at ho
    cases ho
    rw [List.append_nil]
    unfold Using
    rw [hs]
    exact ⟨ht, h⟩

theorem readFilename_using (hs : c.state = .readingFilename) (ht : c.errorType = none) (h : Usage calls .fresh)
    (hr : readFilename C fs c = some (fs', c')) : Using c' (calls ++ fileCalls C fs c) := by
  obtain ⟨line, hline, ho⟩ := Option.bind_eq_some_iff.mp hr
  cases line with
  | none =>
    cases ho
    unfold fileCalls
    rw [hs]
    dsimp only
    rw [hline, List.append_nil]
    exact .writing rfl (.of_fresh h) (by simp)
  | some a =>
    dsimp only at ho
    split at ho
    · exact openFile_using hs ht h rfl hline ho
    · cases ho

theorem readData_using (hs : c.state = .readingData) (hm : c.method = .put) (h : Opened c calls)
    (ht : c.errorType = none) (hr : readData C fs c = some (fs', c')) : Using c' (calls ++ fileCalls C fs c) := by
  obtain ⟨i, hi, hopen⟩ := h
  unfold readData at hr
  rw [if_neg (not_not_intro hm), hi] at hr
  unfold fileCalls
  rw [hs, hi]
  dsimp only at hr ⊢
  rw [Option.toList_some, List.flatMap_singleton]
  have hwrite : ∀ bytes, Usage (calls ++ [.fwrite i bytes]) (.opened i) := fun _ => hopen.write
  split at hr
  · rename_i hempty
    cases hr
    rw [if_pos hempty]
    have hremove : Usage ((calls ++ [.fclose i]) ++ [.remove c.filename]) .over := hopen.close.other rfl
    rw [List.append_assoc] at hremove
    exact .writing rfl (.of_over hremove) (by simp)
  · rename_i hempty
    rw [if_neg hempty]
    split at hr
    · cases hr
    generalize hleft : sub64 c.reqSize c.fileOffset = bytesLeft at hr ⊢
    generalize hin : sub64 c.bufferSize c.boffset = leftInBuffer at hr ⊢
    rw [Option.map_some] at hr
    generalize hbytes : load c.buffer c.boffset (min leftInBuffer bytesLeft) = bytes at hr ⊢
    have hmin : min leftInBuffer bytesLeft ≤ bytesLeft := Nat.min_le_right _ _
    generalize min leftInBuffer bytesLeft = n at hr hmin ⊢
    -- more than was announced
    by_cases hmuch : n < leftInBuffer ∧ bytesLeft ≤ n
    · rw [if_pos (by omega)] at hr
      cases hr
      rw [if_pos hmuch]
      have hclose : Usage (((calls ++ [.fwrite i bytes]) ++ [.remove c.filename]) ++ [.fclose i]) .over :=
        ((hwrite bytes).other rfl).close
      simp only [List.append_assoc, List.cons_append, List.nil_append] at hclose
      exact .writing rfl (.of_over hclose) (by simp)
    rw [if_neg (by omega)] at hr
    rw [if_neg hmuch]
    by_cases hover : c.reqSize < (c.fileOffset + n) % wordSize
    · rw [if_pos hover] at hr
      cases hr
      rw [if_pos hover]
      have hremove : Usage (((calls ++ [.fwrite i bytes]) ++ [.fclose i]) ++ [.remove c.filename]) .over :=
        (hwrite bytes).close.other rfl
      simp only [List.append_assoc, List.cons_append, List.nil_append] at hremove
      exact .writing rfl (.of_over hremove) (by simp)
    rw [if_neg hover] at hr
    rw [if_neg hover]
    by_cases hlast : bytesLeft = n
    · rw [if_pos (by omega)] at hr
      cases hr
      rw [if_pos hlast]
      have hclose := (hwrite bytes).close
      rw [List.append_assoc] at hclose
      exact .writing rfl (.of_over hclose) (by simp [hm])
    · rw [if_neg (by omega)] at hr
      cases hr
      rw [if_neg hlast]
      exact ⟨hm, ht, i, rfl, hwrite bytes⟩

theorem sendGetResponse_using {sends : List Send} (hs : c.state = .writingResponse) (ht : c.errorType = none)
    (hm : c.method = .get) (h : Opened c calls) (hg : sendGetResponse C fs c = some (c', sends)) :
    Using c' (calls ++ fileCalls C fs c) := by
  obtain ⟨i, hi, hopen⟩ := h
  unfold sendGetResponse at hg
  unfold fileCalls
  rw [hi] at hg
  rw [hs]
  dsimp only
  rw [ht, hm, hi]
  dsimp only
  rw [Option.toList_some, List.flatMap_singleton]
  rw [Option.map_some] at hg
  cases hg
  generalize (if 0 < c.fileOffset then c.reqSize else C.ftell fs c.filename i) = size
  generalize min (sub64 size c.fileOffset) dataSize = n
  have hread : Usage (calls ++ [.fread i c.fileOffset n]) (.opened i) := hopen.read
  by_cases hlast : size ≤ c.fileOffset + (C.fread fs c.filename i c.fileOffset n).length
  · have hclose := hread.close
    rw [List.append_assoc] at hclose
    rw [if_pos hlast, if_pos hlast]
    exact .complete rfl (.of_over hclose)
  · rw [if_neg hlast, if_neg hlast]
    unfold Using
    dsimp only
    rw [if_pos ⟨ht, hm⟩]
    exact ⟨i, rfl, hread⟩

theorem writeResponse_using {sends : List Send} {e : Event} (hs : c.state = .writingResponse) (h : Using c calls)
    (hw : writeResponse C fs c e = some (c', sends)) : Using c' (calls ++ fileCalls C fs c) := by
  unfold Using at h
  rw [hs] at h
  dsimp only at h
  by_cases hget : c.errorType = none ∧ c.method = .get
  · rw [if_pos hget] at h
    simp only [writeResponse, hget.1, hget.2] at hw
    exact sendGetResponse_using hs hget.1 hget.2 h hw
  rw [if_neg hget] at h
  obtain ⟨st, husage, hopen⟩ := h
  obtain ⟨hfp, herror, hmethod, _⟩ := writeResponse_same hw
  have hdone : ∀ {l : List FileCall}, Usage l st → Finished c' l := by
    intro l hl
    refine ⟨st, hl, ?_⟩
    rw [hfp, herror, hmethod]
    exact hopen
  unfold writeResponse at hw
  unfold fileCalls
  rw [hs]
  cases ht : c.errorType with
  | some t =>
    rw [ht] at hw
    cases hw
    rw [List.append_nil]
    exact .complete rfl (hdone husage)
  | none =>
    rw [ht] at hw
    dsimp only at hw ⊢
    cases hm : c.method with
    | get => exact absurd ⟨ht, hm⟩ hget
    | list =>
      rw [hm] at hw
      obtain ⟨⟨data, size⟩, _, he⟩ := Option.map_eq_some_iff.mp hw
      cases he
      exact .complete rfl (hdone (husage.other rfl))
    | put | delete | unknown =>
      rw [hm] at hw
      cases hw
      rw [List.append_nil]
      exact .complete rfl (hdone husage)

/-- One turn of the state machine. -/
theorem process_using {sends : List Send} {e : Event} (h : Using c calls)
    (hp : processRequest C fs c e = some (fs', c', sends)) : Using c' (calls ++ fileCalls C fs c) := by
  unfold processRequest at hp
  have hu := h
  unfold Using at h
  cases hs : c.state with
  | readingVerb =>
    rw [hs] at hp h
    cases hp
    unfold fileCalls
    rw [hs, List.append_nil]
    exact readVerb_using h.1 h.2
  | readingFilename =>
    rw [hs] at hp h
    obtain ⟨⟨fs₁, c₁⟩, hread, he⟩ := Option.map_eq_some_iff.mp hp
    cases he
    exact readFilename_using hs h.1 h.2 hread
  | readingSize =>
    rw [hs] at hp h
    obtain ⟨c₁, hread, he⟩ := Option.map_eq_some_iff.mp hp
    cases he
    unfold fileCalls
    rw [hs, List.append_nil]
    unfold readSize at hread
    rw [if_pos h.1] at hread
    cases hread
    exact h
  | readingData =>
    rw [hs] at hp h
    obtain ⟨⟨fs₁, c₁⟩, hread, he⟩ := Option.map_eq_some_iff.mp hp
    cases he
    exact readData_using hs h.1 h.2.2 h.2.1 hread
  | writingResponse =>
    rw [hs] at hp
    obtain ⟨⟨c₁, sends₁⟩, hw, he⟩ := Option.map_eq_some_iff.mp hp
    cases he
    exact writeResponse_using hs hu hw
  | complete =>
    rw [hs] at hp
    cases hp
    unfold fileCalls
    rw [hs, List.append_nil]
    exact hu

/-! ## All connections -/

theorem handle_using {e : Event} (h : Using k.client k.calls) (hk : handleClientRequest C (fs, k) e = some (fs', k')) :
    Using k'.client k'.calls := by
  rcases handle_cases hk with ⟨_, _, rfl⟩ | ⟨_, c, sends, hp, rfl⟩
  · exact h
  · refine process_using ?_ hp
    unfold receive
    split
    · exact .state rfl rfl rfl rfl h
    · exact h

theorem reach_using (h : (polling C).Reach s) : ∀ k ∈ s.conns, Using k.conn.client k.conn.calls := by
  refine Run.Sys.Reach.inv (I := fun s : Server => ∀ k ∈ s.conns, Using k.conn.client k.conn.calls) ?_ ?_ h
  · intro s hs k hk
    rw [show s.conns = [] from hs] at hk
    cases hk
  · intro s a s' hi hs k hk
    rcases step_cases hs with ⟨buffer, input, _, rfl⟩ | ⟨j, o, kj, fs, kj', _, hj, hocc, rfl⟩
    · rcases List.mem_append.mp hk with hk | hk
      · exact hi k hk
      · rw [List.mem_singleton.mp hk]
        exact ⟨rfl, .nil⟩
    · rcases List.mem_or_eq_of_mem_set hk with hk | rfl
      · exact hi k hk
      · have hkj := hi kj (List.mem_of_getElem? hj)
        rcases occur_cases hocc with ⟨_, ⟨e, conn, _, hhandle, rfl⟩ | ⟨_, _, rfl⟩⟩
        · exact handle_using hkj hhandle
        · exact hkj

/-- Nothing is done with a file before it is opened or after it is closed, and it is closed in the end. -/
theorem files_used_once (h : (polling C).Reach s) : ∀ k ∈ s.conns, ∃ st, Usage k.conn.calls st ∧
    (∀ i, st = .opened i → k.conn.client.fp = some i) ∧
    (k.conn.client.state = .complete → ∀ i, st = .opened i →
      k.conn.client.method = .get ∧ k.conn.client.errorType = some .noSuchFile) := by
  intro k hk
  have hu := reach_using h k hk
  unfold Using at hu
  have hfinished : Finished k.conn.client k.conn.calls → ∃ st, Usage k.conn.calls st ∧
      (∀ i, st = .opened i → k.conn.client.fp = some i) ∧
      (k.conn.client.state = .complete → ∀ i, st = .opened i →
        k.conn.client.method = .get ∧ k.conn.client.errorType = some .noSuchFile) := by
    intro ⟨st, husage, hopen⟩
    exact ⟨st, husage, fun i hi => (hopen i hi).2.2, fun _ i hi => ⟨(hopen i hi).1, (hopen i hi).2.1⟩⟩
  have hopened : k.conn.client.state ≠ .complete → Opened k.conn.client k.conn.calls → ∃ st, Usage k.conn.calls st ∧
      (∀ i, st = .opened i → k.conn.client.fp = some i) ∧
      (k.conn.client.state = .complete → ∀ i, st = .opened i →
        k.conn.client.method = .get ∧ k.conn.client.errorType = some .noSuchFile) := by
    intro hs ⟨i, hi, husage⟩
    refine ⟨.opened i, husage, ?_, fun hc => absurd hc hs⟩
    intro j hj
    cases hj
    exact hi
  cases hs : k.conn.client.state with
  | readingVerb | readingFilename =>
    rw [hs] at hu
    refine ⟨.fresh, hu.2, ?_, ?_⟩
    · intro i hi
      cases hi
    · intro hc
      cases hc
  | readingSize | readingData =>
    rw [hs] at hu
    exact hs ▸ hopened (by rw [hs]; decide) hu.2.2
  | writingResponse =>
    rw [hs] at hu
    dsimp only at hu
    split at hu
    · exact hs ▸ hopened (by rw [hs]; decide) hu
    · exact hs ▸ hfinished hu
  | complete =>
    rw [hs] at hu
    exact hs ▸ hfinished hu

/-- A PUT, from beginning to end, and another whose client is gone after its first byte. -/
def putAndHangup : List Label :=
  [.accept (fun _ => 0) (requestLine (ascii ['P', 'U', 'T']) (ascii ['a']) ++ leEncode 8 2 ++ ascii ['x', 'y']),
    .accept (fun _ => 0) (requestLine (ascii ['P', 'U', 'T']) (ascii ['b']) ++ leEncode 8 2 ++ ascii ['z'])] ++
  ([0, 0, 1, 1, 0, 1, 1, 0, 0].map fun i => .occur i (.ready anyEvent)) ++ [.occur 1 .hangup]

theorem files_used_once_put : ∃ s : Server, (polling sampleConfig).Reach s ∧
    s.conns.map (fun k => (k.gone, k.conn.client.state, k.conn.calls)) =
      [(false, .complete, [.fopenWb (path sampleConfig (ascii ['a'])), .fwrite 0 (ascii ['x', 'y']), .fclose 0]),
        (true, .readingData, [.fopenWb (path sampleConfig (ascii ['b'])), .fwrite 1 (ascii ['z'])])] ∧
    ∀ k ∈ s.conns, ∃ st, Usage k.conn.calls st ∧ (∀ i, st = .opened i → k.conn.client.fp = some i) ∧
      (k.conn.client.state = .complete → ∀ i, st = .opened i →
        k.conn.client.method = .get ∧ k.conn.client.errorType = some .noSuchFile) := by
  have hrun : (Run.exec (Server.step sampleConfig) ⟨Fs.empty, []⟩ putAndHangup).map
        (fun s => s.conns.map fun k => (k.gone, k.conn.client.state, k.conn.calls)) =
      some [(false, .complete, [.fopenWb (path sampleConfig (ascii ['a'])), .fwrite 0 (ascii ['x', 'y']), .fclose 0]),
        (true, .readingData, [.fopenWb (path sampleConfig (ascii ['b'])),
          .fwrite 1 (ascii ['z'])])] := by decide +kernel
  obtain ⟨s, hs, hconns⟩ := Option.map_eq_some_iff.mp hrun
  have hinit : (polling sampleConfig).init ⟨Fs.empty, []⟩ := rfl
  have hreach : (polling sampleConfig).Reach s := Run.reach_exec hinit hs
  exact ⟨s, hreach, hconns, files_used_once hreach⟩

end SysProg.Net
