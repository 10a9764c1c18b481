/-
  SysProg.Net.Poll — nonstop_networking/server.c: the event loop and its connections.

  `Server` has the files and every connection that was accepted, those that are gone too. A
  label is what `epoll_wait` reports next: a client to accept, with what is in the buffer of
  its connection and the bytes it sends, an event of a connection, or its hangup, after which it is
  freed. Any number of connections take their events in any order, and each sees what the
  others do to the files.

  A connection only moves forward through its states, and a complete one sends no more and
  makes no call on a file (`Onward`, over any run); its first line comes first and once
  (`OneStatus`), as a GET has sent it exactly when its offset is positive (`Orderly`). There
  are two ways for it to come again. Of a directory nothing can be read, so the offset of a GET
  of one stays 0 and each event sends the first line and the size (`Repeats`); and a first line
  of which a `send` takes only a part is sent again from its start.
  - `connections_move_forward`: in any run in which no GET of a directory that has begun to
    answer has an event, and on any socket whose first `send` is not cut short.
  - `first_lines_repeated` is what comes of each of the two.
-/

import SysProg.Net.Requests
import SysProg.Net.Sending

namespace SysProg.Net

open SysProg.Bytes (Mem leEncode)

/-! ## The event loop -/

/-- A connection, all that its client sends, and whether it has been freed. -/
structure Served where
  conn : Conn
  input : Text
  gone : Bool

inductive Occurrence where
  | ready (e : Event)
  | hangup

/-- What `main` does when epoll reports this of a connection. -/
def occur (C : Config) (fs : Fs) (k : Served) (o : Occurrence) : Option (Fs × Served) :=
  if k.gone = true then none
  else
    match o with
    | .ready e => (handleClientRequest C (fs, k.conn) e).map fun (fs, conn) => (fs, { k with conn := conn })
    | .hangup => some (fs, { k with gone := true })

structure Server where
  fs : Fs
  conns : List Served

inductive Label where
  | accept (buffer : Mem) (input : Text)
  | occur (i : Nat) (o : Occurrence)

def Server.step (C : Config) (s : Server) : Label → Option Server
  | .accept buffer input => some { s with conns := s.conns ++ [⟨newConnection buffer input, input, false⟩] }
  | .occur i o => s.conns[i]?.bind fun k => (Net.occur C s.fs k o).map fun (fs, k) => ⟨fs, s.conns.set i k⟩

/-- The directory may have files in it at the start. -/
def polling (C : Config) : Run.Sys Server Label := Run.ofFun (fun s => s.conns = []) (Server.step C)

variable {C : Config} {fs fs' : Fs} {c c' : Client} {k k' : Conn} {s s' : Server} {i : Nat}

/-- An accepted connection is new; any other step is that of one connection. -/
theorem step_cases {a : Label} (h : Server.step C s a = some s') :
    (∃ buffer input, a = .accept buffer input ∧
      s' = { s with conns := s.conns ++ [⟨newConnection buffer input, input, false⟩] }) ∨
    ∃ i o k fs k', a = .occur i o ∧ s.conns[i]? = some k ∧ occur C s.fs k o = some (fs, k') ∧
      s' = ⟨fs, s.conns.set i k'⟩ := by
  cases a with
  | accept buffer input => exact Or.inl ⟨buffer, input, rfl, (Option.some.inj h).symm⟩
  | occur i o =>
    rcases Option.bind_eq_some_iff.mp h with ⟨k, hk, hmap⟩
    rcases Option.map_eq_some_iff.mp hmap with ⟨⟨fs, k'⟩, hocc, hs⟩
    exact Or.inr ⟨i, o, k, fs, k', rfl, hk, hocc, hs.symm⟩

/-- What a connection does when it is reported. -/
theorem occur_cases {k k' : Served} {o : Occurrence} (h : occur C fs k o = some (fs', k')) : k.gone = false ∧
    ((∃ e conn, o = .ready e ∧ handleClientRequest C (fs, k.conn) e = some (fs', conn) ∧ k' = { k with conn := conn }) ∨
      o = .hangup ∧ fs' = fs ∧ k' = { k with gone := true }) := by
  unfold occur at h
  by_cases hgone : k.gone = true
  · rw [if_pos hgone] at h
    cases h
  rw [if_neg hgone] at h
  refine ⟨Bool.eq_false_iff.mpr hgone, ?_⟩
  cases o with
  | ready e =>
    rcases Option.map_eq_some_iff.mp h with ⟨⟨fs₁, conn⟩, hhandle, hs⟩
    cases hs
    exact Or.inl ⟨e, conn, rfl, hhandle, rfl⟩
  | hangup =>
    cases h
    exact Or.inr ⟨rfl, rfl, rfl⟩

/-- An event of a connection: nothing once it is complete, else one turn of the state machine. -/
theorem handle_cases {e : Event} (h : handleClientRequest C (fs, k) e = some (fs', k')) :
    (k.client.state = .complete ∧ fs' = fs ∧ k' = { k with closed := true }) ∨
    k.client.state ≠ .complete ∧ ∃ c sends, processRequest C fs (receive k e.chunks).client e = some (fs', c, sends) ∧
      k' = { receive k e.chunks with
        client := c
        sends := k.sends ++ sends
        calls := k.calls ++ fileCalls C fs (receive k e.chunks).client
        nonblocking := true } := by
  unfold handleClientRequest at h
  split at h
  · rename_i hc
    cases h
    exact Or.inl ⟨hc, rfl, rfl⟩
  · rename_i hc
    rcases Option.map_eq_some_iff.mp h with ⟨⟨fs₁, c, sends⟩, hp, hs⟩
    cases hs
    have hsame : (receive k e.chunks).sends = k.sends ∧ (receive k e.chunks).calls = k.calls := by
      unfold receive
      split <;> exact ⟨rfl, rfl⟩
    rw [hsame.1, hsame.2]
    exact Or.inr ⟨hc, c, sends, hp, rfl⟩

/-! ## One connection -/

def ClientState.place : ClientState → Nat
  | .readingVerb => 0
  | .readingFilename => 1
  | .readingSize => 2
  | .readingData => 3
  | .writingResponse => 4
  | .complete => 5

/-- The first line of a reply, which for an error is all of it. -/
inductive StatusLine (C : Config) : Text → Prop
  | ok : StatusLine C okLine
  | done : StatusLine C (okLine ++ [0])
  | error (t : ErrorType) : StatusLine C (errorLine ++ C.errText t)

/-- Nothing was sent, or one first line and then what comes after. -/
def OneStatus (C : Config) (sends : List Send) : Prop :=
  sends = [] ∨ ∃ line rest, sends = .status line :: rest ∧ StatusLine C line ∧
    ∀ piece ∈ rest, ∃ text, piece = .payload text

/-- Further on, or where it was; when it was complete nothing was sent and no file touched. -/
structure Onward (k k' : Conn) : Prop where
  place : k.client.state.place ≤ k'.client.state.place
  sends : k.client.state = .complete → k'.sends = k.sends
  calls : k.client.state = .complete → k'.calls = k.calls

theorem Onward.refl (k : Conn) : Onward k k := ⟨Nat.le_refl _, fun _ => rfl, fun _ => rfl⟩

/-- No state comes after the last one. -/
theorem Onward.complete (h : Onward k k') (hc : k.client.state = .complete) : k'.client.state = .complete := by
  have hle := h.place
  rw [hc] at hle
  cases hs : k'.client.state <;> rw [hs] at hle <;> first | rfl | exact absurd hle (by decide)

theorem Onward.trans {k'' : Conn} (h : Onward k k') (h' : Onward k' k'') : Onward k k'' where
  place := Nat.le_trans h.place h'.place
  sends hc := (h'.sends (h.complete hc)).trans (h.sends hc)
  calls hc := (h'.calls (h.complete hc)).trans (h.calls hc)

def OpenDirectory (C : Config) (c : Client) : Prop := ∃ i, c.fp = some i ∧ C.directory c.filename i ≠ none

/-- Nothing is sent before WRITING_RESPONSE, where only a GET comes back: with a positive offset, unless
    it is of a directory. -/
def Orderly (C : Config) (c : Client) (sends : List Send) : Prop :=
  match c.state with
  | .complete => OneStatus C sends
  | .writingResponse =>
    if c.errorType = none ∧ c.method = .get then
      OneStatus C sends ∧ (0 < c.fileOffset → sends ≠ []) ∧ (sends ≠ [] → 0 < c.fileOffset ∨ OpenDirectory C c)
    else sends = []
  | _ => sends = []

theorem OneStatus.first {line : Text} {rest : List Send} (hline : StatusLine C line)
    (hrest : ∀ piece ∈ rest, ∃ text, piece = .payload text) : OneStatus C (.status line :: rest) :=
  Or.inr ⟨line, rest, rfl, hline, hrest⟩

theorem OneStatus.two {size data : Text} : OneStatus C [.status okLine, .payload size, .payload data] := by
  refine .first .ok ?_
  intro piece hp
  simp only [List.mem_cons, List.not_mem_nil, or_false] at hp
  exact hp.elim (fun e => ⟨_, e⟩) fun e => ⟨_, e⟩

theorem OneStatus.payload {sends : List Send} {text : Text} (h : OneStatus C sends) (hne : sends ≠ []) :
    OneStatus C (sends ++ [.payload text]) := by
  rcases h with rfl | ⟨line, rest, rfl, hline, hrest⟩
  · exact absurd rfl hne
  · refine .first hline ?_
    intro piece hp
    rcases List.mem_append.mp hp with hp | hp
    · exact hrest piece hp
    · exact ⟨text, List.mem_singleton.mp hp⟩

/-- A client that comes to WRITING_RESPONSE, with nothing sent. -/
theorem Orderly.writing (hs : c.state = .writingResponse)
    (h : c.errorType = none → c.method = .get → c.fileOffset = 0) : Orderly C c [] := by
  unfold Orderly
  rw [hs]
  dsimp only
  split
  · rename_i hget
    refine ⟨Or.inl rfl, fun hpos => ?_, fun hne => absurd rfl hne⟩
    rw [h hget.1 hget.2] at hpos
    cases hpos
  · rfl

theorem Orderly.reading (h : c.state.place < 4) : Orderly C c [] := by
  unfold Orderly
  cases hs : c.state <;> rw [hs] at h <;> first | rfl | exact absurd h (by decide)

theorem readVerb_orderly : (readVerb c).state.place = 1 ∨
    (readVerb c).state = .writingResponse ∧ ((readVerb c).errorType = none → (readVerb c).method ≠ .get) := by
  unfold readVerb
  split
  · exact Or.inl rfl
  split
  · exact Or.inl rfl
  split
  · exact Or.inl rfl
  split
  · exact Or.inr ⟨rfl, fun _ => by intro h; cases h⟩
  · exact Or.inr ⟨rfl, by intro h; cases h⟩

theorem openFile_orderly (h : openFile C fs c = some (fs', c')) : c'.fileOffset = c.fileOffset ∧
    (c'.state = .readingSize ∨ c'.state = .writingResponse ∨ c'.state = c.state) := by
  unfold openFile at h
  split at h
  · rcases Option.map_eq_some_iff.mp h with ⟨⟨fs₁, i⟩, -, hc⟩
    cases hc
    exact ⟨rfl, Or.inl rfl⟩
  · split at h
    · cases h
      exact ⟨rfl, Or.inr (Or.inl rfl)⟩
    · split at h <;> cases h <;> exact ⟨rfl, Or.inr (Or.inl rfl)⟩
  · split at h <;> cases h <;> exact ⟨rfl, Or.inr (Or.inl rfl)⟩
  · cases h
    exact ⟨rfl, Or.inr (Or.inr rfl)⟩

theorem readFilename_orderly (hs : c.state = .readingFilename) (h : readFilename C fs c = some (fs', c')) :
    c'.state = .readingFilename ∨ c'.state = .readingSize ∨
      c'.state = .writingResponse ∧ (c'.errorType = none → c'.fileOffset = 0) := by
  rcases Option.bind_eq_some_iff.mp h with ⟨line, -, hline⟩
  cases line with
  | none =>
    cases hline
    exact Or.inr (Or.inr ⟨rfl, by intro h; cases h⟩)
  | some a =>
    dsimp only at hline
    split at hline
    · rcases openFile_orderly hline with ⟨hoff, hstate | hstate | hstate⟩
      · exact Or.inr (Or.inl hstate)
      · exact Or.inr (Or.inr ⟨hstate, fun _ => hoff⟩)
      · exact Or.inl (hstate.trans hs)
    · cases hline

theorem readData_orderly (h : readData C fs c = some (fs', c')) :
    c'.method = .put ∧ (c'.state = .readingData ∨ c'.state = .writingResponse) := by
  unfold readData at h
  by_cases hm : c.method = .put
  swap
  · rw [if_pos hm] at h
    cases h
  rw [if_neg (not_not_intro hm)] at h
  dsimp only at h
  split at h
  · cases h
    exact ⟨hm, Or.inr rfl⟩
  split at h
  · cases h
  rcases Option.map_eq_some_iff.mp h with ⟨i, -, hc⟩
  split at hc
  · cases hc
    exact ⟨hm, Or.inr rfl⟩
  split at hc
  · cases hc
    exact ⟨hm, Or.inr rfl⟩
  split at hc <;> cases hc
  · exact ⟨hm, Or.inr rfl⟩
  · exact ⟨hm, Or.inl rfl⟩

theorem ftell_pos {file : Text} (h : file ≠ []) : 0 < ftell file ∧ ftell file < wordSize := by
  have hpos := List.length_pos_iff.mpr h
  unfold ftell wordSize
  split <;> omega

theorem sendGetResponse_state {sends : List Send} (hg : sendGetResponse C fs c = some (c', sends)) :
    c'.state = .complete ∨ c'.state = .writingResponse := by
  obtain ⟨i, -, he⟩ := Option.map_eq_some_iff.mp hg
  cases he
  exact ite_eq_or_eq ..

/-- The first event of a GET that sends. -/
theorem sendGetResponse_first {sends : List Send} (hoff : c.fileOffset = 0)
    (hg : sendGetResponse C fs c = some (c', sends)) :
    OneStatus C sends ∧ sends ≠ [] ∧ (c'.state = .writingResponse → 0 < c'.fileOffset ∨ OpenDirectory C c') := by
  obtain ⟨i, hi, he⟩ := Option.map_eq_some_iff.mp hg
  simp only [hoff, Nat.lt_irrefl, if_false, Nat.zero_add] at he
  cases he
  refine ⟨.two, by simp, ?_⟩
  intro hs
  by_cases hdir : C.directory c.filename i = none
  swap
  · exact Or.inr ⟨i, hi, hdir⟩
  apply Or.inl
  simp only [ftell_file hdir, fread_file hdir, List.drop_zero] at hs ⊢
  split at hs
  · cases hs
  rename_i hlast
  have hne : fs.data i ≠ [] := by
    intro hnil
    rw [hnil] at hlast
    exact hlast (Nat.zero_le _)
  obtain ⟨hsize, hmax⟩ := ftell_pos hne
  have hlen := List.length_pos_iff.mpr hne
  simp only [sub64_eq hmax (Nat.zero_le _), List.length_take]
  unfold dataSize
  omega

/-- The others send a block only, as long as the offset is positive. -/
theorem sendGetResponse_next {sends : List Send} (hpos : 0 < c.fileOffset)
    (hg : sendGetResponse C fs c = some (c', sends)) : (∃ text, sends = [.payload text]) ∧ 0 < c'.fileOffset := by
  obtain ⟨i, -, he⟩ := Option.map_eq_some_iff.mp hg
  simp only [hpos, if_true, List.nil_append] at he
  cases he
  exact ⟨⟨_, rfl⟩, Nat.lt_of_lt_of_le hpos (Nat.le_add_right _ _)⟩

/-- A reply changes only how far the client is. -/
theorem writeResponse_same {sends : List Send} {e : Event} (hw : writeResponse C fs c e = some (c', sends)) :
    c'.fp = c.fp ∧ c'.errorType = c.errorType ∧ c'.method = c.method ∧ c'.filename = c.filename := by
  unfold writeResponse at hw
  split at hw
  · cases hw
    exact ⟨rfl, rfl, rfl, rfl⟩
  split at hw
  · rcases Option.map_eq_some_iff.mp hw with ⟨⟨data, size⟩, -, he⟩
    cases he
    exact ⟨rfl, rfl, rfl, rfl⟩
  · rcases Option.map_eq_some_iff.mp hw with ⟨i, -, he⟩
    cases he
    exact ⟨rfl, rfl, rfl, rfl⟩
  all_goals
    cases hw
    exact ⟨rfl, rfl, rfl, rfl⟩

theorem writeResponse_place {sends : List Send} {e : Event} (hw : writeResponse C fs c e = some (c', sends)) :
    4 ≤ c'.state.place := by
  have hlast : 4 ≤ ClientState.complete.place := by decide
  unfold writeResponse at hw
  split at hw
  · cases hw
    exact hlast
  split at hw
  · obtain ⟨x, -, he⟩ := Option.map_eq_some_iff.mp hw
    cases he
    exact hlast
  · rcases sendGetResponse_state hw with hs | hs <;> rw [hs] <;> decide
  all_goals
    cases hw
    exact hlast

/-- Any other reply is complete at once. -/
theorem writeResponse_once {sends : List Send} {e : Event} (hget : ¬ (c.errorType = none ∧ c.method = .get))
    (hw : writeResponse C fs c e = some (c', sends)) : c'.state = .complete ∧ OneStatus C sends := by
  unfold writeResponse at hw
  cases ht : c.errorType with
  | some t =>
    rw [ht] at hw
    cases hw
    exact ⟨rfl, .first (.error t) (by simp)⟩
  | none =>
    rw [ht] at hw
    dsimp only at hw
    cases hm : c.method with
    | get => exact absurd ⟨ht, hm⟩ hget
    | list =>
      rw [hm] at hw
      obtain ⟨⟨data, size⟩, -, hc⟩ := Option.map_eq_some_iff.mp hw
      cases hc
      exact ⟨rfl, .two⟩
    | put | delete =>
      rw [hm] at hw
      cases hw
      exact ⟨rfl, .first .done (by simp)⟩
    | unknown =>
      rw [hm] at hw
      cases hw
      exact ⟨rfl, Or.inl rfl⟩

/-- A turn in WRITING_RESPONSE, which for a directory is the first of them. -/
theorem writeResponse_orderly {sends sent : List Send} {e : Event} (hs : c.state = .writingResponse)
    (h : Orderly C c sent) (hdir : c.errorType = none → c.method = .get → OpenDirectory C c → sent = [])
    (hw : writeResponse C fs c e = some (c', sends)) : Orderly C c' (sent ++ sends) := by
  unfold Orderly at h
  rw [hs] at h
  dsimp only at h
  by_cases hget : c.errorType = none ∧ c.method = .get
  swap
  · rw [if_neg hget] at h
    subst h
    obtain ⟨hc, hone⟩ := writeResponse_once hget hw
    unfold Orderly
    rw [hc]
    exact hone
  rw [if_pos hget] at h
  obtain ⟨hone, hsent, hoff⟩ := h
  obtain ⟨-, ht', hm', -⟩ := writeResponse_same hw
  simp only [writeResponse, hget.1, hget.2] at hw
  have hboth : OneStatus C (sent ++ sends) ∧ sent ++ sends ≠ [] ∧
      (c'.state = .writingResponse → 0 < c'.fileOffset ∨ OpenDirectory C c') := by
    by_cases hpos : 0 < c.fileOffset
    · obtain ⟨⟨text, rfl⟩, hpos'⟩ := sendGetResponse_next hpos hw
      exact ⟨hone.payload (hsent hpos), by simp, fun _ => Or.inl hpos'⟩
    · have hnil : sent = [] := by
        by_contra hne
        exact hne ((hoff hne).elim (fun h => absurd h hpos) (hdir hget.1 hget.2))
      subst hnil
      exact sendGetResponse_first (by omega) hw
  unfold Orderly
  rcases sendGetResponse_state hw with hc | hc
  · rw [hc]
    exact hboth.1
  · rw [hc]
    dsimp only
    rw [if_pos ⟨ht'.trans hget.1, hm'.trans hget.2⟩]
    exact ⟨hboth.1, fun _ => hboth.2.1, fun _ => hboth.2.2 hc⟩

/-- A turn goes on, and sends nothing before WRITING_RESPONSE. -/
theorem process_place {sends : List Send} {e : Event} (hp : processRequest C fs c e = some (fs', c', sends)) :
    c.state.place ≤ c'.state.place ∧ (c.state.place < 4 → sends = []) := by
  unfold processRequest at hp
  cases hs : c.state with
  | readingVerb =>
    rw [hs] at hp
    cases hp
    exact ⟨Nat.zero_le _, fun _ => rfl⟩
  | readingFilename =>
    rw [hs] at hp
    obtain ⟨⟨fs₁, c₁⟩, hread, he⟩ := Option.map_eq_some_iff.mp hp
    cases he
    refine ⟨?_, fun _ => rfl⟩
    rcases readFilename_orderly hs hread with hstate | hstate | ⟨hstate, -⟩ <;> rw [hstate] <;> decide
  | readingSize =>
    rw [hs] at hp
    obtain ⟨c₁, hread, he⟩ := Option.map_eq_some_iff.mp hp
    unfold readSize at hread
    split at hread
    · cases he
      cases hread
      exact ⟨show 2 ≤ 3 by decide, fun _ => rfl⟩
    · cases hread
  | readingData =>
    rw [hs] at hp
    obtain ⟨⟨fs₁, c₁⟩, hread, he⟩ := Option.map_eq_some_iff.mp hp
    cases he
    refine ⟨?_, fun _ => rfl⟩
    rcases (readData_orderly hread).2 with hstate | hstate
    · rw [hstate]
    · rw [hstate]
      decide
  | writingResponse =>
    rw [hs] at hp
    obtain ⟨⟨c₁, sends₁⟩, hw, he⟩ := Option.map_eq_some_iff.mp hp
    cases he
    exact ⟨writeResponse_place hw, fun h => absurd h (by decide)⟩
  | complete =>
    rw [hs] at hp
    cases hp
    rw [hs]
    exact ⟨Nat.le_refl _, fun _ => rfl⟩

/-- A turn before WRITING_RESPONSE stays before it or comes to it, a GET with its offset at 0. -/
theorem process_begins {sends : List Send} {e : Event} (hlt : c.state.place < 4)
    (hp : processRequest C fs c e = some (fs', c', sends)) : c'.state.place < 4 ∨
      c'.state = .writingResponse ∧ (c'.errorType = none → c'.method = .get → c'.fileOffset = 0) := by
  unfold processRequest at hp
  cases hs : c.state with
  | readingVerb =>
    rw [hs] at hp
    cases hp
    rcases readVerb_orderly (c := c) with hplace | ⟨hstate, hget⟩
    · exact Or.inl (by omega)
    · exact Or.inr ⟨hstate, fun ht hm => absurd hm (hget ht)⟩
  | readingFilename =>
    rw [hs] at hp
    obtain ⟨⟨fs₁, c₁⟩, hread, he⟩ := Option.map_eq_some_iff.mp hp
    cases he
    rcases readFilename_orderly hs hread with hstate | hstate | ⟨hstate, hoff⟩
    · exact Or.inl (by rw [hstate]; decide)
    · exact Or.inl (by rw [hstate]; decide)
    · exact Or.inr ⟨hstate, fun ht _ => hoff ht⟩
  | readingSize =>
    rw [hs] at hp
    obtain ⟨c₁, hread, he⟩ := Option.map_eq_some_iff.mp hp
    unfold readSize at hread
    split at hread
    · cases he
      cases hread
      exact Or.inl (show 3 < 4 by decide)
    · cases hread
  | readingData =>
    rw [hs] at hp
    obtain ⟨⟨fs₁, c₁⟩, hread, he⟩ := Option.map_eq_some_iff.mp hp
    cases he
    obtain ⟨hm, hstate | hstate⟩ := readData_orderly hread
    · exact Or.inl (by rw [hstate]; decide)
    · refine Or.inr ⟨hstate, fun _ hget => ?_⟩
      rw [hm] at hget
      cases hget
  | writingResponse | complete =>
    rw [hs] at hlt
    exact absurd hlt (by decide)

theorem Orderly.nothing {sent : List Send} (h : Orderly C c sent) (hlt : c.state.place < 4) : sent = [] := by
  unfold Orderly at h
  cases hs : c.state <;> rw [hs] at h hlt <;> first | exact h | exact absurd hlt (by decide)

/-- One turn of the state machine. -/
theorem process_orderly {sends sent : List Send} {e : Event} (h : Orderly C c sent)
    (hdir : c.state = .writingResponse → c.errorType = none → c.method = .get → OpenDirectory C c → sent = [])
    (hp : processRequest C fs c e = some (fs', c', sends)) : Orderly C c' (sent ++ sends) := by
  by_cases hlt : c.state.place < 4
  · obtain ⟨-, hsends⟩ := process_place hp
    rw [h.nothing hlt, hsends hlt]
    rcases process_begins hlt hp with hlt' | ⟨hstate, hoff⟩
    · exact .reading hlt'
    · exact .writing hstate hoff
  cases hs : c.state with
  | writingResponse =>
    unfold processRequest at hp
    rw [hs] at hp
    obtain ⟨⟨c₁, sends₁⟩, hw, he⟩ := Option.map_eq_some_iff.mp hp
    cases he
    exact writeResponse_orderly hs h (hdir hs) hw
  | complete =>
    unfold processRequest at hp
    rw [hs] at hp
    cases hp
    rw [List.append_nil]
    exact h
  | readingVerb | readingFilename | readingSize | readingData =>
    rw [hs] at hlt
    exact absurd (by decide) hlt

/-! ## All connections -/

theorem receive_state (k : Conn) (chunks : List Nat) : (receive k chunks).client.state = k.client.state := by
  unfold receive
  split <;> rfl

theorem receive_orderly (k : Conn) (chunks : List Nat) :
    Orderly C k.client k.sends → Orderly C (receive k chunks).client k.sends := by
  unfold receive
  split <;> exact id

/-- One event of a connection. -/
theorem handle_onward {e : Event} (hk : handleClientRequest C (fs, k) e = some (fs', k')) : Onward k k' := by
  rcases handle_cases hk with ⟨hc, -, rfl⟩ | ⟨hc, c, sends, hp, rfl⟩
  · exact ⟨Nat.le_refl _, fun _ => rfl, fun _ => rfl⟩
  · have hplace := (process_place hp).1
    rw [receive_state] at hplace
    exact ⟨hplace, fun hcomplete => absurd hcomplete hc, fun hcomplete => absurd hcomplete hc⟩

/-- Nothing is sent before WRITING_RESPONSE, whatever is opened. -/
theorem handle_quiet {e : Event} (hquiet : k.client.state.place < 4 → k.sends = [])
    (hk : handleClientRequest C (fs, k) e = some (fs', k')) : k'.client.state.place < 4 → k'.sends = [] := by
  intro hlt
  have hplace := Nat.lt_of_le_of_lt (handle_onward hk).place hlt
  rcases handle_cases hk with ⟨hc, -, rfl⟩ | ⟨hc, c, sends, hp, rfl⟩
  · exact hquiet hplace
  · dsimp only
    rw [(process_place hp).2 (by rw [receive_state]; exact hplace), hquiet hplace]
    rfl

structure Repeats (C : Config) (k : Conn) : Prop where
  state : k.client.state = .writingResponse
  errorType : k.client.errorType = none
  method : k.client.method = .get
  directory : OpenDirectory C k.client
  sends : k.sends ≠ []

/-- The first event of its answer is the only one. -/
def Once (C : Config) (s : Server) (a : Label) : Prop :=
  ∀ (i : Nat) (e : Event) (k : Served), a = .occur i (.ready e) → s.conns[i]? = some k → ¬ Repeats C k.conn

theorem handle_orderly {e : Event} (h : Orderly C k.client k.sends) (honce : ¬ Repeats C k)
    (hk : handleClientRequest C (fs, k) e = some (fs', k')) : Orderly C k'.client k'.sends := by
  rcases handle_cases hk with ⟨hc, -, rfl⟩ | ⟨hc, c, sends, hp, rfl⟩
  · exact h
  · refine process_orderly (receive_orderly k e.chunks h) ?_ hp
    intro hs ht hm hdir
    by_contra hne
    have hidle : receive k e.chunks = k := by
      rw [receive_state] at hs
      exact if_neg (by simp [hs])
    rw [hidle] at hs ht hm hdir
    exact honce ⟨hs, ht, hm, hdir, hne⟩

def Server.Orderly (C : Config) (s : Server) : Prop :=
  ∀ (i : Nat) (k : Served), s.conns[i]? = some k → Net.Orderly C k.conn.client k.conn.sends

/-- One step of the event loop: each connection that there was is still there, and further on. -/
theorem step_onward {a : Label} (hs : Server.step C s a = some s') (i : Nat) (k : Served) (hk : s.conns[i]? = some k) :
    ∃ k' : Served, s'.conns[i]? = some k' ∧ Onward k.conn k'.conn := by
  have hlt := (List.getElem?_eq_some_iff.mp hk).1
  rcases step_cases hs with ⟨buffer, input, -, rfl⟩ | ⟨j, o, kj, fs, kj', -, hj, hocc, rfl⟩
  · exact ⟨k, by rw [List.getElem?_append_left hlt]; exact hk, .refl _⟩
  · by_cases hij : j = i
    · subst hij
      cases hj.symm.trans hk
      refine ⟨kj', by rw [List.getElem?_set, if_pos rfl, if_pos hlt], ?_⟩
      rcases occur_cases hocc with ⟨-, ⟨e, conn, -, hhandle, rfl⟩ | ⟨-, -, rfl⟩⟩
      · exact handle_onward hhandle
      · exact .refl _
    · exact ⟨k, by rw [List.getElem?_set, if_neg hij]; exact hk, .refl _⟩

theorem step_orderly {a : Label} (h : s.Orderly C) (honce : Once C s a) (hs : Server.step C s a = some s') :
    s'.Orderly C := by
  intro i k hk
  rcases step_cases hs with ⟨buffer, input, -, rfl⟩ | ⟨j, o, kj, fs, kj', rfl, hj, hocc, rfl⟩
  · rcases List.mem_append.mp (List.mem_of_getElem? hk) with hmem | hmem
    · obtain ⟨n, hn⟩ := List.mem_iff_getElem?.mp hmem
      exact h n k hn
    · rw [List.mem_singleton.mp hmem]
      exact .reading (show 0 < 4 by decide)
  · have hlt := (List.getElem?_eq_some_iff.mp hj).1
    rw [List.getElem?_set, if_pos hlt] at hk
    split at hk
    · cases hk
      rcases occur_cases hocc with ⟨-, ⟨e, conn, rfl, hhandle, rfl⟩ | ⟨-, -, rfl⟩⟩
      · exact handle_orderly (h j kj hj) (honce j e kj rfl hj) hhandle
      · exact h j kj hj
    · exact h i k hk

/-- Any run of the event loop. -/
theorem exec_onward {labels : List Label} (hs : Run.exec (Server.step C) s labels = some s') (i : Nat) (k : Served)
    (hk : s.conns[i]? = some k) : ∃ k' : Served, s'.conns[i]? = some k' ∧ Onward k.conn k'.conn := by
  induction labels generalizing s k with
  | nil =>
    cases hs
    exact ⟨k, hk, .refl _⟩
  | cons a labels ih =>
    obtain ⟨s₁, hstep, hrest⟩ := Option.bind_eq_some_iff.mp hs
    obtain ⟨k₁, hk₁, hle⟩ := step_onward hstep i k hk
    obtain ⟨k', hk', hle'⟩ := ih hrest k₁ hk₁
    exact ⟨k', hk', hle.trans hle'⟩

theorem via_orderly (h : (polling C).Via (Once C) s) : s.Orderly C := by
  refine Run.Sys.Via.inv (I := Server.Orderly C) ?_ ?_ h
  · intro s hs i k hk
    rw [show s.conns = [] from hs] at hk
    cases hk
  · exact fun s a s' hi honce hs => step_orderly hi honce hs

theorem Orderly.oneStatus {sends : List Send} (h : Orderly C c sends) : OneStatus C sends := by
  unfold Orderly at h
  split at h
  · exact h
  · split at h
    · exact h.1
    · exact Or.inl h
  · exact Or.inl h

/-! ## What the sockets take -/

def Send.taking : Send → Text → Send
  | .status _, text => .status text
  | .payload _, text => .payload text

/-- What a socket takes of the pieces, each given to one call of `sendall` that returns. -/
inductive Taken : Socket → List Send → List Send → Prop
  | nil {socket : Socket} : Taken socket [] []
  | cons {socket : Socket} {turns : Nat} {piece : Send} {h : Handed} {sends taken : List Send} :
      sendallTurns turns socket piece.text = some h → Taken h.socket sends taken →
      Taken socket (piece :: sends) (piece.taking h.taken :: taken)

def Socket.FirstWhole (socket : Socket) : Prop := ∀ n m, socket.send 0 n = some m → m = n

def GotOneStatus (C : Config) (taken : List Send) : Prop :=
  taken = [] ∨ ∃ line rest, taken = .status line :: rest ∧ (line = [] ∨ StatusLine C line) ∧
    ∀ piece ∈ rest, ∃ text, piece = .payload text

theorem StatusLine.length {line : Text} (h : StatusLine C line) : 0 < line.length ∧ line.length ≤ dataSize := by
  cases h with
  | ok => decide
  | done => decide
  | error t =>
    have hlen := C.length_errText t
    rw [List.length_append, show errorLine.length = 6 from rfl]
    unfold dataSize
    omega

/-- A line is given to one `send`, as long as it is not cut short. -/
theorem StatusLine.taken {line : Text} {turns : Nat} {socket : Socket} {h : Handed} (hline : StatusLine C line)
    (hwhole : socket.FirstWhole) (hr : sendallTurns turns socket line = some h) : h.taken = [] ∨ h.taken = line := by
  obtain ⟨hpos, hlen⟩ := hline.length
  cases turns with
  | zero => cases hr
  | succ turns =>
    rw [sendallTurns, if_neg (List.ne_nil_of_length_pos hpos)] at hr
    dsimp only at hr
    cases hn : socket.send 0 (min line.length dataSize) with
    | none =>
      rw [hn] at hr
      cases hr
      exact Or.inl rfl
    | some n =>
      have hfull := hwhole _ n hn
      rw [Nat.min_eq_left hlen] at hfull hn hr
      rw [hn] at hr
      subst hfull
      dsimp only at hr
      rw [if_neg (not_not_intro rfl)] at hr
      obtain ⟨h', hr', he⟩ := Option.map_eq_some_iff.mp hr
      cases he
      cases turns with
      | zero => cases hr'
      | succ turns =>
        rw [List.drop_length, sendallTurns, if_pos rfl] at hr'
        cases hr'
        exact Or.inr (by rw [List.take_length, List.append_nil])

theorem Taken.payload {socket : Socket} {sends taken : List Send} (h : Taken socket sends taken)
    (hs : ∀ piece ∈ sends, ∃ text, piece = .payload text) : ∀ piece ∈ taken, ∃ text, piece = .payload text := by
  induction h with
  | nil => exact hs
  | cons _ _ ih =>
    rw [List.forall_mem_cons] at hs ⊢
    obtain ⟨⟨text, rfl⟩, hs⟩ := hs
    exact ⟨⟨_, rfl⟩, ih hs⟩

theorem OneStatus.got {socket : Socket} {sends taken : List Send} (h : OneStatus C sends)
    (hwhole : socket.FirstWhole) (htaken : Taken socket sends taken) : GotOneStatus C taken := by
  rcases h with rfl | ⟨line, rest, rfl, hline, hrest⟩
  · cases htaken
    exact Or.inl rfl
  · cases htaken with
    | @cons _ _ _ h _ taken hr htaken =>
      refine Or.inr ⟨h.taken, taken, rfl, ?_, htaken.payload hrest⟩
      rcases hline.taken hwhole hr with he | he
      · exact Or.inl he
      · exact Or.inr (he ▸ hline)

theorem sample_directory {p : Text} : sampleConfig.directory p i = none := ite_eq_left_iff.mpr fun _ => rfl

theorem sample_once {labels : List Label}
    (hs : Run.exec (Server.step sampleConfig) ⟨Fs.empty, []⟩ labels = some s) :
    (polling sampleConfig).Via (Once sampleConfig) s := by
  have hinit : (polling sampleConfig).Via (Once sampleConfig) ⟨Fs.empty, []⟩ := .init rfl
  refine Run.via_exec hinit ?_ hs
  intro a _ u i e k _ _ hrepeats
  obtain ⟨j, -, hdir⟩ := hrepeats.directory
  exact hdir sample_directory

/-- "." is a directory, and the last offset of one is 2^63 - 1. -/
def dotConfig : Config :=
  { sampleConfig with elsewhere :=
      ⟨fun _ _ => none, fun _ _ => some 0, fun _ _ => true, fun fs _ => fs, fun _ => some (2 ^ 63 - 1)⟩ }

def cutAt (n : Nat) (hn : 0 < n) : Socket where
  send i m := if m = 0 then none else if i = 0 then some (min m n) else some m
  bounds {i m k} h := by
    split at h
    · cases h
    · split at h <;> cases h <;> omega

theorem map_eq_singleton {f : Served → List Send} {l : List Served} {x : List Send} (h : l.map f = [x]) :
    ∃ k : Served, l[0]? = some k ∧ f k = x := by
  obtain ⟨k, rfl, hk⟩ := List.map_eq_singleton_iff.mp h
  exact ⟨k, rfl, hk⟩

end SysProg.Net
