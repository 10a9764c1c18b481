/-
  SysProg.Net.Arrivals — one connection, and the different ways in which its bytes arrive.

  `handleEvents` runs a connection over its events, with the directory as it is at each. How many
  bytes there are at an event matters in READING_DATA only. What is written is counted byte by byte
  (`Conn.deeds`), as blocks may be cut anywhere. An upload whose stream ends by the declared
  size comes to one outcome however it arrives (`Uploading.behaves`); where there is more, a
  read may end at the declared size, and the body is accepted, or go on, and it is
  refused (`Uploading.splits`).
-/

import SysProg.Net.Poll
import SysProg.Net.Uploads

namespace SysProg.Net

open SysProg.Bytes (Mem load store leDecode)

/-- The connection after these events; `dirs` is the directory as it is at each. -/
def handleEvents (C : Config) : (Nat → Fs) → List Event → Fs × Conn → Option (Fs × Conn)
  | _, [], s => some s
  | dirs, e :: es, s => (handleClientRequest C (dirs 0, s.2) e).bind (handleEvents C (fun i => dirs (i + 1)) es)

/-- What a call does, with each byte written on its own. -/
def FileCall.deeds : FileCall → List FileCall
  | .fwrite i bytes => bytes.map fun b => .fwrite i [b]
  | call => [call]

def Conn.deeds (k : Conn) : List FileCall := k.calls.flatMap FileCall.deeds

/-- One has done a first part of what the other has. -/
structure Conn.Behind (k k' : Conn) : Prop where
  deeds : k.deeds <+: k'.deeds
  sends : k.sends <+: k'.sends

theorem Conn.Behind.refl (k : Conn) : k.Behind k := ⟨List.prefix_rfl, List.prefix_rfl⟩

variable {C : Config} {fs : Fs} {dirs : Nat → Fs} {c : Client} {k k' : Conn} {p : Text} {i n w : Nat} {e e' : Event}
  {es es' : List Event} {D : List FileCall} {S : List Send}

theorem handleEvents_cons {s : Fs × Conn} : handleEvents C dirs (e :: es) s =
    (handleClientRequest C (dirs 0, s.2) e).bind (handleEvents C (fun i => dirs (i + 1)) es) := rfl

/-- What is kept at every event is kept by a run. -/
theorem handleEvents_inv {P : Fs → Prop} {I : Conn → Prop}
    (hstep : ∀ fs fs' k k' e, P fs → I k → handleClientRequest C (fs, k) e = some (fs', k') → I k')
    (hdirs : ∀ n, P (dirs n)) {s s' : Fs × Conn} (hk : I s.2) (h : handleEvents C dirs es s = some s') : I s'.2 := by
  induction es generalizing dirs s with
  | nil =>
    cases h
    exact hk
  | cons e es ih =>
    rcases Option.bind_eq_some_iff.mp h with ⟨s₁, h₁, hrest⟩
    exact ih (fun n => hdirs (n + 1)) (hstep (dirs 0) s₁.1 s.2 s₁.2 e (hdirs 0) hk h₁) hrest

/-! ## Connections that read nothing -/

/-- Of an event that reads nothing only the order of the directory is used. -/
theorem handle_idle
    (hread : ¬ ((k.client.state = .readingData ∧ k.client.bufferSize = 0) ∨ k.client.state = .readingVerb))
    (he : e.readdir = e'.readdir) : handleClientRequest C (fs, k) e = handleClientRequest C (fs, k) e' := by
  obtain ⟨chunks, order⟩ := e
  obtain ⟨chunks', order'⟩ := e'
  cases he
  by_cases hc : k.client.state = .complete
  · rw [handle_complete hc, handle_complete hc]
  · rw [handle_process hc hread, handle_process hc hread]
    rfl

/-- From WRITING_RESPONSE on nothing is read. -/
theorem handleEvents_idle (hplace : 4 ≤ k.client.state.place) (he : es.map (·.readdir) = es'.map (·.readdir)) :
    handleEvents C dirs es (fs, k) = handleEvents C dirs es' (fs, k) := by
  induction es generalizing es' dirs fs k with
  | nil =>
    rw [List.map_nil, eq_comm, List.map_eq_nil_iff] at he
    rw [he]
  | cons e es ih =>
    cases es' with
    | nil => cases he
    | cons e' es' =>
      rw [List.map_cons, List.map_cons, List.cons.injEq] at he
      have hidle : ¬ ((k.client.state = .readingData ∧ k.client.bufferSize = 0) ∨ k.client.state = .readingVerb) := by
        intro hread
        rcases hread with ⟨hs, -⟩ | hs <;> rw [hs] at hplace <;> exact absurd hplace (by decide)
      rw [handleEvents_cons, handleEvents_cons, handle_idle hidle he.1]
      cases hk : handleClientRequest C (dirs 0, k) e' with
      | none => rfl
      | some s =>
        rw [Option.bind_some, Option.bind_some]
        exact ih (Nat.le_trans hplace (handle_onward hk).place) he.2

/-! ## One outcome -/

/-- What it has done and sent is a first part of this. -/
def Upto (D : List FileCall) (S : List Send) (k : Conn) : Prop :=
  k.deeds <+: D ∧ k.sends = [] ∧ k.client.state ≠ .complete ∨ k.deeds = D ∧ k.sends = S

/-- However its bytes arrive, it comes to this outcome. -/
def Behaves (C : Config) (D : List FileCall) (S : List Send) (k : Conn) : Prop :=
  ∀ dirs fs es, ∃ fs' k', handleEvents C dirs es (fs, k) = some (fs', k') ∧ Upto D S k'

theorem Upto.behind (h : Upto D S k) (h' : Upto D S k') :
    (k.Behind k' ∨ k'.Behind k) ∧ (k.client.state = .complete → k'.Behind k) := by
  rcases h with ⟨hd, hs, hc⟩ | ⟨rfl, rfl⟩
  · refine ⟨?_, fun hcomplete => absurd hcomplete hc⟩
    rcases h' with ⟨hd', hs', -⟩ | ⟨rfl, rfl⟩
    · rcases List.prefix_or_prefix_of_prefix hd hd' with hle | hle
      · exact Or.inl ⟨hle, by rw [hs]; exact List.nil_prefix⟩
      · exact Or.inr ⟨hle, by rw [hs']; exact List.nil_prefix⟩
    · exact Or.inl ⟨hd, by rw [hs]; exact List.nil_prefix⟩
  · have hle : k'.Behind k := by
      rcases h' with ⟨hd', hs', -⟩ | ⟨hd', hs'⟩
      · exact ⟨hd', by rw [hs']; exact List.nil_prefix⟩
      · exact ⟨hd' ▸ List.prefix_rfl, hs' ▸ List.prefix_rfl⟩
    exact ⟨Or.inr hle, fun _ => hle⟩

/-- It is on its way, and so it is after any event. -/
theorem Behaves.of_step (hd : k.deeds <+: D) (hs : k.sends = []) (hc : k.client.state ≠ .complete)
    (h : ∀ fs e, ∃ fs₁ k₁, handleClientRequest C (fs, k) e = some (fs₁, k₁) ∧ Behaves C D S k₁) : Behaves C D S k := by
  intro dirs fs es
  cases es with
  | nil => exact ⟨fs, k, rfl, Or.inl ⟨hd, hs, hc⟩⟩
  | cons e es =>
    obtain ⟨fs₁, k₁, hk, hrest⟩ := h (dirs 0) e
    obtain ⟨fs', k', hrun, hupto⟩ := hrest (fun i => dirs (i + 1)) fs₁ es
    exact ⟨fs', k', by rw [handleEvents_cons, hk, Option.bind_some, hrun], hupto⟩

theorem Behaves.deeds (h : Behaves C D S k) : k.deeds <+: D := by
  obtain ⟨fs', k', hrun, hupto⟩ := h (fun _ => Fs.empty) Fs.empty []
  cases hrun
  rcases hupto with ⟨hd, -⟩ | ⟨hd, -⟩
  · exact hd
  · exact hd ▸ List.prefix_rfl

/-- A complete connection is shut down, and does nothing. -/
theorem behaves_complete (hc : k.client.state = .complete) : Behaves C k.deeds k.sends k := by
  intro dirs fs es
  induction es generalizing dirs fs k with
  | nil => exact ⟨fs, k, rfl, Or.inr ⟨rfl, rfl⟩⟩
  | cons e es ih =>
    rw [handleEvents_cons, handle_complete hc, Option.bind_some]
    exact ih (k := { k with closed := true }) hc _ _

theorem deeds_eq {calls : List FileCall} (h : k'.calls = k.calls ++ calls) :
    k'.deeds = k.deeds ++ calls.flatMap FileCall.deeds := by rw [Conn.deeds, h, List.flatMap_append, Conn.deeds]

/-! ## Uploads -/

def uploadReply (C : Config) : Option ErrorType → List Send
  | some t => [.status (errorLine ++ C.errText t)]
  | none => [.status (okLine ++ [0])]

theorem Replying.answers {error : Option ErrorType} (h : Replying error k) (C : Config) (fs : Fs) (e : Event) :
    ∃ k', handleClientRequest C (fs, k) e = some (fs, k') ∧ k'.client.state = .complete ∧ k'.deeds = k.deeds ∧
      k'.sends = uploadReply C error := by
  have hcalls : fileCalls C fs k.client = [] := by
    unfold fileCalls
    rw [h.state, h.errorType, h.method]
    cases error <;> rfl
  rw [handle_response h.state]
  cases error with
  | none =>
    simp only [writeResponse, h.errorType, h.method, hcalls, h.sends, List.append_nil, Option.map_some]
    exact ⟨_, rfl, rfl, rfl, rfl⟩
  | some t =>
    simp only [writeResponse, h.errorType, hcalls, h.sends, List.append_nil, Option.map_some]
    exact ⟨_, rfl, rfl, rfl, rfl⟩

theorem Replying.behaves {error : Option ErrorType} (h : Replying error k) :
    Behaves C k.deeds (uploadReply C error) k := by
  refine .of_step List.prefix_rfl h.sends (by rw [h.state]; decide) ?_
  intro fs e
  obtain ⟨k', hk, hc, hdeeds, hsends⟩ := h.answers C fs e
  rw [← hdeeds, ← hsends]
  exact ⟨fs, k', hk, behaves_complete hc⟩

/-- What an upload does with the rest of its stream, when that is not more than it declared. -/
def uploadDeeds (p : Text) (i left : Nat) (stream : Text) : List FileCall :=
  stream.map (fun b => .fwrite i [b]) ++ if stream.length = left then [.fclose i] else [.fclose i, .remove p]

def uploadError (left : Nat) (stream : Text) : Option ErrorType :=
  if stream.length = left then none else some .badFileSize

theorem uploadDeeds_append {g rest : Text} {left : Nat} (hlt : g.length < left) :
    uploadDeeds p i left (g ++ rest) = (partCalls p i g left).flatMap FileCall.deeds ++
      uploadDeeds p i (left - g.length) rest := by
  have hlast : (g ++ rest).length = left ↔ rest.length = left - g.length := by
    rw [List.length_append]
    omega
  have hmore : ¬ left < g.length := by omega
  have hnot : ¬ left = g.length := by omega
  unfold uploadDeeds partCalls
  simp only [hlast]
  rw [if_neg hmore, if_neg hnot, List.map_append, List.append_assoc, List.flatMap_singleton]
  rfl

theorem uploadDeeds_last {g : Text} : uploadDeeds p i g.length g =
    (partCalls p i g g.length).flatMap FileCall.deeds := by
  unfold uploadDeeds partCalls
  rw [if_pos rfl, if_neg (Nat.lt_irrefl _), if_pos rfl]
  rfl

/-- An upload of which no more comes than was declared. -/
theorem Uploading.behaves (h : Uploading p i n w k) (hn : n < wordSize) (hw : w < n)
    (hstream : k.stream.length ≤ n - w) :
    Behaves C (k.deeds ++ uploadDeeds p i (n - w) k.stream) (uploadReply C (uploadError (n - w) k.stream)) k := by
  generalize hlen : k.stream.length = len
  induction len using Nat.strongRecOn generalizing k w with
  | _ len ih =>
    refine .of_step (List.prefix_append _ _) h.sends (by rw [h.state]; decide) ?_
    intro fs e
    by_cases hgot : got e.chunks k.stream = []
    · -- the end of the stream
      obtain ⟨k₁, hended, -, -, hcalls, hreply⟩ := h.ended C fs hgot
      have hmissing : ¬ ([] : Text).length = n - w := by
        rw [List.length_nil]
        omega
      have hbehaves := hreply.behaves (C := C)
      rw [deeds_eq hcalls] at hbehaves
      rw [got_nil hgot, uploadDeeds, uploadError, if_neg hmissing, if_neg hmissing]
      exact ⟨_, k₁, hended, hbehaves⟩
    · obtain ⟨k₁, hnext, hrest, -, hcalls, -, hlast, hless⟩ := h.next C fs hn (Nat.le_of_lt hw) hgot
      have happ := (got_append e.chunks k.stream).1
      have hpos := List.length_pos_iff.mpr hgot
      generalize got e.chunks k.stream = g at *
      have hsum := congrArg List.length happ
      rw [List.length_append] at hsum
      refine ⟨_, k₁, hnext, ?_⟩
      rcases Nat.lt_or_ge (w + g.length) n with hlt | hge
      · have hleft : n - (w + g.length) = n - w - g.length := by omega
        have hbehaves := ih k₁.stream.length (by rw [hrest]; omega) (hless hlt) hlt (by rw [hrest]; omega) rfl
        rw [hrest, hleft, deeds_eq hcalls, List.append_assoc, ← uploadDeeds_append (by omega), happ] at hbehaves
        have herror : uploadError (n - w - g.length) (k.stream.drop g.length) = uploadError (n - w) k.stream := by
          unfold uploadError
          congr 1
          rw [eq_iff_iff]
          omega
        rwa [herror] at hbehaves
      · have hall : k.stream = g := by
          rw [← happ, List.drop_of_length_le (by omega), List.append_nil]
        have hfull : n - w = g.length := by omega
        have hbehaves := (hlast (by omega)).behaves (C := C)
        rw [deeds_eq hcalls, hfull, ← uploadDeeds_last] at hbehaves
        rw [hall, hfull, uploadError, if_pos rfl]
        exact hbehaves

/-! ## More than was declared -/

def arrival (n : Nat) : Event := ⟨[n, 0], anyEvent.readdir⟩

theorem got_one (b : UInt8) (rest : Text) : got (arrival 1).chunks (b :: rest) = [b] := by
  simp [got, arrival, dataSize, recvall, recv]

theorem got_two (b b' : UInt8) (rest : Text) : got (arrival 2).chunks (b :: b' :: rest) = [b, b'] := by
  simp [got, arrival, dataSize, recvall, recv]

/-- One byte at a time up to the declared size, or two at the end. -/
theorem Uploading.splits (h : Uploading p i n w k) (hn : n < wordSize) (hw : w < n) (hmore : n - w < k.stream.length)
    (C : Config) (dirs : Nat → Fs) (fs : Fs) : ∃ es es' fs₁ fs₂ k₁ k₂, es.map (·.readdir) = es'.map (·.readdir) ∧
      handleEvents C dirs es (fs, k) = some (fs₁, k₁) ∧ handleEvents C dirs es' (fs, k) = some (fs₂, k₂) ∧
      k₁.client.state = .complete ∧ k₁.sends = uploadReply C none ∧
      k₂.sends = uploadReply C (some .badFileSize) := by
  generalize hm : n - w = m at hmore
  induction m generalizing k w dirs fs with
  | zero => omega
  | succ m ih =>
    obtain ⟨b, rest, hstream⟩ := List.exists_cons_of_length_pos (Nat.zero_lt_of_lt hmore)
    have hone : got (arrival 1).chunks k.stream = [b] := by rw [hstream, got_one]
    obtain ⟨k₁, hnext, hrest, -, -, -, hlast, hless⟩ := h.next C (dirs 0) (e := arrival 1) hn (Nat.le_of_lt hw)
      (by rw [hone]; exact List.cons_ne_nil _ _)
    rw [hone, List.length_singleton, hstream, List.drop_one, List.tail_cons] at hrest
    rw [hone, List.length_singleton] at hlast hless
    rw [hstream, List.length_cons] at hmore
    by_cases hend : n = w + 1
    · obtain ⟨b', rest', hrest'⟩ := List.exists_cons_of_length_pos (l := rest) (by omega)
      have htwo : got (arrival 2).chunks k.stream = [b, b'] := by rw [hstream, hrest', got_two]
      obtain ⟨k₂, hnext₂, -, -, -, hover, -⟩ := h.next C (dirs 0) (e := arrival 2) hn (Nat.le_of_lt hw)
        (by rw [htwo]; exact List.cons_ne_nil _ _)
      rw [htwo] at hover
      obtain ⟨k₃, hk₃, hc, -, hsends⟩ := (hlast hend).answers C (dirs 1) anyEvent
      obtain ⟨k₄, hk₄, -, -, hsends'⟩ := (hover (by rw [hend]; exact Nat.lt_succ_self _)).answers C (dirs 1) anyEvent
      refine ⟨[arrival 1, anyEvent], [arrival 2, anyEvent], dirs 1, dirs 1, k₃, k₄, rfl, ?_, ?_, hc, hsends, hsends'⟩
      · rw [handleEvents_cons, hnext, Option.bind_some, handleEvents_cons, hk₃]
        rfl
      · rw [handleEvents_cons, hnext₂, Option.bind_some, handleEvents_cons, hk₄]
        rfl
    · obtain ⟨es, es', fs₁, fs₂, k₃, k₄, horder, hk₃, hk₄, hrest⟩ := ih (hless (by omega)) (by omega)
        (fun i => dirs (i + 1)) _ (by omega) (by rw [hrest]; exact Nat.lt_of_succ_lt_succ hmore)
      refine ⟨arrival 1 :: es, arrival 1 :: es', fs₁, fs₂, k₃, k₄, by simp [horder], ?_, ?_, hrest⟩
      · rw [handleEvents_cons, hnext, Option.bind_some, hk₃]
      · rw [handleEvents_cons, hnext, Option.bind_some, hk₄]

/-! ## A PUT from its first block on -/

/-- Of what follows the line of a PUT, and what its client sends after the first block: the declared
    bytes end in that block, or no more than they are sent. -/
def Decided (rest more : Text) : Prop :=
  leDecode (rest.take 8) ≤ (rest.drop 8).length ∨ (rest.drop 8 ++ more).length ≤ leDecode (rest.take 8)

variable {pre rest stream name : Text} {b : Mem} {o q : Nat} {calls : List FileCall}

theorem leDecode_size (h8 : 8 ≤ rest.length) : leDecode (rest.take 8) < wordSize := by
  have hlt := Bytes.leDecode_lt (l := rest.take 8)
  rw [List.length_take, Nat.min_eq_left h8] at hlt
  exact hlt

/-- The size is read whether or not so much was received. -/
theorem handle_putConn_reads : handleClientRequest C (fs, putConn C b name stream i .readingSize o q calls) e =
    some (fs, putConn C b name stream i .readingData (o + 8)
      (leDecode (load (store b 0 (stream.take dataSize)) o 8)) calls) := by
  rw [handle_process (by simp [putConn]) (by simp [putConn])]
  simp [processRequest, putConn, readSize, fileCalls]

theorem handle_putConn_size (hblock : stream.take dataSize = pre ++ rest) (ho : o = pre.length)
    (h8 : 8 ≤ rest.length) : handleClientRequest C (fs, putConn C b name stream i .readingSize o q calls) e =
      some (fs, putConn C b name stream i .readingData (o + 8) (leDecode (rest.take 8)) calls) := by
  have hload := Bytes.load_store (m := b) (a := 0) (b := o) (l := stream.take dataSize) (n := 8)
    (by rw [hblock, List.length_append, ho]; omega)
  have hrest : (stream.take dataSize).drop o = rest := by rw [hblock, ho, List.drop_left]
  rw [Nat.zero_add, hrest] at hload
  rw [handle_putConn_reads, hload]

theorem putConn_idle (h : stream.take dataSize ≠ []) (chunks : List Nat) :
    receive (putConn C b name stream i .readingData o n calls) chunks =
      putConn C b name stream i .readingData o n calls := by
  apply if_neg
  intro hread
  rcases hread with ⟨-, hempty⟩ | hverb
  · exact h (List.length_eq_zero_iff.mp hempty)
  · cases hverb

theorem handle_putConn_part (C : Config) (b : Mem) (name : Text) (i : Nat) (calls : List FileCall) (fs : Fs) (e : Event)
    (hblock : stream.take dataSize = pre ++ rest) (ho : o = pre.length) (h8 : 8 ≤ rest.length) (hn : n < wordSize) :
    ∃ fs₁ k₁,
      handleClientRequest C (fs, putConn C b name stream i .readingData (o + 8) n calls) e = some (fs₁, k₁) ∧
      k₁.stream = stream.drop dataSize ∧ k₁.calls = calls ++ partCalls (path C name) i (rest.drop 8) n ∧
      (n < (rest.drop 8).length → Replying (some .badFileSize) k₁) ∧
      (n = (rest.drop 8).length → Replying none k₁) ∧
      ((rest.drop 8).length < n → Uploading (path C name) i n (rest.drop 8).length k₁) := by
  have hlen : (stream.take dataSize).length = o + 8 + (rest.drop 8).length := by
    rw [hblock, List.length_append, List.length_drop]
    omega
  have hfit : (stream.take dataSize).length ≤ dataSize := by
    rw [List.length_take]
    exact Nat.min_le_left _ _
  have hload := Bytes.load_store (m := b) (a := 0) (b := o + 8) (l := stream.take dataSize)
    (n := (rest.drop 8).length) (by omega)
  have hpart : (stream.take dataSize).drop (o + 8) = rest.drop 8 := by
    rw [hblock, ho, ← List.drop_drop, List.drop_left]
  rw [hpart, List.take_length, Nat.zero_add] at hload
  have hpos : (stream.take dataSize).length ≠ 0 := by omega
  obtain ⟨k₁, hk, hstream, -, hcalls, hmore, hlast, hless⟩ := handle_part C fs (p := path C name) (i := i) (w := 0)
    (rest.drop 8) hn (putConn_idle (List.length_pos_iff.mp (by omega)) _) rfl rfl rfl rfl rfl rfl rfl rfl
    (Nat.zero_le _) hlen hpos hfit hload rfl
  rw [Nat.sub_zero] at hcalls
  rw [Nat.zero_add] at hmore hlast hless
  exact ⟨_, k₁, hk, hstream, hcalls, hmore, hlast, hless⟩

/-- When that decides it, the upload comes to one outcome. -/
theorem Decided.behaves (h : Decided rest (stream.drop dataSize)) (hblock : stream.take dataSize = pre ++ rest)
    (ho : o = pre.length) (h8 : 8 ≤ rest.length) :
    ∃ D S, Behaves C D S (putConn C b name stream i .readingSize o q calls) := by
  have hn := leDecode_size h8
  unfold Decided at h
  generalize hsize : leDecode (rest.take 8) = n at h hn
  suffices hpart : ∃ D S, calls.flatMap FileCall.deeds <+: D ∧ ∀ fs e, ∃ fs₁ k₁, handleClientRequest C
      (fs, putConn C b name stream i .readingData (o + 8) n calls) e = some (fs₁, k₁) ∧ Behaves C D S k₁ by
    obtain ⟨D, S, hcalls, hpart⟩ := hpart
    refine ⟨D, S, .of_step hcalls rfl (by intro hc; cases hc) ?_⟩
    intro fs e
    refine ⟨fs, _, (handle_putConn_size hblock ho h8).trans (by rw [hsize]), ?_⟩
    exact .of_step hcalls rfl (by intro hc; cases hc) hpart
  have hfirst := fun fs e => handle_putConn_part C b name i calls fs e hblock ho h8 hn
  generalize hgiven : partCalls (path C name) i (rest.drop 8) n = given at hfirst
  have hdeeds : ∀ k₁ : Conn, k₁.calls = calls ++ given →
      k₁.deeds = calls.flatMap FileCall.deeds ++ given.flatMap FileCall.deeds := by
    intro k₁ hcalls
    rw [Conn.deeds, hcalls, List.flatMap_append]
  rcases Nat.lt_trichotomy n (rest.drop 8).length with hlt | heq | hgt
  · refine ⟨_, uploadReply C (some .badFileSize), List.prefix_append _ (given.flatMap FileCall.deeds), ?_⟩
    intro fs e
    obtain ⟨fs₁, k₁, hk, -, hcalls, hmore, -, -⟩ := hfirst fs e
    exact ⟨fs₁, k₁, hk, hdeeds k₁ hcalls ▸ (hmore hlt).behaves⟩
  · refine ⟨_, uploadReply C none, List.prefix_append _ (given.flatMap FileCall.deeds), ?_⟩
    intro fs e
    obtain ⟨fs₁, k₁, hk, -, hcalls, -, hlast, -⟩ := hfirst fs e
    exact ⟨fs₁, k₁, hk, hdeeds k₁ hcalls ▸ (hlast heq).behaves⟩
  · rw [List.length_append] at h
    refine ⟨calls.flatMap FileCall.deeds ++ given.flatMap FileCall.deeds ++
      uploadDeeds (path C name) i (n - (rest.drop 8).length) (stream.drop dataSize),
      uploadReply C (uploadError (n - (rest.drop 8).length) (stream.drop dataSize)), ?_, ?_⟩
    · rw [List.append_assoc]
      exact List.prefix_append _ _
    intro fs e
    obtain ⟨fs₁, k₁, hk, hstream, hcalls, -, -, hless⟩ := hfirst fs e
    have hbehaves := (hless hgt).behaves (C := C) hn hgt (by rw [hstream]; omega)
    rw [hstream, hdeeds k₁ hcalls] at hbehaves
    exact ⟨fs₁, k₁, hk, hbehaves⟩

/-- When it does not, a body that is accepted in one run is refused in another. -/
theorem putConn_splits (C : Config) (b : Mem) (name : Text) (i q : Nat) (calls : List FileCall) (dirs : Nat → Fs)
    (fs : Fs) (h : ¬ Decided rest (stream.drop dataSize)) (hblock : stream.take dataSize = pre ++ rest)
    (ho : o = pre.length) (h8 : 8 ≤ rest.length) :
    ∃ es es' fs₁ fs₂ k₁ k₂, es.map (·.readdir) = es'.map (·.readdir) ∧
      handleEvents C dirs es (fs, putConn C b name stream i .readingSize o q calls) = some (fs₁, k₁) ∧
      handleEvents C dirs es' (fs, putConn C b name stream i .readingSize o q calls) = some (fs₂, k₂) ∧
      k₁.client.state = .complete ∧ k₁.sends = uploadReply C none ∧
      k₂.sends = uploadReply C (some .badFileSize) := by
  have hn := leDecode_size h8
  obtain ⟨hpart, hmore⟩ := not_or.mp h
  rw [List.length_append] at hmore
  obtain ⟨fs₁, k₁, hk, hstream, -, -, -, hless⟩ := handle_putConn_part C b name i calls (dirs 1) anyEvent
    hblock ho h8 hn
  obtain ⟨es, es', fs₂, fs₃, k₂, k₃, horder, hk₂, hk₃, hrest⟩ := (hless (Nat.lt_of_not_le hpart)).splits hn
    (Nat.lt_of_not_le hpart) (by rw [hstream]; omega) C (fun i => dirs (i + 2)) fs₁
  refine ⟨anyEvent :: anyEvent :: es, anyEvent :: anyEvent :: es', fs₂, fs₃, k₂, k₃, by simp [horder], ?_, ?_, hrest⟩
  · rw [handleEvents_cons, handle_putConn_size hblock ho h8, Option.bind_some, handleEvents_cons, hk, Option.bind_some]
    exact hk₂
  · rw [handleEvents_cons, handle_putConn_size hblock ho h8, Option.bind_some, handleEvents_cons, hk, Option.bind_some]
    exact hk₃

end SysProg.Net
