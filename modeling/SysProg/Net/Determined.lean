/-
  SysProg.Net.Determined — what a connection does, and the bytes its client sent.

  The buffer of a connection is not initialised. READING_VERB compares its first bytes with
  the verbs, READING_FILENAME looks for a newline after the verb and READING_SIZE takes
  eight bytes after that, and none of them asks how much has been received; READING_DATA
  finds that an upload is too long only when one read goes on past its end. `Determined`
  says that this makes no difference: whatever the buffer and `req_size` held before, however
  the bytes arrive and whatever the directory is at each event, the connection makes the same
  calls on files and sends the same, and reads its buffer only where bytes were received.
  It holds exactly when the stream is a `WholeRequest` (`determined_iff`). A client that stops
  early, inside a verb, before the end of its line or inside a size, is served by what was in
  the buffer (`served_by_leftovers`); one that sends more than it declared, and not in the
  first block, by how `recv` splits it (`putConn_splits`).
-/

import SysProg.Net.Arrivals

namespace SysProg.Net

open SysProg.Bytes (Mem load store leDecode leEncode)

def Verb.text : Verb → Text
  | .get => ascii ['G', 'E', 'T']
  | .put => ascii ['P', 'U', 'T']
  | .delete => ascii ['D', 'E', 'L', 'E', 'T', 'E']
  | .list => ascii ['L', 'I', 'S', 'T']
  | .unknown => []

def Verb.named (v : Verb) : Prop := v = .get ∨ v = .put ∨ v = .delete

def Client.withMemory (c : Client) (buffer : Mem) (reqSize : Nat) : Client := { c with buffer, reqSize }

def Conn.withMemory (k : Conn) (buffer : Mem) (reqSize : Nat) : Conn :=
  { k with client := k.client.withMemory buffer reqSize }

def usedConnection (buffer : Mem) (reqSize : Nat) (stream : Text) : Conn :=
  (newConnection buffer stream).withMemory buffer reqSize

def ClientState.readsBuffer (state : ClientState) : Prop :=
  state = .readingFilename ∨ state = .readingSize ∨ state = .readingData

/-- With the same events two runs are alike. When the bytes arrive otherwise, one has done a first part of
    what the other has, and no less once that is complete. -/
structure Determined (C : Config) (dirs : Nat → Fs) (stream : Text) : Prop where
  alike : ∀ b b' n n' es, ∃ fs k k', handleEvents C dirs es (dirs 0, usedConnection b n stream) = some (fs, k) ∧
    handleEvents C dirs es (dirs 0, usedConnection b' n' stream) = some (fs, k') ∧
    k'.calls = k.calls ∧ k'.sends = k.sends ∧ k'.closed = k.closed
  anyhow : ∀ b b' n n' es es', es.map (·.readdir) = es'.map (·.readdir) → ∀ fs fs' k k',
    handleEvents C dirs es (dirs 0, usedConnection b n stream) = some (fs, k) →
    handleEvents C dirs es' (dirs 0, usedConnection b' n' stream) = some (fs', k') →
    (k.Behind k' ∨ k'.Behind k) ∧ (k.client.state = .complete → k'.Behind k)
  received : ∀ b n es (e : Event) fs k, handleEvents C dirs es (dirs 0, usedConnection b n stream) = some (fs, k) →
    (receive k e.chunks).client.state.readsBuffer →
    (receive k e.chunks).client.boffset ≤ (receive k e.chunks).client.bufferSize

/-- The first block is not cut off inside a verb, and has the line and the size that it
    should have; what it names can be opened and what it lists fits into memory. -/
structure WholeRequest (C : Config) (fs : Fs) (stream : Text) : Prop where
  verb : ∀ v : Verb, v ≠ .unknown → stream.take dataSize <+: v.text → stream.take dataSize = v.text
  line : ∀ v : Verb, v.named → v.text <+: stream.take dataSize → ∃ name ch rest,
    (stream.take dataSize).drop (v.text.length + 1) = name ++ ch :: rest ∧ newline ∉ name ∧ 0 ∉ name ∧
    (ch = 0 ∨ ch = newline ∧ name.length ≤ 257 ∧
      (v = .put → 8 ≤ rest.length ∧ (C.create fs (path C name)).isSome ∧ Decided rest (stream.drop dataSize)))
  list : Verb.list.text <+: stream.take dataSize → listingSize (fs.names C) < 2 ^ 63

variable {C : Config} {fs : Fs} {dirs : Nat → Fs} {stream r : Text} {b : Mem} {n : Nat} {c : Client} {k : Conn}

/-! ## The verb -/

theorem startsWith_verb {m : Mem} {v w : Verb} (hv : v ≠ .unknown) (hw : w ≠ .unknown)
    (h : startsWith m v.text = true) (h' : startsWith m w.text = true) : v = w := by
  cases v <;> cases w <;> first
    | rfl
    | exact absurd rfl hv
    | exact absurd rfl hw
    | exact absurd ((startsWith_head h).symm.trans (startsWith_head h')) (by decide)

theorem readVerb_verb {v : Verb} (hv : v ≠ .unknown) (h : startsWith c.buffer v.text = true) : readVerb c =
    if v = .list then { c with method := .list, state := .writingResponse }
    else { c with method := v, state := .readingFilename, boffset := v.text.length + 1 } := by
  have hother : ∀ w : Verb, w ≠ .unknown → v ≠ w → ¬ startsWith c.buffer w.text = true :=
    fun w hw hne hs => hne (startsWith_verb hv hw h hs)
  have hget := hother .get (by decide)
  have hput := hother .put (by decide)
  have hdelete := hother .delete (by decide)
  unfold readVerb
  cases v with
  | get => exact if_pos h
  | put => exact (if_neg (hget (by decide))).trans (if_pos h)
  | delete => exact (if_neg (hget (by decide))).trans ((if_neg (hput (by decide))).trans (if_pos h))
  | list =>
    exact (if_neg (hget (by decide))).trans ((if_neg (hput (by decide))).trans
      ((if_neg (hdelete (by decide))).trans (if_pos h)))
  | unknown => exact absurd rfl hv

theorem readVerb_bad (h : ∀ v : Verb, v ≠ .unknown → ¬ startsWith c.buffer v.text = true) :
    readVerb c = { c with errorType := some .badRequest, state := .writingResponse } := by
  unfold readVerb
  exact (if_neg (h .get (by decide))).trans ((if_neg (h .put (by decide))).trans
    ((if_neg (h .delete (by decide))).trans (if_neg (h .list (by decide)))))

/-- What is received is at the start of the buffer. -/
theorem startsWith_received {s : Text} (h : s <+: r) : startsWith (store b 0 r) s = true := by
  rcases h with ⟨t, rfl⟩
  exact startsWith_store

theorem received_prefix {s : Text} (h : startsWith (store b 0 r) s = true) : s <+: r ∨ r <+: s := by
  unfold startsWith at h
  rw [beq_iff_eq] at h
  rcases Nat.le_total s.length r.length with hle | hle
  · apply Or.inl
    have hl := Bytes.load_store (m := b) (a := 0) (b := 0) (l := r) (n := s.length) (by omega)
    rw [Nat.zero_add, List.drop_zero, h] at hl
    exact hl ▸ List.take_prefix _ _
  · apply Or.inr
    have hl := Bytes.load_store (m := b) (a := 0) (b := 0) (l := r) (n := r.length) (by omega)
    rw [Nat.zero_add, List.drop_zero, List.take_length] at hl
    have htake := congrArg (List.take r.length) h
    rw [Bytes.load_take, Nat.min_eq_left hle, hl] at htake
    exact htake ▸ List.take_prefix _ _

/-- The verb, when the block is not cut off inside one. -/
theorem startsWith_iff {v : Verb} (hr : r <+: v.text → r = v.text) :
    startsWith (store b 0 r) v.text = true ↔ v.text <+: r := by
  refine ⟨fun h => ?_, startsWith_received⟩
  rcases received_prefix h with h | h
  · exact h
  · exact hr h ▸ List.prefix_rfl

/-! ## The first two events -/

def verbRead (b : Mem) (n : Nat) (stream : Text) : Client :=
  readVerb ⟨.unknown, [], none, 0, .readingVerb, store b 0 (stream.take dataSize), (stream.take dataSize).length, 0, n,
    none⟩

def usedRead (b : Mem) (n : Nat) (stream : Text) : Conn :=
  ⟨verbRead b n stream, stream.drop dataSize, [], [], true, false⟩

theorem receive_used {chunks : List Nat} : receive (usedConnection b n stream) chunks =
    ⟨⟨.unknown, [], none, 0, .readingVerb, store b 0 (stream.take dataSize), (stream.take dataSize).length, 0, n, none⟩,
      stream.drop dataSize, [], [], false, false⟩ := by
  rcases recvall_blocking dataSize ⟨chunks, stream⟩ with ⟨h1, h2⟩
  unfold receive usedConnection Conn.withMemory Client.withMemory newConnection
  dsimp only
  rw [if_pos (Or.inr rfl)]
  generalize recvall false dataSize true dataSize ⟨chunks, stream⟩ = got at h1 h2
  rw [← h1, ← h2]

theorem handle_used {e : Event} :
    handleClientRequest C (fs, usedConnection b n stream) e = some (fs, usedRead b n stream) := by
  unfold handleClientRequest
  rw [receive_used, if_neg (by intro h; cases h)]
  rfl

/-- The verb is whole, so what is done with it depends on the block only. -/
theorem verbRead_verb {v : Verb} (hv : v ≠ .unknown) (h : startsWith (store b 0 (stream.take dataSize)) v.text = true) :
    verbRead b n stream = if v = .list then
      ⟨.list, [], none, 0, .writingResponse, store b 0 (stream.take dataSize), (stream.take dataSize).length, 0, n,
        none⟩
    else ⟨v, [], none, 0, .readingFilename, store b 0 (stream.take dataSize), (stream.take dataSize).length,
      v.text.length + 1, n, none⟩ := by
  unfold verbRead
  rw [readVerb_verb hv h]

theorem verbRead_bad (h : ∀ v : Verb, v ≠ .unknown → ¬ startsWith (store b 0 (stream.take dataSize)) v.text = true) :
    verbRead b n stream = ⟨.unknown, [], none, 0, .writingResponse, store b 0 (stream.take dataSize),
      (stream.take dataSize).length, 0, n, some .badRequest⟩ := by
  unfold verbRead
  rw [readVerb_bad h]

theorem verbRead_state (b : Mem) (n : Nat) (stream : Text) :
    (verbRead b n stream).state = .readingFilename ∨ (verbRead b n stream).state = .writingResponse := by
  by_cases h : ∃ v : Verb, v ≠ .unknown ∧ startsWith (store b 0 (stream.take dataSize)) v.text = true
  · rcases h with ⟨v, hv, hs⟩
    rw [verbRead_verb hv hs]
    split
    · exact Or.inr rfl
    · exact Or.inl rfl
  · rw [verbRead_bad fun v hv hs => h ⟨v, hv, hs⟩]
    exact Or.inr rfl

theorem usedRead_idle (b : Mem) (n : Nat) (stream : Text) : (usedRead b n stream).client.state ≠ .complete ∧
    ¬ (((usedRead b n stream).client.state = .readingData ∧ (usedRead b n stream).client.bufferSize = 0) ∨
      (usedRead b n stream).client.state = .readingVerb) := by
  have hlate : (usedRead b n stream).client.state = .readingFilename ∨
      (usedRead b n stream).client.state = .writingResponse := verbRead_state b n stream
  rcases hlate with h | h
  · simp [h]
  · simp [h]

theorem handle_usedRead {e : Event} : handleClientRequest C (fs, usedRead b n stream) e =
    (processRequest C fs (verbRead b n stream) e).map fun (fs', c, sends) =>
      (fs', { usedRead b n stream with client := c, sends, calls := fileCalls C fs (verbRead b n stream) }) := by
  rcases usedRead_idle b n stream with ⟨hc, hread⟩
  rw [handle_process hc hread]
  unfold usedRead
  simp only [List.nil_append]

/-- The second event does the same whatever the buffer held. -/
theorem Determined.second (h : Determined C dirs stream) (b b' : Mem) (n n' : Nat) :
    (processRequest C (dirs 1) (verbRead b n stream) anyEvent).isSome ∧
      fileCalls C (dirs 1) (verbRead b' n' stream) = fileCalls C (dirs 1) (verbRead b n stream) := by
  rcases h.alike b b' n n' [anyEvent, anyEvent] with ⟨fs, k, k', hk, hk', hcalls, -⟩
  rw [handleEvents_cons, handle_used, Option.bind_some, handleEvents_cons, handle_usedRead] at hk hk'
  cases hp : processRequest C (dirs 1) (verbRead b n stream) anyEvent with
  | none =>
    rw [hp] at hk
    cases hk
  | some x =>
    cases hp' : processRequest C (dirs 1) (verbRead b' n' stream) anyEvent with
    | none =>
      rw [hp'] at hk'
      cases hk'
    | some x' =>
      simp only [hp, hp', Option.map_some, Option.bind_some, handleEvents, Option.some.injEq, Prod.mk.injEq] at hk hk'
      rw [← hk.2, ← hk'.2] at hcalls
      exact ⟨rfl, hcalls⟩

/-! ## The line -/

theorem strchr_nul {m : Mem} {ch : UInt8} {left a : Nat} (hn : n < left) (hat : m (a + n) = 0) (hch : ch ≠ 0)
    (hno : ∀ i, i < n → m (a + i) ≠ ch ∧ m (a + i) ≠ 0) : strchr m ch left a = some none := by
  obtain ⟨k, hk⟩ : ∃ k, left - n = k + 1 := ⟨left - n - 1, by omega⟩
  rw [strchr_skip (Nat.le_of_lt hn) hno, hk, strchr, if_neg (by rw [hat]; exact hch.symm), if_pos hat]

/-- The search leaves the buffer. -/
theorem strchr_none {m : Mem} {ch : UInt8} {left a : Nat} (hno : ∀ i, i < left → m (a + i) ≠ ch ∧ m (a + i) ≠ 0) :
    strchr m ch left a = none := by
  rw [strchr_skip (Nat.le_refl left) hno, Nat.sub_self]
  rfl

/-- A text has a first newline or NUL, or has neither. -/
theorem line_or_none (l : Text) : (newline ∉ l ∧ 0 ∉ l) ∨
    ∃ name ch rest, l = name ++ ch :: rest ∧ newline ∉ name ∧ 0 ∉ name ∧ (ch = 0 ∨ ch = newline) := by
  induction l with
  | nil => exact Or.inl ⟨List.not_mem_nil, List.not_mem_nil⟩
  | cons a l ih =>
    by_cases ha : a = 0 ∨ a = newline
    · exact Or.inr ⟨[], a, l, rfl, List.not_mem_nil, List.not_mem_nil, ha⟩
    · have h0 : 0 ≠ a := fun e => ha (Or.inl e.symm)
      have hline : newline ≠ a := fun e => ha (Or.inr e.symm)
      rcases ih with ⟨h1, h2⟩ | ⟨name, ch, rest, rfl, h1, h2, hch⟩
      · exact Or.inl ⟨fun h => (List.mem_cons.mp h).elim hline h1, fun h => (List.mem_cons.mp h).elim h0 h2⟩
      · refine Or.inr ⟨a :: name, ch, rest, rfl, ?_, ?_, hch⟩
        · exact fun h => (List.mem_cons.mp h).elim hline h1
        · exact fun h => (List.mem_cons.mp h).elim h0 h2

theorem fileCalls_line {a : Nat} (hs : c.state = .readingFilename) (hm : c.method.named)
    (h : strchr c.buffer newline (dataSize - c.boffset) c.boffset = some (some a)) : fileCalls C fs c ≠ [] := by
  unfold fileCalls
  rcases hm with hm | hm | hm
  · simp [hs, h, hm]
  · simp [hs, h, hm]
  · simp [hs, h, hm]

theorem fileCalls_noLine (hs : c.state = .readingFilename)
    (h : strchr c.buffer newline (dataSize - c.boffset) c.boffset = some none) : fileCalls C fs c = [] := by
  unfold fileCalls
  simp [hs, h]

theorem Verb.named.ne {v : Verb} (hv : v.named) : v ≠ .unknown ∧ v ≠ .list ∧ v.text.length + 1 ≤ 7 := by
  rcases hv with rfl | rfl | rfl <;> decide

theorem Verb.named_or_list {v : Verb} (hv : v ≠ .unknown) : v.named ∨ v = .list := by
  cases v with
  | get => exact Or.inl (Or.inl rfl)
  | put => exact Or.inl (Or.inr (Or.inl rfl))
  | delete => exact Or.inl (Or.inr (Or.inr rfl))
  | list => exact Or.inr rfl
  | unknown => exact absurd rfl hv

theorem Verb.text_prefix {v w : Verb} (hv : v ≠ .unknown) (h : v.text <+: w.text) : v = w := by
  revert hv h
  cases v <;> cases w <;> decide

/-! ## A block that is cut off -/

/-- Nothing is in the buffer but what was received. -/
theorem startsWith_zero {v : Verb} (h : startsWith (store (fun _ => 0) 0 r) v.text = true) : v.text <+: r := by
  rcases received_prefix h with hp | hp
  · exact hp
  rcases Nat.lt_or_ge r.length v.text.length with hlt | hge
  · exfalso
    unfold startsWith at h
    rw [beq_iff_eq] at h
    have hzero : store (fun _ => 0) 0 r (0 + r.length) = 0 :=
      Bytes.store_off fun i hi => by omega
    have hmem : (0 : UInt8) ∈ v.text := by
      rw [← h, load, List.mem_map]
      exact ⟨r.length, List.mem_range.mpr hlt, hzero⟩
    revert hmem
    cases v <;> decide
  · have heq := hp.eq_of_length_le hge
    exact heq ▸ List.prefix_rfl

/-- The buffer held the rest of the verb, and an empty line. -/
theorem Determined.verb (h : Determined C dirs stream) {v : Verb} (hv : v ≠ .unknown)
    (hp : stream.take dataSize <+: v.text) : stream.take dataSize = v.text := by
  by_contra hne
  generalize hb : store (fun _ => 0) 0 (v.text ++ [32] ++ ([] ++ newline :: [])) = b
  have hsame : store b 0 (stream.take dataSize) = b := by
    rw [← hb, List.append_assoc]
    exact Bytes.store_prefix (hp.trans (List.prefix_append _ _))
  have hstart : startsWith (store b 0 (stream.take dataSize)) v.text = true := by
    rw [hsame, ← hb, List.append_assoc]
    exact startsWith_store
  have hnone : fileCalls C (dirs 1) (verbRead (fun _ => 0) 0 stream) = [] := by
    rw [verbRead_bad]
    · rfl
    intro w hw hs
    have hpre := startsWith_zero hs
    have hwv := Verb.text_prefix hw (hpre.trans hp)
    rw [← hwv] at hp hne
    exact hne (hp.eq_of_length_le hpre.length_le)
  have hsome : fileCalls C (dirs 1) (verbRead b 0 stream) ≠ [] := by
    rw [verbRead_verb hv hstart]
    by_cases hlist : v = .list
    · rw [if_pos hlist]
      exact List.cons_ne_nil _ _
    · rw [if_neg hlist]
      have hnamed : v.named := (Verb.named_or_list hv).resolve_right hlist
      have hfit : (v.text ++ [32]).length + ([] : Text).length < dataSize := by
        rw [List.length_append]
        exact Nat.lt_of_le_of_lt hnamed.ne.2.2 (by decide)
      have hline := (strchr_line (fun _ => 0) [] List.not_mem_nil List.not_mem_nil hfit).1
      rw [hb, List.length_append] at hline
      exact fileCalls_line rfl hnamed (by rw [hsame]; exact hline)
  exact hsome (((h.second (fun _ => 0) b 0 0).2).trans hnone)

theorem Determined.list (h : Determined C dirs stream) (hp : Verb.list.text <+: stream.take dataSize) :
    listingSize ((dirs 1).names C) < 2 ^ 63 := by
  have hs := (h.second (fun _ => 0) (fun _ => 0) 0 0).1
  rw [verbRead_verb (by decide) (startsWith_received hp), if_pos rfl] at hs
  by_contra hlong
  have hnone : listResponse C (dirs 1) anyEvent = none := if_neg hlong
  simp [processRequest, writeResponse, hnone] at hs

/-- The line is not in the block: what was in the buffer may end it or not. -/
theorem Determined.line_found (h : Determined C dirs stream) {v : Verb} (hv : v.named)
    (hp : v.text <+: stream.take dataSize) : ∃ name ch rest,
    (stream.take dataSize).drop (v.text.length + 1) = name ++ ch :: rest ∧ newline ∉ name ∧ 0 ∉ name ∧
      (ch = 0 ∨ ch = newline) := by
  rcases line_or_none ((stream.take dataSize).drop (v.text.length + 1)) with ⟨hline, hnul⟩ | hfound
  swap
  · exact hfound
  exfalso
  generalize hr : stream.take dataSize = r at hp hline hnul
  generalize ho : v.text.length + 1 = o at hline hnul
  have hrle : r.length ≤ dataSize := by
    rw [← hr, List.length_take]
    exact Nat.min_le_left _ _
  have hole : o ≤ 7 := ho ▸ hv.ne.2.2
  have hread : ∀ b, verbRead b 0 stream = ⟨v, [], none, 0, .readingFilename, store b 0 r, r.length, o, 0, none⟩ := by
    intro b
    rw [verbRead_verb hv.ne.1 (by rw [hr]; exact startsWith_received hp), if_neg hv.ne.2.1, hr, ho]
  have hno : ∀ b i, o + i < r.length → store b 0 r (o + i) ≠ newline ∧ store b 0 r (o + i) ≠ 0 := by
    intro b i hi
    have hat := Bytes.store_at (m := b) (a := 0) hi
    rw [Nat.zero_add] at hat
    have hmem : r[o + i] ∈ r.drop o := by
      rw [← List.getElem_drop (h := by rw [List.length_drop]; omega)]
      exact List.getElem_mem _
    rw [hat]
    exact ⟨fun e => hline (e ▸ hmem), fun e => hnul (e ▸ hmem)⟩
  rcases Nat.lt_or_ge r.length dataSize with hlt | hge
  · -- the first byte after those received
    have hafter : ∀ x : UInt8, store (fun _ => x) 0 r (o + (max r.length o - o)) = x := by
      intro x
      exact Bytes.store_off fun i hi => by omega
    have hfit : max r.length o - o < dataSize - o := by
      unfold dataSize at hlt ⊢
      omega
    have hnone : fileCalls C (dirs 1) (verbRead (fun _ => 0) 0 stream) = [] := by
      rw [hread]
      exact fileCalls_noLine rfl (strchr_nul hfit (hafter 0) (by decide) fun i hi => hno (fun _ => 0) i (by omega))
    have hsome : fileCalls C (dirs 1) (verbRead (fun _ => newline) 0 stream) ≠ [] := by
      rw [hread]
      exact fileCalls_line rfl hv (strchr_spec hfit (hafter newline) fun i hi => hno (fun _ => newline) i (by omega))
    exact hsome ((h.second (fun _ => 0) (fun _ => newline) 0 0).2.trans hnone)
  · have hs := (h.second (fun _ => 0) (fun _ => 0) 0 0).1
    have hleft : strchr (store (fun _ => 0) 0 r) newline (dataSize - o) o = none :=
      strchr_none fun i hi => hno _ i (by omega)
    rw [hread] at hs
    simp [processRequest, readFilename, hleft] at hs

theorem verbRead_named {v : Verb} (hv : v.named) (hp : v.text <+: stream.take dataSize) : verbRead b n stream =
    ⟨v, [], none, 0, .readingFilename, store b 0 (stream.take dataSize), (stream.take dataSize).length,
      v.text.length + 1, n, none⟩ := by
  rw [verbRead_verb hv.ne.1 (startsWith_received hp), if_neg hv.ne.2.1]

/-- Where the line is in the block. -/
theorem block_line {v : Verb} {name rest : Text} {ch : UInt8}
    (hdrop : (stream.take dataSize).drop (v.text.length + 1) = name ++ ch :: rest) :
    ∃ pre, stream.take dataSize = pre ++ (name ++ ch :: rest) ∧ pre.length = v.text.length + 1 ∧
      pre.length + name.length < dataSize := by
  have hlen := congrArg List.length hdrop
  rw [List.length_drop, List.length_append, List.length_cons] at hlen
  have hrle : (stream.take dataSize).length ≤ dataSize := by
    rw [List.length_take]
    exact Nat.min_le_left _ _
  have hpre : ((stream.take dataSize).take (v.text.length + 1)).length = v.text.length + 1 := by
    rw [List.length_take]
    omega
  refine ⟨_, ?_, hpre, by omega⟩
  rw [← hdrop, List.take_append_drop]

theorem strchr_noLine (b : Mem) {v : Verb} {name rest : Text}
    (hdrop : (stream.take dataSize).drop (v.text.length + 1) = name ++ 0 :: rest) (hline : newline ∉ name)
    (hnul : 0 ∉ name) : strchr (store b 0 (stream.take dataSize)) newline (dataSize - (v.text.length + 1))
      (v.text.length + 1) = some none := by
  obtain ⟨pre, hsplit, hpre, hfit⟩ := block_line hdrop
  rw [hsplit, ← hpre]
  apply strchr_nul (n := name.length) (by omega) store_line_end (by decide)
  intro i hi
  have hmem := store_line_name b pre 0 rest hi
  exact ⟨fun e => hline (e ▸ hmem), fun e => hnul (e ▸ hmem)⟩

/-- The event that reads the name, when the line is in the block. -/
theorem verbRead_line (C : Config) (fs : Fs) (b : Mem) (n : Nat) {v : Verb} {name rest : Text} (hv : v.named)
    (hp : v.text <+: stream.take dataSize)
    (hdrop : (stream.take dataSize).drop (v.text.length + 1) = name ++ newline :: rest) (hline : newline ∉ name)
    (hnul : 0 ∉ name) : (verbRead b n stream).state = .readingFilename ∧ (verbRead b n stream).method = v ∧
      readFilename C fs (verbRead b n stream) = if name.length ≤ 257 then openFile C fs { verbRead b n stream with
          filename := path C name
          fileOffset := 0
          boffset := v.text.length + 1 + name.length + 1 }
        else none := by
  obtain ⟨pre, hsplit, hpre, hfit⟩ := block_line hdrop
  have hread := verbRead_named (b := b) (n := n) hv hp
  refine ⟨by rw [hread], by rw [hread], ?_⟩
  rw [hread, readFilename_line C fs (b := b) hline hnul (by rw [hsplit]) hpre.symm hfit, hpre]

/-- The event that reads the line of a PUT. -/
theorem handle_put_line {name rest : Text} {i : Nat} {fs₁ : Fs} (hp : Verb.put.text <+: stream.take dataSize)
    (hdrop : (stream.take dataSize).drop (Verb.put.text.length + 1) = name ++ newline :: rest) (hline : newline ∉ name)
    (hnul : 0 ∉ name) (hlen : name.length ≤ 257) (hcreate : C.create fs (path C name) = some (fs₁, i)) (b : Mem)
    (n : Nat) (e : Event) : handleClientRequest C (fs, usedRead b n stream) e = some (fs₁,
      putConn C b name stream i .readingSize (Verb.put.text.length + 1 + name.length + 1) n
        (fileCalls C fs (verbRead b n stream))) := by
  have hv : Verb.put.named := Or.inr (Or.inl rfl)
  obtain ⟨hs, hm, hread⟩ := verbRead_line C fs b n hv hp hdrop hline hnul
  rw [if_pos hlen] at hread
  rw [handle_usedRead]
  simp only [processRequest, hs, hread, openFile, hm, hcreate, Option.map_some]
  rw [verbRead_named hv hp]
  rfl

theorem line_block {v : Verb} {name rest : Text}
    (hdrop : (stream.take dataSize).drop (v.text.length + 1) = name ++ newline :: rest) :
    ∃ pre, stream.take dataSize = pre ++ rest ∧ v.text.length + 1 + name.length + 1 = pre.length := by
  obtain ⟨pre, hsplit, hpre, -⟩ := block_line hdrop
  refine ⟨pre ++ name ++ [newline], by rw [hsplit, List.append_assoc, List.append_assoc]; rfl, ?_⟩
  rw [List.length_append, List.length_append, hpre, List.length_singleton]

section
variable {pre rest name : Text} {i o : Nat} {calls : List FileCall}

/-- The event that reads the size moves past it. -/
theorem Determined.size (h : Determined C dirs stream) (hblock : stream.take dataSize = pre ++ rest)
    (ho : o = pre.length) (hpos : 0 < o)
    (hfirst : handleClientRequest C (dirs 1, usedRead (fun _ => 0) 0 stream) anyEvent =
      some (fs, putConn C (fun _ => 0) name stream i .readingSize o 0 calls)) : 8 ≤ rest.length := by
  have hrun : handleEvents C dirs [anyEvent, anyEvent, anyEvent] (dirs 0, usedConnection (fun _ => 0) 0 stream) =
      some (dirs 2, putConn C (fun _ => 0) name stream i .readingData (o + 8)
        (leDecode (load (store (fun _ => 0) 0 (stream.take dataSize)) o 8)) calls) := by
    rw [handleEvents_cons, handle_used, Option.bind_some, handleEvents_cons, hfirst, Option.bind_some,
      handleEvents_cons, handle_putConn_reads]
    rfl
  have hlen : (stream.take dataSize).length = o + rest.length := by rw [hblock, List.length_append, ho]
  have hne : stream.take dataSize ≠ [] := List.length_pos_iff.mp (by omega)
  have hreceived := h.received _ _ _ anyEvent _ _ hrun (by rw [putConn_idle hne]; exact Or.inr (Or.inr rfl))
  rw [putConn_idle hne] at hreceived
  have hreceived : o + 8 ≤ (stream.take dataSize).length := hreceived
  omega

/-- The read that ends an upload may end it too late. -/
theorem Determined.decided (h : Determined C dirs stream) (hblock : stream.take dataSize = pre ++ rest)
    (ho : o = pre.length) (h8 : 8 ≤ rest.length)
    (hfirst : handleClientRequest C (dirs 1, usedRead (fun _ => 0) 0 stream) anyEvent =
      some (fs, putConn C (fun _ => 0) name stream i .readingSize o 0 calls)) :
    Decided rest (stream.drop dataSize) := by
  by_contra hnot
  obtain ⟨es, es', fs₁, fs₂, k₁, k₂, horder, hk₁, hk₂, hc, hok, hbad⟩ := putConn_splits C (fun _ => 0) name i 0 calls
    (fun i => dirs (i + 2)) fs hnot hblock ho h8
  have hrun : ∀ es, handleEvents C dirs (anyEvent :: anyEvent :: es) (dirs 0, usedConnection (fun _ => 0) 0 stream) =
      handleEvents C (fun i => dirs (i + 2)) es (fs, putConn C (fun _ => 0) name stream i .readingSize o 0 calls) := by
    intro es
    rw [handleEvents_cons, handle_used, Option.bind_some, handleEvents_cons, hfirst, Option.bind_some]
  have hbehind := (h.anyhow _ _ 0 0 (anyEvent :: anyEvent :: es) (anyEvent :: anyEvent :: es') (by simp [horder]) _ _ k₁
    k₂ ((hrun es).trans hk₁) ((hrun es').trans hk₂)).2 hc
  have hsends := hbehind.sends
  rw [hok, hbad] at hsends
  have htext := hsends.eq_of_length rfl
  simp [uploadReply, errorLine, okLine, ascii] at htext

end

theorem Determined.whole (h : Determined C dirs stream) : WholeRequest C (dirs 1) stream := by
  refine ⟨fun v => h.verb, ?_, h.list⟩
  intro v hv hp
  obtain ⟨name, ch, rest, hdrop, hline, hnul, hch⟩ := h.line_found hv hp
  refine ⟨name, ch, rest, hdrop, hline, hnul, hch.imp_right ?_⟩
  intro heq
  subst heq
  obtain ⟨hs, hm, hread⟩ := verbRead_line C (dirs 1) (fun _ => 0) 0 hv hp hdrop hline hnul
  have hsome := (h.second (fun _ => 0) (fun _ => 0) 0 0).1
  simp only [processRequest, hs, hread, Option.isSome_map] at hsome
  have hlen : name.length ≤ 257 := by
    by_contra hlong
    rw [if_neg hlong] at hsome
    cases hsome
  refine ⟨rfl, hlen, ?_⟩
  intro heq
  subst heq
  rw [if_pos hlen] at hsome
  simp only [openFile, hm, Option.isSome_map] at hsome
  obtain ⟨⟨fs₁, i⟩, hcreate⟩ := Option.isSome_iff_exists.mp hsome
  obtain ⟨pre, hblock, ho⟩ := line_block hdrop
  have hfirst := handle_put_line hp hdrop hline hnul hlen hcreate (fun _ => 0) 0 anyEvent
  have h8 := h.size hblock ho (Nat.succ_pos _) hfirst
  exact ⟨h8, hsome, h.decided hblock ho h8 hfirst⟩

/-! ## Alike from the third event on -/

/-- A client past its line does the same with this buffer and `req_size`: it reads them only
    where they are its own. -/
inductive Alike (c : Client) (b : Mem) (n : Nat) : Prop
  | size {i : Nat} : c.state = .readingSize → c.method = .put → c.fp = some i → c.boffset + 8 ≤ c.bufferSize →
      c.bufferSize ≤ dataSize → (∀ x, x < c.bufferSize → b x = c.buffer x) → Alike c b n
  | data {i : Nat} : c.state = .readingData → c.method = .put → c.fp = some i → c.boffset ≤ c.bufferSize →
      c.bufferSize ≤ dataSize → (∀ x, x < c.bufferSize → b x = c.buffer x) → n = c.reqSize → Alike c b n
  | get {i : Nat} : c.state = .writingResponse → c.errorType = none → c.method = .get → c.fp = some i →
      (0 < c.fileOffset → n = c.reqSize) → Alike c b n
  | reply : c.state = .writingResponse → (c.errorType = none → c.method ≠ .get ∧ c.method ≠ .list) → Alike c b n
  | complete : c.state = .complete → Alike c b n

/-- Writing what is in either buffer. -/
theorem readData_alike (C : Config) (fs : Fs) {i : Nat} (hs : c.state = .readingData) (hm : c.method = .put)
    (hfp : c.fp = some i) (ho : c.boffset ≤ c.bufferSize) (hfit : c.bufferSize ≤ dataSize)
    (hb : ∀ x, x < c.bufferSize → b x = c.buffer x) :
    fileCalls C fs (c.withMemory b c.reqSize) = fileCalls C fs c ∧
    ∃ fs₁ c₁, readData C fs c = some (fs₁, c₁) ∧
      readData C fs (c.withMemory b c.reqSize) = some (fs₁, c₁.withMemory b c.reqSize) ∧ Alike c₁ b c.reqSize := by
  have hleft : sub64 c.bufferSize c.boffset = c.bufferSize - c.boffset :=
    sub64_eq (Nat.lt_of_le_of_lt hfit (by decide)) ho
  have hload : load b c.boffset (min (c.bufferSize - c.boffset) (sub64 c.reqSize c.fileOffset)) =
      load c.buffer c.boffset (min (c.bufferSize - c.boffset) (sub64 c.reqSize c.fileOffset)) :=
    Bytes.load_congr fun x hx => hb _ (by omega)
  have hover : ¬ dataSize < c.boffset + min (c.bufferSize - c.boffset) (sub64 c.reqSize c.fileOffset) := by omega
  refine ⟨?_, ?_⟩
  · unfold fileCalls Client.withMemory
    dsimp only
    rw [hs]
    dsimp only
    rw [hleft, hload]
  · unfold readData Client.withMemory
    simp only [hm, hfp, hleft, hload, hover, Option.map_some, ne_eq, not_true_eq_false, if_false]
    by_cases hempty : c.bufferSize = 0
    · simp only [hempty, if_true]
      exact ⟨_, _, rfl, rfl, .reply rfl (by intro h; cases h)⟩
    · simp only [hempty, if_false]
      split
      · exact ⟨_, _, rfl, rfl, .reply rfl (by intro h; cases h)⟩
      split
      · exact ⟨_, _, rfl, rfl, .reply rfl (by intro h; cases h)⟩
      split
      · exact ⟨_, _, rfl, rfl, .reply rfl fun _ => ⟨(by intro h; cases h), by intro h; cases h⟩⟩
      · refine ⟨_, _, rfl, rfl, .data rfl rfl rfl (Nat.zero_le _) (Nat.zero_le _) ?_ rfl⟩
        exact fun x hx => absurd hx (Nat.not_lt_zero x)

theorem process_alike (C : Config) (fs : Fs) (h : Alike c b n) (e : Event) :
    fileCalls C fs (c.withMemory b n) = fileCalls C fs c ∧
    ∃ fs₁ c₁ sends b₁ n₁, processRequest C fs c e = some (fs₁, c₁, sends) ∧
      processRequest C fs (c.withMemory b n) e = some (fs₁, c₁.withMemory b₁ n₁, sends) ∧ Alike c₁ b₁ n₁ := by
  cases h with
  | size hs hm hfp ho hfit hb =>
    have hload : load b c.boffset 8 = load c.buffer c.boffset 8 := Bytes.load_congr fun x hx => hb _ (by omega)
    refine ⟨by simp only [fileCalls, Client.withMemory, hs], ?_⟩
    simp only [processRequest, readSize, Client.withMemory, hs, hm, hload, if_true, Option.map_some]
    exact ⟨_, _, _, b, _, rfl, rfl, .data rfl rfl hfp ho hfit hb rfl⟩
  | data hs hm hfp ho hfit hb hn =>
    subst hn
    rcases readData_alike C fs hs hm hfp ho hfit hb with ⟨hcalls, fs₁, c₁, hread, hread', halike⟩
    refine ⟨hcalls, fs₁, c₁, [], b, c.reqSize, ?_, ?_, halike⟩
    · simp only [processRequest, hs, hread, Option.map_some]
    · have hs' : (c.withMemory b c.reqSize).state = .readingData := hs
      simp only [processRequest, hs', hread', Option.map_some]
  | @get i hs ht hm hfp hn =>
    have hsize : ∀ j, (if 0 < c.fileOffset then n else C.ftell fs c.filename j) =
        if 0 < c.fileOffset then c.reqSize else C.ftell fs c.filename j := by
      intro j
      split
      · rename_i hpos
        exact hn hpos
      · rfl
    refine ⟨by simp only [fileCalls, Client.withMemory, hs, ht, hm, hfp, hsize], ?_⟩
    simp only [processRequest, writeResponse, sendGetResponse, Client.withMemory, hs, ht, hm, hfp, hsize,
      Option.map_some]
    refine ⟨_, _, _, b, _, rfl, rfl, ?_⟩
    by_cases hlast : (if 0 < c.fileOffset then c.reqSize else C.ftell fs c.filename i) ≤ c.fileOffset +
        (C.fread fs c.filename i c.fileOffset (min (sub64 (if 0 < c.fileOffset then c.reqSize else
          C.ftell fs c.filename i) c.fileOffset) dataSize)).length
    · exact .complete (if_pos hlast)
    · exact .get (if_neg hlast) rfl rfl rfl fun _ => rfl
  | reply hs ht =>
    cases herr : c.errorType with
    | some t =>
      refine ⟨by simp only [fileCalls, Client.withMemory, hs, herr], ?_⟩
      simp only [processRequest, writeResponse, Client.withMemory, hs, herr, Option.map_some]
      exact ⟨_, _, _, b, n, rfl, rfl, .complete rfl⟩
    | none =>
      rcases ht herr with ⟨hget, hlist⟩
      cases hm : c.method with
      | get => exact absurd hm hget
      | list => exact absurd hm hlist
      | put | delete | unknown =>
        refine ⟨by simp only [fileCalls, Client.withMemory, hs, herr, hm], ?_⟩
        simp only [processRequest, writeResponse, Client.withMemory, hs, herr, hm, Option.map_some]
        exact ⟨_, _, _, b, n, rfl, rfl, .complete rfl⟩
  | complete hs =>
    refine ⟨by simp only [fileCalls, Client.withMemory, hs], fs, c, [], b, n, ?_, ?_, .complete hs⟩
    · simp only [processRequest, hs]
    · simp only [processRequest, Client.withMemory, hs]

theorem receive_idle {chunks : List Nat}
    (h : ¬ ((k.client.state = .readingData ∧ k.client.bufferSize = 0) ∨ k.client.state = .readingVerb)) :
    receive k chunks = k := if_neg h

/-- Both buffers get the bytes that are received. -/
theorem receive_alike (h : Alike k.client b n) (chunks : List Nat) :
    ∃ b', receive (k.withMemory b n) chunks = (receive k chunks).withMemory b' n ∧
      Alike (receive k chunks).client b' n := by
  by_cases hread : (k.client.state = .readingData ∧ k.client.bufferSize = 0) ∨ k.client.state = .readingVerb
  swap
  · have hread' : ¬ (((k.withMemory b n).client.state = .readingData ∧ (k.withMemory b n).client.bufferSize = 0) ∨
      (k.withMemory b n).client.state = .readingVerb) := hread
    rw [receive_idle hread, receive_idle hread']
    exact ⟨b, rfl, h⟩
  cases h with
  | @data i hs hm hfp ho hfit hb hn =>
    have hlen := (recvall_append k.nonblocking true dataSize dataSize ⟨chunks, k.stream⟩).2
    have hempty : k.client.bufferSize = 0 := by
      rcases hread with ⟨-, hempty⟩ | hverb
      · exact hempty
      · cases hverb.symm.trans hs
    unfold receive Conn.withMemory Client.withMemory
    dsimp only
    rw [if_pos hread, if_pos hread]
    generalize recvall k.nonblocking dataSize true dataSize ⟨chunks, k.stream⟩ = got at hlen
    refine ⟨store b 0 got.1, rfl, .data hs hm hfp (by dsimp only; omega) hlen ?_ hn⟩
    intro x hx
    have hstore := Bytes.store_at (m := b) (a := 0) hx
    have hbuf := Bytes.store_at (m := k.client.buffer) (a := 0) hx
    rw [Nat.zero_add] at hstore hbuf
    exact hstore.trans hbuf.symm
  | size hs | get hs | reply hs | complete hs => simp [hs] at hread

/-- What is read was received. -/
theorem Alike.received (h : Alike c b n) (hs : c.state.readsBuffer) : c.boffset ≤ c.bufferSize := by
  cases h with
  | size _ _ _ ho => omega
  | data _ _ _ ho => exact ho
  | get h | reply h | complete h =>
    rw [h] at hs
    rcases hs with hs | hs | hs <;> cases hs

theorem handle_alike (C : Config) (fs : Fs) (h : Alike k.client b n) (e : Event) : ∃ fs₁ k₁ b₁ n₁,
    handleClientRequest C (fs, k) e = some (fs₁, k₁) ∧
    handleClientRequest C (fs, k.withMemory b n) e = some (fs₁, k₁.withMemory b₁ n₁) ∧ Alike k₁.client b₁ n₁ := by
  by_cases hc : k.client.state = .complete
  · refine ⟨fs, { k with closed := true }, b, n, if_pos hc, if_pos hc, .complete hc⟩
  · rcases receive_alike h e.chunks with ⟨b', hreceive, hreceived⟩
    rcases process_alike C fs hreceived e with ⟨hcalls, fs₁, c₁, sends, b₁, n₁, hp, hp', halike⟩
    have hc' : ¬ (k.withMemory b n).client.state = .complete := hc
    unfold handleClientRequest
    rw [if_neg hc, if_neg hc', hreceive]
    have hp'' : processRequest C fs ((receive k e.chunks).withMemory b' n).client e = _ := hp'
    have hcalls' : fileCalls C fs ((receive k e.chunks).withMemory b' n).client = _ := hcalls
    simp only [hp, hp'', hcalls', Option.map_some]
    exact ⟨_, _, b₁, n₁, rfl, rfl, halike⟩

theorem handleEvents_alike (C : Config) (dirs : Nat → Fs) (fs : Fs) (h : Alike k.client b n)
    (es : List Event) : ∃ fs₁ k₁ b₁ n₁, handleEvents C dirs es (fs, k) = some (fs₁, k₁) ∧
      handleEvents C dirs es (fs, k.withMemory b n) = some (fs₁, k₁.withMemory b₁ n₁) ∧ Alike k₁.client b₁ n₁ := by
  induction es generalizing dirs fs k b n with
  | nil => exact ⟨fs, k, b, n, rfl, rfl, h⟩
  | cons e es ih =>
    rcases handle_alike C (dirs 0) h e with ⟨fs₁, k₁, b₁, n₁, hk, hk', halike⟩
    unfold handleEvents
    rw [hk, hk']
    exact ih _ _ halike

/-! ## A whole request -/

/-- With its line in the block, what is opened depends on the block only. -/
theorem openFile_alike (C : Config) (fs : Fs) {v : Verb} (name : Text) {o : Nat} (hv : v.named)
    (hr : r.length ≤ dataSize)
    (hput : v = .put → o + 8 ≤ r.length ∧ (C.create fs (path C name)).isSome) : ∃ fs₁, ∃ c₁ : Client, ∀ b n,
    openFile C fs ⟨v, path C name, none, 0, .readingFilename, store b 0 r, r.length, o, n, none⟩ =
      some (fs₁, c₁.withMemory (store b 0 r) n) ∧
    ∀ b' n', Alike (c₁.withMemory (store b 0 r) n) (store b' 0 r) n' := by
  have hsame : ∀ b b' x, x < r.length → store b' 0 r x = store b 0 r x := by
    intro b b' x hx
    have h := Bytes.store_at (m := b) (a := 0) hx
    have h' := Bytes.store_at (m := b') (a := 0) hx
    rw [Nat.zero_add] at h h'
    exact h'.trans h.symm
  rcases hv with rfl | rfl | rfl
  · cases hi : C.inode fs (path C name) with
    | none =>
      refine ⟨fs, ⟨.get, path C name, none, 0, .writingResponse, fun _ => 0, r.length, o, 0, some .noSuchFile⟩, ?_⟩
      intro b n
      refine ⟨by simp only [openFile, hi]; rfl, fun b' n' => .reply rfl (by intro h; cases h)⟩
    | some i =>
      by_cases hacc : C.access fs (path C name) = true
      · refine ⟨fs, ⟨.get, path C name, some i, 0, .writingResponse, fun _ => 0, r.length, o, 0, none⟩, ?_⟩
        intro b n
        refine ⟨by simp only [openFile, hi, hacc, if_true]; rfl, fun b' n' => .get rfl rfl rfl rfl ?_⟩
        exact fun hpos => absurd hpos (Nat.lt_irrefl 0)
      · refine ⟨fs, ⟨.get, path C name, some i, 0, .writingResponse, fun _ => 0, r.length, o, 0, some .noSuchFile⟩, ?_⟩
        intro b n
        refine ⟨by simp only [openFile, hi, hacc]; rfl, fun b' n' => .reply rfl (by intro h; cases h)⟩
  · rcases hput rfl with ⟨hsize, hsome⟩
    rcases Option.isSome_iff_exists.mp hsome with ⟨⟨fs₁, i⟩, hcreate⟩
    refine ⟨fs₁, ⟨.put, path C name, some i, 0, .readingSize, fun _ => 0, r.length, o, 0, none⟩, ?_⟩
    intro b n
    refine ⟨by simp only [openFile, hcreate, Option.map_some]; rfl, ?_⟩
    exact fun b' n' => .size rfl rfl rfl hsize hr (hsame b b')
  · by_cases hacc : C.access fs (path C name) = true
    · refine ⟨C.remove fs (path C name),
        ⟨.delete, path C name, none, 0, .writingResponse, fun _ => 0, r.length, o, 0, none⟩, ?_⟩
      intro b n
      refine ⟨by simp only [openFile, hacc, if_true]; rfl, fun b' n' => .reply rfl fun _ => ⟨?_, ?_⟩⟩
      · intro h
        cases h
      · intro h
        cases h
    · refine ⟨fs, ⟨.delete, path C name, none, 0, .writingResponse, fun _ => 0, r.length, o, 0, some .noSuchFile⟩, ?_⟩
      intro b n
      exact ⟨by simp only [openFile, hacc]; rfl, fun b' n' => .reply rfl (by intro h; cases h)⟩

/-- What the second event comes to, whatever the memory held. -/
structure Second (C : Config) (fs : Fs) (stream : Text) (e : Event) (fs₁ : Fs) (c₁ : Client) (sends : List Send)
    (calls : List FileCall) (b : Mem) (n : Nat) : Prop where
  process : processRequest C fs (verbRead b n stream) e =
    some (fs₁, c₁.withMemory (store b 0 (stream.take dataSize)) n, sends)
  calls : fileCalls C fs (verbRead b n stream) = calls
  received : (verbRead b n stream).state.readsBuffer →
    (verbRead b n stream).boffset ≤ (verbRead b n stream).bufferSize
  alike : ∀ b' n', Alike (c₁.withMemory (store b 0 (stream.take dataSize)) n) (store b' 0 (stream.take dataSize)) n'

section
variable {v : Verb} {name rest : Text} {e : Event}

theorem verbRead_received {ch : UInt8} (hv : v.named) (hp : v.text <+: stream.take dataSize)
    (hdrop : (stream.take dataSize).drop (v.text.length + 1) = name ++ ch :: rest) :
    (verbRead b n stream).boffset ≤ (verbRead b n stream).bufferSize := by
  have hlen := congrArg List.length hdrop
  rw [List.length_drop, List.length_append, List.length_cons] at hlen
  rw [verbRead_named hv hp]
  show v.text.length + 1 ≤ (stream.take dataSize).length
  omega

/-- A NUL comes before any newline. -/
theorem second_noLine (hv : v.named) (hp : v.text <+: stream.take dataSize)
    (hdrop : (stream.take dataSize).drop (v.text.length + 1) = name ++ 0 :: rest) (hline : newline ∉ name)
    (hnul : 0 ∉ name) : ∃ fs₁ c₁ sends calls, ∀ b n, Second C fs stream e fs₁ c₁ sends calls b n := by
  have hnone := fun b => strchr_noLine b hdrop hline hnul
  refine ⟨fs, ⟨v, [], none, 0, .writingResponse, fun _ => 0, (stream.take dataSize).length, v.text.length + 1, 0,
    some .badRequest⟩, [], [], ?_⟩
  intro b n
  refine ⟨?_, ?_, fun _ => verbRead_received hv hp hdrop, fun b' n' => .reply rfl (by intro h; cases h)⟩
  · rw [verbRead_named hv hp]
    simp only [processRequest, readFilename, hnone, Option.bind_some, Option.map_some]
    rfl
  · rw [verbRead_named hv hp]
    exact fileCalls_noLine rfl (hnone b)

theorem second_line (hv : v.named) (hp : v.text <+: stream.take dataSize)
    (hdrop : (stream.take dataSize).drop (v.text.length + 1) = name ++ newline :: rest) (hline : newline ∉ name)
    (hnul : 0 ∉ name) (hshort : name.length ≤ 257)
    (hput : v = .put → 8 ≤ rest.length ∧ (C.create fs (path C name)).isSome) :
    ∃ fs₁ c₁ sends calls, ∀ b n, Second C fs stream e fs₁ c₁ sends calls b n := by
  have hlen := congrArg List.length hdrop
  rw [List.length_drop, List.length_append, List.length_cons] at hlen
  have hrle : (stream.take dataSize).length ≤ dataSize := by
    rw [List.length_take]
    exact Nat.min_le_left _ _
  obtain ⟨pre, hsplit, hpre, hfit⟩ := block_line hdrop
  obtain ⟨fs₁, c₁, hopen⟩ := openFile_alike C fs name (o := v.text.length + 1 + name.length + 1) hv hrle
    (fun hv' => ⟨by have := (hput hv').1; omega, (hput hv').2⟩)
  refine ⟨fs₁, c₁, [], fileCalls C fs (verbRead (fun _ => 0) 0 stream), ?_⟩
  intro b n
  obtain ⟨hs, -, hfile⟩ := verbRead_line C fs b n hv hp hdrop hline hnul
  rw [if_pos hshort] at hfile
  refine ⟨?_, ?_, fun _ => verbRead_received hv hp hdrop, (hopen b n).2⟩
  · simp only [processRequest, hs, hfile]
    rw [verbRead_named hv hp, (hopen b n).1]
    rfl
  · have hstrchr := fun b => strchr_line b rest hline hnul hfit
    rw [← hsplit, hpre] at hstrchr
    rw [verbRead_named hv hp, verbRead_named hv hp]
    simp only [fileCalls, (hstrchr _).1, Nat.add_sub_cancel_left, (hstrchr _).2]

theorem second_list (hlist : Verb.list.text <+: stream.take dataSize) (hfit : listingSize (fs.names C) < 2 ^ 63) :
    ∃ fs₁ c₁ sends calls, ∀ b n, Second C fs stream e fs₁ c₁ sends calls b n := by
  obtain ⟨⟨data, size⟩, hdata⟩ := Option.isSome_iff_exists.mp (listResponse_isSome (e := e) hfit)
  refine ⟨fs, ⟨.list, [], none, 0, .complete, fun _ => 0, (stream.take dataSize).length, 0, 0, none⟩,
    [.status okLine, .payload (leEncode 8 (if size ≠ 0 then size - 1 else size)),
      .payload (data.take (if size ≠ 0 then size - 1 else size))], [.readdir], ?_⟩
  intro b n
  have hread : verbRead b n stream = ⟨.list, [], none, 0, .writingResponse, store b 0 (stream.take dataSize),
      (stream.take dataSize).length, 0, n, none⟩ := by
    rw [verbRead_verb (by decide) (startsWith_received hlist), if_pos rfl]
  refine ⟨?_, by rw [hread]; rfl, ?_, fun b' n' => .complete rfl⟩
  · rw [hread]
    simp only [processRequest, writeResponse, hdata, Option.map_some]
    rfl
  · intro hs
    rw [hread] at hs
    rcases hs with hs | hs | hs <;> cases hs

theorem second_bad (h : ∀ v : Verb, v ≠ .unknown → ¬ v.text <+: stream.take dataSize)
    (hr : ∀ v : Verb, v ≠ .unknown → stream.take dataSize <+: v.text → stream.take dataSize = v.text) :
    ∃ fs₁ c₁ sends calls, ∀ b n, Second C fs stream e fs₁ c₁ sends calls b n := by
  refine ⟨fs, ⟨.unknown, [], none, 0, .complete, fun _ => 0, (stream.take dataSize).length, 0, 0, some .badRequest⟩,
    [.status (errorLine ++ C.errText .badRequest)], [], ?_⟩
  intro b n
  have hread := verbRead_bad (b := b) (n := n) fun v hv hs => h v hv ((startsWith_iff (hr v hv)).mp hs)
  refine ⟨by rw [hread]; rfl, by rw [hread]; rfl, ?_, fun b' n' => .complete rfl⟩
  intro hs
  rw [hread] at hs
  rcases hs with hs | hs | hs <;> cases hs

end

theorem WholeRequest.second (h : WholeRequest C fs stream) (e : Event) :
    ∃ fs₁ c₁ sends calls, ∀ b n, Second C fs stream e fs₁ c₁ sends calls b n := by
  by_cases hverb : ∃ v : Verb, v.named ∧ v.text <+: stream.take dataSize
  · obtain ⟨v, hv, hp⟩ := hverb
    rcases h.line v hv hp with ⟨name, ch, rest, hdrop, hline, hnul, rfl | ⟨rfl, hshort, hput⟩⟩
    · exact second_noLine hv hp hdrop hline hnul
    · exact second_line hv hp hdrop hline hnul hshort fun hv' => ⟨(hput hv').1, (hput hv').2.1⟩
  by_cases hlist : Verb.list.text <+: stream.take dataSize
  · exact second_list hlist (h.list hlist)
  · apply second_bad _ h.verb
    intro v hv hp
    rcases Verb.named_or_list hv with hnamed | rfl
    · exact hverb ⟨v, hnamed, hp⟩
    · exact hlist hp

theorem handleEvents_two {e e' : Event} {es : List Event} {fs₁ : Fs} {c₁ : Client} {sends : List Send}
    (h : processRequest C (dirs 1) (verbRead b n stream) e' = some (fs₁, c₁, sends)) :
    handleEvents C dirs (e :: e' :: es) (fs, usedConnection b n stream) =
      handleEvents C (fun i => dirs (i + 2)) es (fs₁,
      { usedRead b n stream with client := c₁, sends, calls := fileCalls C (dirs 1) (verbRead b n stream) }) := by
  rw [handleEvents_cons, handle_used, Option.bind_some, handleEvents_cons, handle_usedRead, h, Option.map_some,
    Option.bind_some]

theorem WholeRequest.alike (h : WholeRequest C (dirs 1) stream) (b b' : Mem) (n n' : Nat) (es : List Event) :
    ∃ fs k k', handleEvents C dirs es (dirs 0, usedConnection b n stream) = some (fs, k) ∧
      handleEvents C dirs es (dirs 0, usedConnection b' n' stream) = some (fs, k') ∧
      k'.calls = k.calls ∧ k'.sends = k.sends ∧ k'.closed = k.closed := by
  cases es with
  | nil => exact ⟨_, _, _, rfl, rfl, rfl, rfl, rfl⟩
  | cons e es =>
  cases es with
  | nil =>
    refine ⟨dirs 0, usedRead b n stream, usedRead b' n' stream, ?_, ?_, rfl, rfl, rfl⟩
    · rw [handleEvents_cons, handle_used]
      rfl
    · rw [handleEvents_cons, handle_used]
      rfl
  | cons e' es =>
    rcases h.second e' with ⟨fs₁, c₁, sends, calls, hsecond⟩
    rcases hsecond b n with ⟨hp, hcalls, -, halike⟩
    rcases hsecond b' n' with ⟨hp', hcalls', -, -⟩
    rw [handleEvents_two hp, handleEvents_two hp', hcalls, hcalls']
    rcases handleEvents_alike C (fun i => dirs (i + 2)) fs₁ (k := { usedRead b n stream with
      client := c₁.withMemory (store b 0 (stream.take dataSize)) n, sends, calls }) (halike b' n') es with
      ⟨fs₂, k₂, b₂, n₂, hk, hk', -⟩
    exact ⟨fs₂, k₂, _, hk, hk', rfl, rfl, rfl⟩

theorem WholeRequest.received (h : WholeRequest C (dirs 1) stream) {es : List Event} {e : Event}
    (hk : handleEvents C dirs es (dirs 0, usedConnection b n stream) = some (fs, k))
    (hs : (receive k e.chunks).client.state.readsBuffer) :
    (receive k e.chunks).client.boffset ≤ (receive k e.chunks).client.bufferSize := by
  cases es with
  | nil =>
    cases hk
    rw [receive_used] at hs
    rcases hs with hs | hs | hs <;> cases hs
  | cons e₀ es =>
  cases es with
  | nil =>
    rw [handleEvents_cons, handle_used] at hk
    cases hk
    rcases h.second e with ⟨fs₁, c₁, sends, calls, hsecond⟩
    rw [receive_idle (usedRead_idle b n stream).2] at hs ⊢
    exact (hsecond b n).received hs
  | cons e' es =>
    rcases h.second e' with ⟨fs₁, c₁, sends, calls, hsecond⟩
    rcases hsecond b n with ⟨hp, hcalls, -, halike⟩
    rw [handleEvents_two hp, hcalls] at hk
    rcases handleEvents_alike C (fun i => dirs (i + 2)) fs₁ (k := { usedRead b n stream with
      client := c₁.withMemory (store b 0 (stream.take dataSize)) n, sends, calls }) (halike b n) es with
      ⟨fs₂, k₂, b₂, n₂, hk₂, -, halike₂⟩
    cases hk.symm.trans hk₂
    rcases receive_alike halike₂ e.chunks with ⟨b₃, -, halike₃⟩
    exact halike₃.received hs

/-! ## However the bytes arrive -/

/-- A whole request whose name is to be read has a line. -/
theorem WholeRequest.named (h : WholeRequest C fs stream) (hs : (verbRead b n stream).state = .readingFilename) :
    ∃ v : Verb, v.named ∧ v.text <+: stream.take dataSize := by
  by_cases hverb : ∃ v : Verb, v ≠ .unknown ∧ startsWith (store b 0 (stream.take dataSize)) v.text = true
  · obtain ⟨v, hv, hstart⟩ := hverb
    have hp := (startsWith_iff (h.verb v hv)).mp hstart
    rcases Verb.named_or_list hv with hnamed | rfl
    · exact ⟨v, hnamed, hp⟩
    · rw [verbRead_verb hv hstart, if_pos rfl] at hs
      cases hs
  · rw [verbRead_bad fun v hv hstart => hverb ⟨v, hv, hstart⟩] at hs
    cases hs

/-- Only an upload is not answered next. -/
theorem openFile_place {v : Verb} {fs' : Fs} {c' : Client} (hv : v.named) (hput : v ≠ .put) (hm : c.method = v)
    (h : openFile C fs c = some (fs', c')) : 4 ≤ c'.state.place := by
  have hwriting : c'.state = .writingResponse := by
    subst hm
    unfold openFile at h
    rcases hv with hget | hput' | hdelete
    · rw [hget] at h
      dsimp only at h
      split at h
      · cases h
        rfl
      · split at h <;> cases h <;> rfl
    · exact absurd hput' hput
    · rw [hdelete] at h
      dsimp only at h
      split at h <;> cases h <;> rfl
  rw [hwriting]
  exact Nat.le_refl 4

/-- After its second event a connection reads no more, or is an upload with one outcome. -/
theorem WholeRequest.settles (h : WholeRequest C fs stream) (b : Mem) (n : Nat) (e : Event) :
    ∃ fs₁ k₁, handleClientRequest C (fs, usedRead b n stream) e = some (fs₁, k₁) ∧
      (4 ≤ k₁.client.state.place ∨ ∃ D S, Behaves C D S k₁) := by
  obtain ⟨fs₁, c₁, sends, calls, hsecond⟩ := h.second e
  have hk : handleClientRequest C (fs, usedRead b n stream) e = _ := handle_usedRead
  rw [(hsecond b n).process, Option.map_some] at hk
  refine ⟨_, _, hk, ?_⟩
  rcases verbRead_state b n stream with hs | hs
  swap
  · have hplace := (handle_onward hk).place
    have hwriting : (usedRead b n stream).client.state = .writingResponse := hs
    rw [hwriting] at hplace
    exact Or.inl hplace
  obtain ⟨v, hv, hp⟩ := h.named hs
  obtain ⟨name, ch, rest, hdrop, hline, hnul, hch⟩ := h.line v hv hp
  have hproc := (hsecond b n).process
  rw [processRequest, hs] at hproc
  obtain ⟨⟨fs₂, c₂⟩, hread, he⟩ := Option.map_eq_some_iff.mp hproc
  cases he
  rcases hch with rfl | ⟨rfl, hshort, hput⟩
  · apply Or.inl
    rw [verbRead_named hv hp] at hread
    simp only [readFilename, strchr_noLine b hdrop hline hnul, Option.bind_some, Option.some.injEq,
      Prod.mk.injEq] at hread
    rw [← hread.2]
    exact Nat.le_refl 4
  · by_cases hupload : v = .put
    · subst hupload
      obtain ⟨h8, hsome, hdecided⟩ := hput rfl
      obtain ⟨⟨fs₃, i⟩, hcreate⟩ := Option.isSome_iff_exists.mp hsome
      obtain ⟨pre, hblock, ho⟩ := line_block hdrop
      have hfirst := handle_put_line hp hdrop hline hnul hshort hcreate b n e
      rw [(Prod.mk.inj (Option.some.inj (hk.symm.trans hfirst))).2]
      exact Or.inr (hdecided.behaves hblock ho h8)
    · obtain ⟨-, hm, hfile⟩ := verbRead_line C fs b n hv hp hdrop hline hnul
      rw [if_pos hshort, hread] at hfile
      refine Or.inl (openFile_place hv hupload ?_ hfile.symm)
      exact hm

theorem WholeRequest.anyhow (h : WholeRequest C (dirs 1) stream) {es es' : List Event} {fs' : Fs} {k' : Conn}
    (horder : es.map (·.readdir) = es'.map (·.readdir))
    (hk : handleEvents C dirs es (dirs 0, usedConnection b n stream) = some (fs, k))
    (hk' : handleEvents C dirs es' (dirs 0, usedConnection b n stream) = some (fs', k')) :
    (k.Behind k' ∨ k'.Behind k) ∧ (k.client.state = .complete → k'.Behind k) := by
  have hsame : ∀ s : Option (Fs × Conn), s = some (fs, k) → s = some (fs', k') →
      (k.Behind k' ∨ k'.Behind k) ∧ (k.client.state = .complete → k'.Behind k) := by
    intro s hs hs'
    cases hs.symm.trans hs'
    exact ⟨Or.inl (.refl k), fun _ => .refl k⟩
  cases es with
  | nil =>
    cases List.map_eq_nil_iff.mp horder.symm
    exact hsame _ hk hk'
  | cons e es =>
  cases es' with
  | nil => cases horder
  | cons e' es' =>
  rw [List.map_cons, List.map_cons, List.cons.injEq] at horder
  rw [handleEvents_cons, handle_used, Option.bind_some] at hk hk'
  cases es with
  | nil =>
    cases List.map_eq_nil_iff.mp horder.2.symm
    exact hsame _ hk hk'
  | cons e₁ es =>
  cases es' with
  | nil => cases horder.2
  | cons e₁' es' =>
  obtain ⟨-, horder⟩ := horder
  rw [List.map_cons, List.map_cons, List.cons.injEq] at horder
  obtain ⟨fs₁, k₁, hsecond, hsettles⟩ := h.settles b n e₁
  have hsecond' := (handle_idle (usedRead_idle b n stream).2 horder.1).symm.trans hsecond
  rw [handleEvents_cons, hsecond, Option.bind_some] at hk
  rw [handleEvents_cons, hsecond', Option.bind_some] at hk'
  rcases hsettles with hplace | ⟨D, S, hbehaves⟩
  · rw [handleEvents_idle hplace horder.2] at hk
    exact hsame _ hk hk'
  · obtain ⟨fs₂, k₂, hrun, hupto⟩ := hbehaves _ fs₁ es
    obtain ⟨fs₃, k₃, hrun', hupto'⟩ := hbehaves _ fs₁ es'
    cases hk.symm.trans hrun
    cases hk'.symm.trans hrun'
    exact hupto.behind hupto'

theorem WholeRequest.determined (h : WholeRequest C (dirs 1) stream) : Determined C dirs stream where
  alike := h.alike
  anyhow b b' n n' es es' horder fs fs' k k' hk hk' := by
    obtain ⟨fs₂, k₂, k₃, hk₂, hk₃, hcalls, hsends, -⟩ := h.alike b b' n n' es'
    cases hk'.symm.trans hk₃
    have hbehind := h.anyhow horder hk hk₂
    have hdeeds : k'.deeds = k₂.deeds := congrArg (List.flatMap FileCall.deeds) hcalls
    have hto : k.Behind k₂ → k.Behind k' := fun hle => ⟨hdeeds ▸ hle.deeds, hsends ▸ hle.sends⟩
    have hfrom : k₂.Behind k → k'.Behind k := fun hle => ⟨hdeeds ▸ hle.deeds, hsends ▸ hle.sends⟩
    exact ⟨hbehind.1.imp hto hfrom, fun hc => hfrom (hbehind.2 hc)⟩
  received _ _ _ _ _ _ hk hs := h.received hk hs

/-- A connection does what its client's bytes say, whatever its memory held and however they
    arrive, exactly when they are a whole request. -/
theorem determined_iff : Determined C dirs stream ↔ WholeRequest C (dirs 1) stream :=
  ⟨Determined.whole, WholeRequest.determined⟩

/-- The client sends one byte, and what was in the buffer names a file. -/
theorem served_by_leftovers :
    (handleEvents sampleConfig (fun _ => Fs.empty) [anyEvent, anyEvent]
      (Fs.empty, usedConnection (fun _ => 0) 0 (ascii ['G']))).map (fun s => (s.2.calls, s.2.sends)) =
        some ([], [.status (errorLine ++ sampleConfig.errText .badRequest)]) ∧
    (handleEvents sampleConfig (fun _ => Fs.empty) [anyEvent, anyEvent] (Fs.empty,
      usedConnection (store (fun _ => 0) 0 (requestLine (ascii ['G', 'E', 'T']) (ascii ['x']))) 0 (ascii ['G']))).map
        (fun s => (s.2.calls, s.2.sends)) = some ([.fopenRb (path sampleConfig (ascii ['x']))], []) ∧
    ¬ Determined sampleConfig (fun _ => Fs.empty) (ascii ['G']) := by
  refine ⟨by decide +kernel, by decide +kernel, ?_⟩
  intro h
  exact absurd (h.verb (v := .get) (by decide) (by decide)) (by decide)

end SysProg.Net
