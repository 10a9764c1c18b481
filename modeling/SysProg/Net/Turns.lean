/-
  SysProg.Net.Turns — nonstop_networking/server.c: all that an event of a connection can be.

  A connection whose client sends a whole request to put, get or delete a file is doing one
  of a few things (`Doing`), which say what it has of a file in the terms of `InPlace`: it
  has written a first part of its contents, or all, or has sent a first part of a file. An
  event leaves the files, opens a file to write, writes more to it or the last, or sends the
  first or another part of one (`Doing.turn`), whatever the other connections did before.
-/

import SysProg.Lib.InPlace
import SysProg.Net.Refusal

namespace SysProg.Net

open InPlace (Role)
open SysProg.Bytes (Mem leEncode)

inductive WholeFile : Text → Prop
  | put {name contents : Text} : FileName name → contents.length < 2 ^ 63 →
      WholeFile (putStream name contents.length contents)
  | get {name : Text} : FileName name → WholeFile (requestLine (ascii ['G', 'E', 'T']) name)
  | delete {name : Text} : FileName name → WholeFile (requestLine (ascii ['D', 'E', 'L', 'E', 'T', 'E']) name)

/-- It is a GET that has its file open and has sent nothing. -/
def Client.Begins (c : Client) : Prop :=
  c.state = .writingResponse ∧ c.method = .get ∧ c.errorType = none ∧ c.fileOffset = 0

instance (c : Client) : Decidable c.Begins := inferInstanceAs (Decidable (_ ∧ _))

/-! ## What a connection is doing -/

variable {C : Config} {fs fs' : Fs} {c : Client} {k k' : Conn} {b : Mem} {e : Event} {name contents input : Text}
  {i n w : Nat}
  {r r' : Role Nat UInt8} {of of' : Nat → Text → Prop}

/-- Its reply is one line, to be sent or sent. -/
structure OneLine (error : Option ErrorType) (method : Verb) (k : Conn) : Prop where
  errorType : k.client.errorType = error
  method : k.client.method = method
  state : k.client.state = .writingResponse ∧ k.sends = [] ∨
    k.client.state = .complete ∧ (error ≠ none → errorLine <+: k.sent)

/-- A GET that has sent the size and a first part of the file. -/
structure Sending (i size : Nat) (got : Text) (k : Conn) : Prop where
  method : k.client.method = .get
  errorType : k.client.errorType = none
  fp : k.client.fp = some i
  reqSize : k.client.reqSize = size
  fileOffset : k.client.fileOffset = got.length
  state : k.client.state = if size ≤ got.length then .complete else .writingResponse
  begun : got.length < size → 0 < got.length
  bound : size < 2 ^ 63
  sent : k.sent = okLine ++ leEncode 8 size ++ got

/-- From the first event to the last, with what it does to a file; `of` says which file is of
    which path. -/
inductive Doing (C : Config) (of : Nat → Text → Prop) : Text → Conn → Role Nat UInt8 → Prop
  | fresh {input : Text} {b : Mem} : WholeFile input → Doing C of input (newConnection b input) .idle
  | named {input : Text} {b : Mem} : WholeFile input → Doing C of input (firstRead b input) .idle
  | size {name contents : Text} {b : Mem} {i : Nat} {calls : List FileCall} : FileName name →
      contents.length < 2 ^ 63 → of i (path C name) → Doing C of (putStream name contents.length contents)
        (putConn C b name (putStream name contents.length contents) i .readingSize (name.length + 5) 0 calls)
        (.writing i contents 0)
  | first {name contents : Text} {b : Mem} {i : Nat} {calls : List FileCall} : FileName name →
      contents.length < 2 ^ 63 → of i (path C name) → Doing C of (putStream name contents.length contents)
        (putConn C b name (putStream name contents.length contents) i .readingData (name.length + 5 + 8)
          contents.length calls)
        (.writing i contents 0)
  | upload {name contents : Text} {i w : Nat} {k : Conn} : FileName name → contents.length < 2 ^ 63 →
      of i (path C name) → Uploading (path C name) i contents.length w k → k.stream = contents.drop w →
      w < contents.length → Doing C of (putStream name contents.length contents) k (.writing i contents w)
  | stored {name contents : Text} {i : Nat} {k : Conn} : contents.length < 2 ^ 63 → of i (path C name) →
      OneLine none .put k → Doing C of (putStream name contents.length contents) k (.wrote i contents)
  | opened {name : Text} {i : Nat} {k : Conn} : of i (path C name) → k.client.Begins → k.client.fp = some i →
      C.directory k.client.filename i = none → k.sends = [] →
      Doing C of (requestLine (ascii ['G', 'E', 'T']) name) k .idle
  | sending {name got : Text} {i size : Nat} {k : Conn} : of i (path C name) →
      C.directory k.client.filename i = none → Sending i size got k →
      Doing C of (requestLine (ascii ['G', 'E', 'T']) name) k (.reading i size got)
  | missing {name : Text} {k : Conn} : OneLine (some .noSuchFile) .get k →
      Doing C of (requestLine (ascii ['G', 'E', 'T']) name) k .idle
  | deleting {name : Text} {error : Option ErrorType} {k : Conn} : OneLine error .delete k →
      Doing C of (requestLine (ascii ['D', 'E', 'L', 'E', 'T', 'E']) name) k .idle

theorem Doing.mono (h : Doing C of input k r) (hof : ∀ i p, of i p → of' i p) : Doing C of' input k r := by
  cases h with
  | fresh hw => exact .fresh hw
  | named hw => exact .named hw
  | size hv hmax hi => exact .size hv hmax (hof _ _ hi)
  | first hv hmax hi => exact .first hv hmax (hof _ _ hi)
  | upload hv hmax hi hup hstream hw => exact .upload hv hmax (hof _ _ hi) hup hstream hw
  | stored hmax hi ha => exact .stored hmax (hof _ _ hi) ha
  | opened hi hb hfp hfile hs => exact .opened (hof _ _ hi) hb hfp hfile hs
  | sending hi hfile hs => exact .sending (hof _ _ hi) hfile hs
  | missing ha => exact .missing ha
  | deleting ha => exact .deleting ha

/-- A PUT that writes a file uses it. -/
theorem Doing.writes {i : Nat} {whole : Text} {n : Nat} (h : Doing C of input k (.writing i whole n)) :
    k.client.fp = some i ∧ (k.client.state = .readingSize ∨ k.client.state = .readingData) ∧ ∃ p, of i p := by
  cases h with
  | size _ _ hi => exact ⟨rfl, Or.inl rfl, _, hi⟩
  | first _ _ hi => exact ⟨rfl, Or.inr rfl, _, hi⟩
  | upload _ _ hi hup => exact ⟨hup.fp, Or.inr hup.state, _, hi⟩

/-- So does a GET that is half through. -/
theorem Doing.reads {i size : Nat} {got : Text} (h : Doing C of input k (.reading i size got))
    (hlt : got.length < size) :
    k.client.fp = some i ∧
      (k.client.state = .writingResponse ∧ k.client.method = .get ∧ 0 < k.client.fileOffset) ∧ ∃ p, of i p := by
  cases h with
  | sending hi _ hs =>
    refine ⟨hs.fp, ⟨hs.state.trans (if_neg (Nat.not_le.mpr hlt)), hs.method, ?_⟩, _, hi⟩
    rw [hs.fileOffset]
    exact hs.begun hlt

/-- A PUT that has written all is complete. -/
theorem Doing.wrote {i : Nat} {whole : Text} (h : Doing C of input k (.wrote i whole)) :
    ∃ name, input = putStream name whole.length whole ∧ whole.length < 2 ^ 63 ∧ of i (path C name) ∧
      4 ≤ k.client.state.place ∧ k.client.errorType = none := by
  cases h with
  | @stored name _ _ _ hmax hi ha =>
    refine ⟨name, rfl, hmax, hi, ?_, ha.errorType⟩
    rcases ha.state with ⟨hs, -⟩ | ⟨hs, -⟩ <;> rw [hs] <;> decide

/-! ## The replies, event by event -/

/-- A reply that is one line. -/
theorem OneLine.handle {error : Option ErrorType} {method : Verb} (h : OneLine error method k)
    (hreply : error ≠ none ∨ method = .put ∨ method = .delete)
    (hk : handleClientRequest C (fs, k) e = some (fs', k')) : fs' = fs ∧ OneLine error method k' := by
  rcases h.state with ⟨hs, hsends⟩ | ⟨hs, hsent⟩
  · rw [handle_response hs] at hk
    obtain ⟨⟨c, sends⟩, hw, he⟩ := Option.map_eq_some_iff.mp hk
    cases he
    obtain ⟨-, hte, hme, -⟩ := writeResponse_same hw
    refine ⟨rfl, hte.trans h.errorType, hme.trans h.method, Or.inr ?_⟩
    unfold writeResponse at hw
    rw [h.errorType, h.method] at hw
    cases error with
    | some t =>
      cases hw
      refine ⟨rfl, fun _ => ?_⟩
      rw [Conn.sent, hsends]
      exact error_answered rfl
    | none =>
      rcases hreply with hne | rfl | rfl
      · exact absurd rfl hne
      · cases hw
        exact ⟨rfl, fun hne => absurd rfl hne⟩
      · cases hw
        exact ⟨rfl, fun hne => absurd rfl hne⟩
  · rw [handle_complete hs] at hk
    cases hk
    exact ⟨rfl, h.errorType, h.method, Or.inr ⟨hs, hsent⟩⟩

/-- The first event of a GET that sends. -/
theorem Sending.begins (hb : k.client.Begins) (hfp : k.client.fp = some i)
    (hfile : C.directory k.client.filename i = none) (hsends : k.sends = []) (hmax : (fs.data i).length < 2 ^ 63)
    (hk : handleClientRequest C (fs, k) e = some (fs', k')) :
    fs' = fs ∧ k'.client.filename = k.client.filename ∧
      Sending i (fs.data i).length ((fs.data i).take dataSize) k' := by
  obtain ⟨hs, hm, ht, hoff⟩ := hb
  have hsub : sub64 (fs.data i).length 0 = (fs.data i).length :=
    sub64_eq (Nat.lt_of_lt_of_le hmax (by decide)) (Nat.zero_le _)
  have htake : (fs.data i).take (min (fs.data i).length dataSize) = (fs.data i).take dataSize := by
    rw [List.take_eq_take_iff]
    omega
  rw [handle_response hs] at hk
  simp only [writeResponse, ht, hm, sendGetResponse, hfp, hoff, ftell_file hfile, fread_file hfile, ftell_eq hmax, hsub,
    htake, Nat.lt_irrefl, if_false, Option.map_some, List.drop_zero, Nat.zero_add, Option.some.injEq,
    Prod.mk.injEq] at hk
  obtain ⟨rfl, rfl⟩ := hk
  refine ⟨rfl, rfl, rfl, rfl, rfl, rfl, rfl, rfl, ?_, hmax, ?_⟩
  · intro hlt
    rw [List.length_take] at hlt ⊢
    unfold dataSize at *
    omega
  · simp only [Conn.sent, hsends, List.nil_append, List.cons_append, sentBy_cons, sentBy_nil, Send.text,
      List.append_nil, List.append_assoc]

/-- The other events. -/
theorem Sending.next {size : Nat} {got : Text} (h : Sending i size got k)
    (hfile : C.directory k.client.filename i = none) (hlt : got.length < size)
    (hk : handleClientRequest C (fs, k) e = some (fs', k')) : fs' = fs ∧ k'.client.filename = k.client.filename ∧
    Sending i size (got ++ ((fs.data i).drop got.length).take (min (size - got.length) dataSize)) k' := by
  have hs : k.client.state = .writingResponse := h.state.trans (if_neg (Nat.not_le.mpr hlt))
  have hpos := h.begun hlt
  have hsub : sub64 size got.length = size - got.length :=
    sub64_eq (Nat.lt_of_lt_of_le h.bound (by decide)) (Nat.le_of_lt hlt)
  rw [handle_response hs] at hk
  simp only [writeResponse, h.errorType, h.method, sendGetResponse, h.fp, h.fileOffset, h.reqSize, hpos, hsub,
    fread_file hfile, if_true, Option.map_some, List.nil_append, Option.some.injEq, Prod.mk.injEq] at hk
  obtain ⟨rfl, rfl⟩ := hk
  refine ⟨rfl, rfl, rfl, rfl, rfl, rfl, List.length_append.symm, ?_, ?_, h.bound, ?_⟩
  · rw [List.length_append]
  · intro _
    rw [List.length_append]
    omega
  · have hsent := h.sent
    simp only [Conn.sent, sentBy_append, sentBy_cons, sentBy_nil, Send.text, List.append_nil] at hsent ⊢
    rw [hsent, List.append_assoc]

theorem Sending.done {size : Nat} {got : Text} (h : Sending i size got k) (hle : size ≤ got.length)
    (hk : handleClientRequest C (fs, k) e = some (fs', k')) : fs' = fs ∧ k'.client.filename = k.client.filename ∧
    Sending i size got k' := by
  rw [handle_complete (h.state.trans (if_pos hle))] at hk
  cases hk
  exact ⟨rfl, rfl, h.method, h.errorType, h.fp, h.reqSize, h.fileOffset, h.state, h.begun, h.bound, h.sent⟩

/-! ## The name of a GET or DELETE -/

/-- A GET opens the file that the name has, which nothing is sent of yet. -/
theorem handle_get_name (hv : FileName name)
    (hk : handleClientRequest C (fs, firstRead b (requestLine (ascii ['G', 'E', 'T']) name)) e = some (fs', k')) :
    fs' = fs ∧ match fs.inode (path C name) with
      | none => OneLine (some .noSuchFile) .get k'
      | some i => k'.client.Begins ∧ k'.client.fp = some i ∧ C.directory k'.client.filename i = none ∧
          k'.sends = [] := by
  rw [firstRead_get hv] at hk
  cases hi : fs.inode (path C name) with
  | none =>
    have hopen := hk.symm.trans (handle_filename rfl hv rfl rfl (by decide)
      ((openFile_get hv rfl rfl).trans (by rw [hi])))
    cases hopen
    exact ⟨rfl, rfl, rfl, Or.inl ⟨rfl, rfl⟩⟩
  | some i =>
    have hopen := hk.symm.trans (handle_filename rfl hv rfl rfl (by decide)
      ((openFile_get hv rfl rfl).trans (by rw [hi])))
    cases hopen
    exact ⟨rfl, ⟨rfl, rfl, rfl, rfl⟩, rfl, hv.isFile, rfl⟩

/-- A DELETE removes the name, when there is one. -/
theorem handle_delete_name (hv : FileName name)
    (hk : handleClientRequest C (fs, firstRead b (requestLine (ascii ['D', 'E', 'L', 'E', 'T', 'E']) name)) e =
      some (fs', k')) :
    (fs' = fs ∨ fs' = fs.remove (path C name)) ∧ ∃ error, OneLine error .delete k' := by
  rw [firstRead_delete hv] at hk
  cases hi : fs.inode (path C name) with
  | none =>
    have hopen := hk.symm.trans (handle_filename rfl hv rfl rfl (by decide)
      ((openFile_delete hv rfl rfl).trans (by rw [hi])))
    cases hopen
    exact ⟨Or.inl rfl, _, rfl, rfl, Or.inl ⟨rfl, rfl⟩⟩
  | some i =>
    have hopen := hk.symm.trans (handle_filename rfl hv rfl rfl (by decide)
      ((openFile_delete hv rfl rfl).trans (by rw [hi])))
    cases hopen
    exact ⟨Or.inr rfl, _, rfl, rfl, Or.inl ⟨rfl, rfl⟩⟩

/-! ## One event of a connection -/

/-- What an event does to the files, and what the connection then does. Only the one that opens
    a file to write comes to READING_SIZE. -/
inductive Turn (C : Config) (of : Nat → Text → Prop) (input : Text) (fs : Fs) (k : Conn) (r : Role Nat UInt8)
    (fs' : Fs) (k' : Conn) : Prop
  | still : fs'.data = fs.data → fs'.next = fs.next → (∀ p i, fs'.inode p = some i → fs.inode p = some i) →
      k'.client.state ≠ .readingSize → Doing C of input k' r → Turn C of input fs k r fs' k'
  | opens {p contents : Text} : r = .idle → .fopenWb p ∈ fileCalls C fs k.client → fs' = (fs.create p).1 →
      k'.client.state = .readingSize → k'.client.fp = some (fs.create p).2 →
      (∀ of' : Nat → Text → Prop, of' (fs.create p).2 p → Doing C of' input k' (.writing (fs.create p).2 contents 0)) →
      Turn C of input fs k r fs' k'
  | writes {i : Nat} {whole : Text} {n : Nat} (part rest : Text) : r = .writing i whole n →
      whole.drop n = part ++ rest → fs' = fs.append i part → k'.client.state ≠ .readingSize →
      Doing C of input k' (.writing i whole (n + part.length)) → Turn C of input fs k r fs' k'
  | stores {i : Nat} {whole : Text} {n : Nat} : r = .writing i whole n → fs' = fs.append i (whole.drop n) →
      k'.client.state ≠ .readingSize → Doing C of input k' (.wrote i whole) → Turn C of input fs k r fs' k'
  | begins {i : Nat} : r = .idle → k.client.Begins → k.client.fp = some i →
      ((fs.data i).length < 2 ^ 63 → fs' = fs ∧ k'.client.state ≠ .readingSize ∧
        Doing C of input k' (.reading i (fs.data i).length ((fs.data i).take dataSize))) →
      Turn C of input fs k r fs' k'
  | sends {i size : Nat} {got : Text} (n : Nat) : r = .reading i size got → got.length < size → fs' = fs →
      k'.client.state ≠ .readingSize →
      Doing C of input k' (.reading i size (got ++ ((fs.data i).drop got.length).take n)) →
      Turn C of input fs k r fs' k'

theorem OneLine.state_ne {error : Option ErrorType} {method : Verb} (h : OneLine error method k) :
    k.client.state ≠ .readingSize := by
  rcases h.state with ⟨hs, -⟩ | ⟨hs, -⟩ <;> simp [hs]

theorem Sending.state_ne {size : Nat} {got : Text} (h : Sending i size got k) : k.client.state ≠ .readingSize := by
  rw [h.state]
  split <;> simp

/-- A reply that leaves the files. -/
theorem Turn.answered {error : Option ErrorType} {method : Verb} (h : OneLine error method k)
    (hreply : error ≠ none ∨ method = .put ∨ method = .delete)
    (hk : handleClientRequest C (fs, k) e = some (fs', k'))
    (hd : ∀ k, OneLine error method k → Doing C of input k r) : Turn C of input fs k r fs' k' := by
  obtain ⟨rfl, ha⟩ := h.handle hreply hk
  exact .still rfl rfl (fun _ _ hi => hi) ha.state_ne (hd k' ha)

/-- The events in which a PUT writes. -/
theorem Turn.written {part : Text} (hmax : contents.length < 2 ^ 63) (hv : FileName name) (hi : of i (path C name))
    (hr : r = .writing i contents w) (hpart : part ++ k'.stream = contents.drop w) (hw : w ≤ contents.length)
    (hfs : fs' = fs.append i part) (hlast : contents.length = w + part.length → Replying none k')
    (hless : w + part.length < contents.length → Uploading (path C name) i contents.length (w + part.length) k') :
    Turn C of (putStream name contents.length contents) fs k r fs' k' := by
  have hlen := congrArg List.length hpart
  rw [List.length_append, List.length_drop] at hlen
  rcases Nat.lt_or_ge (w + part.length) contents.length with hlt | hge
  · have hup := hless hlt
    refine .writes part k'.stream hr hpart.symm hfs (by simp [hup.state]) ?_
    refine .upload hv hmax hi hup ?_ hlt
    rw [← List.drop_drop, ← hpart, List.drop_left]
  · have hreply := hlast (by omega)
    have hnil : k'.stream = [] := List.length_eq_zero_iff.mp (by omega)
    rw [hnil, List.append_nil] at hpart
    have ha : OneLine none .put k' := ⟨hreply.errorType, hreply.method, Or.inl ⟨hreply.state, hreply.sends⟩⟩
    exact .stores hr (by rw [← hpart]; exact hfs) ha.state_ne (.stored hmax hi ha)

theorem firstRead_ne (b : Mem) (stream : Text) : (firstRead b stream).client.state ≠ .readingSize := by
  intro hc
  rcases firstRead_place b stream with hplace | hstate
  · rw [hc] at hplace
    cases hplace
  · cases hc.symm.trans hstate

/-- The call that opens the file of a PUT. -/
theorem fileCalls_put_name (C : Config) (fs : Fs) (b : Mem) (n : Nat) (body : Text) (hv : FileName name) :
    .fopenWb (path C name) ∈ fileCalls C fs (firstRead b (putStream name n body)).client := by
  have hlen := hv.length
  unfold maxFilename at hlen
  have hpre : (ascii ['P', 'U', 'T'] ++ ascii [' ']).length = 4 := rfl
  have hfit : (ascii ['P', 'U', 'T'] ++ ascii [' ']).length + name.length < dataSize := by
    rw [hpre]
    unfold dataSize
    omega
  obtain ⟨hstrchr, hname⟩ := strchr_line b (leEncode 8 n ++ body.take (bodyRoom name)) hv.noNewline hv.noNul hfit
  rw [hpre] at hstrchr hname
  rw [firstRead_put b n body hv, putStream_line n body hv]
  unfold fileCalls
  dsimp only
  rw [hstrchr]
  dsimp only
  rw [Nat.add_sub_cancel_left, hname]
  exact List.mem_singleton.mpr rfl

/-- All that an event of a connection can be. -/
theorem Doing.turn (h : Doing C of input k r) (hdir : ∀ p i, fs.inode p = some i → of i p)
    (hk : handleClientRequest C (fs, k) e = some (fs', k')) : Turn C of input fs k r fs' k' := by
  cases h with
  | @fresh input b hw =>
    cases hk.symm.trans handle_first
    exact .still rfl rfl (fun _ _ hi => hi) (firstRead_ne b input) (.named hw)
  | @named input b hw =>
    cases hw with
    | @put name contents hv hmax =>
      obtain ⟨calls, hname⟩ := handle_put_name C fs b contents.length contents e hv
      cases hk.symm.trans hname
      exact .opens rfl (fileCalls_put_name C fs b contents.length contents hv) rfl rfl rfl
        fun of' hof => .size hv hmax hof
    | @get name hv =>
      obtain ⟨rfl, hopen⟩ := handle_get_name hv hk
      cases hi : fs'.inode (path C name) with
      | none =>
        rw [hi] at hopen
        exact .still rfl rfl (fun _ _ hi => hi) hopen.state_ne (.missing hopen)
      | some i =>
        rw [hi] at hopen
        obtain ⟨hb, hfp, hfile, hsends⟩ := hopen
        exact .still rfl rfl (fun _ _ hi => hi) (by simp [hb.1]) (.opened (hdir _ _ hi) hb hfp hfile hsends)
    | @delete name hv =>
      obtain ⟨hfs, error, ha⟩ := handle_delete_name hv hk
      rcases hfs with rfl | rfl
      · exact .still rfl rfl (fun _ _ hi => hi) ha.state_ne (.deleting ha)
      · refine .still rfl rfl ?_ ha.state_ne (.deleting ha)
        intro p i hi
        rw [inode_remove] at hi
        split at hi
        · cases hi
        · exact hi
  | size hv hmax hi =>
    cases hk.symm.trans (handle_put_size hv (Nat.lt_of_lt_of_le hmax (by decide)))
    exact .still rfl rfl (fun _ _ hi => hi) (by simp [putConn]) (.first hv hmax hi)
  | @first name contents b i calls hv hmax hi =>
    have hle : ¬ contents.length < (contents.take (bodyRoom name)).length :=
      Nat.not_lt.mpr (List.length_take_le' _ _)
    obtain ⟨k₁, hfirst, hstream, -, -, hlast, hless⟩ := handle_put_first C fs i b contents e calls hv
      (Nat.lt_of_lt_of_le hmax (by decide))
    rw [if_neg hle] at hfirst
    cases hk.symm.trans hfirst
    refine .written (w := 0) hmax hv hi rfl ?_ (Nat.zero_le _) rfl (by rwa [Nat.zero_add]) (by rwa [Nat.zero_add])
    rw [hstream, List.take_append_drop, List.drop_zero]
  | @upload name contents i w k hv hmax hi hup hstream hw =>
    have hgot : got e.chunks k.stream ≠ [] := by
      intro hnil
      have hdrop := List.drop_eq_nil_iff.mp (hstream.symm.trans (got_nil hnil))
      omega
    have happ := (got_append e.chunks k.stream).1
    have hlen := congrArg List.length happ
    have hleft := congrArg List.length hstream
    rw [List.length_append] at hlen
    rw [List.length_drop] at hleft
    obtain ⟨k₁, hnext, hstream', -, -, -, hlast, hless⟩ := hup.next C fs (Nat.lt_of_lt_of_le hmax (by decide))
      (Nat.le_of_lt hw) hgot
    rw [if_neg (by omega)] at hnext
    cases hk.symm.trans hnext
    refine .written hmax hv hi rfl ?_ (Nat.le_of_lt hw) rfl hlast hless
    rw [hstream', happ, hstream]
  | stored hmax hi ha => exact .answered ha (Or.inr (Or.inl rfl)) hk fun k ha => .stored hmax hi ha
  | opened hi hb hfp hfile hsends =>
    refine .begins rfl hb hfp fun hmax => ?_
    obtain ⟨hfs, hname, hs⟩ := Sending.begins hb hfp hfile hsends hmax hk
    exact ⟨hfs, hs.state_ne, .sending hi (hname ▸ hfile) hs⟩
  | @sending name got i size k hi hfile hs =>
    rcases Nat.lt_or_ge got.length size with hlt | hge
    · obtain ⟨hfs, hname, hs'⟩ := hs.next hfile hlt hk
      exact .sends _ rfl hlt hfs hs'.state_ne (.sending hi (hname ▸ hfile) hs')
    · obtain ⟨rfl, hname, hs'⟩ := hs.done hge hk
      exact .still rfl rfl (fun _ _ hi => hi) hs'.state_ne (.sending hi (hname ▸ hfile) hs')
  | missing ha => exact .answered ha (Or.inl (by simp)) hk fun k ha => .missing ha
  | deleting ha => exact .answered ha (Or.inr (Or.inr rfl)) hk fun k ha => .deleting ha

end SysProg.Net
