/-
  SysProg.Net.Serving — what a connection comes to.

  `Serves C Post fs k` says that the connection `k`, whatever its events, is served to its
  end, and that `Post` then holds of the files and of all that was sent. It is proved
  from the last state of the state machine to the first: the replies, the two loops (a
  GET sends its file, a PUT receives one, a block at a time).
-/

import Mathlib.Algebra.BigOperators.Group.List.Basic
import SysProg.Lib.Run
import SysProg.Net.Client
import SysProg.Net.Server

namespace SysProg.Net

open Function (update)
open SysProg.Bytes (Mem load store leDecode leEncode)

variable {C : Config} {Post : Fs → Text → Prop} {fs : Fs} {k : Conn}

def Serves (C : Config) (Post : Fs → Text → Prop) (fs : Fs) (k : Conn) : Prop :=
  Run.Ends (fun s : Fs × Conn => s.2.closed) (handleClientRequest C) (fun s => Post s.1 s.2.sent) (fs, k)

theorem serves_complete (hk : k.closed = false) (hc : k.client.state = .complete) (h : Post fs k.sent) :
    Serves C Post fs k := by
  refine Run.Ends.of_step hk ?_
  intro e
  refine ⟨(fs, { k with closed := true }), ?_, .done rfl h⟩
  unfold handleClientRequest
  rw [if_pos hc]

@[simp] theorem sentBy_nil : sentBy [] = [] := rfl

@[simp] theorem sentBy_cons (piece : Send) (sends : List Send) :
    sentBy (piece :: sends) = piece.text ++ sentBy sends := by
  rw [sentBy, List.flatMap_cons, sendBytes_eq]
  rfl

@[simp] theorem sentBy_append (sends sends' : List Send) : sentBy (sends ++ sends') = sentBy sends ++ sentBy sends' :=
  List.flatMap_append

/-- An event that reads nothing. -/
theorem handle_process {e : Event} (hc : k.client.state ≠ .complete)
    (hread : ¬ ((k.client.state = .readingData ∧ k.client.bufferSize = 0) ∨ k.client.state = .readingVerb)) :
    handleClientRequest C (fs, k) e = (processRequest C fs k.client e).map fun (fs', c, sends) => (fs', { k with
      client := c, sends := k.sends ++ sends, calls := k.calls ++ fileCalls C fs k.client, nonblocking := true }) := by
  unfold handleClientRequest receive
  rw [if_neg hc]
  dsimp only
  rw [if_neg hread]

theorem handle_response {e : Event} (hs : k.client.state = .writingResponse) :
    handleClientRequest C (fs, k) e = (writeResponse C fs k.client e).map fun (c, sends) => (fs, { k with
      client := c, sends := k.sends ++ sends, calls := k.calls ++ fileCalls C fs k.client, nonblocking := true }) := by
  rw [handle_process (by rw [hs]; decide) (by rw [hs]; simp), processRequest, hs, Option.map_map]
  rfl

theorem handle_complete {e : Event} (hs : k.client.state = .complete) :
    handleClientRequest C (fs, k) e = some (fs, { k with closed := true }) := if_pos hs

theorem serves_process (hk : k.closed = false) (hc : k.client.state ≠ .complete)
    (hread : ¬ ((k.client.state = .readingData ∧ k.client.bufferSize = 0) ∨ k.client.state = .readingVerb))
    (h : ∀ e, ∃ fs' c sends, processRequest C fs k.client e = some (fs', c, sends) ∧
      Serves C Post fs' { k with
        client := c, sends := k.sends ++ sends, calls := k.calls ++ fileCalls C fs k.client, nonblocking := true }) :
    Serves C Post fs k := by
  refine Run.Ends.of_step hk ?_
  intro e
  rcases h e with ⟨fs', c, sends, hp, hs⟩
  refine ⟨_, ?_, hs⟩
  rw [handle_process hc hread, hp]
  rfl

/-! ## Replies -/

theorem serves_respond (hk : k.closed = false) (hs : k.client.state = .writingResponse)
    (h : ∀ e, ∃ c sends, writeResponse C fs k.client e = some (c, sends) ∧
      ∀ calls, Serves C Post fs { k with client := c, sends := k.sends ++ sends, calls, nonblocking := true }) :
    Serves C Post fs k := by
  apply serves_process hk (by rw [hs]; decide) (by rw [hs]; simp)
  intro e
  rcases h e with ⟨c, sends, hw, hserves⟩
  refine ⟨fs, c, sends, ?_, hserves _⟩
  unfold processRequest
  rw [hs]
  dsimp only
  rw [hw]
  rfl

/-- A reply that is sent in one event. -/
theorem serves_reply (hk : k.closed = false) (hs : k.client.state = .writingResponse)
    (h : ∀ e, ∃ c sends, writeResponse C fs k.client e = some (c, sends) ∧ c.state = .complete ∧
      Post fs (k.sent ++ sentBy sends)) : Serves C Post fs k := by
  apply serves_respond hk hs
  intro e
  rcases h e with ⟨c, sends, hw, hc, hpost⟩
  refine ⟨c, sends, hw, fun calls => serves_complete hk hc ?_⟩
  rw [Conn.sent, sentBy_append]
  exact hpost

theorem serves_error {t : ErrorType} (hk : k.closed = false) (hs : k.client.state = .writingResponse)
    (ht : k.client.errorType = some t) (h : Post fs (k.sent ++ (errorLine ++ C.errText t))) : Serves C Post fs k := by
  apply serves_reply hk hs
  intro e
  refine ⟨{ k.client with state := .complete }, [.status (errorLine ++ C.errText t)], ?_, rfl, ?_⟩
  · simp only [writeResponse, ht]
  · rw [sentBy_cons, sentBy_nil, List.append_nil]
    exact h

/-- The reply to a PUT or DELETE has the terminator of its string. -/
theorem serves_ok (hk : k.closed = false) (hs : k.client.state = .writingResponse) (ht : k.client.errorType = none)
    (hm : k.client.method = .put ∨ k.client.method = .delete) (h : Post fs (k.sent ++ (okLine ++ [0]))) :
    Serves C Post fs k := by
  apply serves_reply hk hs
  intro e
  refine ⟨{ k.client with state := .complete }, [.status (okLine ++ [0])], ?_, rfl, ?_⟩
  · rcases hm with hm | hm
    · simp only [writeResponse, ht, hm]
    · simp only [writeResponse, ht, hm]
  · rw [sentBy_cons, sentBy_nil, List.append_nil]
    exact h

def listingSize (names : List Text) : Nat := (names.map fun name => name.length + 1).sum

theorem listData_length (names : List Text) : (listData names).length = listingSize names := by
  unfold listingSize
  induction names with
  | nil => rfl
  | cons name names ih =>
    cases names with
    | nil => simp [listData]
    | cons m names =>
      rw [List.map_cons, List.sum_cons, ← ih, listData, List.length_append, List.length_cons]
      · omega
      · simp

/-- Without its last byte the data is the names with newlines between them. -/
theorem listData_dropLast (names : List Text) : (listData names).dropLast = [newline].intercalate names := by
  induction names with
  | nil => rfl
  | cons name names ih =>
    cases names with
    | nil => simp [listData, List.intercalate]
    | cons m names =>
      have hne : listData (m :: names) ≠ [] := by
        cases names <;> simp [listData]
      rw [listData, List.intercalate_cons_cons, ← ih, List.dropLast_append_of_ne_nil (by simp),
        List.dropLast_cons_of_ne_nil hne]
      · simp
      · simp

/-- In whatever order the directory is listed. -/
theorem listResponse_isSome {e : Event} (h : listingSize (fs.names C) < 2 ^ 63) : (listResponse C fs e).isSome := by
  have hsum : listingSize (e.readdir.1 (fs.names C)) = listingSize (fs.names C) :=
    ((e.readdir.2 (fs.names C)).map _).sum_eq
  rw [← hsum] at h
  exact Option.isSome_iff_exists.mpr ⟨_, if_pos h⟩

theorem serves_list (hk : k.closed = false) (hs : k.client.state = .writingResponse) (ht : k.client.errorType = none)
    (hm : k.client.method = .list) (hsize : listingSize (fs.names C) < 2 ^ 63)
    (h : ∀ names, names.Perm (fs.names C) → Post fs (k.sent ++
      (okLine ++ leEncode 8 ([newline].intercalate names).length ++ [newline].intercalate names))) :
    Serves C Post fs k := by
  apply serves_reply hk hs
  intro e
  have hperm := e.readdir.2 (fs.names C)
  have hpost := h _ hperm
  have hsum : listingSize (e.readdir.1 (fs.names C)) = listingSize (fs.names C) := (hperm.map _).sum_eq
  simp only [writeResponse, listResponse, ht, hm]
  generalize e.readdir.1 (fs.names C) = names at hpost hsum
  have hlt : (names.map fun name => name.length + 1).sum < 2 ^ 63 := by
    show listingSize names < 2 ^ 63
    rw [hsum]
    exact hsize
  rw [if_pos hlt, Option.map_some]
  refine ⟨_, _, rfl, rfl, ?_⟩
  have hlen : (listData names).length = (names.map fun name => name.length + 1).sum := listData_length names
  rw [← listData_dropLast] at hpost
  rw [← hlen]
  have htake : (if (listData names).length ≠ 0 then (listData names).length - 1 else (listData names).length) =
      (listData names).dropLast.length := by
    rw [List.length_dropLast]
    split <;> omega
  have hdata : (listData names).take (listData names).dropLast.length = (listData names).dropLast := by
    rw [List.length_dropLast, ← List.dropLast_eq_take]
  rw [htake, hdata]
  simp only [sentBy_cons, sentBy_nil, Send.text, List.append_nil]
  rw [List.append_assoc] at hpost
  exact hpost

/-! ## The loop of a GET -/

theorem sub64_eq {a b : Nat} (ha : a < wordSize) (hb : b ≤ a) : sub64 a b = a - b := by
  unfold sub64 wordSize at *
  omega

/-- What was opened is a file. -/
theorem ftell_file {path : Text} {i : Nat} (h : C.directory path i = none) : C.ftell fs path i = ftell (fs.data i) := by
  rw [Config.ftell, h, Option.getD_none]

theorem fread_file {path : Text} {i offset count : Nat} (h : C.directory path i = none) :
    C.fread fs path i offset count = ((fs.data i).drop offset).take count := if_pos h

/-- A block of the file, after the first. -/
theorem serves_get_rest {i : Nat} (hk : k.closed = false) (hs : k.client.state = .writingResponse)
    (ht : k.client.errorType = none) (hm : k.client.method = .get) (hfp : k.client.fp = some i)
    (hfile : C.directory k.client.filename i = none)
    (hpos : 0 < k.client.fileOffset) (hsize : k.client.reqSize = (fs.data i).length)
    (hlt : k.client.fileOffset ≤ (fs.data i).length) (hmax : (fs.data i).length < 2 ^ 63)
    (h : Post fs (k.sent ++ (fs.data i).drop k.client.fileOffset)) : Serves C Post fs k := by
  generalize hn : (fs.data i).length - k.client.fileOffset = n
  induction n using Nat.strongRecOn generalizing k with
  | _ n ih =>
    apply serves_respond hk hs
    intro e
    have hsub : sub64 (fs.data i).length k.client.fileOffset = n := by
      rw [sub64_eq (Nat.lt_of_lt_of_le hmax (by decide)) hlt, hn]
    simp only [writeResponse, ht, hm, sendGetResponse, hfp, hpos, hsize, hsub, fread_file hfile, if_true,
      Option.map_some, List.nil_append]
    refine ⟨_, _, rfl, fun calls => ?_⟩
    have hlen : (((fs.data i).drop k.client.fileOffset).take (min n dataSize)).length = min n dataSize := by
      rw [List.length_take, List.length_drop]
      omega
    by_cases hlast : (fs.data i).length ≤ k.client.fileOffset + min n dataSize
    · refine serves_complete hk (by simp only [hlen, hlast, if_true]) ?_
      have hall : ((fs.data i).drop k.client.fileOffset).take (min n dataSize) =
        (fs.data i).drop k.client.fileOffset := by
        rw [List.take_of_length_le]
        rw [List.length_drop]
        omega
      rw [Conn.sent, hall, sentBy_append, sentBy_cons, sentBy_nil, List.append_nil]
      exact h
    · have hmin : 0 < min n dataSize := by
        unfold dataSize
        omega
      refine ih (n - min n dataSize) (by omega) hk (by simp only [hlen, hlast, if_false]) rfl rfl rfl hfile ?_ rfl ?_
        ?_ ?_
      · exact Nat.lt_of_lt_of_le hpos (Nat.le_add_right _ _)
      · simp only [hlen]
        omega
      · simp only [Conn.sent, hlen, sentBy_append, sentBy_cons, sentBy_nil, Send.text, List.append_nil,
          List.append_assoc]
        rw [← List.drop_drop, List.take_append_drop]
        exact h
      · simp only [hlen]
        omega

theorem ftell_eq {file : Text} (h : file.length < 2 ^ 63) : ftell file = file.length := if_pos h

theorem serves_get {i : Nat} (hk : k.closed = false) (hs : k.client.state = .writingResponse)
    (ht : k.client.errorType = none) (hm : k.client.method = .get) (hfp : k.client.fp = some i)
    (hfile : C.directory k.client.filename i = none) (hoff : k.client.fileOffset = 0)
    (hmax : (fs.data i).length < 2 ^ 63)
    (h : Post fs (k.sent ++ (okLine ++ leEncode 8 (fs.data i).length ++ fs.data i))) : Serves C Post fs k := by
  apply serves_respond hk hs
  intro e
  have hsub : sub64 (fs.data i).length 0 = (fs.data i).length :=
    sub64_eq (Nat.lt_of_lt_of_le hmax (by decide)) (Nat.zero_le _)
  simp only [writeResponse, ht, hm, sendGetResponse, hfp, hoff, ftell_file hfile, fread_file hfile, ftell_eq hmax, hsub,
    Nat.lt_irrefl, if_false, Option.map_some, List.drop_zero, Nat.zero_add]
  refine ⟨_, _, rfl, fun calls => ?_⟩
  have hlen : ((fs.data i).take (min (fs.data i).length dataSize)).length = min (fs.data i).length dataSize := by
    rw [List.length_take]
    omega
  by_cases hlast : (fs.data i).length ≤ min (fs.data i).length dataSize
  · refine serves_complete hk (by simp only [hlen, hlast, if_true]) ?_
    simp only [Conn.sent, sentBy_append, sentBy_cons, sentBy_nil, Send.text, List.append_nil, List.nil_append,
      List.cons_append]
    rw [List.take_of_length_le hlast]
    rw [List.append_assoc] at h
    exact h
  · refine serves_get_rest hk (by simp only [hlen, hlast, if_false]) rfl rfl rfl hfile ?_ rfl ?_ hmax ?_
    · simp only [hlen]
      unfold dataSize at *
      omega
    · simp only [hlen]
      omega
    · simp only [Conn.sent, hlen, sentBy_append, sentBy_cons, sentBy_nil, Send.text, List.append_nil, List.nil_append,
        List.cons_append, List.append_assoc] at h ⊢
      rw [List.take_append_drop]
      exact h

/-! ## The loop of a PUT -/

/-- The numbers with which a part of the body is written; nothing wraps. -/
theorem writing_sizes {c : Client} (part : Text) (hsize : c.bufferSize = c.boffset + part.length)
    (hfit : c.bufferSize ≤ dataSize) (hpart : load c.buffer c.boffset part.length = part)
    (hreq : c.fileOffset ≤ c.reqSize) (hmax : c.reqSize < wordSize) :
    sub64 c.reqSize c.fileOffset = c.reqSize - c.fileOffset ∧ sub64 c.bufferSize c.boffset = part.length ∧
      load c.buffer c.boffset (min part.length (c.reqSize - c.fileOffset)) = part.take (c.reqSize - c.fileOffset) ∧
      (c.fileOffset + min part.length (c.reqSize - c.fileOffset)) % wordSize =
        c.fileOffset + min part.length (c.reqSize - c.fileOffset) := by
  have hdata : dataSize < wordSize := by decide
  refine ⟨sub64_eq hmax hreq, ?_, ?_, Nat.mod_eq_of_lt (by omega)⟩
  · rw [sub64_eq (by omega) (by omega), hsize]
    omega
  · conv => rhs; rw [← hpart]
    rw [Bytes.load_take, Nat.min_comm]

/-- What is in the buffer goes to the file, up to the declared size; more than that is refused. -/
theorem readData_writes (C : Config) (fs : Fs) {c : Client} {i : Nat} (part : Text) (hm : c.method = .put)
    (hfp : c.fp = some i)
    (hsize : c.bufferSize = c.boffset + part.length) (hpos : c.bufferSize ≠ 0) (hfit : c.bufferSize ≤ dataSize)
    (hpart : load c.buffer c.boffset part.length = part) (hreq : c.fileOffset ≤ c.reqSize)
    (hmax : c.reqSize < wordSize) :
    readData C fs c = some (
      let left := c.reqSize - c.fileOffset
      let fs := fs.append i (part.take left)
      let c := { c with boffset := 0, bufferSize := 0, fileOffset := c.fileOffset + min part.length left }
      if left < part.length then
        (C.remove fs c.filename, { c with errorType := some .badFileSize, state := .writingResponse })
      else if left = part.length then (fs, { c with state := .writingResponse })
      else (fs, { c with state := .readingData })) := by
  obtain ⟨hleft, hbuf, hload, hmod⟩ := writing_sizes part hsize hfit hpart hreq hmax
  have hover : ¬ dataSize < c.boffset + min part.length (c.reqSize - c.fileOffset) := by omega
  have hmore : ¬ c.reqSize < c.fileOffset + min part.length (c.reqSize - c.fileOffset) := by omega
  unfold readData
  simp only [hm, hleft, hbuf, hpos, hover, hfp, hload, hmod, hmore, Option.map_some, ne_eq, not_true_eq_false, if_false]
  congr 1
  rcases Nat.lt_trichotomy (c.reqSize - c.fileOffset) part.length with hlt | heq | hgt
  · rw [if_pos (by omega), if_pos hlt]
  · rw [if_neg (by omega), if_pos (by omega), if_neg (by omega), if_pos heq]
  · rw [if_neg (by omega), if_neg (by omega), if_neg (by omega), if_neg (by omega)]

/-- As long as the client sends what it declared. -/
theorem readData_spec {c : Client} {i : Nat} (part : Text) (hm : c.method = .put) (hfp : c.fp = some i)
    (hsize : c.bufferSize = c.boffset + part.length) (hpos : c.bufferSize ≠ 0) (hfit : c.bufferSize ≤ dataSize)
    (hpart : load c.buffer c.boffset part.length = part) (hreq : c.fileOffset + part.length ≤ c.reqSize)
    (hmax : c.reqSize < wordSize) :
    readData C fs c = some (fs.append i part, { c with
      boffset := 0
      bufferSize := 0
      fileOffset := c.fileOffset + part.length
      state := if c.fileOffset + part.length = c.reqSize then .writingResponse else .readingData }) := by
  have hmin : min part.length (c.reqSize - c.fileOffset) = part.length := by omega
  rw [readData_writes C fs part hm hfp hsize hpos hfit hpart (by omega) hmax]
  dsimp only
  rw [hmin, List.take_of_length_le (by omega), if_neg (by omega)]
  by_cases hlast : c.fileOffset + part.length = c.reqSize
  · rw [if_pos (by omega), if_pos hlast]
  · rw [if_neg (by omega), if_neg hlast]

/-- The rest of the contents, however they arrive. -/
theorem serves_put_rest {i n : Nat} (contents : Text) (hk : k.closed = false) (hs : k.client.state = .readingData)
    (hb : k.client.bufferSize = 0) (ho : k.client.boffset = 0) (hm : k.client.method = .put)
    (ht : k.client.errorType = none) (hfp : k.client.fp = some i) (hreq : k.client.reqSize = contents.length)
    (hmax : contents.length < 2 ^ 63) (hn : k.client.fileOffset = n) (hlt : n < contents.length)
    (hdata : fs.data i = contents.take n) (hstream : k.stream = contents.drop n)
    (h : Post { fs with data := update fs.data i contents } (k.sent ++ (okLine ++ [0]))) : Serves C Post fs k := by
  generalize hd : contents.length - n = d
  induction d using Nat.strongRecOn generalizing k n fs with
  | _ d ih =>
    refine Run.Ends.of_step hk ?_
    intro e
    have hne : k.stream ≠ [] := by
      rw [hstream]
      intro hnil
      have hle := List.drop_eq_nil_iff.mp hnil
      omega
    have hsome := recvall_ready k.nonblocking (s := ⟨e.chunks, k.stream⟩) (show 0 < dataSize by decide) hne
    rcases recvall_append k.nonblocking true dataSize dataSize ⟨e.chunks, k.stream⟩ with ⟨happ, hlen⟩
    unfold handleClientRequest receive
    rw [if_neg (by rw [hs]; decide)]
    dsimp only
    rw [if_pos (Or.inl ⟨hs, hb⟩)]
    generalize recvall k.nonblocking dataSize true dataSize ⟨e.chunks, k.stream⟩ = got at hsome happ hlen
    rcases got with ⟨part, rest⟩
    dsimp only at hsome happ hlen ⊢
    have hpos := List.length_pos_iff.mpr hsome
    have hcontents : contents = contents.take n ++ part ++ rest.stream := by
      rw [List.append_assoc, happ, hstream, List.take_append_drop]
    have hsum : contents.length = n + part.length + rest.stream.length := by
      have hlen' := congrArg List.length hcontents
      rw [List.length_append, List.length_append, List.length_take] at hlen'
      omega
    have htake : contents.take n ++ part = contents.take (n + part.length) := by
      conv => rhs; rw [hcontents]
      rw [List.take_left']
      rw [List.length_append, List.length_take]
      omega
    have hload : load (store k.client.buffer 0 part) 0 part.length = part := by
      have hl := Bytes.load_store (m := k.client.buffer) (a := 0) (b := 0) (l := part) (n := part.length) (by omega)
      rw [List.drop_zero, List.take_length] at hl
      exact hl
    have hread : readData C fs { k.client with
        state := .readingData, buffer := store k.client.buffer 0 part, bufferSize := part.length } = _ :=
      readData_spec part (i := i) hm hfp (by simp only [ho, Nat.zero_add]) (by dsimp only; omega) hlen
        (by rw [ho]; exact hload) (by dsimp only; omega)
        (by rw [hreq]; exact Nat.lt_of_lt_of_le hmax (by decide))
    unfold processRequest
    rw [hs]
    dsimp only
    rw [hread, Option.map_some, Option.map_some]
    refine ⟨_, rfl, ?_⟩
    dsimp only
    rw [hn, hreq, List.append_nil]
    have hfs : { (fs.append i part) with data := update (fs.append i part).data i contents } =
        ({ fs with data := update fs.data i contents } : Fs) := by
      unfold Fs.append
      simp only [Function.update_idem]
    by_cases hlast : n + part.length = contents.length
    · have hall : fs.append i part = { fs with data := update fs.data i contents } := by
        unfold Fs.append
        rw [hdata, htake, hlast, List.take_length]
      refine serves_ok hk (if_pos hlast) ht (Or.inl hm) ?_
      rw [hall]
      exact h
    · refine ih (contents.length - (n + part.length)) (by omega) hk (if_neg hlast) rfl rfl hm ht hfp rfl rfl
        (by dsimp only; omega) ?_ ?_ (by rw [hfs]; exact h) rfl
      · unfold Fs.append
        dsimp only
        rw [Function.update_self, hdata, htake]
      · have hdrop : contents.drop (n + part.length) = rest.stream := by
          conv => lhs; rw [hcontents]
          rw [List.drop_left']
          rw [List.length_append, List.length_take]
          omega
        exact hdrop.symm

end SysProg.Net
