/-
  SysProg.Net.Uploads — READING_DATA of nonstop_networking/server.c, one event at a time.

  Each event reads what there is, at most a block, and writes it up to the declared size
  (`Uploading.next`); a read of nothing is the end of the stream (`Uploading.ended`). What
  was written decides how it goes on: more than the declared size, or less at the end of the
  stream, removes the file. This is for any path and whatever the files are; the calls of
  each event are `partCalls`.
-/

import SysProg.Net.Requests

namespace SysProg.Net

open SysProg.Bytes (Mem load store)

variable {C : Config} {fs : Fs} {c : Client} {k : Conn} {p : Text} {i n w : Nat}

/-- The body is being read, nothing of it is in the buffer, and `w` bytes are in the file. -/
structure Uploading (p : Text) (i n w : Nat) (k : Conn) : Prop where
  state : k.client.state = .readingData
  method : k.client.method = .put
  filename : k.client.filename = p
  fp : k.client.fp = some i
  reqSize : k.client.reqSize = n
  fileOffset : k.client.fileOffset = w
  bufferSize : k.client.bufferSize = 0
  boffset : k.client.boffset = 0
  errorType : k.client.errorType = none
  nonblocking : k.nonblocking = true
  sends : k.sends = []

/-- The body has been read, and what was made of it is still to be answered. -/
structure Replying (error : Option ErrorType) (k : Conn) : Prop where
  state : k.client.state = .writingResponse
  method : k.client.method = .put
  errorType : k.client.errorType = error
  sends : k.sends = []

/-! ## One part of the body -/

/-- The calls that write a part of it when so many bytes are to come. -/
def partCalls (p : Text) (i : Nat) (part : Text) (left : Nat) : List FileCall :=
  if left < part.length then [.fwrite i (part.take left), .remove p, .fclose i]
  else if left = part.length then [.fwrite i part, .fclose i]
  else [.fwrite i part]

theorem fileCalls_writes (C : Config) (fs : Fs) (part : Text) (hs : c.state = .readingData) (hfp : c.fp = some i)
    (hsize : c.bufferSize = c.boffset + part.length) (hpos : c.bufferSize ≠ 0) (hfit : c.bufferSize ≤ dataSize)
    (hpart : load c.buffer c.boffset part.length = part) (hreq : c.fileOffset ≤ c.reqSize)
    (hmax : c.reqSize < wordSize) :
    fileCalls C fs c = partCalls c.filename i part (c.reqSize - c.fileOffset) := by
  obtain ⟨hleft, hbuf, hload, hmod⟩ := writing_sizes part hsize hfit hpart hreq hmax
  have hmore : ¬ c.reqSize < c.fileOffset + min part.length (c.reqSize - c.fileOffset) := by omega
  unfold fileCalls partCalls
  simp only [hs, hfp, Option.toList_some, List.flatMap_singleton, hleft, hbuf, hload, hmod, hmore, hpos, if_false]
  rcases Nat.lt_trichotomy (c.reqSize - c.fileOffset) part.length with hlt | heq | hgt
  · rw [if_pos (by omega), if_pos hlt]
  · rw [if_neg (by omega), if_pos (by omega), if_neg (by omega), if_pos heq, List.take_of_length_le (by omega)]
  · rw [if_neg (by omega), if_neg (by omega), if_neg (by omega), if_neg (by omega), List.take_of_length_le (by omega)]

/-- What is in the buffer is written, up to the declared size. -/
theorem handle_part (C : Config) (fs : Fs) {e : Event} {k₁ : Conn} (part : Text) (hn : n < wordSize)
    (hreceive : receive k e.chunks = k₁) (hc : k.client.state = .readingData) (hs : k₁.client.state = .readingData)
    (hm : k₁.client.method = .put) (hfile : k₁.client.filename = p) (hfp : k₁.client.fp = some i)
    (ht : k₁.client.errorType = none) (hreq : k₁.client.reqSize = n) (hoff : k₁.client.fileOffset = w) (hw : w ≤ n)
    (hsize : k₁.client.bufferSize = k₁.client.boffset + part.length) (hpos : k₁.client.bufferSize ≠ 0)
    (hfit : k₁.client.bufferSize ≤ dataSize) (hpart : load k₁.client.buffer k₁.client.boffset part.length = part)
    (hsends : k₁.sends = []) :
    ∃ k', handleClientRequest C (fs, k) e = some (if n < w + part.length then
        C.remove (fs.append i (part.take (n - w))) p else fs.append i part, k') ∧
      k'.stream = k₁.stream ∧ k'.closed = k₁.closed ∧ k'.calls = k₁.calls ++ partCalls p i part (n - w) ∧
      (n < w + part.length → Replying (some .badFileSize) k') ∧ (n = w + part.length → Replying none k') ∧
      (w + part.length < n → Uploading p i n (w + part.length) k') := by
  have hread := readData_writes C fs part hm hfp hsize hpos hfit hpart (by omega) (by omega)
  have hcalls := fileCalls_writes C fs part hs hfp hsize hpos hfit hpart (by omega) (by omega)
  rw [hreq, hoff, hfile] at hread hcalls
  have hc' : k.client.state ≠ .complete := by
    rw [hc]
    decide
  unfold handleClientRequest
  rw [if_neg hc']
  dsimp only
  rw [hreceive, hcalls]
  simp only [processRequest, hs]
  rw [hread]
  simp only [Option.map_some, hsends, List.append_nil]
  rcases Nat.lt_trichotomy n (w + part.length) with hlt | heq | hgt
  · rw [if_pos (by omega), if_pos hlt]
    refine ⟨_, rfl, rfl, rfl, rfl, fun _ => ⟨rfl, hm, rfl, rfl⟩, fun h => absurd hlt (by omega), fun h => ?_⟩
    exact absurd hlt (by omega)
  · have htake : part.take (n - w) = part := List.take_of_length_le (by omega)
    rw [if_neg (by omega), if_pos (by omega), if_neg (by omega), htake]
    refine ⟨_, rfl, rfl, rfl, rfl, fun h => absurd heq (by omega), fun _ => ⟨rfl, hm, ht, rfl⟩, fun h => ?_⟩
    exact absurd heq (by omega)
  · have htake : part.take (n - w) = part := List.take_of_length_le (by omega)
    rw [if_neg (by omega), if_neg (by omega), if_neg (by omega), htake]
    refine ⟨_, rfl, rfl, rfl, rfl, fun h => absurd hgt (by omega), fun h => absurd hgt (by omega), fun _ => ?_⟩
    have hmin : min part.length (n - w) = part.length := by omega
    exact ⟨rfl, hm, rfl, hfp, rfl, by rw [hmin], rfl, rfl, ht, rfl, rfl⟩

def got (chunks : List Nat) (stream : Text) : Text := (recvall true dataSize true dataSize ⟨chunks, stream⟩).1

theorem got_append (chunks : List Nat) (stream : Text) :
    got chunks stream ++ stream.drop (got chunks stream).length = stream ∧
    (recvall true dataSize true dataSize ⟨chunks, stream⟩).2.stream = stream.drop (got chunks stream).length ∧
    (got chunks stream).length ≤ dataSize := by
  rcases recvall_append true true dataSize dataSize ⟨chunks, stream⟩ with ⟨happ, hlen⟩
  have happ : got chunks stream ++ (recvall true dataSize true dataSize ⟨chunks, stream⟩).2.stream = stream := happ
  have hdrop : (recvall true dataSize true dataSize ⟨chunks, stream⟩).2.stream =
      stream.drop (got chunks stream).length := by
    have h := congrArg (List.drop (got chunks stream).length) happ
    rwa [List.drop_left] at h
  rw [← hdrop]
  exact ⟨happ, rfl, hlen⟩

theorem got_nil {chunks : List Nat} {stream : Text} (h : got chunks stream = []) : stream = [] := by
  by_contra hne
  exact recvall_ready true (s := ⟨chunks, stream⟩) (show 0 < dataSize by decide) hne h

theorem Uploading.receive (h : Uploading p i n w k) (chunks : List Nat) : Net.receive k chunks = { k with
    client := { k.client with
      buffer := store k.client.buffer 0 (got chunks k.stream)
      bufferSize := (got chunks k.stream).length }
    stream := k.stream.drop (got chunks k.stream).length } := by
  unfold Net.receive
  rw [if_pos (Or.inl ⟨h.state, h.bufferSize⟩), h.nonblocking]
  dsimp only
  rw [(got_append chunks k.stream).2.1]
  rfl

/-- A read at the end of the stream: the body is too short. -/
theorem Uploading.ended (C : Config) (fs : Fs) {e : Event} (h : Uploading p i n w k)
    (hgot : got e.chunks k.stream = []) :
    ∃ k', handleClientRequest C (fs, k) e = some (C.remove fs p, k') ∧ k'.stream = k.stream ∧
      k'.closed = k.closed ∧ k'.calls = k.calls ++ [.fclose i, .remove p] ∧ Replying (some .badFileSize) k' := by
  have hc : k.client.state ≠ .complete := by
    rw [h.state]
    decide
  have hreceive := h.receive e.chunks
  rw [hgot, List.length_nil, List.drop_zero] at hreceive
  unfold handleClientRequest
  rw [if_neg hc]
  dsimp only
  rw [hreceive]
  simp only [processRequest, readData, fileCalls, h.state, h.method, h.filename, h.fp, ne_eq, not_true_eq_false,
    if_false, if_true, Option.map_some, Option.toList_some, List.flatMap_singleton, h.sends, List.append_nil]
  exact ⟨_, rfl, rfl, rfl, rfl, rfl, rfl, rfl, rfl⟩

/-- A read that gives some of the body, and of what comes after. -/
theorem Uploading.next (C : Config) (fs : Fs) {e : Event} (h : Uploading p i n w k) (hn : n < wordSize) (hw : w ≤ n)
    (hgot : got e.chunks k.stream ≠ []) :
    ∃ k', handleClientRequest C (fs, k) e = some (if n < w + (got e.chunks k.stream).length then
        C.remove (fs.append i ((got e.chunks k.stream).take (n - w))) p
        else fs.append i (got e.chunks k.stream), k') ∧
      k'.stream = k.stream.drop (got e.chunks k.stream).length ∧ k'.closed = k.closed ∧
      k'.calls = k.calls ++ partCalls p i (got e.chunks k.stream) (n - w) ∧
      (n < w + (got e.chunks k.stream).length → Replying (some .badFileSize) k') ∧
      (n = w + (got e.chunks k.stream).length → Replying none k') ∧
      (w + (got e.chunks k.stream).length < n → Uploading p i n (w + (got e.chunks k.stream).length) k') := by
  have hpos := List.length_pos_iff.mpr hgot
  have hload := Bytes.load_store (m := k.client.buffer) (a := 0) (b := 0) (l := got e.chunks k.stream)
    (n := (got e.chunks k.stream).length) (by omega)
  rw [List.drop_zero, List.take_length, Nat.zero_add] at hload
  refine handle_part C fs (got e.chunks k.stream) hn (h.receive e.chunks) h.state h.state h.method h.filename h.fp
    h.errorType h.reqSize h.fileOffset hw ?_ ?_ (got_append e.chunks k.stream).2.2 ?_ h.sends
  · dsimp only
    rw [h.boffset, Nat.zero_add]
  · dsimp only
    omega
  · dsimp only
    rw [h.boffset]
    exact hload

end SysProg.Net
