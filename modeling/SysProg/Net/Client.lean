/-
  SysProg.Net.Client — nonstop_networking/client.c: one request.

  `sendToServer` gives all the bytes of a request, after which the client shuts its side
  down, and `getFromServer` reads the reply from a blocking socket. What the client makes
  of it is its `Outcome`: the file a GET has stored, the text a LIST prints, the success of
  a PUT or DELETE, or the message of an error. `recvall` returns a count that is never
  negative, so its error branches are never taken. Nothing (`none`) comes of an error
  text that does not fit its buffer.
-/

import Mathlib.Data.List.TakeWhile
import SysProg.Net.Common

namespace SysProg.Net

open SysProg.Bytes (leDecode leEncode leEncode_length leDecode_leEncode)

inductive Request where
  | get (remote : Text)
  | put (remote contents : Text)
  | delete (remote : Text)
  | list
  deriving DecidableEq

def Request.method : Request → Verb
  | .get _ => .get
  | .put _ _ => .put
  | .delete _ => .delete
  | .list => .list

inductive Outcome where
  | stored (file : Text)
  | printed (text : Text)
  | success
  | error (message : Text)
  | tooLittleData
  | receivedTooMuchData
  | invalidResponse
  deriving DecidableEq

def requestFilename (remote : Text) : Text := remote.take maxFilename

def sendFile : Nat → Text → Text
  | 0, _ => []
  | fuel + 1, file =>
    let buffer := file.take dataSize
    if buffer = [] then [] else sendBytes buffer ++ sendFile fuel (file.drop dataSize)

def requestLine (verb filename : Text) : Text := verb ++ ascii [' '] ++ filename ++ [newline]

def sendToServer : Request → Text
  | .get remote => sendBytes (requestLine (ascii ['G', 'E', 'T']) (requestFilename remote))
  | .put remote contents =>
    sendBytes (requestLine (ascii ['P', 'U', 'T']) (requestFilename remote)) ++
      sendBytes (leEncode 8 contents.length) ++ sendFile (contents.length + 1) contents
  | .delete remote => sendBytes (requestLine (ascii ['D', 'E', 'L', 'E', 'T', 'E']) (requestFilename remote))
  | .list => sendBytes (ascii ['L', 'I', 'S', 'T'] ++ [newline])

def receiveBytes (n : Nat) (s : Incoming) : Text × Incoming := recvall false n true n s

def receiveFile : Nat → Incoming → Text
  | 0, _ => []
  | fuel + 1, s =>
    let (buffer, s) := receiveBytes dataSize s
    if buffer = [] then [] else buffer ++ receiveFile fuel s

/-- The loop of a LIST; nothing when more comes than was announced. -/
def receiveList (size : Nat) : Nat → Text → Incoming → Option Text
  | 0, output, _ => some output
  | fuel + 1, output, s =>
    let (buffer, s) := receiveBytes dataSize s
    if buffer = [] then some output
    else if size < output.length + buffer.length then none
    else receiveList size fuel (output ++ buffer) s

/-- The loop that reads an error message, to which `strncat` appends all bytes but NUL. -/
def receiveError : Nat → Text → Incoming → Option Text
  | 0, error, _ => some error
  | fuel + 1, error, s =>
    match receiveBytes 1 s with
    | ([], _) => some error
    | (b :: _, s) =>
      if b = newline then some error
      else if b = 0 then receiveError fuel error s
      else if error.length + 1 < 256 then receiveError fuel (error ++ [b]) s
      else none

/-- What follows the line OK. -/
def receiveResponse (method : Verb) (s : Incoming) : Option Outcome :=
  match method with
  | .get =>
    let (sizeBytes, s) := receiveBytes 8 s
    let size := leDecode sizeBytes
    let file := receiveFile (s.stream.length + 1) s
    if file.length < size then some .tooLittleData
    else if size < file.length then some .receivedTooMuchData
    else some (.stored file)
  | .list =>
    let (sizeBytes, s) := receiveBytes 8 s
    let size := leDecode sizeBytes
    match receiveList size (s.stream.length + 1) [] s with
    | none => some .receivedTooMuchData
    | some output =>
      if output.length < size then some .tooLittleData
      else some (.printed (output.takeWhile fun b => b ≠ 0))
  | _ => some .success

def getFromServer (method : Verb) (s : Incoming) : Option Outcome :=
  let (first, s) := receiveBytes 1 s
  if first = ascii ['O'] then
    let (rest, s) := receiveBytes 2 s
    if first ++ rest ≠ okLine then some .invalidResponse
    else receiveResponse method s
  else if first = ascii ['E'] then
    let (rest, s) := receiveBytes 5 s
    if first ++ rest ≠ errorLine then some .invalidResponse
    else (receiveError (s.stream.length + 1) [] s).map .error
  else some .invalidResponse

/-! ## What is sent and received -/

theorem sendFile_eq {fuel : Nat} {file : Text} (h : file.length < fuel) : sendFile fuel file = file := by
  induction fuel generalizing file with
  | zero => cases h
  | succ fuel ih =>
    unfold sendFile
    dsimp only
    split
    · rename_i hnil
      rcases List.take_eq_nil_iff.mp hnil with hz | hf
      · cases hz
      · exact hf.symm
    · rename_i hne
      have hpos : file ≠ [] := by
        intro e
        rw [e] at hne
        exact hne List.take_nil
      have hlen := List.length_pos_iff.mpr hpos
      rw [sendBytes_eq, ih (by rw [List.length_drop]; unfold dataSize; omega), List.take_append_drop]

/-- The client's reads depend on the stream alone. -/
theorem receiveBytes_eq (n : Nat) (s : Incoming) :
    (receiveBytes n s).1 = s.stream.take n ∧ (receiveBytes n s).2.stream = s.stream.drop n := recvall_blocking n s

theorem receiveFile_eq {fuel : Nat} {s : Incoming} (h : s.stream.length < fuel) : receiveFile fuel s = s.stream := by
  induction fuel generalizing s with
  | zero => cases h
  | succ fuel ih =>
    rcases receiveBytes_eq dataSize s with ⟨h1, h2⟩
    unfold receiveFile
    dsimp only
    rw [h1]
    split
    · rename_i hnil
      rcases List.take_eq_nil_iff.mp hnil with hz | hf
      · cases hz
      · exact hf.symm
    · rename_i hne
      have hlen := List.length_pos_iff.mpr (List.ne_nil_of_take_ne_nil hne)
      rw [ih (by rw [h2, List.length_drop]; unfold dataSize; omega), h2, List.take_append_drop]

theorem receiveList_eq {size fuel : Nat} {output : Text} {s : Incoming} (h : s.stream.length < fuel)
    (hsize : output.length + s.stream.length ≤ size) : receiveList size fuel output s = some (output ++ s.stream) := by
  induction fuel generalizing output s with
  | zero => cases h
  | succ fuel ih =>
    rcases receiveBytes_eq dataSize s with ⟨h1, h2⟩
    unfold receiveList
    dsimp only
    rw [h1]
    split
    · rename_i hnil
      rcases List.take_eq_nil_iff.mp hnil with hz | hf
      · cases hz
      · rw [hf, List.append_nil]
    · rename_i hne
      have hlen := List.length_pos_iff.mpr (List.ne_nil_of_take_ne_nil hne)
      have hsum : (output ++ s.stream.take dataSize).length + (s.stream.drop dataSize).length ≤ size := by
        rw [List.length_append, List.length_take, List.length_drop]
        omega
      rw [if_neg (by rw [List.length_take]; omega), ih (by rw [h2, List.length_drop]; unfold dataSize; omega)
        (by rw [h2]; exact hsum), h2, List.append_assoc, List.take_append_drop]

theorem receiveBytes_one_nil {s : Incoming} (h : s.stream = []) : ∃ s', receiveBytes 1 s = ([], s') := by
  rcases receiveBytes_eq 1 s with ⟨h1, _⟩
  rw [h] at h1
  exact ⟨_, Prod.ext h1 rfl⟩

theorem receiveBytes_one_cons {s : Incoming} {b : UInt8} {l : Text} (h : s.stream = b :: l) :
    ∃ s', receiveBytes 1 s = ([b], s') ∧ s'.stream = l := by
  rcases receiveBytes_eq 1 s with ⟨h1, h2⟩
  rw [h] at h1 h2
  exact ⟨_, Prod.ext h1 rfl, h2⟩

/-- The message is the text up to the end of its line. -/
theorem receiveError_eq {fuel : Nat} {error : Text} {s : Incoming} (h : s.stream.length < fuel)
    (hlen : error.length + s.stream.length < 256) (hnul : 0 ∉ s.stream) :
    receiveError fuel error s = some (error ++ s.stream.takeWhile fun b => b ≠ newline) := by
  induction fuel generalizing error s with
  | zero => cases h
  | succ fuel ih =>
    unfold receiveError
    cases hs : s.stream with
    | nil =>
      obtain ⟨s', hpair⟩ := receiveBytes_one_nil hs
      rw [hpair, List.takeWhile_nil, List.append_nil]
    | cons b l =>
      obtain ⟨s', hpair, hstream⟩ := receiveBytes_one_cons hs
      rw [hs] at h hlen hnul
      rw [hpair]
      dsimp only
      rw [List.length_cons] at h hlen
      split
      · rename_i hb
        rw [List.takeWhile_cons_of_neg (by simpa using hb), List.append_nil]
      · rename_i hb
        have hb0 : b ≠ 0 := fun e => hnul (e ▸ List.mem_cons_self)
        rw [if_neg hb0, if_pos (by omega), ih (by rw [hstream]; omega)
          (by rw [hstream, List.length_append, List.length_singleton]; omega)
          (by rw [hstream]; exact fun hm => hnul (List.mem_cons_of_mem _ hm)), hstream,
          List.takeWhile_cons_of_pos (by simpa using hb), List.append_assoc]
        rfl

/-! ## Replies -/

theorem receiveBytes_append {n : Nat} {a : Text} (rest : Text) (chunks : List Nat) (h : a.length = n) :
    ∃ chunks', receiveBytes n ⟨chunks, a ++ rest⟩ = (a, ⟨chunks', rest⟩) := by
  rcases receiveBytes_eq n ⟨chunks, a ++ rest⟩ with ⟨h1, h2⟩
  refine ⟨(receiveBytes n ⟨chunks, a ++ rest⟩).2.chunks, Prod.ext (h1.trans (List.take_left' h)) ?_⟩
  cases hs : (receiveBytes n ⟨chunks, a ++ rest⟩).2 with
  | mk c l =>
    rw [hs] at h2
    exact congrArg _ (h2.trans (List.drop_left' h))

theorem getFromServer_ok (method : Verb) (rest : Text) (chunks : List Nat) :
    ∃ chunks', getFromServer method ⟨chunks, okLine ++ rest⟩ = receiveResponse method ⟨chunks', rest⟩ := by
  have hline : okLine ++ rest = ascii ['O'] ++ (ascii ['K'] ++ [newline] ++ rest) := rfl
  rcases receiveBytes_append (n := 1) (a := ascii ['O']) (ascii ['K'] ++ [newline] ++ rest) chunks rfl with ⟨c, h1⟩
  rcases receiveBytes_append (n := 2) (a := ascii ['K'] ++ [newline]) rest c rfl with ⟨c', h2⟩
  refine ⟨c', ?_⟩
  unfold getFromServer
  rw [hline, h1]
  dsimp only
  rw [if_pos rfl, h2]
  dsimp only
  rw [if_neg (by decide)]

theorem getFromServer_stored {file : Text} {chunks : List Nat} (h : file.length < 2 ^ 64) :
    getFromServer .get ⟨chunks, okLine ++ leEncode 8 file.length ++ file⟩ = some (.stored file) := by
  rcases getFromServer_ok .get (leEncode 8 file.length ++ file) chunks with ⟨c, h1⟩
  rcases receiveBytes_append (n := 8) (a := leEncode 8 file.length) file c leEncode_length with ⟨c', h2⟩
  rw [List.append_assoc, h1]
  unfold receiveResponse
  dsimp only
  rw [h2]
  dsimp only
  have hsize : leDecode (leEncode 8 file.length) = file.length := leDecode_leEncode (Nat.lt_of_lt_of_le h (by decide))
  have hfile : receiveFile (file.length + 1) ⟨c', file⟩ = file := receiveFile_eq (Nat.lt_succ_self _)
  simp only [hfile, hsize, Nat.lt_irrefl, if_false]

theorem getFromServer_printed {text : Text} {chunks : List Nat} (h : text.length < 2 ^ 64) (hnul : 0 ∉ text) :
    getFromServer .list ⟨chunks, okLine ++ leEncode 8 text.length ++ text⟩ = some (.printed text) := by
  rcases getFromServer_ok .list (leEncode 8 text.length ++ text) chunks with ⟨c, h1⟩
  rcases receiveBytes_append (n := 8) (a := leEncode 8 text.length) text c leEncode_length with ⟨c', h2⟩
  have hall : text.takeWhile (fun b => b ≠ 0) = text := by
    apply List.takeWhile_eq_self_iff.mpr
    intro b hb
    exact decide_eq_true fun e => hnul (e ▸ hb)
  rw [List.append_assoc, h1]
  unfold receiveResponse
  dsimp only
  rw [h2]
  dsimp only
  have hsize : leDecode (leEncode 8 text.length) = text.length := leDecode_leEncode (Nat.lt_of_lt_of_le h (by decide))
  have hlist : receiveList text.length (text.length + 1) [] ⟨c', text⟩ = some ([] ++ text) :=
    receiveList_eq (Nat.lt_succ_self _) (by simp)
  simp only [hsize, hlist, List.nil_append, Nat.lt_irrefl, if_false, hall]

theorem getFromServer_success {method : Verb} {rest : Text} {chunks : List Nat}
    (h : method = .put ∨ method = .delete) : getFromServer method ⟨chunks, okLine ++ rest⟩ = some .success := by
  rcases getFromServer_ok method rest chunks with ⟨c, h1⟩
  rw [h1]
  rcases h with h | h
  · rw [h]
    rfl
  · rw [h]
    rfl

theorem getFromServer_error {method : Verb} {message : Text} {chunks : List Nat} (h : message.length < 256)
    (hnul : 0 ∉ message) :
    getFromServer method ⟨chunks, errorLine ++ message⟩ = some (.error (message.takeWhile fun b => b ≠ newline)) := by
  have hline : errorLine ++ message = ascii ['E'] ++ (ascii ['R', 'R', 'O', 'R'] ++ [newline] ++ message) := rfl
  rcases receiveBytes_append (n := 1) (a := ascii ['E'])
    (ascii ['R', 'R', 'O', 'R'] ++ [newline] ++ message) chunks rfl with ⟨c, h1⟩
  rcases receiveBytes_append (n := 5) (a := ascii ['R', 'R', 'O', 'R'] ++ [newline]) message c rfl with ⟨c', h2⟩
  unfold getFromServer
  rw [hline, h1]
  dsimp only
  rw [if_neg (by decide), if_pos rfl, h2]
  dsimp only
  have hmessage : receiveError (message.length + 1) [] ⟨c', message⟩ =
      some ([] ++ message.takeWhile fun b => b ≠ newline) :=
    receiveError_eq (Nat.lt_succ_self _) (by simpa using h) hnul
  rw [if_neg (by decide), hmessage]
  rfl

end SysProg.Net
