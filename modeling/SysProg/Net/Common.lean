/-
  SysProg.Net.Common — nonstop_networking/common.c: sending and receiving in full.

  `Incoming` is the receiving end of a connection: the bytes that are still to come
  before the end of the stream, and how many of them each `recv` finds there (with none
  said, all). A socket that is ready has at least one byte or the end of the stream;
  `recv` waits for that on a blocking socket, and fails otherwise on a nonblocking one.
  On a blocking socket the lengths make no difference (`recvall_blocking`); on a
  nonblocking one `recvall` returns some first part of what is to come
  (`recvall_nonblocking`).
-/

import SysProg.Lib.Bytes

namespace SysProg.Net

abbrev Text := List UInt8

def ascii (l : List Char) : Text := l.map fun c => UInt8.ofNat c.toNat

def newline : UInt8 := 10

def slash : UInt8 := 47

def okLine : Text := ascii ['O', 'K'] ++ [newline]

def errorLine : Text := ascii ['E', 'R', 'R', 'O', 'R'] ++ [newline]

def maxFilename : Nat := 255

def dataSize : Nat := 1024

inductive Verb where
  | get
  | put
  | delete
  | list
  | unknown
  deriving DecidableEq

structure Incoming where
  chunks : List Nat
  stream : Text

/-- The bytes of one `recv`; none at the end of the stream or when it fails. -/
def recv (ready : Bool) (chunk n : Nat) (stream : Text) : Text :=
  if chunk = 0 ∧ ready = false then [] else stream.take (min n (max chunk 1))

/-- The loop of `recvall` with `left` bytes to go. Each turn but the last takes a byte,
    so `left` turns are enough. -/
def recvall (nonblocking : Bool) : Nat → Bool → Nat → Incoming → Text × Incoming
  | 0, _, _, s => ([], s)
  | fuel + 1, ready, left, s =>
    if left = 0 then ([], s)
    else
      let got := recv ready (s.chunks.headD left) (min left dataSize) s.stream
      let s : Incoming := ⟨s.chunks.tail, s.stream.drop got.length⟩
      if got = [] then ([], s)
      else
        let rest := recvall nonblocking fuel (!nonblocking) (left - got.length) s
        (got ++ rest.1, rest.2)

/-- The loop of `sendall`: what the socket has taken, and the value returned. `send`
    fails or takes a number of bytes; with nothing said it takes all it is given. -/
def sendall : Nat → List (Option Nat) → Text → Text × Nat
  | 0, _, _ => ([], 0)
  | fuel + 1, results, buf =>
    if buf = [] then ([], 0)
    else
      let tryToSend := min buf.length dataSize
      match results.headD (some tryToSend) with
      | none => ([], 0)
      | some n =>
        if n ≠ tryToSend then
          let rest := sendall fuel results.tail buf
          (buf.take n ++ rest.1, rest.2)
        else
          let rest := sendall fuel results.tail (buf.drop n)
          (buf.take n ++ rest.1, n + rest.2)

/-- `sendall` when every `send` takes what it is given. -/
def sendBytes (buf : Text) : Text := (sendall buf.length [] buf).1

/-! ## What is received -/

theorem recv_append (ready : Bool) (chunk n : Nat) (stream : Text) :
    recv ready chunk n stream ++ stream.drop (recv ready chunk n stream).length = stream := by
  unfold recv
  split
  · rfl
  · conv => rhs; rw [← List.take_append_drop (min n (max chunk 1)) stream]
    rw [List.length_take, List.append_cancel_left_eq, List.drop_eq_drop_iff]
    omega

theorem recv_length (ready : Bool) (chunk n : Nat) (stream : Text) : (recv ready chunk n stream).length ≤ n := by
  unfold recv
  split
  · exact Nat.zero_le n
  · rw [List.length_take]
    omega

theorem recv_ready (chunk : Nat) {n : Nat} {stream : Text} (hn : 0 < n) (hs : stream ≠ []) :
    recv true chunk n stream ≠ [] := by
  unfold recv
  rw [if_neg (by simp)]
  intro h
  rcases List.take_eq_nil_iff.mp h with h | h
  · omega
  · exact hs h

/-- What is received and what is still to come are the stream. -/
theorem recvall_append (nonblocking ready : Bool) (fuel left : Nat) (s : Incoming) :
    (recvall nonblocking fuel ready left s).1 ++ (recvall nonblocking fuel ready left s).2.stream = s.stream ∧
      (recvall nonblocking fuel ready left s).1.length ≤ left := by
  induction fuel generalizing ready left s with
  | zero => exact ⟨rfl, Nat.zero_le left⟩
  | succ fuel ih =>
    unfold recvall
    split
    · exact ⟨rfl, Nat.zero_le left⟩
    have happ := recv_append ready (s.chunks.headD left) (min left dataSize) s.stream
    have hlen := recv_length ready (s.chunks.headD left) (min left dataSize) s.stream
    generalize recv ready (s.chunks.headD left) (min left dataSize) s.stream = got at happ hlen
    dsimp only
    split
    · rename_i hgot
      rw [hgot]
      exact ⟨rfl, Nat.zero_le left⟩
    · rcases ih (!nonblocking) (left - got.length) ⟨s.chunks.tail, s.stream.drop got.length⟩ with ⟨h1, h2⟩
      rw [List.append_assoc, h1, List.length_append]
      exact ⟨happ, by omega⟩

/-- On a blocking socket all of it is received, or the stream is at its end. -/
theorem recvall_full {fuel left : Nat} {s : Incoming} (hfuel : left ≤ fuel) :
    (recvall false fuel true left s).1.length = left ∨ (recvall false fuel true left s).2.stream = [] := by
  induction fuel generalizing left s with
  | zero => exact Or.inl (Nat.le_zero.mp hfuel).symm
  | succ fuel ih =>
    unfold recvall
    split
    · rename_i h
      exact Or.inl h.symm
    rename_i hleft
    have hlen := recv_length true (s.chunks.headD left) (min left dataSize) s.stream
    have hsome : s.stream ≠ [] → recv true (s.chunks.headD left) (min left dataSize) s.stream ≠ [] :=
      recv_ready _ (by unfold dataSize; omega)
    generalize recv true (s.chunks.headD left) (min left dataSize) s.stream = got at hlen hsome
    dsimp only
    split
    · rename_i hgot
      apply Or.inr
      by_contra h
      refine hsome ?_ hgot
      intro hs
      rw [hs] at h
      exact h List.drop_nil
    · rename_i hgot
      have hpos := List.length_pos_iff.mpr hgot
      have hroom : left ≤ fuel + got.length := by omega
      rcases ih (s := ⟨s.chunks.tail, s.stream.drop got.length⟩) (Nat.sub_le_of_le_add hroom) with h | h
      · rw [Bool.not_false, List.length_append, h]
        exact Or.inl (by omega)
      · exact Or.inr h

/-- However the bytes arrive. -/
theorem recvall_blocking (left : Nat) (s : Incoming) :
    (recvall false left true left s).1 = s.stream.take left ∧
      (recvall false left true left s).2.stream = s.stream.drop left := by
  rcases recvall_append false true left left s with ⟨happ, hlen⟩
  have hfull := recvall_full (s := s) (Nat.le_refl left)
  generalize recvall false left true left s = x at happ hlen hfull
  rw [← happ]
  rcases hfull with h | h
  · rw [← h, List.take_left, List.drop_left]
    exact ⟨rfl, rfl⟩
  · rw [h, List.append_nil, List.take_of_length_le hlen, List.drop_of_length_le hlen]
    exact ⟨rfl, rfl⟩

/-- A nonblocking socket that is ready gives a byte, unless the stream is at its end. -/
theorem recvall_ready (nonblocking : Bool) {left : Nat} {s : Incoming} (hleft : 0 < left) (hs : s.stream ≠ []) :
    (recvall nonblocking left true left s).1 ≠ [] := by
  cases left with
  | zero => cases hleft
  | succ left =>
    unfold recvall
    rw [if_neg (Nat.succ_ne_zero left)]
    have hsome := recv_ready (s.chunks.headD (left + 1)) (n := min (left + 1) dataSize) (by unfold dataSize; omega) hs
    dsimp only
    rw [if_neg hsome]
    intro h
    exact hsome (List.append_eq_nil_iff.mp h).1

theorem sendBytes_eq (buf : Text) : sendBytes buf = buf := by
  suffices h : ∀ fuel, buf.length ≤ fuel → (sendall fuel [] buf).1 = buf from h _ (Nat.le_refl _)
  intro fuel
  induction fuel generalizing buf with
  | zero =>
    intro h
    rw [List.length_eq_zero_iff.mp (Nat.le_zero.mp h)]
    rfl
  | succ fuel ih =>
    intro h
    unfold sendall
    split
    · rename_i hnil
      exact hnil.symm
    · rename_i hne
      have hpos := List.length_pos_iff.mpr hne
      dsimp only [List.headD_nil, List.tail_nil]
      rw [if_neg (by simp)]
      dsimp only
      rw [ih _ (by rw [List.length_drop]; unfold dataSize; omega), List.take_append_drop]

end SysProg.Net
