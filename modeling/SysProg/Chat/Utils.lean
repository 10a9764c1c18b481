/-
  SysProg.Chat.Utils — charming_chatroom/utils.c: whole buffers and message sizes over a
  socket, and the loops of a writer and a reader of messages.

  A `Socket` is the receiving end of a connection: the bytes that come before the end of
  the stream, and what each `recv` does. `Transfer` says it for one call: it fails with
  EINTR, fails otherwise, or moves at most so many bytes, but at least one; with nothing
  said it moves all it is asked for. A `recv` at the end of the stream returns 0. The
  host is little-endian, with 64-bit `ssize_t`. Every read loop takes a turn for each
  `Transfer` and two more at most, and the fuel of the loops is that.

  When nothing but EINTR fails, a read gets the next bytes of the stream however they
  come (`readAllFromSocket_spec`) and a write hands over all of its buffer
  (`writeAllToSocket_spec`).
-/

import SysProg.Lib.Bytes

namespace SysProg.Chat

open SysProg.Bytes (leDecode leEncode leEncode_length leDecode_leEncode)

abbrev Text := List UInt8

def messageSizeDigits : Nat := 4

inductive Transfer where
  | eintr
  | failed
  | atMost (n : Nat)
  deriving DecidableEq

structure Socket where
  recvs : List Transfer
  stream : Text
  deriving DecidableEq

/-- `read_all_from_socket`: the bytes read so far are `got`. Its value, and what is in the buffer. -/
def readLoop : Nat → Socket → Nat → Text → Option (Int × Text × Socket)
  | 0, _, _, _ => none
  | fuel + 1, s, count, got =>
    if count ≤ got.length then some (got.length, got, s)
    else
      let left := count - got.length
      match s.recvs.headD (.atMost left) with
      | .eintr => readLoop fuel { s with recvs := s.recvs.tail } count got
      | .failed => some (-1, got, { s with recvs := s.recvs.tail })
      | .atMost n =>
        let bytes := s.stream.take (min left (max n 1))
        let s : Socket := ⟨s.recvs.tail, s.stream.drop bytes.length⟩
        if bytes = [] then some (got.length, got, s) else readLoop fuel s count (got ++ bytes)

def readAllFromSocket (s : Socket) (count : Nat) : Option (Int × Text × Socket) :=
  readLoop (s.recvs.length + 2) s count []

/-- `write_all_to_socket`: its value, the bytes handed over and the calls of `send` left. -/
def writeLoop : Nat → List Transfer → Text → Nat → Text → Option (Int × Text × List Transfer)
  | 0, _, _, _, _ => none
  | fuel + 1, sends, buffer, written, out =>
    if buffer.length ≤ written then some (written, out, sends)
    else
      let left := buffer.length - written
      match sends.headD (.atMost left) with
      | .eintr => writeLoop fuel sends.tail buffer written out
      | .failed => some (-1, out, sends.tail)
      | .atMost n =>
        let n := min left (max n 1)
        if n = 0 then some (written, out, sends.tail)
        else writeLoop fuel sends.tail buffer (written + n) (out ++ (buffer.drop written).take n)

def writeAllToSocket (sends : List Transfer) (buffer : Text) : Option (Int × Text × List Transfer) :=
  writeLoop (sends.length + 2) sends buffer 0 []

def htonl (n : Nat) : Nat := leDecode (leEncode 4 n).reverse

def ntohl (n : Nat) : Nat := leDecode (leEncode 4 n).reverse

/-- `size` on the stack, which holds what `stack` says, once these bytes are read into it. -/
def sizeWord (got : Text) (stack : Nat → UInt8) : Nat :=
  leDecode (got ++ (List.range (messageSizeDigits - got.length)).map fun i => stack (got.length + i))

/-- `get_message_size`: what `read_all_from_socket` returned, or else the size it makes of the bytes. -/
def getMessageSize (s : Socket) (stack : Nat → UInt8) : Option (Except Int Nat × Socket) :=
  (readAllFromSocket s messageSizeDigits).map fun (readBytes, got, s) =>
    if readBytes = 0 ∨ readBytes = -1 then (.error readBytes, s) else (.ok (ntohl (sizeWord got stack)), s)

def retvalOf : Except Int Nat → Int
  | .error readBytes => readBytes
  | .ok size => size

/-- `hsize` is eight bytes, and the first four are sent. -/
def sizeBytes (size : Nat) : Text := (leEncode 8 (htonl size)).take messageSizeDigits

def writeMessageSize (sends : List Transfer) (size : Nat) : Option (Int × Text × List Transfer) :=
  writeAllToSocket sends (sizeBytes size)

/-! ## Messages, one after the other -/

/-- The writer's loop, as `write_to_server` runs it: what it hands over. -/
def writeMessages : List Transfer → List Text → Option Text
  | _, [] => some []
  | sends, msg :: msgs => (writeMessageSize sends msg.length).bind fun (retval, header, sends) =>
    if retval ≤ 0 then some header
    else (writeAllToSocket sends msg).bind fun (retval, payload, sends) =>
      if retval ≤ 0 then some (header ++ payload)
      else (writeMessages sends msgs).map fun rest => header ++ payload ++ rest

/-- The reader's loop, as `read_from_server` runs it: the messages it reads. Each turn but the
    last reads a byte at least. -/
def readMessages : Nat → Socket → (Nat → UInt8) → Option (List Text)
  | 0, _, _ => none
  | fuel + 1, s, stack => (getMessageSize s stack).bind fun (size, s) =>
    if retvalOf size ≤ 0 then some []
    else (readAllFromSocket s (retvalOf size).toNat).bind fun (retval, buffer, s) =>
      if retval ≤ 0 then some [] else (readMessages fuel s stack).map fun msgs => buffer :: msgs

/-! ## What is read and written -/

/-- Nothing fails but with EINTR. -/
def Works (calls : List Transfer) : Prop := .failed ∉ calls

instance (calls : List Transfer) : Decidable (Works calls) := inferInstanceAs (Decidable (.failed ∉ calls))

/-- The outcome of reading on: the bytes there are, up to `count` in all, and the rest left in the stream. -/
def Reads (stream : Text) (count : Nat) (got : Text) (r : Option (Int × Text × Socket)) : Prop :=
  ∃ recvs, Works recvs ∧
    r = some (((got ++ stream.take (count - got.length)).length : Int), got ++ stream.take (count - got.length),
      ⟨recvs, stream.drop (count - got.length)⟩)

variable {s : Socket} {recvs sends : List Transfer} {stream got buffer out : Text} {count written fuel k : Nat}
  {r : Option (Int × Text × Socket)}

theorem Works.tail {c : Transfer} (h : Works (c :: recvs)) : Works recvs := fun hm => h (List.mem_cons_of_mem c hm)

theorem Works.head (h : Works (.failed :: recvs)) : False := h List.mem_cons_self

theorem Reads.full (hw : Works recvs) (h : count ≤ got.length) :
    Reads stream count got (some (got.length, got, ⟨recvs, stream⟩)) := by
  refine ⟨recvs, hw, ?_⟩
  rw [Nat.sub_eq_zero_of_le h, List.take_zero, List.append_nil, List.drop_zero]

theorem Reads.ended (hw : Works recvs) : Reads [] count got (some (got.length, got, ⟨recvs, []⟩)) := by
  refine ⟨recvs, hw, ?_⟩
  rw [List.take_nil, List.append_nil, List.drop_nil]

/-- Bytes that have come no longer count as to come. -/
theorem Reads.more (hk : k ≤ count - got.length) (h : Reads (stream.drop k) count (got ++ stream.take k) r) :
    Reads stream count got r := by
  rcases h with ⟨recvs, hw, rfl⟩
  refine ⟨recvs, hw, ?_⟩
  have hbytes : got ++ stream.take k ++ (stream.drop k).take (count - (got ++ stream.take k).length) =
      got ++ stream.take (count - got.length) := by
    rw [List.append_assoc, List.length_append, List.length_take]
    congr 1
    rcases Nat.le_total k stream.length with hlen | hlen
    · rw [Nat.min_eq_left hlen, ← Nat.sub_sub, ← List.take_add, Nat.add_sub_cancel' hk]
    · rw [List.drop_of_length_le hlen, List.take_nil, List.append_nil, List.take_of_length_le hlen,
        List.take_of_length_le (Nat.le_trans hlen hk)]
  have hrest : (stream.drop k).drop (count - (got ++ stream.take k).length) = stream.drop (count - got.length) := by
    rw [List.length_append, List.length_take, List.drop_drop]
    rcases Nat.le_total k stream.length with hlen | hlen
    · congr 1
      omega
    · rw [List.drop_of_length_le (by omega), List.drop_of_length_le (by omega)]
  rw [hbytes, hrest]

/-- A `recv` that works, and the turns after it. -/
theorem readLoop_recv (hw : Works recvs) (hk : 0 < k) (hk' : k ≤ count - got.length)
    (hrest : stream ≠ [] → Reads (stream.drop k) count (got ++ stream.take k)
      (readLoop fuel ⟨recvs, stream.drop k⟩ count (got ++ stream.take k))) :
    Reads stream count got
      (if stream.take k = [] then some (got.length, got, ⟨recvs, stream.drop (stream.take k).length⟩)
        else readLoop fuel ⟨recvs, stream.drop (stream.take k).length⟩ count (got ++ stream.take k)) := by
  have hdrop : stream.drop (stream.take k).length = stream.drop k := by
    rw [List.length_take]
    rcases Nat.le_total k stream.length with hlen | hlen
    · rw [Nat.min_eq_left hlen]
    · rw [Nat.min_eq_right hlen, List.drop_length, List.drop_of_length_le hlen]
  rw [hdrop]
  split
  · rename_i hnone
    have hnil : stream = [] := (List.take_eq_nil_iff.mp hnone).resolve_left (by omega)
    subst hnil
    rw [List.drop_nil]
    exact Reads.ended hw
  · rename_i hsome
    refine Reads.more hk' (hrest ?_)
    intro heq
    subst heq
    exact hsome List.take_nil

/-- With nothing said of the calls left, one turn reads all there is and another ends it. -/
theorem readLoop_rest (hf : 2 ≤ fuel) : Reads stream count got (readLoop fuel ⟨[], stream⟩ count got) := by
  have hnone : Works [] := List.not_mem_nil
  obtain ⟨f, rfl⟩ : ∃ f, fuel = f + 2 := ⟨fuel - 2, by omega⟩
  rw [readLoop]
  split
  · exact Reads.full hnone ‹_›
  · rename_i hlt
    have hleft : min (count - got.length) (max (count - got.length) 1) = count - got.length := by omega
    simp only [List.headD_nil, List.tail_nil, hleft]
    refine readLoop_recv hnone (by omega) (Nat.le_refl _) fun hne => ?_
    rw [readLoop]
    split
    · exact Reads.full hnone ‹_›
    · rename_i hlt'
      have hend : stream.drop (count - got.length) = [] := by
        rw [List.drop_eq_nil_iff]
        rw [List.length_append, List.length_take] at hlt'
        omega
      simp only [hend, List.headD_nil, List.tail_nil, List.take_nil, List.length_nil, List.drop_nil, if_true]
      exact Reads.ended hnone

/-- However the bytes come, a read gets the next ones. -/
theorem readLoop_spec (hw : Works recvs) (hf : recvs.length + 2 ≤ fuel) :
    Reads stream count got (readLoop fuel ⟨recvs, stream⟩ count got) := by
  induction recvs generalizing stream got fuel with
  | nil => exact readLoop_rest hf
  | cons c recvs ih =>
    rw [List.length_cons] at hf
    obtain ⟨f, rfl⟩ : ∃ f, fuel = f + 1 := ⟨fuel - 1, by omega⟩
    have hrest : ∀ stream got, Reads stream count got (readLoop f ⟨recvs, stream⟩ count got) :=
      fun stream got => ih hw.tail (by omega)
    rw [readLoop]
    split
    · exact Reads.full hw ‹_›
    · rename_i hlt
      cases c with
      | eintr => exact hrest stream got
      | failed => exact hw.head.elim
      | atMost n => exact readLoop_recv hw.tail (by omega) (by omega) fun _ => hrest _ _

theorem readAllFromSocket_spec (stream : Text) (count : Nat) (hw : Works recvs) :
    Reads stream count [] (readAllFromSocket ⟨recvs, stream⟩ count) :=
  readLoop_spec hw (Nat.le_refl _)

def Writes (buffer : Text) (written : Nat) (out : Text) (r : Option (Int × Text × List Transfer)) : Prop :=
  ∃ sends, Works sends ∧ r = some ((buffer.length : Int), out ++ buffer.drop written, sends)

theorem Writes.full (hw : Works sends) (hle : written ≤ buffer.length) (h : buffer.length ≤ written) :
    Writes buffer written out (some ((written : Int), out, sends)) := by
  refine ⟨sends, hw, ?_⟩
  rw [List.drop_of_length_le h, List.append_nil, Nat.le_antisymm hle h]

/-- What has been handed over is no longer left to hand over. -/
theorem Writes.more {r : Option (Int × Text × List Transfer)}
    (h : Writes buffer (written + k) (out ++ (buffer.drop written).take k) r) : Writes buffer written out r := by
  rcases h with ⟨sends, hw, rfl⟩
  refine ⟨sends, hw, ?_⟩
  rw [List.append_assoc, ← List.drop_drop, List.take_append_drop]

/-- However the bytes go, a write hands over what is left of its buffer. -/
theorem writeLoop_spec (hw : Works sends) (hf : sends.length + 2 ≤ fuel) (hle : written ≤ buffer.length) :
    Writes buffer written out (writeLoop fuel sends buffer written out) := by
  induction sends generalizing written out fuel with
  | nil =>
    obtain ⟨f, rfl⟩ : ∃ f, fuel = f + 2 := ⟨fuel - 2, by rw [List.length_nil] at hf; omega⟩
    rw [writeLoop]
    split
    · exact Writes.full hw hle ‹_›
    · rename_i hlt
      have hleft : min (buffer.length - written) (max (buffer.length - written) 1) = buffer.length - written := by omega
      simp only [List.headD_nil, List.tail_nil, hleft, if_neg (show buffer.length - written ≠ 0 by omega)]
      rw [writeLoop, if_pos (by omega)]
      exact Writes.more (Writes.full hw (by omega) (by omega))
  | cons c sends ih =>
    rw [List.length_cons] at hf
    obtain ⟨f, rfl⟩ : ∃ f, fuel = f + 1 := ⟨fuel - 1, by omega⟩
    rw [writeLoop]
    split
    · exact Writes.full hw hle ‹_›
    · rename_i hlt
      cases c with
      | eintr => exact ih hw.tail (by omega) hle
      | failed => exact hw.head.elim
      | atMost n =>
        simp only [List.headD_cons, List.tail_cons]
        rw [if_neg (by omega)]
        exact Writes.more (ih hw.tail (by omega) (by omega))

theorem writeAllToSocket_spec (buffer : Text) (hw : Works sends) : Writes buffer 0 [] (writeAllToSocket sends buffer) :=
  writeLoop_spec hw (Nat.le_refl _) (Nat.zero_le _)

end SysProg.Chat
