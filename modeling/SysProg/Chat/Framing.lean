/-
  SysProg.Chat.Framing — messages are read back as they were written.

  A size goes over the wire as four bytes, most significant first (`sizeBytes_eq`), and what
  the reader makes of them is the size (`getMessageSize_header`). A writer that is not failed
  hands over the frames of its messages, whatever the calls of `send` take
  (`writeMessages_spec`), and a reader of frames gets the messages, whatever the calls of
  `recv` give (`readMessages_spec`). Both together: every list of messages of one byte to
  2^32 - 1 bytes comes through (`messages_come_through`).
-/

import SysProg.Chat.Utils

namespace SysProg.Chat

open SysProg.Bytes (leDecode leEncode leEncode_length leDecode_leEncode leDecode_lt leEncode_leDecode leEncode_take)

variable {n : Nat} {recvs sends : List Transfer} {stream msg : Text} {msgs : List Text} {stack : Nat → UInt8}

/-! ## Sizes -/

theorem sizeBytes_eq : sizeBytes n = (leEncode 4 n).reverse := by
  unfold sizeBytes htonl messageSizeDigits
  rw [leEncode_take (by decide)]
  exact leEncode_leDecode (by rw [List.length_reverse, leEncode_length])

theorem sizeBytes_length : (sizeBytes n).length = messageSizeDigits := by
  rw [sizeBytes_eq, List.length_reverse, leEncode_length]
  rfl

theorem sizeWord_full {got : Text} (h : got.length = messageSizeDigits) : sizeWord got stack = leDecode got := by
  unfold sizeWord
  rw [h, Nat.sub_self, List.range_zero, List.map_nil, List.append_nil]

theorem ntohl_sizeBytes (h : n < 2 ^ 32) : ntohl (leDecode (sizeBytes n)) = n := by
  have hback : leEncode 4 (leDecode (sizeBytes n)) = sizeBytes n := leEncode_leDecode sizeBytes_length
  unfold ntohl
  rw [hback, sizeBytes_eq, List.reverse_reverse]
  exact leDecode_leEncode h

/-! ## Reading and writing whole frames -/

/-- A read of what the stream starts with. -/
theorem readAllFromSocket_append (bytes stream : Text) (hw : Works recvs) :
    ∃ recvs', Works recvs' ∧
      readAllFromSocket ⟨recvs, bytes ++ stream⟩ bytes.length =
        some ((bytes.length : Int), bytes, ⟨recvs', stream⟩) := by
  rcases readAllFromSocket_spec (bytes ++ stream) bytes.length hw with ⟨recvs', hw', hr⟩
  rw [List.nil_append, List.length_nil, Nat.sub_zero, List.take_left, List.drop_left] at hr
  exact ⟨recvs', hw', hr⟩

/-- A whole header gives its size, and is gone from the stream. -/
theorem getMessageSize_header (stream : Text) (stack : Nat → UInt8) (hw : Works recvs) (hn : n < 2 ^ 32) :
    ∃ recvs', Works recvs' ∧
      getMessageSize ⟨recvs, sizeBytes n ++ stream⟩ stack = some (.ok n, ⟨recvs', stream⟩) := by
  rcases readAllFromSocket_append (sizeBytes n) stream hw with ⟨recvs', hw', hr⟩
  refine ⟨recvs', hw', ?_⟩
  rw [sizeBytes_length] at hr
  have hfour : ¬ (((messageSizeDigits : Nat) : Int) = 0 ∨ ((messageSizeDigits : Nat) : Int) = -1) := by decide
  simp only [getMessageSize, hr, Option.map_some]
  rw [if_neg hfour, sizeWord_full sizeBytes_length, ntohl_sizeBytes hn]

theorem getMessageSize_ended (stack : Nat → UInt8) (hw : Works recvs) :
    ∃ recvs', Works recvs' ∧ getMessageSize ⟨recvs, []⟩ stack = some (.error 0, ⟨recvs', []⟩) := by
  rcases readAllFromSocket_spec [] messageSizeDigits hw with ⟨recvs', hw', hr⟩
  rw [List.take_nil, List.drop_nil, List.append_nil] at hr
  refine ⟨recvs', hw', ?_⟩
  rw [getMessageSize, hr]
  rfl

def frame (msg : Text) : Text := sizeBytes msg.length ++ msg

def frames (msgs : List Text) : Text := msgs.flatMap frame

theorem frames_cons : frames (msg :: msgs) = sizeBytes msg.length ++ (msg ++ frames msgs) := by
  rw [frames, List.flatMap_cons, frame, List.append_assoc]
  rfl

theorem writeMessages_spec (hw : Works sends) (hne : ∀ msg ∈ msgs, msg ≠ []) :
    writeMessages sends msgs = some (frames msgs) := by
  induction msgs generalizing sends with
  | nil => rfl
  | cons msg msgs ih =>
    rcases writeAllToSocket_spec (sizeBytes msg.length) hw with ⟨sends₁, hw₁, hheader⟩
    rcases writeAllToSocket_spec msg hw₁ with ⟨sends₂, hw₂, hpayload⟩
    rw [List.drop_zero, List.nil_append] at hheader hpayload
    have hpos := List.length_pos_iff.mpr (hne msg List.mem_cons_self)
    rw [writeMessages, writeMessageSize, hheader, Option.bind_some]
    simp only [sizeBytes_length, hpayload, Option.bind_some]
    rw [if_neg (by decide), if_neg (by omega), ih hw₂ fun m hm => hne m (List.mem_cons_of_mem msg hm), frames_cons,
      Option.map_some, List.append_assoc]

theorem readMessages_nil {fuel : Nat} (hw : Works recvs) : readMessages (fuel + 1) ⟨recvs, []⟩ stack = some [] := by
  rcases getMessageSize_ended stack hw with ⟨recvs', _, hsize⟩
  rw [readMessages, hsize, Option.bind_some]
  rfl

theorem readMessages_spec {fuel : Nat} (hw : Works recvs) (hlen : ∀ msg ∈ msgs, 1 ≤ msg.length ∧ msg.length < 2 ^ 32)
    (hf : msgs.length < fuel) : readMessages fuel ⟨recvs, frames msgs⟩ stack = some msgs := by
  induction msgs generalizing recvs fuel with
  | nil =>
    obtain ⟨f, rfl⟩ : ∃ f, fuel = f + 1 := ⟨fuel - 1, by omega⟩
    exact readMessages_nil hw
  | cons msg msgs ih =>
    obtain ⟨f, rfl⟩ : ∃ f, fuel = f + 1 := ⟨fuel - 1, by omega⟩
    have hmsg := hlen msg List.mem_cons_self
    rw [List.length_cons] at hf
    rcases getMessageSize_header (msg ++ frames msgs) stack hw hmsg.2 with ⟨recvs₁, hw₁, hsize⟩
    rcases readAllFromSocket_append msg (frames msgs) hw₁ with ⟨recvs₂, hw₂, hpayload⟩
    rw [frames_cons, readMessages, hsize, Option.bind_some]
    simp only [retvalOf, Int.toNat_natCast, hpayload, Option.bind_some]
    rw [if_neg (by omega), if_neg (by omega), ih hw₂ (fun m hm => hlen m (List.mem_cons_of_mem msg hm)) (by omega),
      Option.map_some]

theorem length_le_frames : msgs.length ≤ (frames msgs).length := by
  induction msgs with
  | nil => exact Nat.zero_le _
  | cons msg msgs ih =>
    rw [frames_cons, List.length_append, List.length_append, List.length_cons, sizeBytes_length, messageSizeDigits]
    omega

/-- **Every message comes through.** However the calls of `send` and `recv` cut the stream and
    whenever EINTR interrupts them, the reader gets the writer's messages. -/
theorem messages_come_through (msgs : List Text) (hlen : ∀ msg ∈ msgs, 1 ≤ msg.length ∧ msg.length < 2 ^ 32)
    (sends recvs : List Transfer) (hs : Works sends) (hr : Works recvs) (stack : Nat → UInt8) :
    ∃ stream, writeMessages sends msgs = some stream ∧
      readMessages (stream.length + 1) ⟨recvs, stream⟩ stack = some msgs := by
  refine ⟨frames msgs, writeMessages_spec hs fun msg hm => ?_, readMessages_spec hr hlen ?_⟩
  · exact List.length_pos_iff.mp (hlen msg hm).1
  · exact Nat.lt_succ_of_le length_le_frames

/-- Two messages in pieces of one to three bytes, with interruptions on both sides. -/
theorem messages_come_through_in_pieces :
    ∃ stream, writeMessages [.atMost 3, .eintr, .atMost 1, .eintr, .eintr, .atMost 2] [[104, 105], [0]] = some stream ∧
      readMessages (stream.length + 1) ⟨[.eintr, .atMost 1, .atMost 2, .eintr, .atMost 9, .atMost 1], stream⟩
        (fun _ => 0) = some [[104, 105], [0]] :=
  messages_come_through [[104, 105], [0]] (by decide) _ _ (by decide) (by decide) _

end SysProg.Chat
