/-
  SysProg.Chat.ProcessClient — charming_chatroom/server.c: what one client's thread makes of its
  stream.

  `process_client` reads a size and then as many bytes, hands what it read to
  `write_to_clients`, and goes on while the value of the last read is positive. The trace is the
  sizes `get_message_size` makes of bytes and what is broadcast. The session is not ended
  meanwhile, and `calloc` succeeds. The sender writes frames and closes the connection after
  any `n` bytes: `complete` and `headers` are the messages and the sizes these bytes hold
  whole, `leftover` what is there of the frame they end in.

  At the end of the stream `read_all_from_socket` returns how many bytes it has, which both
  callers take for success. So a header cut short is made a size, with what the stack held in
  the missing bytes, and a payload cut short is broadcast (`processClient_spec`): the trace is
  right when the cut is at the end of a frame or right after a header, and at no other
  place (`broadcasts_complete_iff`, `cut_payload_is_broadcast`).
-/

import SysProg.Chat.Framing

namespace SysProg.Chat

inductive Act where
  | size (n : Nat)
  | broadcast (msg : Text)
  deriving DecidableEq

def sizeActs : Except Int Nat → List Act
  | .error _ => []
  | .ok n => [.size n]

def clientLoop : Nat → Socket → (Nat → UInt8) → Option (List Act)
  | 0, _, _ => none
  | fuel + 1, s, stack => (getMessageSize s stack).bind fun (size, s) =>
    if retvalOf size ≤ 0 then some (sizeActs size)
    else (readAllFromSocket s (retvalOf size).toNat).bind fun (retval, buffer, s) =>
      if retval ≤ 0 then some (sizeActs size)
      else (clientLoop fuel s stack).map fun acts => sizeActs size ++ .broadcast buffer :: acts

/-- `process_client`. Every turn but the last reads a byte at least. -/
def processClient (s : Socket) (stack : Nat → UInt8) : Option (List Act) := clientLoop (s.stream.length + 1) s stack

def broadcasts (acts : List Act) : List Text := acts.filterMap fun | .broadcast msg => some msg | .size _ => none

def sizes (acts : List Act) : List Nat := acts.filterMap fun | .size n => some n | .broadcast _ => none

/-! ## What the first bytes of a stream hold -/

def complete : Nat → List Text → List Text
  | _, [] => []
  | n, msg :: msgs => if (frame msg).length ≤ n then msg :: complete (n - (frame msg).length) msgs else []

def headers : Nat → List Text → List Nat
  | _, [] => []
  | n, msg :: msgs =>
    if n < messageSizeDigits then []
    else msg.length :: if (frame msg).length ≤ n then headers (n - (frame msg).length) msgs else []

/-- The bytes of the frame they end in. -/
def leftover : Nat → List Text → Nat
  | _, [] => 0
  | n, msg :: msgs => if (frame msg).length ≤ n then leftover (n - (frame msg).length) msgs else n

variable {n fuel : Nat} {recvs : List Transfer} {stream msg part : Text} {msgs : List Text} {stack : Nat → UInt8}

theorem frame_length : (frame msg).length = messageSizeDigits + msg.length := by
  rw [frame, List.length_append, sizeBytes_length]

theorem take_frames (h : (frame msg).length ≤ n) :
    (frames (msg :: msgs)).take n = sizeBytes msg.length ++ (msg ++ (frames msgs).take (n - (frame msg).length)) := by
  rw [frames_cons, ← List.append_assoc, List.take_append, ← frame, List.take_of_length_le h, frame, List.append_assoc]

theorem take_frames_cut (h : n < (frame msg).length) : (frames (msg :: msgs)).take n = (frame msg).take n := by
  rw [frames_cons, ← List.append_assoc, ← frame]
  exact List.take_append_of_le_length (by omega)

/-! ## One turn -/

theorem readAllFromSocket_all {count : Nat} (hw : Works recvs) (h : stream.length ≤ count) :
    ∃ recvs', Works recvs' ∧
      readAllFromSocket ⟨recvs, stream⟩ count = some ((stream.length : Int), stream, ⟨recvs', []⟩) := by
  rcases readAllFromSocket_spec stream count hw with ⟨recvs', hw', hr⟩
  rw [List.nil_append, List.length_nil, Nat.sub_zero, List.take_of_length_le h, List.drop_of_length_le h] at hr
  exact ⟨recvs', hw', hr⟩

theorem clientLoop_nil (hw : Works recvs) : clientLoop (fuel + 1) ⟨recvs, []⟩ stack = some [] := by
  rcases getMessageSize_ended stack hw with ⟨recvs', _, hsize⟩
  rw [clientLoop, hsize, Option.bind_some]
  rfl

/-- A header cut short is made a size all the same. -/
theorem clientLoop_cut_header (fuel : Nat) (stack : Nat → UInt8) (hw : Works recvs) (hne : stream ≠ [])
    (hlt : stream.length < messageSizeDigits) :
    ∃ size, clientLoop (fuel + 1) ⟨recvs, stream⟩ stack = some [.size size] := by
  rcases readAllFromSocket_all hw (Nat.le_of_lt hlt) with ⟨recvs₁, hw₁, hheader⟩
  have hpos := List.length_pos_iff.mpr hne
  have hread : getMessageSize ⟨recvs, stream⟩ stack = some (.ok (ntohl (sizeWord stream stack)), ⟨recvs₁, []⟩) := by
    simp only [getMessageSize, hheader, Option.map_some]
    rw [if_neg (by omega)]
  refine ⟨ntohl (sizeWord stream stack), ?_⟩
  rw [clientLoop, hread, Option.bind_some]
  simp only
  split
  · rfl
  · have hnone : ([] : Text).length ≤ (retvalOf (.ok (ntohl (sizeWord stream stack)))).toNat := Nat.zero_le _
    rcases readAllFromSocket_all hw₁ hnone with ⟨recvs₂, _, hpayload⟩
    rw [hpayload]
    rfl

/-- A payload cut short is broadcast, if there is any of it. -/
theorem clientLoop_cut_payload (hw : Works recvs) (hn : n < 2 ^ 32) (hlt : part.length < n) :
    clientLoop (fuel + 2) ⟨recvs, sizeBytes n ++ part⟩ stack =
      some (if part = [] then [.size n] else [.size n, .broadcast part]) := by
  rcases getMessageSize_header part stack hw hn with ⟨recvs₁, hw₁, hsize⟩
  rcases readAllFromSocket_all hw₁ (Nat.le_of_lt hlt) with ⟨recvs₂, hw₂, hpayload⟩
  rw [clientLoop, hsize, Option.bind_some]
  simp only [retvalOf, Int.toNat_natCast, hpayload, Option.bind_some]
  rw [if_neg (by omega)]
  by_cases hp : part = []
  · subst hp
    rfl
  · have hpos := List.length_pos_iff.mpr hp
    rw [if_neg (by omega), if_neg hp, clientLoop_nil hw₂]
    rfl

/-- A whole frame is taken for what it is. -/
theorem clientLoop_frame (fuel : Nat) (stream : Text) (stack : Nat → UInt8) (hw : Works recvs)
    (hmsg : 1 ≤ msg.length ∧ msg.length < 2 ^ 32) :
    ∃ recvs', Works recvs' ∧ clientLoop (fuel + 1) ⟨recvs, sizeBytes msg.length ++ (msg ++ stream)⟩ stack =
      (clientLoop fuel ⟨recvs', stream⟩ stack).map fun acts => .size msg.length :: .broadcast msg :: acts := by
  rcases getMessageSize_header (msg ++ stream) stack hw hmsg.2 with ⟨recvs₁, hw₁, hsize⟩
  rcases readAllFromSocket_append msg stream hw₁ with ⟨recvs₂, hw₂, hpayload⟩
  refine ⟨recvs₂, hw₂, ?_⟩
  rw [clientLoop, hsize, Option.bind_some]
  simp only [retvalOf, Int.toNat_natCast, hpayload, Option.bind_some]
  rw [if_neg (by omega), if_neg (by omega)]
  rfl

/-! ## The whole stream -/

/-- What the thread does on `n` bytes of frames: besides what they hold whole, it broadcasts
    `part` and takes `garbage` for sizes. -/
structure Hears (n : Nat) (msgs : List Text) (acts : List Act) (part : List Text) (garbage : List Nat) : Prop where
  broadcasts : broadcasts acts = complete n msgs ++ part
  sizes : sizes acts = headers n msgs ++ garbage
  part_nil : part = [] ↔ leftover n msgs ≤ messageSizeDigits
  garbage_nil : garbage = [] ↔ leftover n msgs = 0 ∨ messageSizeDigits ≤ leftover n msgs

theorem leftover_cut (msgs : List Text) (h : n < (frame msg).length) : leftover n (msg :: msgs) = n :=
  if_neg (Nat.not_le.mpr h)

theorem complete_cut (msgs : List Text) (h : n < (frame msg).length) : complete n (msg :: msgs) = [] :=
  if_neg (Nat.not_le.mpr h)

/-- The bytes end in a header, or before it. -/
theorem hears_cut_header (hw : Works recvs) (hcut : n < messageSizeDigits) :
    ∃ acts part garbage, clientLoop (fuel + 1) ⟨recvs, (frames (msg :: msgs)).take n⟩ stack = some acts ∧
      Hears n (msg :: msgs) acts part garbage := by
  have hframe : n < (frame msg).length := by
    rw [frame_length]
    omega
  have hleft := leftover_cut msgs hframe
  have hcomplete := complete_cut msgs hframe
  have hheaders : headers n (msg :: msgs) = [] := if_pos hcut
  rw [take_frames_cut hframe]
  rcases Nat.eq_zero_or_pos n with rfl | hpos
  · refine ⟨[], [], [], clientLoop_nil hw, ?_, ?_, ?_, ?_⟩
    · rw [hcomplete]
      rfl
    · rw [hheaders]
      rfl
    · simp only [hleft, Nat.zero_le]
    · simp only [hleft, true_or]
  · have hlen : ((frame msg).take n).length = n := List.length_take_of_le (Nat.le_of_lt hframe)
    have hne : (frame msg).take n ≠ [] := List.length_pos_iff.mp (by omega)
    rcases clientLoop_cut_header fuel stack hw hne (by omega) with ⟨size, hrun⟩
    refine ⟨[.size size], [], [size], hrun, ?_, ?_, ?_, ?_⟩
    · rw [hcomplete]
      rfl
    · rw [hheaders]
      rfl
    · simp only [hleft, Nat.le_of_lt hcut]
    · rw [hleft]
      exact iff_of_false (List.cons_ne_nil size []) (by omega)

/-- The bytes end in a payload, or before it. -/
theorem hears_cut_payload (hw : Works recvs) (hmsg : msg.length < 2 ^ 32) (hheader : messageSizeDigits ≤ n)
    (hcut : n < (frame msg).length) :
    ∃ acts part garbage, clientLoop (fuel + 2) ⟨recvs, (frames (msg :: msgs)).take n⟩ stack = some acts ∧
      Hears n (msg :: msgs) acts part garbage := by
  have hleft := leftover_cut msgs hcut
  have hcomplete := complete_cut msgs hcut
  have hheaders : headers n (msg :: msgs) = [msg.length] := by
    rw [headers, if_neg (Nat.not_lt.mpr hheader), if_neg (Nat.not_le.mpr hcut)]
  rw [frame_length] at hcut
  have hbytes : (frames (msg :: msgs)).take n = sizeBytes msg.length ++ msg.take (n - messageSizeDigits) := by
    rw [take_frames_cut (by rw [frame_length]; exact hcut), frame, List.take_append, sizeBytes_length,
      List.take_of_length_le (by rw [sizeBytes_length]; exact hheader)]
  have hpart : (msg.take (n - messageSizeDigits)).length = n - messageSizeDigits :=
    List.length_take_of_le (by omega)
  rw [hbytes]
  have hnil : msg.take (n - messageSizeDigits) = [] ↔ n ≤ messageSizeDigits := by
    rw [← List.length_eq_zero_iff, hpart]
    omega
  refine ⟨_, if msg.take (n - messageSizeDigits) = [] then [] else [msg.take (n - messageSizeDigits)], [],
    clientLoop_cut_payload hw hmsg (by omega), ?_, ?_, ?_, ?_⟩
  · rw [hcomplete]
    split <;> rfl
  · rw [hheaders]
    split <;> rfl
  · rw [hleft, ← hnil]
    split
    · rename_i h
      exact ⟨fun _ => h, fun _ => rfl⟩
    · rename_i h
      exact iff_of_false (List.cons_ne_nil _ []) h
  · rw [hleft]
    exact ⟨fun _ => Or.inr hheader, fun _ => rfl⟩

/-- A whole frame in front. -/
theorem Hears.cons {acts : List Act} {part : List Text} {garbage : List Nat} (h : (frame msg).length ≤ n)
    (hh : Hears (n - (frame msg).length) msgs acts part garbage) :
    Hears n (msg :: msgs) (.size msg.length :: .broadcast msg :: acts) part garbage := by
  have hleft : leftover n (msg :: msgs) = leftover (n - (frame msg).length) msgs := if_pos h
  have hcomplete : complete n (msg :: msgs) = msg :: complete (n - (frame msg).length) msgs := if_pos h
  have hheaders : headers n (msg :: msgs) = msg.length :: headers (n - (frame msg).length) msgs := by
    rw [frame_length] at h
    rw [headers, if_neg (by omega), if_pos (by rw [frame_length]; exact h)]
  refine ⟨?_, ?_, ?_, ?_⟩
  · rw [hcomplete, List.cons_append, ← hh.broadcasts]
    rfl
  · rw [hheaders, List.cons_append, ← hh.sizes]
    rfl
  · rw [hleft]
    exact hh.part_nil
  · rw [hleft]
    exact hh.garbage_nil

/-- What the thread does on any `n` bytes. -/
theorem clientLoop_spec (hw : Works recvs) (hlen : ∀ msg ∈ msgs, 1 ≤ msg.length ∧ msg.length < 2 ^ 32)
    (hf : ((frames msgs).take n).length < fuel) :
    ∃ acts part garbage, clientLoop fuel ⟨recvs, (frames msgs).take n⟩ stack = some acts ∧
      Hears n msgs acts part garbage := by
  induction msgs generalizing n fuel recvs with
  | nil =>
    obtain ⟨f, rfl⟩ : ∃ f, fuel = f + 1 := ⟨fuel - 1, by omega⟩
    refine ⟨[], [], [], ?_, rfl, rfl, ?_, ?_⟩
    · rw [show (frames []).take n = [] from List.take_nil]
      exact clientLoop_nil hw
    · simp only [leftover, Nat.zero_le]
    · simp only [leftover, true_or]
  | cons msg msgs ih =>
    have hmsg := hlen msg List.mem_cons_self
    rcases Nat.lt_or_ge n (frame msg).length with hcut | hwhole
    · rw [take_frames_cut hcut, List.length_take_of_le (Nat.le_of_lt hcut)] at hf
      rcases Nat.lt_or_ge n messageSizeDigits with hheader | hheader
      · obtain ⟨f, rfl⟩ : ∃ f, fuel = f + 1 := ⟨fuel - 1, by omega⟩
        exact hears_cut_header hw hheader
      · obtain ⟨f, rfl⟩ : ∃ f, fuel = f + 2 := ⟨fuel - 2, by unfold messageSizeDigits at hheader; omega⟩
        exact hears_cut_payload hw hmsg.2 hheader hcut
    · rw [take_frames hwhole, List.length_append, List.length_append, sizeBytes_length] at hf
      obtain ⟨f, rfl⟩ : ∃ f, fuel = f + 1 := ⟨fuel - 1, by omega⟩
      rw [take_frames hwhole]
      rcases clientLoop_frame f ((frames msgs).take (n - (frame msg).length)) stack hw hmsg with ⟨recvs', hw', hturn⟩
      have hrest : ((frames msgs).take (n - (frame msg).length)).length < f := by omega
      rcases ih hw' (fun m hm => hlen m (List.mem_cons_of_mem msg hm)) hrest with ⟨acts, part, garbage, hrun, hh⟩
      refine ⟨_, part, garbage, ?_, Hears.cons hwhole hh⟩
      rw [hturn, hrun, Option.map_some]

theorem processClient_spec (n : Nat) (stack : Nat → UInt8) (hw : Works recvs)
    (hlen : ∀ msg ∈ msgs, 1 ≤ msg.length ∧ msg.length < 2 ^ 32) :
    ∃ acts part garbage, processClient ⟨recvs, (frames msgs).take n⟩ stack = some acts ∧
      Hears n msgs acts part garbage :=
  clientLoop_spec hw hlen (Nat.lt_succ_self _)

/-- **When only whole messages are broadcast.** The bytes before the end of the stream end with
    a frame or with a header. -/
theorem broadcasts_complete_iff (msgs : List Text) (hlen : ∀ msg ∈ msgs, 1 ≤ msg.length ∧ msg.length < 2 ^ 32)
    (n : Nat) (recvs : List Transfer) (hw : Works recvs) (stack : Nat → UInt8) :
    (∃ acts, processClient ⟨recvs, (frames msgs).take n⟩ stack = some acts ∧ broadcasts acts = complete n msgs ∧
      sizes acts = headers n msgs) ↔ leftover n msgs = 0 ∨ leftover n msgs = messageSizeDigits := by
  rcases processClient_spec n stack hw hlen with ⟨acts, part, garbage, hrun, hh⟩
  have hpart : broadcasts acts = complete n msgs ↔ part = [] := by rw [hh.broadcasts, List.append_right_eq_self]
  have hgarbage : sizes acts = headers n msgs ↔ garbage = [] := by rw [hh.sizes, List.append_right_eq_self]
  have hexists : (∃ acts, processClient ⟨recvs, (frames msgs).take n⟩ stack = some acts ∧
      broadcasts acts = complete n msgs ∧ sizes acts = headers n msgs) ↔
      broadcasts acts = complete n msgs ∧ sizes acts = headers n msgs := by
    constructor
    · intro ⟨acts', hrun', h⟩
      exact Option.some.inj (hrun.symm.trans hrun') ▸ h
    · exact fun h => ⟨acts, hrun, h⟩
  rw [hexists, hpart, hgarbage, hh.part_nil, hh.garbage_nil]
  unfold messageSizeDigits
  omega

/-- The stream ends right after a header. -/
theorem broadcasts_complete_iff_header : (∃ acts, processClient ⟨[.atMost 1, .eintr, .atMost 2],
    (frames [[104, 105]]).take 4⟩ (fun _ => 7) = some acts ∧ broadcasts acts = complete 4 [[104, 105]] ∧
      sizes acts = headers 4 [[104, 105]]) ↔ leftover 4 [[104, 105]] = 0 ∨
        leftover 4 [[104, 105]] = messageSizeDigits :=
  broadcasts_complete_iff [[104, 105]] (by decide) 4 _ (by decide) _

/-- A payload cut after its first byte is broadcast, and a header cut after its third is made the
    size that the byte on the stack completes. -/
theorem cut_payload_is_broadcast :
    processClient ⟨[], (frames [[104, 105]]).take 5⟩ (fun _ => 7) = some [.size 2, .broadcast [104]] ∧
      complete 5 [[104, 105]] = [] ∧
    processClient ⟨[], (frames [[104, 105]]).take 3⟩ (fun _ => 7) = some [.size 7] ∧
      headers 3 [[104, 105]] = [] := by
  decide

end SysProg.Chat
