/-
  SysProg.Chat.Screens — from the keyboards of charming_chatroom/client.c to its screens (see
  `SysProg.Chat.TotalOrder`).

  `write_to_server` puts the name of the user before each line and sends it with its
  terminator. A thread of the server reads from that stream (`Talks`), whatever the calls of
  `send` and `recv` move, and the stream may have ended early, with a frame or with a header.
  `read_from_server` prints what it reads as a string.

  Main result: `lines_on_every_screen`, over every run of the room that avoids the slots of
  closed connections. There is one list of lines, with who typed them: the lines of each user
  come in the order typed, and the screen of a member that missed no write shows the list from
  where the member came, each line after its user's name.
-/

import Mathlib.Logic.Function.Basic
import SysProg.Chat.ProcessClient
import SysProg.Chat.TotalOrder
import SysProg.Lib.CString

namespace SysProg.Chat

open Function (invFun invFun_eq leftInverse_invFun Injective)
open SysProg.CString (CStr cstr)

/-- "%s: %s" -/
def createMessage (name message : CStr) : CStr :=
  ⟨name.1 ++ [58, 32] ++ message.1, by simp [name.2, message.2]⟩

def messagesOf (name : CStr) (lines : List CStr) : List Text := lines.map fun line => (createMessage name line).buffer

/-- `write_to_server`, to the line that the window does not give. -/
def writeToServer (sends : List Transfer) (name : CStr) (lines : List CStr) : Option Text :=
  writeMessages sends (messagesOf name lines)

def readFromServer (s : Socket) (stack : Nat → UInt8) : Option (List Text) :=
  (readMessages (s.stream.length + 1) s stack).bind fun msgs => msgs.mapM cstr

/-- A thread has read this from the stream of a user who typed the lines. -/
def Talks (name : CStr) (lines : List CStr) (said : List Text) : Prop :=
  ∃ sends out n recvs stack acts, Works sends ∧ writeToServer sends name lines = some out ∧ Works recvs ∧
    processClient ⟨recvs, out.take n⟩ stack = some acts ∧ leftover n (messagesOf name lines) ∈ [0, messageSizeDigits] ∧
    said <+: broadcasts acts

variable {name : CStr} {lines : List CStr} {said msgs : List Text} {n : Nat}

theorem createMessage_injective (name : CStr) : Injective fun line => (createMessage name line).buffer := by
  intro l l' h
  have htext : name.1 ++ [58, 32] ++ l.1 ++ [0] = name.1 ++ [58, 32] ++ l'.1 ++ [0] := h
  exact Subtype.ext (List.append_cancel_left (List.append_cancel_right htext))

theorem complete_first (n : Nat) (msgs : List Text) : complete n msgs <+: msgs := by
  induction msgs generalizing n with
  | nil => exact List.prefix_rfl
  | cons msg msgs ih =>
    unfold complete
    split
    · exact List.prefix_cons_inj msg |>.mpr (ih _)
    · exact List.nil_prefix

/-- What a thread has read are messages of its user, from the first one on. -/
theorem Talks.said_first (h : Talks name lines said)
    (hlen : ∀ line ∈ lines, (createMessage name line).buffer.length < 2 ^ 31) : said <+: messagesOf name lines := by
  obtain ⟨sends, out, n, recvs, stack, acts, hsends, hout, hrecvs, hrun, hleft, hsaid⟩ := h
  have hmsgs : ∀ msg ∈ messagesOf name lines, 1 ≤ msg.length ∧ msg.length < 2 ^ 32 := by
    intro msg hmsg
    obtain ⟨line, hline, rfl⟩ := List.mem_map.mp hmsg
    have hlt := hlen line hline
    refine ⟨?_, by omega⟩
    simp [CStr.buffer]
  have hwritten := writeMessages_spec hsends fun msg hmsg => List.length_pos_iff.mp (hmsgs msg hmsg).1
  unfold writeToServer at hout
  rw [hwritten] at hout
  cases hout
  obtain ⟨acts', part, garbage, hrun', hhears⟩ := processClient_spec n stack hrecvs hmsgs
  rw [hrun'] at hrun
  cases hrun
  have hpart : part = [] := by
    apply hhears.part_nil.mpr
    simp only [List.mem_cons, List.not_mem_nil, or_false] at hleft
    rcases hleft with hleft | hleft <;> omega
  rw [hhears.broadcasts, hpart, List.append_nil] at hsaid
  exact hsaid.trans (complete_first n _)

/-- A reader of frames shows the strings in them. -/
theorem readFromServer_frames {ι : Type} (l : List ι) (g : ι → CStr) (hlen : ∀ x ∈ l, (g x).buffer.length < 2 ^ 32)
    {recvs : List Transfer} (hw : Works recvs) (stack : Nat → UInt8) :
    readFromServer ⟨recvs, frames (l.map fun x => (g x).buffer)⟩ stack = some (l.map fun x => (g x).1) := by
  unfold readFromServer
  have hread : readMessages ((frames (l.map fun x => (g x).buffer)).length + 1)
      ⟨recvs, frames (l.map fun x => (g x).buffer)⟩ stack = some (l.map fun x => (g x).buffer) := by
    refine readMessages_spec hw ?_ (Nat.lt_succ_of_le length_le_frames)
    intro msg hmsg
    obtain ⟨x, hx, rfl⟩ := List.mem_map.mp hmsg
    exact ⟨by simp [CStr.buffer], hlen x hx⟩
  rw [hread, Option.bind_some]
  clear hread hlen
  induction l with
  | nil => rfl
  | cons x l ih =>
    rw [List.map_cons, List.mapM_cons, CString.CStr.cstr, ih]
    rfl

/-- Every screen shows the same conversation. -/
theorem lines_on_every_screen {r : Room} {name : Nat → CStr} {typed : Nat → List CStr}
    (h : room.Via (fun r a => Avoids r.server a) r) (htalks : ∀ d, Talks (name d) (typed d) (r.said d))
    (hlen : ∀ d, ∀ line ∈ typed d, (createMessage (name d) line).buffer.length < 2 ^ 31) :
    ∃ all : List (Nat × CStr),
      r.finished.map Broadcast.msg = all.map (fun x => (createMessage (name x.1) x.2).buffer) ∧
      (∀ d, (all.filter fun x => x.1 = d).map Prod.snd <+: typed d) ∧
      ∀ c i, Holds r.server c i → MissedNone c r.finished → ∀ recvs stack, Works recvs →
        readFromServer ⟨recvs, received c r.finished⟩ stack =
          some ((all.drop (r.joined c)).map fun x => (createMessage (name x.1) x.2).1) := by
  obtain ⟨_, _, ho⟩ := room_inv h
  have : Nonempty CStr := ⟨⟨[], List.not_mem_nil⟩⟩
  have hdelivered : ∀ d, delivered d r.finished <+: messagesOf (name d) (typed d) := by
    intro d
    refine List.IsPrefix.trans ?_ ((htalks d).said_first (hlen d))
    rw [ho.said d]
    exact List.prefix_append _ _
  -- a message is that of one line only
  let line : Nat → Text → CStr := fun d => invFun fun l => (createMessage (name d) l).buffer
  have hline : ∀ b ∈ r.finished, ∃ l ∈ typed b.client, (createMessage (name b.client) l).buffer = b.msg := by
    intro b hb
    have hmem : b.msg ∈ delivered b.client r.finished :=
      List.mem_map.mpr ⟨b, List.mem_filter.mpr ⟨hb, by simp⟩, rfl⟩
    exact List.mem_map.mp ((hdelivered b.client).subset hmem)
  have hmsg : ∀ b ∈ r.finished, (createMessage (name b.client) (line b.client b.msg)).buffer = b.msg := by
    intro b hb
    obtain ⟨l, _, hl⟩ := hline b hb
    have hfound : ∃ l, (fun l => (createMessage (name b.client) l).buffer) l = b.msg := ⟨l, hl⟩
    exact invFun_eq hfound
  refine ⟨r.finished.map fun b => (b.client, line b.client b.msg), ?_, ?_, ?_⟩
  · rw [List.map_map]
    exact List.map_congr_left fun b hb => (hmsg b hb).symm
  · intro d
    have hmine : ((r.finished.map fun b => (b.client, line b.client b.msg)).filter fun x => x.1 = d).map Prod.snd =
        (delivered d r.finished).map (line d) := by
      unfold delivered
      rw [List.filter_map, List.map_map, List.map_map]
      refine List.map_congr_left fun b hb => ?_
      have hclient : b.client = d := by simpa using (List.mem_filter.mp hb).2
      simp only [Function.comp_apply, hclient]
    have hback : (messagesOf (name d) (typed d)).map (line d) = typed d := by
      unfold messagesOf
      rw [List.map_map]
      conv_rhs => rw [← List.map_id (typed d)]
      refine List.map_congr_left fun l _ => ?_
      exact leftInverse_invFun (createMessage_injective (name d)) l
    rw [hmine, ← hback]
    exact (hdelivered d).map _
  · intro c i hc hall recvs stack hw
    have hstream : received c r.finished = frames (((r.finished.map fun b => (b.client, line b.client b.msg)).drop
        (r.joined c)).map fun x => (createMessage (name x.1) x.2).buffer) := by
      rw [(ho.joined c i hc).received hall, ← List.map_drop, List.map_map]
      refine congrArg frames (List.map_congr_left fun b hb => ?_)
      exact (hmsg b (List.mem_of_mem_drop hb)).symm
    rw [hstream]
    refine readFromServer_frames _ _ ?_ hw stack
    intro x hx
    obtain ⟨b, hb, rfl⟩ := List.mem_map.mp (List.mem_of_mem_drop hx)
    obtain ⟨l, hl, hb'⟩ := hline b hb
    have hlt := hlen b.client l hl
    rw [hb'] at hlt
    rw [hmsg b hb]
    omega

/-! ## Two users -/

def userName : Nat → CStr
  | 0 => ⟨[97], by decide⟩
  | _ => ⟨[98], by decide⟩

def userLines : Nat → List CStr
  | 0 => [⟨[104], by decide⟩, ⟨[106], by decide⟩]
  | 1 => [⟨[105], by decide⟩]
  | _ => []

def conversation : List Move :=
  join 5 ++ [.message 0 [97, 58, 32, 104, 0], .lock 0] ++ List.replicate 10 (.inside true) ++ join 6 ++
    [.message 1 [98, 58, 32, 105, 0], .message 0 [97, 58, 32, 106, 0], .lock 1] ++ List.replicate 11 (.inside true) ++
    [.lock 0] ++ List.replicate 11 (.inside true)

/-- The rest of the users have typed nothing. -/
theorem userLines_talk (d : Nat) : Talks (userName d) (userLines d) (messagesOf (userName d) (userLines d)) := by
  match d with
  | 0 => exact ⟨[], _, 18, [.atMost 2], fun _ => 0, _, by decide, rfl, by decide, rfl, by decide, List.prefix_rfl⟩
  | 1 => exact ⟨[], _, 9, [], fun _ => 0, _, by decide, rfl, by decide, rfl, by decide, List.prefix_rfl⟩
  | _ + 2 => exact ⟨[], _, 0, [], fun _ => 0, _, by decide, rfl, by decide, rfl, List.mem_cons_self, List.prefix_rfl⟩

theorem lines_on_every_screen_two : ∃ r, room.Via (fun r a => Avoids r.server a) r ∧ r.joined 0 = 0 ∧ r.joined 1 = 1 ∧
    ∃ all : List (Nat × CStr), all.length = 3 ∧ (∀ d, (all.filter fun x => x.1 = d).map Prod.snd <+: userLines d) ∧
      ∀ c ∈ [0, 1], readFromServer ⟨[.eintr, .atMost 1], received c r.finished⟩ (fun _ => 0) =
        some ((all.drop (r.joined c)).map fun x => (createMessage (userName x.1) x.2).1) := by
  let run : Option Room := Run.exec (Run.guard (fun (r : Room) a => Avoids r.server a)
    fun r a => (step r.server a).map fun s => r.next s a) empty conversation
  have hexec : run.map (fun r => (summary r, r.server.threads 0, r.server.threads 1)) =
      some (([[97, 58, 32, 104, 0], [98, 58, 32, 105, 0], [97, 58, 32, 106, 0]], 0, 1, true), ⟨0, .reading⟩,
        ⟨1, .reading⟩) := by
    decide +kernel
  have hsaid : run.map (fun r => (r.finished.map Broadcast.client, r.said 0, r.said 1, r.server.accepted)) =
      some ([0, 1, 0], [[97, 58, 32, 104, 0], [97, 58, 32, 106, 0]], [[98, 58, 32, 105, 0]], 2) := by
    decide +kernel
  obtain ⟨r, hexec, he⟩ := Option.map_eq_some_iff.mp hexec
  unfold summary at he
  rw [hexec, Option.map_some] at hsaid
  simp only [Option.some.injEq, Prod.mk.injEq] at he hsaid
  obtain ⟨⟨hmsgs, hjoined0, hjoined1, hsent⟩, hthread0, hthread1⟩ := he
  obtain ⟨hclients, hsaid0, hsaid1, haccepted⟩ := hsaid
  have h0 : room.Via (fun r a => Avoids r.server a) empty := .init rfl
  have hvia : room.Via (fun r a => Avoids r.server a) r := Run.via_guard h0 hexec
  have htalks : ∀ d, Talks (userName d) (userLines d) (r.said d) := by
    intro d
    have htalk := userLines_talk d
    match d with
    | 0 => exact hsaid0 ▸ htalk
    | 1 => exact hsaid1 ▸ htalk
    | d + 2 =>
      -- there is no such connection
      obtain ⟨ht, _, ho⟩ := room_inv hvia
      have habsent := (ht.owners.fresh (d + 2) (by omega)).1
      have hnone : delivered (d + 2) r.finished = [] := by
        unfold delivered
        rw [List.map_eq_nil_iff, List.filter_eq_nil_iff]
        intro b hb
        have hclient : b.client ∈ [0, 1, 0] := hclients ▸ List.mem_map_of_mem hb
        simp only [List.mem_cons, List.not_mem_nil, or_false] at hclient
        simp only [decide_eq_true_eq]
        omega
      rw [ho.said, habsent, hnone]
      exact htalk
  have hlen : ∀ d, ∀ line ∈ userLines d, (createMessage (userName d) line).buffer.length < 2 ^ 31 := by
    intro d
    match d with
    | 0 | 1 => simp [userLines, userName, createMessage, CStr.buffer]
    | _ + 2 => exact fun _ h => absurd h List.not_mem_nil
  obtain ⟨all, hall, hfrom, hscreen⟩ := lines_on_every_screen hvia htalks hlen
  have hmissed : ∀ c, MissedNone c r.finished := by
    intro c b hb w hw
    exact List.all_eq_true.mp (List.all_eq_true.mp hsent b hb) w (List.mem_of_mem_filter hw)
  refine ⟨r, hvia, hjoined0, hjoined1, all, ?_, hfrom, ?_⟩
  · have hcount := congrArg List.length hall
    rw [hmsgs, List.length_map] at hcount
    exact hcount.symm
  · intro c hc
    have hholds : Holds r.server c c := by
      simp only [List.mem_cons, List.not_mem_nil, or_false] at hc
      apply Or.inl
      unfold Server.stage
      rcases hc with rfl | rfl
      · rw [hthread0]
        exact ⟨Stage.noConfusion, Stage.noConfusion, rfl⟩
      · rw [hthread1]
        exact ⟨Stage.noConfusion, Stage.noConfusion, rfl⟩
    exact hscreen c c hholds (hmissed c) _ _ (by decide)

end SysProg.Chat
