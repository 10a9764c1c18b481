/-
  SysProg.Chat.TotalOrder — in which order the messages of a session of
  charming_chatroom/server.c arrive (see `SysProg.Chat.Server`).

  `Room` is the server with what has happened: the broadcasts that are over, in their order, what
  each thread has read, and how many broadcasts were over when a connection got its slot.

  Main result: `messages_in_one_order`, over every run of steps that avoid the slots of closed
  connections (`Avoids`). The broadcasts that are over have the messages of each sender, all of
  them, once and in the order in which its thread read them, up to the one it is about to
  broadcast. A connection that has a slot was written all those since it came and none
  before. So two of them that missed no write were sent the same messages in the same order:
  the stream of the later one is the end of the other's.
-/

import Mathlib.Data.List.Basic
import SysProg.Chat.Broadcasts
import SysProg.Chat.Framing

namespace SysProg.Chat

open Function (update update_self update_of_ne)

structure Room where
  server : Server
  /-- The broadcasts that are over. -/
  finished : List Broadcast
  /-- How many were over when a connection got its slot. -/
  joined : Nat → Nat
  /-- What each thread has read. -/
  said : Nat → List Text

def Room.next (r : Room) (s : Server) (a : Move) : Room :=
  match a, r.server.mutex with
  | .message c msg, _ => { r with server := s, said := update r.said c (r.said c ++ [msg]) }
  | .inside _, some (.broadcast b) =>
    { r with server := s, finished := if b.i = maxClients then r.finished ++ [b] else r.finished }
  | .inside _, some (.assign c _) => { r with server := s, joined := update r.joined c r.finished.length }
  | _, _ => { r with server := s }

def empty : Room := ⟨start, [], fun _ => 0, fun _ => []⟩

def room : Run.Sys Room Move := Run.ofFun (fun r => r = empty) fun r a => (step r.server a).map fun s => r.next s a

/-! ## What is asked of it -/

def delivered (c : Nat) (bs : List Broadcast) : List Text := (bs.filter fun b => b.client = c).map Broadcast.msg

def pending : Stage → List Text
  | .writing msg => [msg]
  | _ => []

def Write.sentText (w : Write) : Text := if w.sent = true then w.text else []

def received (c : Nat) (bs : List Broadcast) : Text := bs.flatMap fun b => (writesTo c b.writes).flatMap Write.sentText

def MissedNone (c : Nat) (bs : List Broadcast) : Prop := ∀ b ∈ bs, ∀ w ∈ writesTo c b.writes, w.sent = true

/-- What the broadcasts have written to a connection that came when `n` of them were over. -/
def WrittenSince (c n : Nat) (bs : List Broadcast) : Prop :=
  n ≤ bs.length ∧ (∀ b ∈ bs.take n, writesTo c b.writes = []) ∧ ∀ b ∈ bs.drop n, Whole b.msg (writesTo c b.writes)

structure Ordered (r : Room) : Prop where
  said : ∀ c, r.said c = delivered c r.finished ++ pending (r.server.stage c)
  joined : ∀ c i, Holds r.server c i → WrittenSince c (r.joined c) r.finished
  fresh : ∀ c, r.server.stage c = .absent → (∀ i, ¬ Holds r.server c i) → ∀ b ∈ r.finished, writesTo c b.writes = []

variable {r r' : Room} {s s' : Server} {a : Move} {b : Broadcast} {bs : List Broadcast} {c d i n fd : Nat} {ok : Bool}

/-! ## A broadcast more -/

theorem delivered_snoc : delivered c (bs ++ [b]) = delivered c bs ++ if b.client = c then [b.msg] else [] := by
  unfold delivered
  rw [List.filter_append, List.map_append]
  by_cases h : b.client = c
  · simp [h]
  · simp [h]

theorem WrittenSince.snoc (h : WrittenSince c n bs) (hb : Whole b.msg (writesTo c b.writes)) :
    WrittenSince c n (bs ++ [b]) := by
  obtain ⟨hle, hbefore, hsince⟩ := h
  refine ⟨?_, ?_, ?_⟩
  · rw [List.length_append]
    omega
  · rw [List.take_append_of_le_length hle]
    exact hbefore
  · rw [List.drop_append_of_le_length hle]
    exact List.forall_mem_append.mpr ⟨hsince, List.forall_mem_singleton.mpr hb⟩

/-- Only who has a slot is written to. -/
theorem Fine.writesTo_nil (h : Fine s b) (hno : ∀ i, ¬ Holds s c i) : writesTo c b.writes = [] := by
  apply List.filter_eq_nil_iff.mpr
  intro w hw
  obtain ⟨d, i, hconn, hd, _⟩ := h.owner w hw
  rw [decide_eq_true_eq]
  intro hc
  rw [hconn] at hc
  cases hc
  exact hno i hd

/-! ## The steps -/

/-- Nobody gets a slot, and nothing is read or broadcast. -/
theorem Ordered.frame (h : Ordered r) (hholds : ∀ c i, Holds s' c i → Holds r.server c i)
    (hpending : ∀ c, pending (s'.stage c) = pending (r.server.stage c))
    (habsent : ∀ c, s'.stage c = .absent → r.server.stage c = .absent ∧
      ((∀ i, ¬ Holds s' c i) → ∀ i, ¬ Holds r.server c i)) : Ordered { r with server := s' } where
  said c := by
    show r.said c = delivered c r.finished ++ pending (s'.stage c)
    rw [hpending]
    exact h.said c
  joined c i hc := h.joined c i (hholds c i hc)
  fresh c hc hno := by
    obtain ⟨hc', hno'⟩ := habsent c hc
    exact h.fresh c hc' (hno' hno)

/-- Nobody's stage changes. -/
theorem Ordered.same (h : Ordered r) (hholds : ∀ c i, Holds s' c i ↔ Holds r.server c i)
    (hstage : ∀ c, s'.stage c = r.server.stage c) : Ordered { r with server := s' } := by
  apply h.frame (fun c i => (hholds c i).mp) (fun c => by rw [hstage])
  intro c hc
  refine ⟨hstage c ▸ hc, ?_⟩
  intro hno i hi
  exact hno i ((hholds c i).mpr hi)

theorem alive_of_reading (h : s.stage c = .reading) : s.stage c ≠ .absent ∧ s.stage c ≠ .done := by
  rw [h]
  exact ⟨Stage.noConfusion, Stage.noConfusion⟩

theorem Ordered.message {msg : Text} (h : Ordered r) (hst : r.server.stage c = .reading) :
    Ordered { r with server := r.server.setStage c (.writing msg), said := update r.said c (r.said c ++ [msg]) } := by
  have hholds : ∀ d i, Holds (r.server.setStage c (.writing msg)) d i ↔ Holds r.server d i := fun d i =>
    holds_setStage (alive_of_reading hst) ⟨Stage.noConfusion, Stage.noConfusion⟩
  refine ⟨?_, fun d i hd => h.joined d i ((hholds d i).mp hd), ?_⟩
  · intro d
    show update r.said c (r.said c ++ [msg]) d = delivered d r.finished ++ pending ((r.server.setStage c _).stage d)
    by_cases hd : d = c
    · subst hd
      have hsaid := h.said d
      rw [hst] at hsaid
      rw [update_self, stage_setStage_self, hsaid]
      simp [pending]
    · rw [update_of_ne hd, stage_setStage_ne hd]
      exact h.said d
  · intro d hd hno
    have hne : d ≠ c := by
      intro e
      subst e
      rw [stage_setStage_self] at hd
      cases hd
    rw [stage_setStage_ne hne] at hd
    exact h.fresh d hd fun i hi => hno i ((hholds d i).mpr hi)

theorem Ordered.close (h : Ordered r) (hst : r.server.stage c = .reading) (j : Nat) :
    Ordered { r with server := (r.server.closeSlot j).setStage c .closed } := by
  have hstage : ∀ d, (r.server.closeSlot j).stage d = r.server.stage d := by
    intro d
    rw [Server.stage, threads_closeSlot, Server.stage]
  have halive := alive_of_reading ((hstage c).trans hst)
  have hholds : ∀ d i, Holds ((r.server.closeSlot j).setStage c .closed) d i ↔ Holds r.server d i := by
    intro d i
    rw [holds_setStage halive ⟨Stage.noConfusion, Stage.noConfusion⟩, holds_closeSlot]
  refine h.frame (fun d i => (hholds d i).mp) ?_ ?_
  · intro d
    by_cases hd : d = c
    · rw [hd, stage_setStage_self, hst]
      rfl
    · rw [stage_setStage_ne hd, hstage]
  · intro d hd
    have hne : d ≠ c := by
      intro e
      rw [e, stage_setStage_self] at hd
      cases hd
    rw [stage_setStage_ne hne, hstage] at hd
    exact ⟨hd, fun hno i hi => hno i ((hholds d i).mpr hi)⟩

/-- A connection gets its slot: nothing has been written to it yet. -/
theorem Ordered.place (h : Ordered r) (ht : Tidy r.server) (hmutex : r.server.mutex = some (.assign c fd)) :
    Ordered { r with server := r.server.place c fd i, joined := update r.joined c r.finished.length } := by
  have habsent : r.server.stage c = .absent := (ht.owners.waiting c fd (Or.inr hmutex)).2
  have hno : ∀ j, ¬ Holds r.server c j := by
    intro j hj
    rcases hj with ⟨hne, _⟩ | hk
    · exact hne habsent
    · cases hmutex.symm.trans hk
  have hholds : ∀ d j, Holds (r.server.place c fd i) d j → Holds r.server d j ∨ d = c := by
    intro d j hd
    rcases hd with hd | hk
    · exact Or.inl (Or.inl hd)
    · cases hk
      exact Or.inr rfl
  refine ⟨h.said, ?_, ?_⟩
  · intro d j hd
    show WrittenSince d (update r.joined c r.finished.length d) r.finished
    by_cases hdc : d = c
    · subst hdc
      rw [update_self]
      refine ⟨Nat.le_refl _, ?_, by simp⟩
      rw [List.take_length]
      exact h.fresh d habsent hno
    · rw [update_of_ne hdc]
      exact h.joined d j ((hholds d j hd).resolve_right hdc)
  · intro d hd hnone
    apply h.fresh d hd
    intro j hj
    rcases hj with hj | hk
    · exact hnone j (Or.inl hj)
    · cases hmutex.symm.trans hk

/-- Its thread starts. -/
theorem Ordered.begin (h : Ordered r) (ht : Tidy r.server) (hmutex : r.server.mutex = some (.count c i)) :
    Ordered { r with server := r.server.begin c i } := by
  have habsent : r.server.stage c = .absent := ht.owners.starting c i hmutex
  have hself : (r.server.begin c i).threads c = ⟨i, .reading⟩ := update_self _ _ _
  have hother : ∀ d, d ≠ c → (r.server.begin c i).threads d = r.server.threads d := fun d hd =>
    update_of_ne hd _ _
  have hcount : ∀ d j, (r.server.begin c i).mutex ≠ some (.count d j) := by
    intro d j hk
    cases hk
  refine h.frame ?_ ?_ ?_
  · intro d j hd
    rcases hd with ⟨hne, hdone, hslot⟩ | hk
    · by_cases hdc : d = c
      · rw [hdc, hself] at hslot
        rw [hdc, ← hslot]
        exact Or.inr hmutex
      · rw [Server.stage, hother d hdc] at hne hdone
        rw [hother d hdc] at hslot
        exact Or.inl ⟨hne, hdone, hslot⟩
    · exact absurd hk (hcount d j)
  · intro d
    by_cases hdc : d = c
    · rw [hdc, habsent, Server.stage, hself]
      rfl
    · rw [Server.stage, hother d hdc, Server.stage]
  · intro d hd
    have hdc : d ≠ c := by
      intro e
      rw [e, Server.stage, hself] at hd
      cases hd
    rw [Server.stage, hother d hdc] at hd
    refine ⟨hd, ?_⟩
    intro _ j hj
    rcases hj with ⟨hne, _⟩ | hk
    · exact hne hd
    · rw [hmutex] at hk
      cases hk
      exact hdc rfl

theorem Ordered.clearSlot (h : Ordered r) (ht : Tidy r.server) (hmutex : r.server.mutex = some (.clear c)) :
    Ordered { r with server := r.server.clearSlot c } := by
  have hclosed := ht.owners.clearing c hmutex
  have hself : (r.server.clearSlot c).stage c = .done := stage_setStage_self
  have hother : ∀ d, d ≠ c → (r.server.clearSlot c).stage d = r.server.stage d := fun d hd => stage_setStage_ne hd
  refine h.frame ?_ ?_ ?_
  · intro d j hd
    rcases hd with ⟨hne, hdone, hslot⟩ | hk
    · have hdc : d ≠ c := by
        intro e
        rw [e] at hdone
        exact hdone hself
      rw [hother d hdc] at hne hdone
      have hslot' : ((r.server.setStage c .done).threads d).slot = j := hslot
      rw [slot_setStage] at hslot'
      exact Or.inl ⟨hne, hdone, hslot'⟩
    · cases hk
  · intro d
    by_cases hdc : d = c
    · rw [hdc, hself, hclosed]
      rfl
    · rw [hother d hdc]
  · intro d hd
    have hdc : d ≠ c := by
      intro e
      rw [e, hself] at hd
      cases hd
    rw [hother d hdc] at hd
    refine ⟨hd, ?_⟩
    intro _ j hj
    rcases hj with ⟨hne, _⟩ | hk
    · exact hne hd
    · cases hmutex.symm.trans hk

/-- A broadcast is over: whoever has a slot has been written its message. -/
theorem Ordered.finish (h : Ordered r) (ht : Tidy r.server) (hf : Fine r.server b)
    (hmutex : r.server.mutex = some (.broadcast b)) (hi : b.i = maxClients) :
    Ordered ⟨{ r.server.setStage b.client .reading with mutex := none }, r.finished ++ [b], r.joined, r.said⟩ := by
  have hwriting : r.server.stage b.client = .writing b.msg := ht.owners.writing b hmutex
  have hself : ({ r.server.setStage b.client .reading with mutex := none } : Server).stage b.client = .reading :=
    stage_setStage_self
  have hother : ∀ d, d ≠ b.client →
      ({ r.server.setStage b.client .reading with mutex := none } : Server).stage d = r.server.stage d :=
    fun d hd => stage_setStage_ne hd
  have halive : r.server.stage b.client ≠ .absent ∧ r.server.stage b.client ≠ .done := by
    rw [hwriting]
    exact ⟨Stage.noConfusion, Stage.noConfusion⟩
  have hholds : ∀ d j, Holds { r.server.setStage b.client .reading with mutex := none } d j → Holds r.server d j := by
    intro d j hd
    rcases hd with hd | hk
    · exact (holds_setStage halive ⟨Stage.noConfusion, Stage.noConfusion⟩).mp (Or.inl hd)
    · cases hk
  refine ⟨?_, ?_, ?_⟩
  · intro d
    show r.said d = delivered d (r.finished ++ [b]) ++ pending (Server.stage _ d)
    rw [delivered_snoc, h.said d]
    by_cases hd : b.client = d
    · subst hd
      rw [hself, hwriting, if_pos rfl]
      simp [pending]
    · rw [hother d (Ne.symm hd), if_neg hd, List.append_nil]
  · intro d j hd
    have hj := hholds d j hd
    refine (h.joined d j hj).snoc (hf.before d j hj ?_)
    obtain ⟨fd, hfd, _⟩ := ht.owners.slot d j hj
    rw [hi, ← ht.counts.length]
    exact (List.getElem?_eq_some_iff.mp hfd).1
  · intro d hd hno
    have hne : d ≠ b.client := by
      intro e
      rw [e, hself] at hd
      cases hd
    rw [hother d hne] at hd
    have hno' : ∀ j, ¬ Holds r.server d j := by
      intro j hj
      apply hno j
      rcases hj with ⟨habsent, _⟩ | hk
      · exact absurd hd habsent
      · cases hmutex.symm.trans hk
    exact List.forall_mem_append.mpr ⟨h.fresh d hd hno', List.forall_mem_singleton.mpr (hf.writesTo_nil hno')⟩

/-- The mutex is taken, given back or goes on, by nobody who gives a slot. -/
theorem Ordered.remutex (h : Ordered r) {s' : Server} (hthreads : s'.threads = r.server.threads)
    (hcount : ∀ c i, s'.mutex = some (.count c i) ↔ r.server.mutex = some (.count c i)) :
    Ordered { r with server := s' } := by
  have hstage : ∀ c, s'.stage c = r.server.stage c := by
    intro c
    rw [Server.stage, hthreads, Server.stage]
  refine h.same ?_ hstage
  intro c i
  refine holds_iff (by rw [hthreads]) ?_ ?_ (hcount c i)
  · rw [hstage]
  · rw [hstage]

theorem Ordered.broadcast (h : Ordered r) (ht : Tidy r.server) (hf : Fine r.server b)
    (hmutex : r.server.mutex = some (.broadcast b)) :
    Ordered (r.next (broadcastStep r.server b ok) (.inside ok)) := by
  have hcount : ∀ {k : Critical}, (∀ c i, k ≠ .count c i) → ∀ c i,
      some k = some (.count c i) ↔ r.server.mutex = some (.count c i) := by
    intro k hk c i
    rw [hmutex]
    exact iff_of_false (fun e => hk c i (Option.some.inj e)) (fun e => by cases e)
  unfold Room.next broadcastStep
  rw [hmutex]
  dsimp only
  by_cases hi : b.i = maxClients
  · rw [if_pos hi, if_pos hi]
    exact h.finish ht hf hmutex hi
  · rw [if_neg hi, if_neg hi]
    split
    · exact h.remutex rfl (hcount fun _ _ => Critical.noConfusion)
    · exact h.remutex rfl (hcount fun _ _ => Critical.noConfusion)

theorem Ordered.insideStep {k : Critical} (h : Ordered r) (ht : Tidy r.server) (hf : FineNow r.server)
    (hmutex : r.server.mutex = some k) : Ordered (r.next (insideStep r.server ok k) (.inside ok)) := by
  cases k with
  | broadcast b => exact h.broadcast ht (hf b hmutex) hmutex
  | assign c fd =>
    obtain ⟨i, hfree, _⟩ := ht.counts.free hmutex
    have hplace := h.place (i := i) ht hmutex
    unfold Room.next SysProg.Chat.insideStep
    rw [hmutex]
    dsimp only
    rw [hfree]
    exact hplace
  | count c i =>
    have hbegin := h.begin ht hmutex
    unfold Room.next
    rw [hmutex]
    exact hbegin
  | clear c =>
    have hclear := h.clearSlot ht hmutex
    unfold Room.next
    rw [hmutex]
    exact hclear
  | assigned | uncount | cleared =>
    unfold Room.next
    rw [hmutex]
    refine h.remutex rfl ?_
    intro c i
    rw [hmutex]
    exact iff_of_false (fun e => by cases e) (fun e => by cases e)

theorem Ordered.step (h : Ordered r) (ht : Tidy r.server) (hf : FineNow r.server)
    (hs : step r.server a = some s) : Ordered (r.next s a) := by
  cases a with
  | check =>
    obtain ⟨_, he⟩ := Option.ite_none_right_eq_some.mp hs
    cases he
    exact h.remutex rfl fun _ _ => Iff.rfl
  | accept fd =>
    obtain ⟨_, he⟩ := Option.ite_none_right_eq_some.mp hs
    cases he
    exact h.remutex rfl fun _ _ => Iff.rfl
  | lockMain =>
    simp only [SysProg.Chat.step] at hs
    split at hs
    · rename_i hmutex
      cases hs
      refine h.remutex rfl fun c i => ?_
      rw [hmutex]
      exact iff_of_false (fun e => by cases e) (fun e => by cases e)
    · cases hs
  | message c msg =>
    obtain ⟨⟨hst, _⟩, he⟩ := Option.ite_none_right_eq_some.mp hs
    cases he
    exact h.message hst
  | close c =>
    obtain ⟨hst, he⟩ := Option.ite_none_right_eq_some.mp hs
    cases he
    exact h.close hst _
  | lock c =>
    simp only [SysProg.Chat.step] at hs
    split at hs
    · rename_i hmutex
      cases hs
      refine h.remutex rfl fun d i => ?_
      rw [hmutex]
      exact iff_of_false (fun e => by cases e) (fun e => by cases e)
    · rename_i hmutex
      cases hs
      refine h.remutex rfl fun d i => ?_
      rw [hmutex]
      exact iff_of_false (fun e => by cases e) (fun e => by cases e)
    · cases hs
  | inside ok =>
    obtain ⟨k, hmutex, rfl⟩ := Option.map_eq_some_iff.mp hs
    exact h.insideStep ht hf hmutex

theorem room_inv (h : room.Via (fun r a => Avoids r.server a) r) :
    Tidy r.server ∧ FineNow r.server ∧ Ordered r := by
  refine Run.Sys.Via.inv (I := fun r => Tidy r.server ∧ FineNow r.server ∧ Ordered r) ?_ ?_ h
  · intro r hr
    cases hr
    refine ⟨tidy_start, ?_, ⟨fun _ => rfl, ?_, ?_⟩⟩
    · intro b hb
      cases hb
    · intro c i _
      exact ⟨Nat.le_refl _, by simp [empty], by simp [empty]⟩
    · intro c _ _ b hb
      cases hb
  · intro r a r' ⟨ht, hf, ho⟩ ha hs
    obtain ⟨s, hstep, rfl⟩ := Option.map_eq_some_iff.mp hs
    have hserver : (r.next s a).server = s := by
      unfold Room.next
      split <;> rfl
    rw [hserver]
    exact ⟨ht.step hstep, fineNow_step ht hf ha hstep, ho.step ht hf hstep⟩

/-! ## The streams -/

theorem received_whole (hw : Whole b.msg (writesTo c b.writes)) (hall : ∀ w ∈ writesTo c b.writes, w.sent = true) :
    (writesTo c b.writes).flatMap Write.sentText = frame b.msg := by
  have hpieces : (writesTo c b.writes).flatMap Write.sentText =
      ((writesTo c b.writes).map Write.piece).flatMap Prod.fst := by
    rw [List.flatMap_map]
    refine List.flatMap_congr fun w hw => ?_
    unfold Write.sentText
    rw [if_pos (hall w hw)]
    rfl
  have hsent : ∀ x ∈ (writesTo c b.writes).map Write.piece, x.2 = true := by
    intro x hx
    obtain ⟨w, hw, rfl⟩ := List.mem_map.mp hx
    exact hall w hw
  rw [hpieces]
  rcases hw with hw | ⟨sent, hw⟩
  · rw [hw] at hsent
    exact absurd (hsent _ List.mem_cons_self) Bool.false_ne_true
  · rw [hw]
    simp [frame]

/-- A connection that missed no write was sent the messages since it came. -/
theorem WrittenSince.received (h : WrittenSince c n bs) (hall : MissedNone c bs) :
    received c bs = frames ((bs.drop n).map Broadcast.msg) := by
  obtain ⟨_, hbefore, hsince⟩ := h
  unfold SysProg.Chat.received frames
  conv_lhs => rw [← List.take_append_drop n bs]
  rw [List.flatMap_append, List.flatMap_map]
  have hnil : (bs.take n).flatMap (fun b => (writesTo c b.writes).flatMap Write.sentText) = [] := by
    refine List.flatMap_eq_nil_iff.mpr fun b hb => ?_
    rw [hbefore b hb, List.flatMap_nil]
  rw [hnil, List.nil_append]
  refine List.flatMap_congr fun b hb => ?_
  exact received_whole (hsince b hb) (hall b (List.mem_of_mem_drop hb))

/-- Every member sees the messages in the order of the room. -/
theorem messages_in_one_order (h : room.Via (fun r a => Avoids r.server a) r) :
    (∀ c, r.said c = delivered c r.finished ++ pending (r.server.stage c)) ∧
      (∀ c i, Holds r.server c i → WrittenSince c (r.joined c) r.finished) ∧
      ∀ c d i j, Holds r.server c i → Holds r.server d j → MissedNone c r.finished → MissedNone d r.finished →
        r.joined c ≤ r.joined d →
          received c r.finished = frames ((r.finished.drop (r.joined c)).map Broadcast.msg) ∧
            received d r.finished <:+ received c r.finished := by
  obtain ⟨_, _, ho⟩ := room_inv h
  refine ⟨ho.said, ho.joined, ?_⟩
  intro c d i j hc hd hallc halld hle
  have hrc := (ho.joined c i hc).received hallc
  have hrd := (ho.joined d j hd).received halld
  refine ⟨hrc, ?_⟩
  rw [hrc, hrd]
  obtain ⟨k, hk⟩ := Nat.le.dest hle
  rw [← hk, ← List.drop_drop]
  generalize r.finished.drop (r.joined c) = bs
  unfold frames
  conv_rhs => rw [← List.take_append_drop k bs]
  rw [List.map_append, List.flatMap_append]
  exact List.suffix_append _ _

def talk : List Move :=
  join 5 ++ [.message 0 [104], .lock 0] ++ List.replicate 10 (.inside true) ++ join 6 ++
    [.message 1 [105], .message 0 [106], .lock 1] ++ List.replicate 11 (.inside true) ++ [.lock 0] ++
    List.replicate 11 (.inside true)

def summary (r : Room) : List Text × Nat × Nat × Bool := (r.finished.map Broadcast.msg, r.joined 0, r.joined 1,
  r.finished.all fun b => b.writes.all Write.sent)

theorem messages_in_one_order_late : ∃ r, room.Via (fun r a => Avoids r.server a) r ∧
    received 0 r.finished = frames [[104], [105], [106]] ∧ received 1 r.finished <:+ received 0 r.finished := by
  have hexec : (Run.exec (Run.guard (fun (r : Room) a => Avoids r.server a)
      fun r a => (step r.server a).map fun s => r.next s a) empty talk).map (fun r =>
        (summary r, r.server.threads 0, r.server.threads 1)) =
      some (([[104], [105], [106]], 0, 1, true), ⟨0, .reading⟩, ⟨1, .reading⟩) := by
    decide +kernel
  obtain ⟨r, hexec, he⟩ := Option.map_eq_some_iff.mp hexec
  unfold summary at he
  simp only [Prod.mk.injEq] at he
  obtain ⟨⟨hmsgs, hjoined0, hjoined1, hsent⟩, hthread0, hthread1⟩ := he
  have h0 : room.Via (fun r a => Avoids r.server a) empty := .init rfl
  have hvia : room.Via (fun r a => Avoids r.server a) r := Run.via_guard h0 hexec
  have hmissed : ∀ c, MissedNone c r.finished := by
    intro c b hb w hw
    exact List.all_eq_true.mp (List.all_eq_true.mp hsent b hb) w (List.mem_of_mem_filter hw)
  have hholds0 : Holds r.server 0 0 := by
    apply Or.inl
    unfold Server.stage
    rw [hthread0]
    exact ⟨Stage.noConfusion, Stage.noConfusion, rfl⟩
  have hholds1 : Holds r.server 1 1 := by
    apply Or.inl
    unfold Server.stage
    rw [hthread1]
    exact ⟨Stage.noConfusion, Stage.noConfusion, rfl⟩
  obtain ⟨hfirst, hsuffix⟩ := (messages_in_one_order hvia).2.2 0 1 0 1 hholds0 hholds1 (hmissed 0) (hmissed 1)
    (by rw [hjoined0]; exact Nat.zero_le _)
  rw [hjoined0, List.drop_zero, hmsgs] at hfirst
  exact ⟨r, hvia, hfirst, hsuffix⟩

end SysProg.Chat
