/-
  SysProg.Chat.Broadcasts — whom a broadcast writes to (see `SysProg.Chat.Server`).

  A thread closes its descriptor before it takes the mutex to clear its slot. In between
  `accept` can give the number to a new connection, and the slot still has it: a
  broadcast then writes to a closed descriptor, or twice to the new connection
  (`written_twice`). `Avoids` says that no broadcast comes to a slot in that time. In
  every run of such steps a broadcast writes only to open descriptors, never twice to one,
  and once it is through it has written its message to every open connection that has
  a slot (`broadcasts_write_once`). The count and the slots are right in every run.

  What carries it: during a broadcast nobody gets a slot or loses one, so who has a descriptor
  in a slot and is open has had both since the broadcast began (`Fine.keeps`).
-/

import SysProg.Chat.SlotsKept

namespace SysProg.Chat

def writesTo (c : Nat) (ws : List Write) : List Write := ws.filter fun w => w.conn = some c

def writesOn (fd : Nat) (ws : List Write) : List Write := ws.filter fun w => w.fd = fd

def Write.piece (w : Write) : Text × Bool := (w.text, w.sent)

/-- The whole message; or its header, if that did not go through. -/
def Whole (msg : Text) (ws : List Write) : Prop :=
  ws.map Write.piece = [(sizeBytes msg.length, false)] ∨
    ∃ sent, ws.map Write.piece = [(sizeBytes msg.length, true), (msg, sent)]

/-- The slot the broadcast is at is not of a connection that is closed. -/
def Avoids (s : Server) (a : Move) : Prop := match a, s.mutex with
  | .inside _, some (.broadcast b) =>
    ∀ c, c < s.accepted → (s.threads c).stage = .closed → (s.threads c).slot ≠ b.i
  | _, _ => True

instance (s : Server) (a : Move) : Decidable (Avoids s a) := by
  unfold Avoids
  split <;> infer_instance

structure Fine (s : Server) (b : Broadcast) : Prop where
  owner : ∀ w ∈ b.writes, ∃ d i, w.conn = some d ∧ Holds s d i ∧ s.clients[i]? = some (some w.fd)
  keeps : ∀ w ∈ b.writes, ∀ c i, Holds s c i → s.names w.fd = some c → w.conn = some c
  same : ∀ w ∈ b.writes, ∀ w' ∈ b.writes, w.fd = w'.fd → w.conn = w'.conn
  headed : b.headed = true → ∃ d, Holds s d b.i
  before : ∀ d i, Holds s d i → i < b.i → Whole b.msg (writesTo d b.writes)
  here : ∀ d, Holds s d b.i →
    (writesTo d b.writes).map Write.piece = if b.headed then [(sizeBytes b.msg.length, true)] else []
  after : ∀ d i, Holds s d i → b.i < i → writesTo d b.writes = []

variable {s s' : Server} {b : Broadcast} {c d fd i : Nat} {a : Move} {ok : Bool} {ws : List Write} {w : Write}

theorem writesTo_append_self (h : w.conn = some d) : writesTo d (ws ++ [w]) = writesTo d ws ++ [w] := by
  unfold writesTo
  rw [List.filter_append, List.filter_cons_of_pos (by rw [h, decide_eq_true rfl]), List.filter_nil]

theorem writesTo_append_ne (h : w.conn ≠ some d) : writesTo d (ws ++ [w]) = writesTo d ws := by
  unfold writesTo
  rw [List.filter_append, List.filter_cons_of_neg (by rw [decide_eq_true_eq]; exact h), List.filter_nil,
    List.append_nil]

/-- Who has which slot is as it was, and no holder is given a descriptor. -/
theorem Fine.frame (h : Fine s b) (hclients : s'.clients = s.clients) (hholds : ∀ c i, Holds s' c i ↔ Holds s c i)
    (hnames : ∀ c i fd, Holds s c i → s'.names fd = some c → s.names fd = some c) : Fine s' b := by
  refine ⟨?_, ?_, h.same, ?_, ?_, ?_, ?_⟩
  · intro w hw
    rcases h.owner w hw with ⟨d, i, hconn, hd, hi⟩
    exact ⟨d, i, hconn, (hholds d i).mpr hd, hclients ▸ hi⟩
  · intro w hw c i hc hn
    have hc' := (hholds c i).mp hc
    exact h.keeps w hw c i hc' (hnames c i _ hc' hn)
  · intro hb
    rcases h.headed hb with ⟨d, hd⟩
    exact ⟨d, (hholds d _).mpr hd⟩
  · exact fun d i hd => h.before d i ((hholds d i).mp hd)
  · exact fun d hd => h.here d ((hholds d _).mp hd)
  · exact fun d i hd => h.after d i ((hholds d i).mp hd)

theorem fine_begin {msg : Text} : Fine s ⟨c, msg, 0, false, []⟩ := by
  refine ⟨?_, ?_, ?_, ?_, ?_, fun _ _ => rfl, fun _ _ _ _ => rfl⟩
  · exact fun w hw => absurd hw List.not_mem_nil
  · exact fun w hw => absurd hw List.not_mem_nil
  · exact fun w hw => absurd hw List.not_mem_nil
  · exact fun hb => by cases hb
  · exact fun d i _ hi => absurd hi (Nat.not_lt_zero i)

/-- An empty slot is passed over. -/
theorem Fine.skip (h : Fine s b) (ho : Owners s) (hi : s.clients.getD b.i none = none) :
    Fine s { b with i := b.i + 1 } := by
  have hfree : ∀ d, ¬ Holds s d b.i := by
    intro d hd
    rcases ho.slot d b.i hd with ⟨fd, hfd, -⟩
    rw [List.getD_eq_getElem?_getD, hfd] at hi
    cases hi
  have hheaded : b.headed = false := by
    rw [← Bool.not_eq_true]
    intro hb
    rcases h.headed hb with ⟨d, hd⟩
    exact hfree d hd
  refine ⟨h.owner, h.keeps, h.same, ?_, ?_, ?_, ?_⟩
  · intro hb
    cases hheaded.symm.trans hb
  · intro d i hd hlt
    rcases Nat.lt_succ_iff_lt_or_eq.mp hlt with hlt | rfl
    · exact h.before d i hd hlt
    · exact absurd hd (hfree d)
  · intro d hd
    rw [h.after d _ hd (Nat.lt_succ_self _)]
    simp only [hheaded]
    rfl
  · exact fun d i hd hlt => h.after d i hd (Nat.lt_of_succ_lt hlt)

/-- A connection has one slot. -/
theorem holds_unique (hcount : ∀ c i, s.mutex ≠ some (.count c i)) {j : Nat} (hi : Holds s c i) (hj : Holds s c j) :
    i = j := by
  rcases hi with ⟨-, -, hi⟩ | hi
  · rcases hj with ⟨-, -, hj⟩ | hj
    · exact hi.symm.trans hj
    · exact absurd hj (hcount c j)
  · exact absurd hi (hcount c i)

/-- The connection in the slot is written to, and the broadcast stays for the payload or goes on. -/
theorem Fine.append (h : Fine s b) (ho : Owners s) (hcount : ∀ c i, s.mutex ≠ some (.count c i)) (hd : Holds s d b.i)
    (hfd : s.clients[b.i]? = some (some w.fd)) (hname : s.names w.fd = some d) (hconn : w.conn = some d) {j : Nat}
    {headed : Bool}
    (hpiece : (j = b.i + 1 ∧ headed = false ∧ Whole b.msg (writesTo d b.writes ++ [w])) ∨
      (j = b.i ∧ headed = true ∧ (writesTo d b.writes ++ [w]).map Write.piece = [(sizeBytes b.msg.length, true)])) :
    Fine s { b with i := j, headed, writes := b.writes ++ [w] } := by
  have hself : writesTo d (b.writes ++ [w]) = writesTo d b.writes ++ [w] := writesTo_append_self hconn
  have hone : ∀ {e k}, Holds s e k → k ≠ b.i → e ≠ d := by
    intro e k he hk heq
    subst heq
    exact hk (holds_unique hcount he hd)
  have hother : ∀ {e k}, Holds s e k → k ≠ b.i → writesTo e (b.writes ++ [w]) = writesTo e b.writes := by
    intro e k he hk
    refine writesTo_append_ne fun hw => hone he hk ?_
    exact (Option.some.inj (hconn.symm.trans hw)).symm
  have hold : ∀ w' ∈ b.writes, w'.fd = w.fd → w'.conn = some d := by
    intro w' hw' e
    exact h.keeps w' hw' d b.i hd (by rw [e]; exact hname)
  refine ⟨?_, ?_, ?_, ?_, ?_, ?_, ?_⟩
  · intro w' hw'
    rcases List.mem_append.mp hw' with hw' | hw'
    · exact h.owner w' hw'
    · rw [List.mem_singleton.mp hw']
      exact ⟨d, b.i, hconn, hd, hfd⟩
  · intro w' hw' c k hc hn
    rcases List.mem_append.mp hw' with hw' | hw'
    · exact h.keeps w' hw' c k hc hn
    · rw [List.mem_singleton.mp hw'] at hn ⊢
      rw [hconn, ← hname, hn]
  · intro w₁ h₁ w₂ h₂ e
    rcases List.mem_append.mp h₁ with h₁ | h₁ <;> rcases List.mem_append.mp h₂ with h₂ | h₂
    · exact h.same w₁ h₁ w₂ h₂ e
    · rw [List.mem_singleton.mp h₂] at e ⊢
      rw [hold w₁ h₁ e, hconn]
    · rw [List.mem_singleton.mp h₁] at e ⊢
      rw [hold w₂ h₂ e.symm, hconn]
    · rw [List.mem_singleton.mp h₁, List.mem_singleton.mp h₂]
  · intro hb
    rcases hpiece with ⟨-, hf, -⟩ | ⟨hj, -, -⟩
    · cases hf.symm.trans hb
    · exact ⟨d, hj ▸ hd⟩
  · intro e k he hlt
    dsimp only at hlt ⊢
    by_cases hk : k = b.i
    · rw [ho.apart e d k he (hk ▸ hd), hself]
      rcases hpiece with ⟨-, -, hwhole⟩ | ⟨hj, -, -⟩
      · exact hwhole
      · omega
    · rw [hother he hk]
      exact h.before e k he (by rcases hpiece with ⟨hj, -, -⟩ | ⟨hj, -, -⟩ <;> omega)
  · intro e he
    dsimp only at he ⊢
    rcases hpiece with ⟨hj, hf, -⟩ | ⟨hj, ht, hmap⟩
    · rw [hother he (by omega), h.after e j he (by omega), hf]
      rfl
    · rw [ho.apart e d b.i (hj ▸ he) hd, hself, hmap, ht]
      rfl
  · intro e k he hlt
    dsimp only at hlt ⊢
    have hk : b.i < k := by rcases hpiece with ⟨hj, -, -⟩ | ⟨hj, -, -⟩ <;> omega
    rw [hother he (by omega)]
    exact h.after e k he hk

/-- A write to the open connection in the slot. -/
theorem Fine.write (h : Fine s b) (ho : Owners s) (hcount : ∀ c i, s.mutex ≠ some (.count c i)) (hd : Holds s d b.i)
    (hfd : s.clients[b.i]? = some (some fd)) (hname : s.names fd = some d) : Fine s (b.write fd (some d) ok) := by
  have hhere := h.here d hd
  refine h.append ho hcount hd hfd hname rfl ?_
  rw [List.map_append, hhere]
  unfold Whole
  rw [List.map_append, hhere]
  cases b.headed with
  | true => exact Or.inl ⟨rfl, rfl, Or.inr ⟨_, rfl⟩⟩
  | false => cases ok with
    | true => exact Or.inr ⟨rfl, rfl, rfl⟩
    | false => exact Or.inl ⟨rfl, rfl, Or.inl rfl⟩

/-! ## Every step -/

def FineNow (s : Server) : Prop := ∀ b, s.mutex = some (.broadcast b) → Fine s b

theorem holds_broadcast {b' : Broadcast} (hmutex : s.mutex = some (.broadcast b)) :
    Holds { s with mutex := some (.broadcast b') } c i ↔ Holds s c i := by
  refine or_congr Iff.rfl (iff_of_false (fun hk => by cases hk) fun hk => ?_)
  cases hmutex.symm.trans hk

theorem fineNow_broadcastStep (ht : Tidy s) (hf : Fine s b) (hmutex : s.mutex = some (.broadcast b))
    (ha : ∀ c, c < s.accepted → (s.threads c).stage = .closed → (s.threads c).slot ≠ b.i) :
    FineNow (broadcastStep s b ok) := by
  have hcount : ∀ c i, s.mutex ≠ some (.count c i) := fun c i hk => by cases hmutex.symm.trans hk
  have hgo : ∀ b', Fine s b' → FineNow { s with mutex := some (.broadcast b') } := by
    intro b' hb' b'' hk
    cases hk
    exact hb'.frame rfl (fun _ _ => holds_broadcast hmutex) fun _ _ _ _ hn => hn
  unfold broadcastStep
  split
  · intro b' hk
    cases hk
  · split
    · rename_i hi
      exact hgo _ (hf.skip ht.owners hi)
    · rename_i fd hi
      have hfd : s.clients[b.i]? = some (some fd) := by
        rw [List.getD_eq_getElem?_getD] at hi
        cases hget : s.clients[b.i]? with
        | none => rw [hget] at hi; cases hi
        | some o => rw [hget] at hi; exact congrArg some hi
      rcases ht.owners.holder b.i fd hfd with ⟨d, hd⟩
      rcases ht.owners.slot d b.i hd with ⟨fd', hfd', hopen⟩
      cases hfd.symm.trans hfd'
      have hlt : d < s.accepted := by
        by_contra hge
        exact (ht.owners.fresh d (Nat.le_of_not_lt hge)).2.2 b.i hd
      have hslot : (s.threads d).slot = b.i := by
        rcases hd with ⟨-, -, hslot⟩ | hk
        · exact hslot
        · exact absurd hk (hcount d b.i)
      have hname : s.names fd = some d := hopen fun hclosed => ha d hlt hclosed hslot
      rw [hname]
      exact hgo _ (hf.write ht.owners hcount hd hfd hname)

theorem fineNow_step (ht : Tidy s) (hf : FineNow s) (ha : Avoids s a) (hs : step s a = some s') : FineNow s' := by
  cases a with
  | check =>
    rcases Option.ite_none_right_eq_some.mp hs with ⟨-, e⟩
    cases e
    exact fun b hb => (hf b hb).frame rfl (fun _ _ => Iff.rfl) fun _ _ _ _ hn => hn
  | accept fd =>
    rcases Option.ite_none_right_eq_some.mp hs with ⟨-, e⟩
    cases e
    refine fun b hb => (hf b hb).frame rfl (fun _ _ => Iff.rfl) fun c i fd' hc hn => ?_
    by_cases e : fd' = fd
    · rw [e, show (s.accept fd).names fd = some s.accepted from Function.update_self fd _ _, Option.some.injEq] at hn
      exact absurd hc ((ht.owners.fresh c (Nat.le_of_eq hn)).2.2 i)
    · rwa [show (s.accept fd).names fd' = s.names fd' from Function.update_of_ne e _ _] at hn
  | lockMain =>
    simp only [step] at hs
    split at hs
    · cases hs
      exact fun b hb => by cases hb
    · cases hs
  | message c msg =>
    rcases Option.ite_none_right_eq_some.mp hs with ⟨⟨hst, -⟩, e⟩
    cases e
    have halive : s.stage c ≠ .absent ∧ s.stage c ≠ .done := by
      rw [Server.stage, hst]
      exact ⟨Stage.noConfusion, Stage.noConfusion⟩
    exact fun b hb => (hf b hb).frame rfl (fun _ _ => holds_setStage halive ⟨Stage.noConfusion, Stage.noConfusion⟩)
      fun _ _ _ _ hn => hn
  | close c =>
    rcases Option.ite_none_right_eq_some.mp hs with ⟨hst, e⟩
    cases e
    have halive : (s.closeSlot (s.threads c).slot).stage c ≠ .absent ∧
      (s.closeSlot (s.threads c).slot).stage c ≠ .done := by
      rw [Server.stage, threads_closeSlot, hst]
      exact ⟨Stage.noConfusion, Stage.noConfusion⟩
    intro b hb
    rw [mutex_setStage, mutex_closeSlot] at hb
    refine (hf b hb).frame clients_closeSlot (fun d i => ?_) fun _ _ _ _ hn => names_closeSlot hn
    rw [holds_setStage halive ⟨Stage.noConfusion, Stage.noConfusion⟩, holds_closeSlot]
  | lock c =>
    simp only [step] at hs
    split at hs
    · cases hs
      intro b hb
      cases hb
      exact fine_begin
    · cases hs
      exact fun b hb => by cases hb
    · cases hs
  | inside ok =>
    rcases Option.map_eq_some_iff.mp hs with ⟨k, hmutex, e⟩
    cases e
    cases k with
    | broadcast b =>
      apply fineNow_broadcastStep ht (hf b hmutex) hmutex
      unfold Avoids at ha
      rw [hmutex] at ha
      exact ha
    | assign c fd =>
      simp only [insideStep]
      split <;> exact fun b hb => by cases hb
    | count c i => exact fun b hb => by cases hb
    | assigned => exact fun b hb => by cases hb
    | clear c => exact fun b hb => by cases hb
    | uncount => exact fun b hb => by cases hb
    | cleared => exact fun b hb => by cases hb

theorem fineNow_via (h : server.Via Avoids s) : Tidy s ∧ FineNow s := by
  induction h with
  | init h =>
    cases h
    exact ⟨tidy_start, fun b hb => by cases hb⟩
  | step a _ ha hs ih => exact ⟨ih.1.step hs, fineNow_step ih.1 ih.2 ha hs⟩

/-! ## What a broadcast has written -/

theorem Fine.writesOn_eq (h : Fine s b) (hcount : ∀ c i, s.mutex ≠ some (.count c i)) (hw : w ∈ b.writes) :
    ∃ d i, Holds s d i ∧ writesOn w.fd b.writes = writesTo d b.writes := by
  rcases h.owner w hw with ⟨d, i, hconn, hd, hi⟩
  refine ⟨d, i, hd, List.filter_congr fun w' hw' => ?_⟩
  have hiff : w'.fd = w.fd ↔ w'.conn = some d := by
    constructor
    · intro e
      rw [h.same w' hw' w hw e, hconn]
    · intro e
      rcases h.owner w' hw' with ⟨d', i', hconn', hd', hi'⟩
      rw [e] at hconn'
      cases hconn'
      rw [holds_unique hcount hd' hd] at hi'
      exact Option.some.inj (Option.some.inj (hi'.symm.trans hi))
  simp only [hiff]

theorem Whole.texts {msg : Text} (h : Whole msg ws) : ws.map Write.text <+: [sizeBytes msg.length, msg] := by
  have hmap : ws.map Write.text = (ws.map Write.piece).map Prod.fst := by
    rw [List.map_map]
    rfl
  rw [hmap]
  rcases h with h | ⟨sent, h⟩
  · rw [h]
    exact ⟨[msg], rfl⟩
  · rw [h]
    exact List.prefix_refl _

/-- To a holder of a slot the broadcast has written its message, or a part of it from the start. -/
theorem Fine.texts (h : Fine s b) (hd : Holds s d i) :
    (writesTo d b.writes).map Write.text <+: [sizeBytes b.msg.length, b.msg] := by
  rcases Nat.lt_trichotomy i b.i with hlt | rfl | hgt
  · exact (h.before d i hd hlt).texts
  · have hmap : (writesTo d b.writes).map Write.text = ((writesTo d b.writes).map Write.piece).map Prod.fst := by
      rw [List.map_map]
      rfl
    rw [hmap, h.here d hd]
    split
    · exact ⟨[b.msg], rfl⟩
    · exact List.nil_prefix
  · rw [h.after d i hd hgt]
    exact List.nil_prefix

def OpenIn (s : Server) (c fd : Nat) : Prop :=
  (s.threads c).stage ≠ .absent ∧ (s.threads c).stage ≠ .done ∧
    s.clients[(s.threads c).slot]? = some (some fd) ∧ s.names fd = some c

/-- **Every broadcast writes to every open connection once.** In runs where none comes to a
    slot whose connection has been closed. The count is right whenever the mutex is free, and
    every connection accepted gets a slot: it has a thread, or `run_server` is about to give it one. -/
theorem broadcasts_write_once {s : Server} (h : server.Via Avoids s) :
    (∀ b, s.mutex = some (.broadcast b) →
      (∀ w ∈ b.writes, w.conn ≠ none) ∧
      (∀ fd, (writesOn fd b.writes).map Write.text <+: [sizeBytes b.msg.length, b.msg]) ∧
      (b.i = maxClients → ∀ c fd, OpenIn s c fd → Whole b.msg (writesTo c b.writes))) ∧
    (s.mutex = none → s.clientsCount = occupied s) ∧
    ∀ c, c < s.accepted → (s.threads c).stage ≠ .absent ∨ (∃ fd, s.main = .accepted c fd) ∨
      (∃ fd, s.mutex = some (.assign c fd)) ∨ ∃ i, s.mutex = some (.count c i) := by
  rcases fineNow_via h with ⟨ht, hf⟩
  refine ⟨fun b hmutex => ⟨?_, ?_, ?_⟩, ?_, ?_⟩
  · intro w hw
    rcases (hf b hmutex).owner w hw with ⟨d, i, hconn, -⟩
    rw [hconn]
    exact Option.some_ne_none d
  · intro fd
    have hcount : ∀ c i, s.mutex ≠ some (.count c i) := fun c i hk => by cases hmutex.symm.trans hk
    cases hon : writesOn fd b.writes with
    | nil => exact List.nil_prefix
    | cons w ws =>
      have hmem : w ∈ writesOn fd b.writes := by
        rw [hon]
        exact List.mem_cons_self
      rcases List.mem_filter.mp hmem with ⟨hw, hfd⟩
      rcases (hf b hmutex).writesOn_eq hcount hw with ⟨d, i, hd, heq⟩
      rw [of_decide_eq_true hfd, hon] at heq
      rw [heq]
      exact (hf b hmutex).texts hd
  · intro hi c fd hopen
    refine (hf b hmutex).before c (s.threads c).slot (Or.inl ⟨hopen.1, hopen.2.1, rfl⟩) ?_
    rw [hi, ← ht.counts.length]
    exact (List.getElem?_eq_some_iff.mp hopen.2.2.1).1
  · intro hmutex
    rw [ht.counts.counted, hmutex]
    exact Int.add_zero _
  · intro c hc
    rcases ht.owners.placed c hc with ⟨fd, hw | hw⟩ | ⟨i, ⟨hne, -⟩ | hk⟩ | hdone
    · exact Or.inr (Or.inl ⟨fd, hw⟩)
    · exact Or.inr (Or.inr (Or.inl ⟨fd, hw⟩))
    · exact Or.inl hne
    · exact Or.inr (Or.inr (Or.inr ⟨i, hk⟩))
    · refine Or.inl fun ha => ?_
      cases ha.symm.trans hdone

def join (fd : Nat) : List Move := [.check, .accept fd, .lockMain, .inside true, .inside true, .inside true]

/-- A message of the second of two connections has been written to both. -/
theorem broadcasts_write_once_both : ∃ s b, server.Via Avoids s ∧ s.mutex = some (.broadcast b) ∧
    b.i = maxClients ∧ OpenIn s 0 5 ∧ Whole b.msg (writesTo 0 b.writes) := by
  have hexec : (Run.exec (Run.guard Avoids step) start
      (join 5 ++ join 6 ++ [.message 1 [104], .lock 1] ++ List.replicate 10 (.inside true))).map (fun s =>
        (s.mutex, s.clients, s.threads 0, s.names 5)) =
      some (some (.broadcast ⟨1, [104], 8, false, [⟨5, some 0, [0, 0, 0, 1], true⟩, ⟨5, some 0, [104], true⟩,
        ⟨6, some 1, [0, 0, 0, 1], true⟩, ⟨6, some 1, [104], true⟩]⟩),
        [some 5, some 6, none, none, none, none, none, none], ⟨0, .reading⟩, some 0) := by
    decide +kernel
  rcases Option.map_eq_some_iff.mp hexec with ⟨s, hexec, e⟩
  have h0 : server.Via Avoids start := .init rfl
  have hvia : server.Via Avoids s := Run.via_guard h0 hexec
  simp only [Prod.mk.injEq] at e
  rcases e with ⟨hmutex, hclients, hthread, hname⟩
  have hopen : OpenIn s 0 5 := by
    unfold OpenIn
    rw [hthread, hclients, hname]
    decide
  exact ⟨s, _, hvia, hmutex, rfl, hopen, ((broadcasts_write_once hvia).1 _ hmutex).2.2 rfl 0 5 hopen⟩

/-- The first connection is closed and its number given to a third while its slot still has it:
    the third gets the message twice. Without the third, it is written to a closed descriptor. -/
theorem written_twice :
    (∃ s b, server.Reach s ∧ s.mutex = some (.broadcast b) ∧
      (writesOn 5 b.writes).map Write.text = [[0, 0, 0, 1], [104], [0, 0, 0, 1], [104]]) ∧
    ∃ s b, server.Reach s ∧ s.mutex = some (.broadcast b) ∧ ∃ w ∈ b.writes, w.conn = none := by
  have h0 : server.Reach start := .init rfl
  constructor
  · have hexec : (Run.exec step start (join 5 ++ join 6 ++ [.close 0] ++ join 5 ++ [.message 1 [104], .lock 1] ++
        List.replicate 6 (.inside true))).map Server.mutex =
        some (some (.broadcast ⟨1, [104], 3, false, [⟨5, some 2, [0, 0, 0, 1], true⟩, ⟨5, some 2, [104], true⟩,
          ⟨6, some 1, [0, 0, 0, 1], true⟩, ⟨6, some 1, [104], true⟩, ⟨5, some 2, [0, 0, 0, 1], true⟩,
          ⟨5, some 2, [104], true⟩]⟩)) := by
      decide +kernel
    rcases Option.map_eq_some_iff.mp hexec with ⟨s, hexec, hmutex⟩
    exact ⟨s, _, Run.via_exec h0 (fun _ _ _ => trivial) hexec, hmutex, by decide⟩
  · have hexec : (Run.exec step start (join 5 ++ join 6 ++ [.close 0, .message 1 [104], .lock 1, .inside true])).map
        Server.mutex = some (some (.broadcast ⟨1, [104], 1, false, [⟨5, none, [0, 0, 0, 1], false⟩]⟩)) := by
      decide +kernel
    rcases Option.map_eq_some_iff.mp hexec with ⟨s, hexec, hmutex⟩
    exact ⟨s, _, Run.via_exec h0 (fun _ _ _ => trivial) hexec, hmutex, _, List.mem_cons_self, rfl⟩

end SysProg.Chat
