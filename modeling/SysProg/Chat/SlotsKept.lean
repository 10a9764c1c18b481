/-
  SysProg.Chat.SlotsKept — every step keeps the books of the slots (see `SysProg.Chat.Slots`).

  `clientsCount` is counted up and down with the slots (`Counts.place`, `Counts.clearSlot`), so
  whoever waits for a slot finds one (`Counts.free`), and both invariants hold in every
  state of every run (`tidy_reach`).
-/

import SysProg.Chat.Slots

namespace SysProg.Chat

variable {s s' : Server} {c d fd i : Nat} {a : Move} {ok : Bool}

/-! ## The count -/

/-- While a connection waits for its slot there is a free one. -/
theorem Counts.free (h : Counts s) (hmutex : s.mutex = some (.assign c fd)) :
    ∃ i, s.clients.findIdx? Option.isNone = some i ∧ s.clients[i]? = some none := by
  have hroom := h.room (Or.inr ⟨c, fd, Or.inr hmutex⟩)
  have hcounted := h.counted
  rw [hmutex] at hcounted
  cases hfind : s.clients.findIdx? Option.isNone with
  | none =>
    rw [List.findIdx?_eq_none_iff] at hfind
    have hfull : s.clients.countP Option.isSome = s.clients.length := by
      rw [List.countP_eq_length]
      intro x hx
      rw [← Option.not_isNone, hfind x hx]
      rfl
    have hlen := h.length
    simp only [offset, occupied] at hcounted
    omega
  | some i =>
    rcases List.findIdx?_eq_some_iff_getElem.mp hfind with ⟨hi, hnone, -⟩
    exact ⟨i, rfl, by rw [List.getElem?_eq_getElem hi, Option.isNone_iff_eq_none.mp hnone]⟩

theorem occupied_set {o : Option Nat} {x : Option Nat} (hi : s.clients[i]? = some o) :
    (s.clients.set i x).countP Option.isSome + (if o.isSome then 1 else 0) =
      occupied s + (if x.isSome then 1 else 0) := by
  rcases List.getElem?_eq_some_iff.mp hi with ⟨hlen, hget⟩
  have hpos : o.isSome = true → 0 < s.clients.countP Option.isSome := fun ho =>
    List.countP_pos_iff.mpr ⟨o, hget ▸ List.getElem_mem hlen, ho⟩
  rw [List.countP_set hlen, hget, occupied]
  split
  · rename_i ho
    have := hpos ho
    omega
  · omega

theorem Counts.place (h : Counts s) (hmain : s.main = .inside) (hmutex : s.mutex = some (.assign c fd))
    (hi : s.clients[i]? = some none) : Counts (s.place c fd i) := by
  have hcounted := h.counted
  have hset := occupied_set (x := some fd) hi
  refine ⟨?_, ?_, ?_, ?_⟩
  · exact (List.length_set ..).trans h.length
  · rw [hmutex] at hcounted
    simp only [Server.place, occupied, offset] at hcounted hset ⊢
    simp at hset
    omega
  · rintro (hw | ⟨d, fd', hw | hw⟩)
    · cases hmain.symm.trans hw
    · cases hmain.symm.trans hw
    · cases hw
  · exact fun _ _ _ => hmain

theorem Counts.begin (h : Counts s) (hmain : s.main = .inside) (hmutex : s.mutex = some (.count c i)) :
    Counts (s.begin c i) := by
  have hcounted := h.counted
  refine ⟨h.length, ?_, ?_, ?_⟩
  · rw [hmutex] at hcounted
    simp only [Server.begin, occupied, offset] at hcounted ⊢
    omega
  · rintro (hw | ⟨d, fd', hw | hw⟩)
    · cases hmain.symm.trans hw
    · cases hmain.symm.trans hw
    · cases hw
  · exact fun _ _ _ => hmain

theorem Counts.clearSlot (h : Counts s) (hmutex : s.mutex = some (.clear c))
    (hi : s.clients[(s.threads c).slot]? = some (some fd)) : Counts (s.clearSlot c) := by
  have hcounted := h.counted
  have hset := occupied_set (x := none) hi
  refine ⟨?_, ?_, ?_, ?_⟩
  · exact (List.length_set ..).trans h.length
  · rw [hmutex] at hcounted
    simp only [Server.clearSlot, count_setStage, occupied, offset] at hcounted hset ⊢
    simp at hset
    omega
  · rintro (hw | ⟨d, fd', hw | hw⟩)
    · exact h.room (Or.inl hw)
    · exact h.room (Or.inr ⟨d, fd', Or.inl hw⟩)
    · cases hw
  · intro k hk hm
    cases hk
    exact hm.elim

/-- Nothing is placed or cleared, and nothing is counted. -/
theorem Counts.frame (h : Counts s) (hclients : s'.clients = s.clients) (hcount : s'.clientsCount = s.clientsCount)
    (hoffset : offset s'.mutex = offset s.mutex)
    (hroom : s'.main = .accepting ∨ (∃ c fd, Waiting s' c fd) → s.clientsCount < maxClients)
    (hmain : ∀ k, s'.mutex = some k → k.ofMain → s'.main = .inside) : Counts s' := by
  refine ⟨?_, ?_, ?_, hmain⟩
  · rw [hclients]
    exact h.length
  · rw [hcount, occupied, hclients, hoffset]
    exact h.counted
  · rw [hcount]
    exact hroom

/-! ## Every step -/

structure Tidy (s : Server) : Prop where
  counts : Counts s
  owners : Owners s

theorem Tidy.check (h : Tidy s) (hmain : s.main = .idle) :
    Tidy { s with main := if s.clientsCount < maxClients then .accepting else .idle } := by
  have hnone : ∀ k, s.mutex = some k → ¬ k.ofMain := fun k hk hm => by
    cases (h.counts.main k hk hm).symm.trans hmain
  have hassign : ∀ c fd, s.mutex ≠ some (.assign c fd) := fun c fd hk => hnone _ hk trivial
  have hnew : ∀ c fd, (if s.clientsCount < maxClients then Main.accepting else .idle) ≠ .accepted c fd := by
    intro c fd
    split <;> exact Main.noConfusion
  constructor
  · refine h.counts.frame rfl rfl rfl ?_ fun k hk hm => absurd hm (hnone k hk)
    rintro (hw | ⟨c, fd, hw | hw⟩)
    · by_contra hlt
      dsimp only at hw
      rw [if_neg hlt] at hw
      cases hw
    · exact absurd hw (hnew c fd)
    · exact absurd hw (hassign c fd)
  · refine h.owners.turn (fun _ _ => Iff.rfl) (fun c fd => ?_) h.owners.clearing h.owners.writing
    unfold Waiting
    rw [hmain]
    exact or_congr (iff_of_false (hnew c fd) Main.noConfusion) Iff.rfl

theorem Tidy.lockMain (h : Tidy s) (hmain : s.main = .accepted c fd) (hmutex : s.mutex = none) :
    Tidy { s with main := .inside, mutex := some (.assign c fd) } := by
  constructor
  · refine h.counts.frame rfl rfl ?_ (fun _ => h.counts.room (Or.inr ⟨c, fd, Or.inl hmain⟩)) fun _ _ _ => rfl
    rw [hmutex]
    rfl
  · refine h.owners.turn (fun _ _ => ?_) (fun d fd' => ?_) (fun _ hk => ?_) fun _ hk => ?_
    · rw [hmutex]
      exact iff_of_false (fun hk => by cases hk) (fun hk => by cases hk)
    · unfold Waiting
      rw [hmain, hmutex]
      constructor
      · rintro (hw | hw)
        · cases hw
        · cases hw
          exact Or.inl rfl
      · rintro (hw | hw)
        · cases hw
          exact Or.inr rfl
        · cases hw
    · cases hk
    · cases hk

/-- Somebody other than `run_server` takes the mutex, gives it back or goes on under it. -/
theorem Tidy.remutex (h : Tidy s) {mutex : Option Critical} (hcount : ∀ c i, s.mutex ≠ some (.count c i))
    (hassign : ∀ c fd, s.mutex ≠ some (.assign c fd)) (hof : ∀ k, mutex = some k → ¬ k.ofMain)
    (hoffset : offset mutex = offset s.mutex) (hclearing : ∀ c, mutex = some (.clear c) → s.stage c = .closed)
    (hwriting : ∀ b, mutex = some (.broadcast b) → s.stage b.client = .writing b.msg) :
    Tidy { s with mutex } := by
  constructor
  · refine h.counts.frame rfl rfl hoffset ?_ fun k hk hm => absurd hm (hof k hk)
    rintro (hw | ⟨c, fd, hw | hw⟩)
    · exact h.counts.room (Or.inl hw)
    · exact h.counts.room (Or.inr ⟨c, fd, Or.inl hw⟩)
    · exact absurd trivial (hof _ hw)
  · refine h.owners.turn (fun c i => ?_) (fun c fd => ?_) hclearing hwriting
    · exact iff_of_false (fun hk => hof _ hk trivial) (hcount c i)
    · exact or_congr Iff.rfl (iff_of_false (fun hk => hof _ hk trivial) (hassign c fd))

theorem Tidy.message (h : Tidy s) {msg : Text} (hst : s.stage c = .reading) : Tidy (s.setStage c (.writing msg)) := by
  constructor
  · exact h.counts.frame rfl rfl rfl h.counts.room h.counts.main
  · refine h.owners.frame rfl rfl rfl (fun _ => slot_setStage) (fun _ => ?_) (fun _ _ => Iff.rfl) (fun _ _ => Iff.rfl)
      (fun d hk => ?_) fun b hk => ?_
    · exact sameKind_setStage (hst ▸ sameKind_reading)
    · have hd := h.owners.clearing d hk
      rwa [stage_setStage_ne]
      intro heq
      subst heq
      cases hst.symm.trans hd
    · have hb := h.owners.writing b hk
      rwa [stage_setStage_ne]
      intro e
      rw [e, hst] at hb
      cases hb

/-- The broadcast is over. -/
theorem Tidy.unlock (h : Tidy s) {b : Broadcast} (hmutex : s.mutex = some (.broadcast b)) :
    Tidy { s.setStage b.client .reading with mutex := none } := by
  have hb := h.owners.writing b hmutex
  constructor
  · refine h.counts.frame rfl rfl ?_ ?_ fun k hk => by cases hk
    · rw [hmutex]
      rfl
    · rintro (hw | ⟨c, fd, hw | hw⟩)
      · exact h.counts.room (Or.inl hw)
      · exact h.counts.room (Or.inr ⟨c, fd, Or.inl hw⟩)
      · cases hw
  · refine h.owners.frame rfl rfl rfl (fun _ => slot_setStage) (fun _ => ?_) (fun c i => ?_) (fun c fd => ?_)
      (fun d hk => by cases hk) fun b hk => by cases hk
    · have hkind : SameKind .reading (s.stage b.client) := by
        rw [hb]
        exact ⟨sameKind_reading.1.symm, sameKind_reading.2.1.symm, sameKind_reading.2.2.symm⟩
      exact sameKind_setStage hkind
    · rw [hmutex]
      exact iff_of_false (fun hk => by cases hk) (fun hk => by cases hk)
    · unfold Waiting
      rw [hmutex]
      exact or_congr Iff.rfl (iff_of_false (fun hk => by cases hk) (fun hk => by cases hk))

theorem Tidy.broadcastStep (h : Tidy s) {b : Broadcast} (hmutex : s.mutex = some (.broadcast b)) :
    Tidy (broadcastStep s b ok) := by
  have hgo : ∀ b' : Broadcast, b'.client = b.client → b'.msg = b.msg →
    Tidy { s with mutex := some (.broadcast b') } := by
    intro b' hclient hmsg
    refine h.remutex ?_ ?_ ?_ ?_ ?_ ?_
    · intro c i hk
      cases hmutex.symm.trans hk
    · intro c fd hk
      cases hmutex.symm.trans hk
    · intro k hk
      cases hk
      exact id
    · rw [hmutex]
      rfl
    · intro c hk
      cases hk
    · intro b'' hk
      cases hk
      rw [hclient, hmsg]
      exact h.owners.writing b hmutex
  unfold Chat.broadcastStep
  split
  · exact h.unlock hmutex
  · split
    · exact hgo _ rfl rfl
    · exact hgo _ rfl rfl

theorem Tidy.insideStep (h : Tidy s) {k : Critical} (hmutex : s.mutex = some k) : Tidy (insideStep s ok k) := by
  cases k with
  | assign c fd =>
    have hmain := h.counts.main _ hmutex trivial
    rcases h.counts.free hmutex with ⟨i, hfind, hi⟩
    simp only [Chat.insideStep, hfind]
    exact ⟨h.counts.place hmain hmutex hi, h.owners.place hmain hmutex hi⟩
  | count c i =>
    have hmain := h.counts.main _ hmutex trivial
    exact ⟨h.counts.begin hmain hmutex, h.owners.begin hmain hmutex⟩
  | assigned =>
    have hmain := h.counts.main _ hmutex trivial
    constructor
    · refine h.counts.frame rfl rfl ?_ ?_ fun k hk => by cases hk
      · rw [hmutex]
        rfl
      · rintro (hw | ⟨c, fd, hw | hw⟩) <;> cases hw
    · refine h.owners.turn (fun c i => ?_) (fun c fd => ?_) (fun c hk => by cases hk) fun b hk => by cases hk
      · rw [hmutex]
        exact iff_of_false (fun hk => by cases hk) (fun hk => by cases hk)
      · unfold Waiting
        rw [hmain, hmutex]
        exact iff_of_false (by rintro (hw | hw) <;> cases hw) (by rintro (hw | hw) <;> cases hw)
  | broadcast b => exact h.broadcastStep hmutex
  | clear c =>
    rcases h.owners.slot c _ (holds_running (Or.inr (h.owners.clearing c hmutex))) with ⟨fd, hi, -⟩
    exact ⟨h.counts.clearSlot hmutex hi, h.owners.clearSlot hmutex⟩
  | uncount =>
    have hcounted := h.counts.counted
    rw [hmutex] at hcounted
    constructor
    · refine ⟨h.counts.length, ?_, ?_, fun k hk hm => by cases hk; exact hm.elim⟩
      · simp only [Chat.insideStep, occupied, offset] at hcounted ⊢
        omega
      · intro hw
        have hroom : s.clientsCount < maxClients := by
          apply h.counts.room
          rcases hw with hw | ⟨c, fd, hw | hw⟩
          · exact Or.inl hw
          · exact Or.inr ⟨c, fd, Or.inl hw⟩
          · cases hw
        simp only [Chat.insideStep]
        omega
    · refine h.owners.turn (fun c i => ?_) (fun c fd => ?_) (fun c hk => by cases hk) fun b hk => by cases hk
      · rw [hmutex]
        exact iff_of_false (fun hk => by cases hk) (fun hk => by cases hk)
      · unfold Waiting
        rw [hmutex]
        exact or_congr Iff.rfl (iff_of_false (fun hk => by cases hk) (fun hk => by cases hk))
  | cleared =>
    refine h.remutex ?_ ?_ (fun k hk => by cases hk) ?_ (fun c hk => by cases hk) fun b hk => by cases hk
    · intro c i hk
      cases hmutex.symm.trans hk
    · intro c fd hk
      cases hmutex.symm.trans hk
    · rw [hmutex]
      rfl

theorem Tidy.lock (h : Tidy s) (hmutex : s.mutex = none) {k : Critical} (hof : ¬ k.ofMain)
    (hoffset : offset (some k) = 0) (hclearing : ∀ c, k = .clear c → s.stage c = .closed)
    (hwriting : ∀ b, k = .broadcast b → s.stage b.client = .writing b.msg) : Tidy { s with mutex := some k } := by
  refine h.remutex ?_ ?_ ?_ ?_ ?_ ?_
  · intro c i hk
    cases hmutex.symm.trans hk
  · intro c fd hk
    cases hmutex.symm.trans hk
  · intro k' hk
    cases hk
    exact hof
  · rw [hmutex, hoffset]
    rfl
  · intro c hk
    exact hclearing c (Option.some.inj hk)
  · intro b hk
    exact hwriting b (Option.some.inj hk)

theorem Counts.closeSlot (h : Counts s) : Counts (s.closeSlot i) := by
  unfold Server.closeSlot
  split
  · exact h.frame rfl rfl rfl h.room h.main
  · exact h

theorem tidy_start : Tidy start := by
  have hnone : ∀ c i, ¬ Holds start c i := by
    rintro c i (⟨hne, -, -⟩ | hk)
    · exact hne rfl
    · cases hk
  have hwaiting : ∀ c fd, ¬ Waiting start c fd := by
    rintro c fd (hw | hw) <;> cases hw
  constructor
  · refine ⟨rfl, rfl, ?_, fun k hk => by cases hk⟩
    rintro (hw | ⟨c, fd, hw⟩)
    · cases hw
    · exact absurd hw (hwaiting c fd)
  · refine ⟨?_, ?_, ?_, ?_, ?_, ?_, ?_, ?_, ?_, ?_⟩
    · exact fun c i hc => absurd hc (hnone c i)
    · intro i fd hi
      cases List.eq_of_mem_replicate (List.mem_of_getElem? hi)
    · exact fun c _ i hc => absurd hc (hnone c i)
    · exact fun _ _ _ hn => by cases hn
    · exact fun c fd hw => absurd hw (hwaiting c fd)
    · exact fun _ _ hk => by cases hk
    · exact fun _ hc => absurd hc (Nat.not_lt_zero _)
    · exact fun c _ => ⟨rfl, fun _ => (Option.some_ne_none c).symm, hnone c⟩
    · exact fun _ hk => by cases hk
    · exact fun _ hk => by cases hk

theorem Tidy.step (h : Tidy s) (hs : step s a = some s') : Tidy s' := by
  cases a with
  | check =>
    rcases Option.ite_none_right_eq_some.mp hs with ⟨hmain, e⟩
    cases e
    exact h.check hmain
  | accept fd =>
    rcases Option.ite_none_right_eq_some.mp hs with ⟨⟨hmain, hfd⟩, e⟩
    cases e
    refine ⟨h.counts.frame rfl rfl rfl (fun _ => h.counts.room (Or.inl hmain)) fun k hk hm => ?_,
      h.owners.accept h.counts hmain hfd⟩
    cases (h.counts.main k hk hm).symm.trans hmain
  | lockMain =>
    simp only [Chat.step] at hs
    split at hs
    · rename_i c fd hmain hmutex
      cases hs
      exact h.lockMain hmain hmutex
    · cases hs
  | message c msg =>
    rcases Option.ite_none_right_eq_some.mp hs with ⟨⟨hst, -⟩, e⟩
    cases e
    exact h.message hst
  | close c =>
    rcases Option.ite_none_right_eq_some.mp hs with ⟨hst, e⟩
    cases e
    have hcounts : Counts (s.closeSlot (s.threads c).slot) := h.counts.closeSlot
    exact ⟨hcounts.frame rfl rfl rfl hcounts.room hcounts.main, h.owners.close hst⟩
  | lock c =>
    simp only [Chat.step] at hs
    split at hs
    · rename_i msg hst hmutex
      cases hs
      refine h.lock hmutex id rfl (fun d e => by cases e) fun b e => ?_
      cases e
      exact hst
    · rename_i hst hmutex
      cases hs
      refine h.lock hmutex id rfl (fun d e => ?_) fun b e => by cases e
      cases e
      exact hst
    · cases hs
  | inside ok =>
    rcases Option.map_eq_some_iff.mp hs with ⟨k, hmutex, e⟩
    cases e
    exact h.insideStep hmutex

theorem tidy_reach (h : server.Reach s) : Tidy s := by
  refine Run.Sys.Reach.inv ?_ (fun _ _ _ ht hs => ht.step hs) h
  intro t heq
  subst heq
  exact tidy_start

end SysProg.Chat
