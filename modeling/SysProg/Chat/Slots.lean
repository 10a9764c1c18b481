/-
  SysProg.Chat.Slots — who holds which slot (see `SysProg.Chat.Server`).

  Two invariants of every run, kept by every step in `SysProg.Chat.SlotsKept`. `Counts`:
  `clientsCount` is the number of occupied slots, but for the holder of the mutex that has
  changed one of the two and not yet the other, and while `run_server` has a connection to place there is
  room. `Owners`: every occupied slot is held by one connection, whose descriptor it has; as
  long as that connection has not been closed the descriptor is open for it, and open for no
  other. Here are the steps that give a slot, take it or close its descriptor.
-/

import Mathlib.Data.List.Count
import SysProg.Chat.Server

namespace SysProg.Chat

open Function (update update_self update_of_ne)

def Server.stage (s : Server) (c : Nat) : Stage := (s.threads c).stage

def occupied (s : Server) : Nat := s.clients.countP Option.isSome

/-- How far the count is from the number of occupied slots. -/
def offset : Option Critical → Int
  | some (.count _ _) => -1
  | some .uncount => 1
  | _ => 0

def Waiting (s : Server) (c fd : Nat) : Prop := s.main = .accepted c fd ∨ s.mutex = some (.assign c fd)

/-- The connection has the slot; its thread runs or is about to start. -/
def Holds (s : Server) (c i : Nat) : Prop :=
  (s.stage c ≠ .absent ∧ s.stage c ≠ .done ∧ (s.threads c).slot = i) ∨ s.mutex = some (.count c i)

def Critical.ofMain : Critical → Prop
  | .assign _ _ | .count _ _ | .assigned => True
  | _ => False

structure Counts (s : Server) : Prop where
  length : s.clients.length = maxClients
  counted : s.clientsCount = occupied s + offset s.mutex
  room : s.main = .accepting ∨ (∃ c fd, Waiting s c fd) → s.clientsCount < maxClients
  main : ∀ k, s.mutex = some k → k.ofMain → s.main = .inside

structure Owners (s : Server) : Prop where
  slot : ∀ c i, Holds s c i → ∃ fd, s.clients[i]? = some (some fd) ∧ (s.stage c ≠ .closed → s.names fd = some c)
  holder : ∀ i fd, s.clients[i]? = some (some fd) → ∃ c, Holds s c i
  apart : ∀ c d i, Holds s c i → Holds s d i → c = d
  names : ∀ fd fd' c, s.names fd = some c → s.names fd' = some c → fd = fd'
  waiting : ∀ c fd, Waiting s c fd → s.names fd = some c ∧ s.stage c = .absent
  starting : ∀ c i, s.mutex = some (.count c i) → s.stage c = .absent
  placed : ∀ c, c < s.accepted → (∃ fd, Waiting s c fd) ∨ (∃ i, Holds s c i) ∨ s.stage c = .done
  fresh : ∀ c, s.accepted ≤ c → s.stage c = .absent ∧ (∀ fd, s.names fd ≠ some c) ∧ ∀ i, ¬ Holds s c i
  clearing : ∀ c, s.mutex = some (.clear c) → s.stage c = .closed
  writing : ∀ b, s.mutex = some (.broadcast b) → s.stage b.client = .writing b.msg

variable {s s' : Server} {c d fd i : Nat} {st : Stage} {a : Move} {ok : Bool}

/-! ## Stages -/

theorem threads_setStage : (s.setStage c st).threads = update s.threads c ⟨(s.threads c).slot, st⟩ := rfl

@[simp] theorem stage_setStage_self : (s.setStage c st).stage c = st := by
  rw [Server.stage, threads_setStage, update_self]

theorem stage_setStage_ne (h : d ≠ c) : (s.setStage c st).stage d = s.stage d := by
  rw [Server.stage, threads_setStage, update_of_ne h, Server.stage]

@[simp] theorem slot_setStage : ((s.setStage c st).threads d).slot = (s.threads d).slot := by
  rw [threads_setStage]
  by_cases h : d = c
  · rw [h, update_self]
  · rw [update_of_ne h]

@[simp] theorem clients_setStage : (s.setStage c st).clients = s.clients := rfl
@[simp] theorem names_setStage : (s.setStage c st).names = s.names := rfl
@[simp] theorem mutex_setStage : (s.setStage c st).mutex = s.mutex := rfl
@[simp] theorem main_setStage : (s.setStage c st).main = s.main := rfl
@[simp] theorem accepted_setStage : (s.setStage c st).accepted = s.accepted := rfl
@[simp] theorem count_setStage : (s.setStage c st).clientsCount = s.clientsCount := rfl

/-! ## Steps that move nobody -/

def SameKind (st st' : Stage) : Prop :=
  (st = .absent ↔ st' = .absent) ∧ (st = .closed ↔ st' = .closed) ∧ (st = .done ↔ st' = .done)

theorem SameKind.refl : SameKind st st := ⟨Iff.rfl, Iff.rfl, Iff.rfl⟩

theorem sameKind_setStage (h : SameKind st (s.stage c)) : SameKind ((s.setStage c st).stage d) (s.stage d) := by
  by_cases hd : d = c
  · rw [hd, stage_setStage_self]
    exact h
  · rw [stage_setStage_ne hd]
    exact .refl

theorem sameKind_reading {msg : Text} : SameKind (.writing msg) .reading := by
  unfold SameKind
  simp

theorem holds_iff (hslot : (s'.threads c).slot = (s.threads c).slot)
    (hstage : s'.stage c = .absent ↔ s.stage c = .absent)
    (hdone : s'.stage c = .done ↔ s.stage c = .done)
    (hcount : s'.mutex = some (.count c i) ↔ s.mutex = some (.count c i)) : Holds s' c i ↔ Holds s c i := by
  simp only [Holds, hslot, hcount, ne_eq, hstage, hdone]

theorem Owners.frame (h : Owners s) (hclients : s'.clients = s.clients) (hnames : s'.names = s.names)
    (haccepted : s'.accepted = s.accepted) (hslot : ∀ c, (s'.threads c).slot = (s.threads c).slot)
    (hstage : ∀ c, SameKind (s'.stage c) (s.stage c))
    (hcount : ∀ c i, s'.mutex = some (.count c i) ↔ s.mutex = some (.count c i))
    (hwaiting : ∀ c fd, Waiting s' c fd ↔ Waiting s c fd)
    (hclearing : ∀ c, s'.mutex = some (.clear c) → s'.stage c = .closed)
    (hwriting : ∀ b, s'.mutex = some (.broadcast b) → s'.stage b.client = .writing b.msg) : Owners s' := by
  have hholds : ∀ c i, Holds s' c i ↔ Holds s c i := fun c i =>
    holds_iff (hslot c) (hstage c).1 (hstage c).2.2 (hcount c i)
  refine ⟨?_, ?_, ?_, ?_, ?_, ?_, ?_, ?_, hclearing, hwriting⟩
  · intro c i hc
    rw [hclients, hnames, Ne, (hstage c).2.1]
    exact h.slot c i ((hholds c i).mp hc)
  · intro i fd hi
    rw [hclients] at hi
    rcases h.holder i fd hi with ⟨c, hc⟩
    exact ⟨c, (hholds c i).mpr hc⟩
  · intro c d i hc hd
    exact h.apart c d i ((hholds c i).mp hc) ((hholds d i).mp hd)
  · rw [hnames]
    exact h.names
  · intro c fd hw
    rw [hnames, (hstage c).1]
    exact h.waiting c fd ((hwaiting c fd).mp hw)
  · intro c i hc
    exact (hstage c).1.mpr (h.starting c i ((hcount c i).mp hc))
  · intro c hc
    rw [haccepted] at hc
    simp only [hwaiting, hholds, (hstage c).2.2]
    exact h.placed c hc
  · intro c hc
    rw [haccepted] at hc
    rw [hnames, (hstage c).1]
    simp only [hholds]
    exact h.fresh c hc

/-- Only `main`, the mutex and the count change. -/
theorem Owners.turn (h : Owners s) {main : Main} {mutex : Option Critical} {n : Int}
    (hcount : ∀ c i, mutex = some (.count c i) ↔ s.mutex = some (.count c i))
    (hwaiting : ∀ c fd, (main = .accepted c fd ∨ mutex = some (.assign c fd)) ↔ Waiting s c fd)
    (hclearing : ∀ c, mutex = some (.clear c) → s.stage c = .closed)
    (hwriting : ∀ b, mutex = some (.broadcast b) → s.stage b.client = .writing b.msg) :
    Owners { s with main, mutex, clientsCount := n } :=
  h.frame rfl rfl rfl (fun _ => rfl) (fun _ => .refl) hcount hwaiting hclearing hwriting

/-! ## Steps that move somebody -/

/-- A connection is accepted under a descriptor that is not open. -/
theorem Owners.accept (h : Owners s) (hcounts : Counts s) (hmain : s.main = .accepting) (hfd : s.names fd = none) :
    Owners (s.accept fd) := by
  have hnone : ∀ k, s.mutex = some k → ¬ k.ofMain := fun k hk hm => by
    cases (hcounts.main k hk hm).symm.trans hmain
  have hnoassign : ∀ c fd, s.mutex ≠ some (.assign c fd) := fun c fd hk => hnone _ hk trivial
  have hfresh := h.fresh s.accepted (Nat.le_refl _)
  have hself : (s.accept fd).names fd = some s.accepted := update_self fd _ _
  have hother : ∀ {fd'}, fd' ≠ fd → (s.accept fd).names fd' = s.names fd' := fun hne => update_of_ne hne _ _
  have hnames : ∀ {fd' c}, s.names fd' = some c → (s.accept fd).names fd' = some c := by
    intro fd' c hc
    rw [hother, hc]
    intro heq
    subst heq
    cases hfd.symm.trans hc
  have hback : ∀ {fd' c}, c ≠ s.accepted → (s.accept fd).names fd' = some c → fd' ≠ fd ∧ s.names fd' = some c := by
    intro fd' c hne hc
    have hfd' : fd' ≠ fd := by
      intro heq
      subst heq
      exact hne (Option.some.inj (hc.symm.trans hself))
    exact ⟨hfd', by rwa [hother hfd'] at hc⟩
  have honly : ∀ {fd'}, (s.accept fd).names fd' = some s.accepted → fd' = fd := by
    intro fd' hc
    by_contra hne
    rw [hother hne] at hc
    exact hfresh.2.1 fd' hc
  refine ⟨?_, h.holder, h.apart, ?_, ?_, h.starting, ?_, ?_, h.clearing, h.writing⟩
  · intro c i hc
    rcases h.slot c i hc with ⟨fd', hi, hopen⟩
    exact ⟨fd', hi, fun hst => hnames (hopen hst)⟩
  · intro fd₁ fd₂ c h₁ h₂
    by_cases hc : c = s.accepted
    · subst hc
      rw [honly h₁, honly h₂]
    · exact h.names fd₁ fd₂ c (hback hc h₁).2 (hback hc h₂).2
  · rintro c fd' (hw | hw)
    · cases hw
      exact ⟨hself, hfresh.1⟩
    · exact absurd hw (hnoassign c fd')
  · intro c hc
    rcases Nat.lt_succ_iff_lt_or_eq.mp hc with hlt | rfl
    · rcases h.placed c hlt with ⟨fd', hw | hw⟩ | hrest
      · cases hmain.symm.trans hw
      · exact absurd hw (hnoassign c fd')
      · exact Or.inr hrest
    · exact Or.inl ⟨fd, Or.inl rfl⟩
  · intro c hc
    have hc' := h.fresh c (Nat.le_of_succ_le hc)
    exact ⟨hc'.1, fun fd' hn => hc'.2.1 fd' (hback (Nat.ne_of_gt hc) hn).2, hc'.2.2⟩

/-- A thread that runs holds its slot. -/
theorem holds_running (h : s.stage c = .reading ∨ s.stage c = .closed) : Holds s c (s.threads c).slot := by
  refine Or.inl ⟨?_, ?_, rfl⟩ <;> rcases h with h | h <;> rw [h] <;> exact Stage.noConfusion

theorem holds_setStage (hst : s.stage c ≠ .absent ∧ s.stage c ≠ .done) (hst' : st ≠ .absent ∧ st ≠ .done) :
    Holds (s.setStage c st) d i ↔ Holds s d i := by
  refine holds_iff slot_setStage ?_ ?_ Iff.rfl <;> by_cases hd : d = c
  · rw [hd, stage_setStage_self]
    exact iff_of_false hst'.1 hst.1
  · rw [stage_setStage_ne hd]
  · rw [hd, stage_setStage_self]
    exact iff_of_false hst'.2 hst.2
  · rw [stage_setStage_ne hd]

theorem holds_closeSlot {j : Nat} : Holds (s.closeSlot j) d i ↔ Holds s d i := by
  unfold Server.closeSlot
  split <;> exact Iff.rfl

theorem clients_closeSlot : (s.closeSlot i).clients = s.clients := by
  unfold Server.closeSlot
  split <;> rfl

theorem threads_closeSlot : (s.closeSlot i).threads = s.threads := by
  unfold Server.closeSlot
  split <;> rfl

theorem mutex_closeSlot : (s.closeSlot i).mutex = s.mutex := by
  unfold Server.closeSlot
  split <;> rfl

/-- A close opens nothing. -/
theorem names_closeSlot (h : (s.closeSlot i).names fd = some d) : s.names fd = some d := by
  unfold Server.closeSlot at h
  split at h
  · rename_i fd' _
    dsimp only at h
    by_cases e : fd = fd'
    · rw [e, update_self] at h
      cases h
    · rwa [update_of_ne e] at h
  · exact h

/-- The thread closes its descriptor and keeps its slot. -/
theorem Owners.close (h : Owners s) (hst : s.stage c = .reading) :
    Owners ((s.closeSlot (s.threads c).slot).setStage c .closed) := by
  rcases h.slot c _ (holds_running (Or.inl hst)) with ⟨fd, hslot, hopen⟩
  have hfd : s.names fd = some c := hopen (by rw [hst]; exact Stage.noConfusion)
  have hsub : ∀ {fd' d}, (s.closeSlot (s.threads c).slot).names fd' = some d → s.names fd' = some d := names_closeSlot
  have hclose : s.closeSlot (s.threads c).slot = { s with names := update s.names fd none } := by
    rw [Server.closeSlot, List.getD_eq_getElem?_getD, hslot]
    rfl
  rw [hclose] at hsub ⊢
  have hstage : ∀ {d}, d ≠ c → ({ s with names := update s.names fd none }.setStage c .closed).stage d = s.stage d :=
    fun hd => stage_setStage_ne hd
  have hholds : ∀ d i, Holds ({ s with names := update s.names fd none }.setStage c .closed) d i ↔ Holds s d i := by
    intro d i
    have halive : s.stage c ≠ .absent ∧ s.stage c ≠ .done := by
      rw [hst]
      exact ⟨Stage.noConfusion, Stage.noConfusion⟩
    exact (holds_setStage (s := { s with names := update s.names fd none }) halive
      ⟨Stage.noConfusion, Stage.noConfusion⟩).trans Iff.rfl
  have hnames : ∀ {fd' d}, d ≠ c → s.names fd' = some d → update s.names fd none fd' = some d := by
    intro fd' d hd hn
    rw [update_of_ne, hn]
    intro heq
    subst heq
    exact hd (Option.some.inj (hn.symm.trans hfd))
  have hother : ∀ {d}, s.stage d = .absent → d ≠ c := by
    intro d hd heq
    subst heq
    rw [hst] at hd
    cases hd
  refine ⟨?_, ?_, ?_, ?_, ?_, ?_, ?_, ?_, ?_, ?_⟩
  · intro d i hd
    rcases h.slot d i ((hholds d i).mp hd) with ⟨fd', hi, hopen'⟩
    refine ⟨fd', hi, fun hne => ?_⟩
    have hdc : d ≠ c := by
      intro heq
      subst heq
      exact hne stage_setStage_self
    rw [hstage hdc] at hne
    exact hnames hdc (hopen' hne)
  · intro i fd' hi
    rcases h.holder i fd' hi with ⟨d, hd⟩
    exact ⟨d, (hholds d i).mpr hd⟩
  · intro d e i hd he
    exact h.apart d e i ((hholds d i).mp hd) ((hholds e i).mp he)
  · intro fd₁ fd₂ d h₁ h₂
    exact h.names fd₁ fd₂ d (hsub h₁) (hsub h₂)
  · intro d fd' hw
    have hw' := h.waiting d fd' hw
    rw [hstage (hother hw'.2)]
    exact ⟨hnames (hother hw'.2) hw'.1, hw'.2⟩
  · intro d i hd
    have hd' := h.starting d i hd
    rwa [hstage (hother hd')]
  · intro d hd
    by_cases hdc : d = c
    · exact Or.inr (Or.inl ⟨_, (hholds d _).mpr (hdc ▸ holds_running (Or.inl hst))⟩)
    · rw [hstage hdc]
      simp only [hholds]
      exact h.placed d hd
  · intro d hd
    have hd' := h.fresh d hd
    rw [hstage (hother hd'.1)]
    simp only [hholds]
    exact ⟨hd'.1, fun fd' hn => hd'.2.1 fd' (hsub hn), hd'.2.2⟩
  · intro d hd
    by_cases hdc : d = c
    · rw [hdc, stage_setStage_self]
    · rw [hstage hdc]
      exact h.clearing d hd
  · intro b hb
    have hb' := h.writing b hb
    rw [hstage, hb']
    intro heq
    subst heq
    rw [hst] at hb'
    cases hb'

/-- The waiting connection gets a free slot. -/
theorem Owners.place (h : Owners s) (hmain : s.main = .inside) (hmutex : s.mutex = some (.assign c fd))
    (hi : s.clients[i]? = some none) : Owners (s.place c fd i) := by
  have hlen : i < s.clients.length := (List.getElem?_eq_some_iff.mp hi).1
  have hwait := h.waiting c fd (Or.inr hmutex)
  have hnew : (s.place c fd i).clients[i]? = some (some fd) := List.getElem?_set_self hlen
  have hne : ∀ {d j}, Holds s d j → j ≠ i := by
    intro d j hd heq
    subst heq
    rcases h.slot d j hd with ⟨fd', hj, -⟩
    cases hj.symm.trans hi
  have hold : ∀ {j}, j ≠ i → (s.place c fd i).clients[j]? = s.clients[j]? := fun hj => List.getElem?_set_ne (Ne.symm hj)
  have hholds : ∀ d j, Holds (s.place c fd i) d j ↔ Holds s d j ∨ d = c ∧ j = i := by
    intro d j
    constructor
    · rintro (hd | hd)
      · exact Or.inl (Or.inl hd)
      · cases hd
        exact Or.inr ⟨rfl, rfl⟩
    · rintro ((hd | hd) | ⟨rfl, rfl⟩)
      · exact Or.inl hd
      · cases hmutex.symm.trans hd
      · exact Or.inr rfl
  refine ⟨?_, ?_, ?_, h.names, ?_, ?_, ?_, ?_, ?_, ?_⟩
  · intro d j hd
    rcases (hholds d j).mp hd with hd | ⟨rfl, rfl⟩
    · rw [hold (hne hd)]
      exact h.slot d j hd
    · exact ⟨fd, hnew, fun _ => hwait.1⟩
  · intro j fd' hj
    by_cases e : j = i
    · exact ⟨c, (hholds c j).mpr (Or.inr ⟨rfl, e⟩)⟩
    · rw [hold e] at hj
      rcases h.holder j fd' hj with ⟨d, hd⟩
      exact ⟨d, (hholds d j).mpr (Or.inl hd)⟩
  · intro d e j hd he
    rcases (hholds d j).mp hd with hd' | ⟨hdc, hj⟩ <;> rcases (hholds e j).mp he with he' | ⟨hec, hj'⟩
    · exact h.apart d e j hd' he'
    · exact absurd hj' (hne hd')
    · exact absurd hj (hne he')
    · rw [hdc, hec]
  · rintro d fd' (hw | hw)
    · cases hmain.symm.trans hw
    · cases hw
  · intro d j hd
    cases hd
    exact hwait.2
  · intro d hd
    simp only [hholds]
    rcases h.placed d hd with ⟨fd', hw | hw⟩ | ⟨j, hj⟩ | hdone
    · cases hmain.symm.trans hw
    · cases hmutex.symm.trans hw
      exact Or.inr (Or.inl ⟨i, Or.inr ⟨rfl, rfl⟩⟩)
    · exact Or.inr (Or.inl ⟨j, Or.inl hj⟩)
    · exact Or.inr (Or.inr hdone)
  · intro d hd
    have hd' := h.fresh d hd
    refine ⟨hd'.1, hd'.2.1, fun j hj => ?_⟩
    rcases (hholds d j).mp hj with hj | ⟨rfl, -⟩
    · exact hd'.2.2 j hj
    · exact hd'.2.1 fd hwait.1
  · intro d hd
    cases hd
  · intro b hb
    cases hb

/-- The thread of the connection starts. -/
theorem Owners.begin (h : Owners s) (hmain : s.main = .inside) (hmutex : s.mutex = some (.count c i)) :
    Owners (s.begin c i) := by
  have habsent := h.starting c i hmutex
  have hhas : Holds s c i := Or.inr hmutex
  have hself : (s.begin c i).threads c = ⟨i, .reading⟩ := update_self c _ _
  have hother : ∀ {d}, d ≠ c → (s.begin c i).threads d = s.threads d := fun hd => update_of_ne hd _ _
  have hstage : ∀ {d}, d ≠ c → (s.begin c i).stage d = s.stage d := fun hd => congrArg Thread.stage (hother hd)
  have hreading : (s.begin c i).stage c = .reading := congrArg Thread.stage hself
  have hholds : ∀ d j, Holds (s.begin c i) d j ↔ Holds s d j := by
    intro d j
    by_cases hd : d = c
    · subst hd
      constructor
      · rintro (⟨-, -, hj⟩ | hj)
        · rw [hself] at hj
          exact hj ▸ hhas
        · cases hj
      · rintro (⟨hne, -, -⟩ | hj)
        · exact absurd habsent hne
        · cases hmutex.symm.trans hj
          refine Or.inl ⟨?_, ?_, congrArg Thread.slot hself⟩ <;> rw [hreading] <;> exact Stage.noConfusion
    · unfold Holds
      rw [hstage hd, hother hd]
      refine or_congr Iff.rfl ⟨fun hj => ?_, fun hj => ?_⟩
      · cases hj
      · cases hmutex.symm.trans hj
        exact absurd rfl hd
  have hnot : ∀ {d fd}, ¬ Waiting s d fd := by
    rintro d fd (hw | hw)
    · cases hmain.symm.trans hw
    · cases hmutex.symm.trans hw
  refine ⟨?_, ?_, ?_, h.names, ?_, ?_, ?_, ?_, ?_, ?_⟩
  · intro d j hd
    have hd' := (hholds d j).mp hd
    rcases h.slot d j hd' with ⟨fd, hj, hopen⟩
    refine ⟨fd, hj, fun hne => hopen ?_⟩
    by_cases e : d = c
    · rw [e, habsent]
      exact Stage.noConfusion
    · rwa [hstage e] at hne
  · intro j fd hj
    rcases h.holder j fd hj with ⟨d, hd⟩
    exact ⟨d, (hholds d j).mpr hd⟩
  · intro d e j hd he
    exact h.apart d e j ((hholds d j).mp hd) ((hholds e j).mp he)
  · rintro d fd (hw | hw)
    · exact (hnot (Or.inl hw : Waiting s d fd)).elim
    · cases hw
  · intro d j hd
    cases hd
  · intro d hd
    by_cases e : d = c
    · exact Or.inr (Or.inl ⟨i, (hholds d i).mpr (e ▸ hhas)⟩)
    · simp only [hholds, hstage e]
      rcases h.placed d hd with ⟨fd, hw⟩ | hrest
      · exact absurd hw hnot
      · exact Or.inr hrest
  · intro d hd
    have hd' := h.fresh d hd
    have hdc : d ≠ c := by
      intro heq
      subst heq
      exact hd'.2.2 i hhas
    simp only [hholds, hstage hdc]
    exact hd'
  · intro d hd
    cases hd
  · intro b hb
    cases hb

/-- The slot of a closed connection is cleared. -/
theorem Owners.clearSlot (h : Owners s) (hmutex : s.mutex = some (.clear c)) : Owners (s.clearSlot c) := by
  have hclosed := h.clearing c hmutex
  have hhas : Holds s c (s.threads c).slot := holds_running (Or.inr hclosed)
  have hstage : ∀ {d}, d ≠ c → (s.clearSlot c).stage d = s.stage d := fun hd => stage_setStage_ne hd
  have hdone : (s.clearSlot c).stage c = .done := stage_setStage_self
  have hold : ∀ {j}, j ≠ (s.threads c).slot → (s.clearSlot c).clients[j]? = s.clients[j]? :=
    fun hj => List.getElem?_set_ne (Ne.symm hj)
  have hholds : ∀ d j, Holds (s.clearSlot c) d j ↔ Holds s d j ∧ d ≠ c := by
    intro d j
    by_cases hd : d = c
    · subst hd
      constructor
      · rintro (⟨-, hne, -⟩ | hj)
        · exact absurd hdone hne
        · cases hj
      · exact fun hj => absurd rfl hj.2
    · unfold Holds
      rw [hstage hd, show ((s.clearSlot c).threads d).slot = (s.threads d).slot from slot_setStage]
      constructor
      · rintro (hj | hj)
        · exact ⟨Or.inl hj, hd⟩
        · cases hj
      · rintro ⟨hj | hj, -⟩
        · exact Or.inl hj
        · cases hmutex.symm.trans hj
  have hne : ∀ {d j}, Holds s d j → d ≠ c → j ≠ (s.threads c).slot := by
    intro d j hd hdc heq
    subst heq
    exact hdc (h.apart d c _ hd hhas)
  have hwait : ∀ {d fd}, Waiting (s.clearSlot c) d fd → Waiting s d fd := by
    rintro d fd (hw | hw)
    · exact Or.inl hw
    · cases hw
  have hother : ∀ {d}, s.stage d = .absent → d ≠ c := by
    intro d hd heq
    subst heq
    cases hclosed.symm.trans hd
  refine ⟨?_, ?_, ?_, h.names, ?_, ?_, ?_, ?_, ?_, ?_⟩
  · intro d j hd
    rcases (hholds d j).mp hd with ⟨hd, hdc⟩
    rw [hold (hne hd hdc), hstage hdc]
    exact h.slot d j hd
  · intro j fd hj
    have hjc : j ≠ (s.threads c).slot := by
      intro heq
      subst heq
      have hlen : (s.threads c).slot < s.clients.length := by
        rcases h.slot c _ hhas with ⟨fd', hfd', -⟩
        exact (List.getElem?_eq_some_iff.mp hfd').1
      rw [show (s.clearSlot c).clients[(s.threads c).slot]? = some none from List.getElem?_set_self hlen] at hj
      cases hj
    rw [hold hjc] at hj
    rcases h.holder j fd hj with ⟨d, hd⟩
    refine ⟨d, (hholds d j).mpr ⟨hd, ?_⟩⟩
    intro heq
    subst heq
    rcases hd with ⟨-, -, hslot⟩ | hd
    · exact hjc hslot.symm
    · cases hmutex.symm.trans hd
  · intro d e j hd he
    exact h.apart d e j ((hholds d j).mp hd).1 ((hholds e j).mp he).1
  · intro d fd hw
    have hw' := h.waiting d fd (hwait hw)
    rw [hstage (hother hw'.2)]
    exact hw'
  · intro d j hd
    cases hd
  · intro d hd
    by_cases e : d = c
    · exact Or.inr (Or.inr (e ▸ hdone))
    · rw [hstage e]
      rcases h.placed d hd with ⟨fd, hw | hw⟩ | ⟨j, hj⟩ | hd'
      · exact Or.inl ⟨fd, Or.inl hw⟩
      · cases hmutex.symm.trans hw
      · exact Or.inr (Or.inl ⟨j, (hholds d j).mpr ⟨hj, e⟩⟩)
      · exact Or.inr (Or.inr hd')
  · intro d hd
    have hd' := h.fresh d hd
    rw [hstage (hother hd'.1)]
    exact ⟨hd'.1, hd'.2.1, fun j hj => hd'.2.2 j ((hholds d j).mp hj).1⟩
  · intro d hd
    cases hd
  · intro b hb
    cases hb

end SysProg.Chat
