/-
  SysProg.Mmu.Isolation — a process reads back what it wrote.

  Along a run the log of accesses says what a read returns: for each byte that its
  process has written since it was added, what it wrote there last. The memory that the
  processes see (`Rep`) agrees with the log at every address that was written, and
  every call keeps that (`step_inv`).

  Main result: `reads_see_writes`.
-/

import SysProg.Mmu.Access
import SysProg.Mmu.Processes

namespace SysProg.Mmu

open SysProg.Bytes (load store)

variable {P : Platform} {M : Space}

/-! ## Addresses -/

def byteAt (M : Space) (pid : Nat) (a : Addr) : UInt8 := M pid (pdeIndex a) (pteIndex a) (a.val % pageSize)

/-- The addresses of an access are on one page. -/
theorem access_on_page {va a : Addr} {n k : Nat} (hn : n + va.val % pageSize ≤ pageSize) (hk : k < n)
    (ha : a.val = va.val + k) :
    pdeIndex a = pdeIndex va ∧ pteIndex a = pteIndex va ∧ a.val % pageSize = va.val % pageSize + k := by
  unfold pageSize at hn ⊢
  rcases index_congr va a (by rw [ha]; omega) with ⟨hi, hj⟩
  exact ⟨hi, hj, by omega⟩

/-- The indices give the page number. -/
theorem index_inj {va a : Addr} (hi : pdeIndex a = pdeIndex va) (hj : pteIndex a = pteIndex va) :
    a.val / 4096 = va.val / 4096 := by
  unfold pdeIndex at hi
  unfold pteIndex at hj
  simp only [Fin.mk.injEq] at hi hj
  have ha := a.isLt
  have hva := va.isLt
  omega

/-- What a write does to the memory its process sees, and nothing to the others'. -/
theorem byteAt_write {pid p : Nat} {va a : Addr} {buffer : List UInt8}
    (hn : buffer.length + va.val % pageSize ≤ pageSize) :
    byteAt (M.set pid (pdeIndex va) (pteIndex va)
        (store (M pid (pdeIndex va) (pteIndex va)) (va.val % pageSize) buffer)) p a =
      if p = pid ∧ va.val ≤ a.val ∧ a.val < va.val + buffer.length then (buffer[a.val - va.val]?).getD 0
      else byteAt M p a := by
  unfold byteAt Space.set
  by_cases hin : p = pid ∧ va.val ≤ a.val ∧ a.val < va.val + buffer.length
  · rcases hin with ⟨hp, hlo, hhi⟩
    have hk : a.val - va.val < buffer.length := by omega
    rcases access_on_page (a := a) hn hk (by omega) with ⟨hi, hj, hoff⟩
    rw [if_pos ⟨hp, hi, hj⟩, if_pos ⟨hp, hlo, hhi⟩, hoff, Bytes.store_at hk, List.getElem?_eq_getElem hk]
    rfl
  · rw [if_neg hin]
    split
    · rename_i h
      rcases h with ⟨hp, hi, hj⟩
      have hpage := index_inj hi hj
      rw [hp, hi, hj]
      apply Bytes.store_off
      intro k hk e
      apply hin
      unfold pageSize at e
      exact ⟨hp, by omega, by omega⟩
    · rfl

/-! ## Runs -/

inductive Event where
  | added (pid : Nat)
  | wrote (pid : Nat) (va : Addr) (buffer : List UInt8)
  /-- A read of `n` bytes and what it returned. -/
  | got (pid : Nat) (va : Addr) (n : Nat) (bytes : List UInt8)
  deriving DecidableEq

structure Trace where
  mmu : St
  /-- What has happened, the latest first. -/
  log : List Event

inductive Act where
  | addProcess (pid : Nat) (g : Fin 4 → Grant)
  | removeProcess (pid : Nat)
  | read (va : Addr) (pid n : Nat) (c : Choices)
  | write (va : Addr) (pid : Nat) (buffer : List UInt8) (c : Choices)

/-- Processes are added when they are not there, and accesses are by processes that are.
    An access that ends in a segmentation fault leaves no event. -/
def step (P : Platform) (t : Trace) : Act → Option Trace
  | .addProcess pid g =>
    if t.mmu.pageDirectories pid = none then (addProcess P t.mmu pid g).map fun s => ⟨s, .added pid :: t.log⟩ else none
  | .removeProcess pid => (removeProcess P t.mmu pid).map fun s => ⟨s, t.log⟩
  | .read va pid n c =>
    if t.mmu.pageDirectories pid = none then none
    else (read P t.mmu va pid n c).map fun
      | (s, none) => ⟨s, t.log⟩
      | (s, some bytes) => ⟨s, .got pid va n bytes :: t.log⟩
  | .write va pid buffer c =>
    if t.mmu.pageDirectories pid = none then none
    else (write P t.mmu va pid buffer c).map fun
      | (s, false) => ⟨s, t.log⟩
      | (s, true) => ⟨s, .wrote pid va buffer :: t.log⟩

/-- `mmu_create`, with no page that the kernel may evict and no swap file. Some frames
    may be in use for other things. -/
def Initial (t : Trace) : Prop :=
  t.mmu.currPid = 0 ∧ (∀ pid, t.mmu.pageDirectories pid = none) ∧ t.mmu.tlb = [] ∧
    (∀ f, t.mmu.evictable f = none) ∧ (∀ r, t.mmu.swap r = none) ∧ t.log = []

def sys (P : Platform) : Run.Sys Trace Act := Run.ofFun Initial (step P)

/-- The last byte a process has written to an address since it was added, if any. -/
def latest : List Event → Nat → Addr → Option UInt8
  | [], _, _ => none
  | .added p :: log, pid, a => if p = pid then none else latest log pid a
  | .wrote p va buffer :: log, pid, a =>
    if p = pid ∧ va.val ≤ a.val ∧ a.val < va.val + buffer.length then buffer[a.val - va.val]? else latest log pid a
  | .got _ _ _ _ :: log, pid, a => latest log pid a

/-- Every read returned, for each byte that its process had written, what it wrote last. -/
def Consistent : List Event → Prop
  | [] => True
  | .got pid va n bytes :: log =>
    (∀ k a v, k < n → a.val = va.val + k → latest log pid a = some v → bytes[k]? = some v) ∧ Consistent log
  | .added _ :: log => Consistent log
  | .wrote _ _ _ :: log => Consistent log

def Inv (P : Platform) (t : Trace) : Prop :=
  ∃ φ M, Rep P t.mmu φ M ∧ Consistent t.log ∧
    ∀ pid a v, φ (.directory pid) ≠ none → latest t.log pid a = some v → byteAt M pid a = v

theorem initial_inv {t : Trace} (h : Initial t) : Inv P t := by
  rcases h with ⟨-, hdirs, htlb, hevictable, hswap, hlog⟩
  refine ⟨fun _ => none, fun _ _ _ _ => 0, ⟨⟨fun pid => (hdirs pid).symm, fun _ _ => rfl, fun _ _ _ => rfl, by simp⟩,
    by simp, ?_, ?_, ?_, fun _ _ _ => rfl⟩, ?_, by simp⟩
  · intro f r hf
    rw [hevictable] at hf
    cases hf
  · intro r q hq
    rw [hswap] at hq
    cases hq
  · intro v r hv
    rw [htlb] at hv
    cases hv
  · rw [hlog]
    trivial

theorem asserts_on_page {va : Addr} {pid n : Nat} (h : asserts P va pid n = true) : n + va.val % pageSize ≤ pageSize :=
  (of_decide_eq_true h).2

theorem step_inv {t t' : Trace} {a : Act} (hi : Inv P t) (hs : step P t a = some t') : Inv P t' := by
  rcases hi with ⟨φ, M, hr, hcons, hlatest⟩
  cases a with
  | addProcess pid g =>
    unfold step at hs
    dsimp only at hs
    split at hs
    · rename_i hd
      rcases Option.map_eq_some_iff.mp hs with ⟨s, hadd, e⟩
      subst e
      rcases hr.addProcess ((hr.directory pid).trans hd) hadd with ⟨φ', hr', hothers, -⟩
      refine ⟨φ', M, hr', hcons, ?_⟩
      intro p b v hp hv
      unfold latest at hv
      by_cases hpp : pid = p
      · rw [if_pos hpp] at hv
        cases hv
      · rw [if_neg hpp] at hv
        exact hlatest p b v (by rw [← hothers p (Ne.symm hpp)]; exact hp) hv
    · cases hs
  | removeProcess pid =>
    rcases Option.map_eq_some_iff.mp hs with ⟨s, hremove, e⟩
    subst e
    rcases hr.removeProcess hremove with ⟨φ', M', hr', hnone, hothers, -⟩
    refine ⟨φ', M', hr', hcons, ?_⟩
    intro p b v hp hv
    have hpp : p ≠ pid := by
      intro e
      exact hp (e ▸ hnone)
    rcases hothers p hpp with ⟨hd, hM⟩
    unfold byteAt
    rw [hM]
    exact hlatest p b v (by rw [← hd]; exact hp) hv
  | read va pid n c =>
    unfold step at hs
    dsimp only at hs
    split at hs
    · cases hs
    · rename_i hd
      rcases Option.map_eq_some_iff.mp hs with ⟨⟨s, o⟩, hread, e⟩
      have hon : n + va.val % pageSize ≤ pageSize := by
        unfold read at hread
        split at hread
        · rename_i h
          exact asserts_on_page h
        · cases hread
      rcases hr.read hread with ⟨φ', hr', hdirs, -, hbytes⟩
      have hlatest' : ∀ p b v, φ' (.directory p) ≠ none → latest t.log p b = some v → byteAt M p b = v := by
        intro p b v hp
        rw [hdirs] at hp
        exact hlatest p b v hp
      cases o with
      | none =>
        subst e
        exact ⟨φ', M, hr', hcons, hlatest'⟩
      | some bytes =>
        subst e
        refine ⟨φ', M, hr', ⟨?_, hcons⟩, hlatest'⟩
        intro k b v hk hb hv
        rcases access_on_page hon hk hb with ⟨hi, hj, hoff⟩
        have hbyte := hlatest pid b v (by rw [hr.directory]; exact hd) hv
        unfold byteAt at hbyte
        rw [hbytes bytes rfl, load, List.getElem?_map, List.getElem?_range hk]
        rw [hi, hj, hoff] at hbyte
        exact congrArg some hbyte
  | write va pid buffer c =>
    unfold step at hs
    dsimp only at hs
    split at hs
    · cases hs
    · rcases Option.map_eq_some_iff.mp hs with ⟨⟨s, done⟩, hwrite, e⟩
      have hon : buffer.length + va.val % pageSize ≤ pageSize := by
        unfold write at hwrite
        split at hwrite
        · rename_i h
          exact asserts_on_page h
        · cases hwrite
      rcases hr.write hwrite with ⟨φ', hr', hdirs, -⟩
      cases done with
      | false =>
        subst e
        refine ⟨φ', M, hr', hcons, ?_⟩
        intro p b v hp
        rw [hdirs] at hp
        exact hlatest p b v hp
      | true =>
        subst e
        refine ⟨φ', _, hr', hcons, ?_⟩
        intro p b v hp hv
        rw [hdirs] at hp
        rw [if_pos rfl, byteAt_write hon]
        unfold latest at hv
        by_cases hin : pid = p ∧ va.val ≤ b.val ∧ b.val < va.val + buffer.length
        · rw [if_pos hin] at hv
          rw [if_pos ⟨hin.1.symm, hin.2⟩, hv]
          rfl
        · rw [if_neg hin] at hv
          rw [if_neg fun h => hin ⟨h.1.symm, h.2⟩]
          exact hlatest p b v hp hv

/-- A process reads back what it wrote, whatever the others do. -/
theorem reads_see_writes (P : Platform) {t : Trace} (h : (sys P).Reach t) : Consistent t.log := by
  rcases h.inv (I := Inv P) (fun _ => initial_inv) (fun _ _ _ => step_inv) with ⟨φ, M, -, hcons, -⟩
  exact hcons

theorem beq_toNat {x : Nat} {b : Bool} (h : x = b.toNat) : (x == 1) = b := by
  subst h
  cases b <;> rfl

/-- Page table entries with the flags in the low bits of a word and the frame in the
    high ones. -/
def bitFields : Platform where
  maxProcessId := 65536
  addressInSegmentations := fun segs a =>
    [SegmentKind.stack, .mmap, .heap, .bss, .data, .text, .testing].any fun k =>
      decide ((segs k).start ≤ a.val ∧ a.val < (segs k).stop)
  decode := fun l =>
    let w := Bytes.leDecode l
    ⟨w % 2 == 1, w / 2 % 2 == 1, w / 4 % 2 == 1, w / 32 % 2 == 1, w / 64 % 2 == 1, Fin.ofNat _ (w / 4096)⟩
  encode := fun e => Bytes.leEncode 4 (e.present.toNat + 2 * e.readWrite.toNat + 4 * e.userSupervisor.toNat +
    32 * e.accessed.toNat + 64 * e.dirty.toNat + 4096 * e.baseAddr.val)
  length_encode := fun _ => Bytes.leEncode_length
  decode_encode := by
    intro e
    refine ⟨e.accessed, e.dirty, ?_⟩
    have hp := e.present.toNat_le
    have hr := e.readWrite.toNat_le
    have hu := e.userSupervisor.toNat_le
    have ha := e.accessed.toNat_le
    have hd := e.dirty.toNat_le
    have hf := e.baseAddr.isLt
    rw [Bytes.leDecode_leEncode (by omega)]
    dsimp only
    rw [Entry.mk.injEq]
    refine ⟨beq_toNat (by omega), beq_toNat (by omega), beq_toNat (by omega), beq_toNat (by omega),
      beq_toNat (by omega), ?_⟩
    apply Fin.ext
    rw [Fin.val_ofNat]
    omega
  decode_zero := rfl

def twoStart : Trace :=
  ⟨⟨0, fun _ => none, fun _ => none, [], 0, 0, 0, fun _ _ => 255, fun _ => false, fun _ => none, fun _ => none⟩, []⟩

def firstFrames : Fin 4 → Grant
  | 0 => ⟨[], 0⟩
  | 1 => ⟨[], 1⟩
  | 2 => ⟨[], 2⟩
  | 3 => ⟨[], 3⟩

def secondFrames : Fin 4 → Grant
  | 0 => ⟨[2], 4⟩
  | 1 => ⟨[], 5⟩
  | 2 => ⟨[], 2⟩
  | 3 => ⟨[], 6⟩

/-- Two processes write to one address; the page of the first is evicted in between and
    comes back in another frame. -/
theorem reads_see_writes_evicted : ∃ t, (sys bitFields).Reach t ∧
    t.log = [.got 1 4100 2 [7, 8], .wrote 2 4100 [9], .added 2, .wrote 1 4100 [7, 8], .added 1] ∧
    Consistent t.log := by
  have ht : (Run.exec (step bitFields) twoStart
      [.addProcess 1 firstFrames, .write 4100 1 [7, 8] ⟨none, ⟨[], 0⟩, ⟨[], 0⟩⟩, .addProcess 2 secondFrames,
        .write 4100 2 [9] ⟨none, ⟨[], 0⟩, ⟨[], 0⟩⟩, .read 4100 1 2 ⟨none, ⟨[], 0⟩, ⟨[], 7⟩⟩]).map
      (fun t => t.log) =
      some [.got 1 4100 2 [7, 8], .wrote 2 4100 [9], .added 2, .wrote 1 4100 [7, 8], .added 1] := by
    decide +kernel
  rcases Option.map_eq_some_iff.mp ht with ⟨t, ht, hlog⟩
  have h0 : Initial twoStart := ⟨rfl, fun _ => rfl, rfl, fun _ => rfl, fun _ => rfl, rfl⟩
  have hreach : (sys bitFields).Reach t := Run.reach_exec h0 ht
  exact ⟨t, hreach, hlog, reads_see_writes bitFields hreach⟩

end SysProg.Mmu
