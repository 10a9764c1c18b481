/-
  SysProg.Concurrency.Rendezvous — the two threads of critical_concurrency/rendezvous.c and
  rendezvous_sol.c.

  Each thread takes one off every byte of its quote and then prints the other one's. In
  rendezvous_sol.c it posts its semaphore in between and waits for the other's; in
  rendezvous.c, which is the exercise, there is nothing in between (`sem`). A thread goes byte
  by byte (`Pc`), in `printf` too, so a print can overlap with what the other thread does.
  Nothing (`none`) comes of a byte outside a quote. `printed` is what "%s" has
  printed so far. `main` of rendezvous_sol.c lacks two semicolons (line 40), so the file does
  not compile as it stands; the threads are taken as they are written.

  Main result: `rendezvous_holds`. With the semaphores nobody prints a byte before both quotes
  are modified, and in every order of steps the threads come to an end with each quote printed
  as it is modified. A byte 1 becomes the end of a string, and the print stops there. Without
  them a quote may be printed as it was (`printed_as_it_was`).
-/

import Mathlib.Logic.Function.Basic
import SysProg.Lib.CString
import SysProg.Lib.Run

namespace SysProg.Rendezvous

open Function (update)
open SysProg.CString (Text CStr)

inductive Quote where
  | a
  | b
  deriving DecidableEq

def Quote.other : Quote → Quote
  | .a => .b
  | .b => .a

inductive Pc where
  /-- At the condition of the `while` loop. -/
  | loop (i : Nat)
  /-- At `quote[i++]--`. -/
  | modify (i : Nat)
  | post
  | wait
  /-- In `printf`, about to look at byte `j`. -/
  | print (j : Nat)
  | done
  deriving DecidableEq

structure St where
  quote : Quote → Text
  sem : Quote → Nat
  pc : Quote → Pc
  printed : Quote → Text

def St.goto (s : St) (x : Quote) (p : Pc) : St := { s with pc := update s.pc x p }

def step (sem : Bool) (s : St) (x : Quote) : Option St :=
  match s.pc x with
  | .loop i => (s.quote x)[i]?.map fun c =>
    s.goto x (if c ≠ 0 then .modify i else if sem = true then .post else .print 0)
  | .modify i => (s.quote x)[i]?.map fun c =>
    { s with quote := update s.quote x ((s.quote x).set i (c - 1)) }.goto x (.loop (i + 1))
  | .post => some ({ s with sem := update s.sem x (s.sem x + 1) }.goto x .wait)
  | .wait =>
    if s.sem x.other = 0 then none
    else some ({ s with sem := update s.sem x.other (s.sem x.other - 1) }.goto x (.print 0))
  | .print j => (s.quote x.other)[j]?.map fun c =>
    if c = 0 then s.goto x .done
    else { s with printed := update s.printed x (s.printed x ++ [c]) }.goto x (.print (j + 1))
  | .done => none

def start (text : Quote → CStr) : St := ⟨fun x => (text x).buffer, fun _ => 0, fun _ => .loop 0, fun _ => []⟩

def sys (sem : Bool) (text : Quote → CStr) : Run.Sys St Quote := Run.ofFun (fun s => s = start text) (step sem)

/-! ## What is asked of it -/

def decoded (t : Text) : Text := t.map fun c => c - 1

def shown (t : Text) : Text := (decoded t).takeWhile (· ≠ 0)

def Pc.printing : Pc → Bool
  | .print _ | .done => true
  | _ => false

def Pc.posted : Pc → Bool
  | .wait | .print _ | .done => true
  | _ => false

/-! ## What holds along every run with the semaphores -/

def QuoteAt (t q : Text) : Pc → Prop
  | .loop i => i ≤ t.length ∧ q = decoded (t.take i) ++ t.drop i ++ [0]
  | .modify i => i < t.length ∧ q = decoded (t.take i) ++ t.drop i ++ [0]
  | _ => q = decoded t ++ [0]

def PrintedAt (t out : Text) : Pc → Prop
  | .print j => j ≤ (shown t).length ∧ out = (shown t).take j
  | .done => out = shown t
  | _ => out = []

structure Inv (text : Quote → CStr) (s : St) : Prop where
  quote : ∀ x, QuoteAt (text x).1 (s.quote x) (s.pc x)
  sem : ∀ x, s.sem x + (if (s.pc x.other).printing then 1 else 0) = if (s.pc x).posted then 1 else 0
  printed : ∀ x, PrintedAt (text x.other).1 (s.printed x) (s.pc x)

variable {text : Quote → CStr} {s s' : St} {x y : Quote} {p : Pc} {t q : Text} {i j : Nat}

@[simp] theorem other_other (x : Quote) : x.other.other = x := by cases x <;> rfl

@[simp] theorem other_ne (x : Quote) : x.other ≠ x := by cases x <;> simp [Quote.other]

theorem eq_or_other (x y : Quote) : y = x ∨ y = x.other := by
  cases x <;> cases y <;> simp [Quote.other]

theorem goto_self : (s.goto x p).pc x = p := Function.update_self ..

theorem goto_other : (s.goto x p).pc x.other = s.pc x.other := Function.update_of_ne (other_ne x) ..

/-! ### The bytes of the quotes -/

theorem quoteAt_get (h : QuoteAt t q p) (hp : p = .loop i ∨ p = .modify i) : q[i]? = (t ++ [0])[i]? := by
  have hq : i ≤ t.length ∧ q = decoded (t.take i) ++ t.drop i ++ [0] := by
    rcases hp with rfl | rfl
    · exact h
    · exact ⟨Nat.le_of_lt h.1, h.2⟩
  have hlen : (decoded (t.take i)).length = i := by simp [decoded, hq.1]
  rw [hq.2, List.append_assoc, List.getElem?_append_right (by omega), hlen, Nat.sub_self]
  conv_rhs => rw [← List.take_append_drop i t, List.append_assoc,
    List.getElem?_append_right (List.length_take_le i t)]
  simp [hq.1]

/-- A byte of the quote is modified. -/
theorem quoteAt_modify (h : QuoteAt t q (.modify i)) {c : UInt8} (hc : q[i]? = some c) :
    QuoteAt t (q.set i (c - 1)) (.loop (i + 1)) := by
  obtain ⟨hi, rfl⟩ := h
  have hlen : (decoded (t.take i)).length = i := by simp [decoded, Nat.le_of_lt hi]
  rw [quoteAt_get (p := .modify i) (t := t) ⟨hi, rfl⟩ (Or.inr rfl), List.getElem?_append_left hi] at hc
  refine ⟨hi, ?_⟩
  have hdrop : t.drop i = c :: t.drop (i + 1) := by
    obtain ⟨hlt, rfl⟩ := List.getElem?_eq_some_iff.mp hc
    exact List.drop_eq_getElem_cons hlt
  rw [List.append_assoc, List.set_append_right _ _ (by omega), hlen, Nat.sub_self, hdrop, List.take_add_one, hc]
  simp [decoded]

/-- At the end of the quote, and only there, is its terminator. -/
theorem quoteAt_end (h : QuoteAt t q (.loop i)) (h0 : 0 ∉ t) {c : UInt8} (hc : q[i]? = some c) :
    (c ≠ 0 → QuoteAt t q (.modify i)) ∧ (c = 0 → q = decoded t ++ [0]) := by
  rw [quoteAt_get h (Or.inl rfl)] at hc
  obtain ⟨hi, hq⟩ := h
  rcases Nat.lt_or_eq_of_le hi with hlt | rfl
  · rw [List.getElem?_append_left hlt] at hc
    refine ⟨fun _ => ⟨hlt, hq⟩, ?_⟩
    intro hzero
    subst hzero
    exact absurd (List.mem_of_getElem? hc) h0
  · rw [List.getElem?_append_right (Nat.le_refl _), Nat.sub_self] at hc
    refine ⟨fun hne => absurd (Option.some.inj hc).symm hne, fun _ => ?_⟩
    simpa using hq

/-- The bytes that a print sees. -/
theorem shown_get (hj : j ≤ (shown t).length) {c : UInt8} (hc : (decoded t ++ [0])[j]? = some c) :
    (c = 0 → (shown t).take j = shown t) ∧
      (c ≠ 0 → j + 1 ≤ (shown t).length ∧ (shown t).take (j + 1) = (shown t).take j ++ [c]) := by
  unfold shown at hj ⊢
  generalize decoded t = d at hj hc
  induction d generalizing j with
  | nil =>
    simp at hj
    subst hj
    simp at hc
    simp [← hc]
  | cons b d ih =>
    by_cases hb : b = 0
    · subst hb
      simp at hj
      subst hj
      simp at hc
      simp [← hc]
    · rw [List.takeWhile_cons_of_pos (by simpa using hb)] at hj ⊢
      cases j with
      | zero =>
        simp at hc
        subst hc
        simp [hb]
      | succ j =>
        have hrec := ih (j := j) (by simpa using hj) (by simpa using hc)
        refine ⟨fun hz => ?_, fun hn => ?_⟩
        · rw [List.take_succ_cons, hrec.1 hz]
        · rw [List.take_succ_cons, (hrec.2 hn).2, List.take_succ_cons]
          exact ⟨by simpa using (hrec.2 hn).1, rfl⟩

/-! ### The steps -/

/-- A thread goes on, with its quote, the semaphores and what it has printed as they are then. -/
theorem Inv.goes (hi : Inv text s) (x : Quote) (q : Text) (p : Pc) (out : Text) (sem : Quote → Nat)
    (hq : QuoteAt (text x).1 q p)
    (hout : PrintedAt (text x.other).1 out p)
    (hsem : sem x + (if (s.pc x.other).printing then 1 else 0) = if p.posted then 1 else 0)
    (hother : sem x.other + (if p.printing then 1 else 0) = if (s.pc x.other).posted then 1 else 0) :
    Inv text ⟨update s.quote x q, sem, update s.pc x p, update s.printed x out⟩ where
  quote y := by
    rcases eq_or_other x y with rfl | rfl
    · simpa using hq
    · simpa using hi.quote x.other
  sem y := by
    rcases eq_or_other x y with rfl | rfl
    · simpa using hsem
    · simpa using hother
  printed y := by
    rcases eq_or_other x y with rfl | rfl
    · simpa using hout
    · simpa using hi.printed x.other

/-- Only the thread's place changes. -/
theorem Inv.goto (hi : Inv text s) (hq : QuoteAt (text x).1 (s.quote x) p)
    (hout : PrintedAt (text x.other).1 (s.printed x) p) (hposted : p.posted = (s.pc x).posted)
    (hprinting : p.printing = (s.pc x).printing) : Inv text (s.goto x p) := by
  have hsem := hi.sem x
  have hother := hi.sem x.other
  rw [other_other] at hother
  have h := hi.goes x (s.quote x) p (s.printed x) s.sem hq hout (by rw [hsem, hposted]) (by rw [hprinting, hother])
  simpa [St.goto] using h

/-- Who has the other's post knows that the other's quote is modified. -/
theorem Inv.posted (hi : Inv text s) (hp : (s.pc x).printing = true) : (s.pc x.other).posted = true := by
  have hsem := hi.sem x.other
  rw [other_other, hp] at hsem
  by_contra hn
  simp [hn] at hsem

theorem quoteAt_posted (h : QuoteAt t q p) (hp : p.posted = true) : q = decoded t ++ [0] := by
  cases p <;> first | exact h | cases hp

theorem step_inv (hi : Inv text s) (h : step true s x = some s') : Inv text s' := by
  have hquote := hi.quote x
  have hprinted := hi.printed x
  have hsem := hi.sem x
  have hother := hi.sem x.other
  unfold step at h
  cases hp : s.pc x with
  | loop i =>
    rw [hp] at h hquote hprinted
    obtain ⟨c, hc, rfl⟩ := Option.map_eq_some_iff.mp h
    obtain ⟨hmore, hend⟩ := quoteAt_end hquote (text x).2 hc
    by_cases hz : c = 0
    · rw [if_neg (not_not.mpr hz), if_pos rfl]
      exact hi.goto (hend hz) hprinted (by rw [hp]; rfl) (by rw [hp]; rfl)
    · rw [if_pos hz]
      exact hi.goto (hmore hz) hprinted (by rw [hp]; rfl) (by rw [hp]; rfl)
  | modify i =>
    rw [hp] at h hquote hprinted hsem
    rw [other_other, hp] at hother
    obtain ⟨c, hc, rfl⟩ := Option.map_eq_some_iff.mp h
    have hnext := hi.goes x _ _ _ s.sem (quoteAt_modify hquote hc) hprinted hsem hother
    simpa [St.goto] using hnext
  | post =>
    rw [hp] at h hquote hprinted hsem
    rw [other_other, hp] at hother
    cases h
    have hcount : s.sem x + (if (s.pc x.other).printing then 1 else 0) = 0 := hsem
    have hnext := hi.goes x _ .wait _ (update s.sem x (s.sem x + 1)) hquote hprinted
      (by rw [Function.update_self, Nat.add_right_comm, hcount]; rfl) (by simpa [Pc.printing] using hother)
    simpa [St.goto] using hnext
  | wait =>
    rw [hp] at h hquote hprinted hsem
    rw [other_other, hp] at hother
    dsimp only at h
    split at h
    · cases h
    · rename_i hne
      cases h
      have hnext := hi.goes x _ (.print 0) (s.printed x)
        (update s.sem x.other (s.sem x.other - 1)) hquote ⟨Nat.zero_le _, hprinted⟩
        (by simpa [(other_ne x).symm, Pc.posted] using hsem) (by simp [Pc.printing] at hother ⊢; omega)
      simpa [St.goto] using hnext
  | print j =>
    have hdone := quoteAt_posted (hi.quote x.other) (hi.posted (by rw [hp]; rfl))
    rw [hp] at h hquote hprinted hsem
    rw [other_other, hp] at hother
    obtain ⟨c, hc, rfl⟩ := Option.map_eq_some_iff.mp h
    rw [hdone] at hc
    obtain ⟨hj, hout⟩ := hprinted
    obtain ⟨hend, hmore⟩ := shown_get hj hc
    by_cases hz : c = 0
    · rw [if_pos hz]
      exact hi.goto hquote (hout.trans (hend hz)) (by rw [hp]; rfl) (by rw [hp]; rfl)
    · rw [if_neg hz]
      obtain ⟨hle, htake⟩ := hmore hz
      have hnext := hi.goes x (s.quote x) (.print (j + 1))
        (s.printed x ++ [c]) s.sem hquote ⟨hle, by rw [htake, hout]⟩ hsem hother
      simpa [St.goto] using hnext
  | done =>
    rw [hp] at h
    cases h

theorem start_inv : Inv text (start text) where
  quote x := ⟨Nat.zero_le _, by simp [start, CStr.buffer, decoded]⟩
  sem x := rfl
  printed x := rfl

/-! ## The end -/

/-- How many steps a thread has left at most: twice its quote, the post and the wait, and the other quote. -/
def Pc.left (own other : Nat) : Pc → Nat
  | .loop i => 2 * (own - i) + other + 5
  | .modify i => 2 * (own - i) + other + 4
  | .post => other + 4
  | .wait => other + 3
  | .print j => other - j + 2
  | .done => 0

def part (text : Quote → CStr) (s : St) (x : Quote) : Nat :=
  (s.pc x).left (text x).1.length (text x.other).1.length

def cost (text : Quote → CStr) (s : St) : Nat := part text s .a + part text s .b

theorem cost_eq (x : Quote) : cost text s = part text s x + part text s x.other := by
  cases x
  · rfl
  · exact Nat.add_comm ..

theorem shown_length : (shown t).length ≤ t.length := by
  have h := (List.takeWhile_sublist (l := decoded t) fun c => c ≠ 0).length_le
  simpa [shown, decoded] using h

/-- The other thread stays where it is. -/
theorem step_other (h : step true s x = some s') : s'.pc x.other = s.pc x.other := by
  unfold step at h
  cases hp : s.pc x with
  | loop i | modify i =>
    rw [hp] at h
    obtain ⟨c, -, rfl⟩ := Option.map_eq_some_iff.mp h
    exact goto_other
  | post =>
    rw [hp] at h
    cases h
    exact goto_other
  | wait =>
    rw [hp] at h
    dsimp only at h
    split at h <;> cases h
    exact goto_other
  | print j =>
    rw [hp] at h
    obtain ⟨c, -, rfl⟩ := Option.map_eq_some_iff.mp h
    split <;> exact goto_other
  | done =>
    rw [hp] at h
    cases h

theorem part_lt (hi : Inv text s) (h : step true s x = some s') : part text s' x < part text s x := by
  have hquote := hi.quote x
  have hnext := (step_inv hi h).printed x
  have hother := shown_length (t := (text x.other).1)
  unfold part
  unfold step at h
  cases hp : s.pc x with
  | loop i =>
    rw [hp] at h
    obtain ⟨c, -, rfl⟩ := Option.map_eq_some_iff.mp h
    rw [goto_self]
    split
    · simp only [Pc.left]
      omega
    · rw [if_pos rfl]
      simp only [Pc.left]
      omega
  | modify i =>
    rw [hp] at h hquote
    obtain ⟨c, -, rfl⟩ := Option.map_eq_some_iff.mp h
    have hlt := hquote.1
    rw [goto_self]
    simp only [Pc.left]
    omega
  | post =>
    rw [hp] at h
    cases h
    simp [goto_self, Pc.left]
  | wait =>
    rw [hp] at h
    dsimp only at h
    split at h <;> cases h
    simp [goto_self, Pc.left]
  | print j =>
    rw [hp] at h
    obtain ⟨c, -, rfl⟩ := Option.map_eq_some_iff.mp h
    by_cases hz : c = 0
    · simp [hz, goto_self, Pc.left]
    · rw [if_neg hz] at hnext ⊢
      rw [goto_self] at hnext ⊢
      have hle := hnext.1
      simp only [Pc.left]
      omega
  | done =>
    rw [hp] at h
    cases h

theorem cost_lt (hi : Inv text s) (h : step true s x = some s') : cost text s' < cost text s := by
  have hpart := part_lt hi h
  have hsame : part text s' x.other = part text s x.other := by
    unfold part
    rw [step_other h]
  rw [cost_eq x, cost_eq x, hsame]
  omega

/-- Only the wait can block. -/
theorem Inv.goes_on (hi : Inv text s) (hdone : s.pc x ≠ .done) (hwait : s.pc x = .wait → s.sem x.other ≠ 0) :
    ∃ s', step true s x = some s' := by
  have hquote := hi.quote x
  have hget : ∀ {i}, s.pc x = .loop i ∨ s.pc x = .modify i → ∃ c, (s.quote x)[i]? = some c := by
    intro i hp
    have hle : i < ((text x).1 ++ [0]).length := by
      rw [List.length_append, List.length_singleton]
      rcases hp with hp | hp <;> rw [hp] at hquote <;> have := hquote.1 <;> omega
    rw [quoteAt_get hquote hp]
    exact ⟨_, List.getElem?_eq_getElem hle⟩
  unfold step
  cases hp : s.pc x with
  | loop i =>
    obtain ⟨c, hc⟩ := hget (Or.inl hp)
    exact ⟨_, by simp [hc]; rfl⟩
  | modify i =>
    obtain ⟨c, hc⟩ := hget (Or.inr hp)
    exact ⟨_, by simp [hc]; rfl⟩
  | post => exact ⟨_, rfl⟩
  | wait => exact ⟨_, if_neg (hwait hp)⟩
  | print j =>
    have hprinted := hi.printed x
    rw [hp] at hprinted
    have hlen := shown_length (t := (text x.other).1)
    have hlt : j < (decoded (text x.other).1 ++ [0]).length := by
      have hle := hprinted.1
      simp [decoded]
      omega
    have hdone := quoteAt_posted (hi.quote x.other) (hi.posted (by rw [hp]; rfl))
    exact ⟨_, by simp [hdone, List.getElem?_eq_getElem hlt]; rfl⟩
  | done => exact absurd hp hdone

theorem Inv.stopped (hi : Inv text s) (hstop : ∀ x s', step true s x ≠ some s') (x : Quote) : s.pc x = .done := by
  by_contra hdone
  have hwait : s.pc x = .wait ∧ s.sem x.other = 0 := by
    by_contra hn
    obtain ⟨s', hs⟩ := hi.goes_on hdone fun hw hz => hn ⟨hw, hz⟩
    exact hstop x s' hs
  -- then the other thread has not come to its post
  have hsem := hi.sem x.other
  rw [other_other, hwait.1, hwait.2] at hsem
  have hnot : (s.pc x.other).posted = false := by
    by_contra hp
    simp [hp, Pc.printing] at hsem
  obtain ⟨s', hs⟩ := hi.goes_on (x := x.other) (by intro e; rw [e] at hnot; cases hnot)
    (by intro e; rw [e] at hnot; cases hnot)
  exact hstop x.other s' hs

/-- In every order of steps: nobody prints before both quotes are modified, and the threads come to an
    end, with what is printed of each quote the string that it is when modified. -/
theorem rendezvous_holds (text : Quote → CStr) :
    (∀ s, (sys true text).Reach s → ∀ x, (s.pc x).printing = true → ∀ y, s.quote y = decoded (text y).1 ++ [0]) ∧
      (sys true text).Rests (fun s => ∀ x, s.pc x = .done ∧ s.printed x = shown (text x.other).1) (start text) := by
  refine ⟨?_, ?_⟩
  · intro s hs x hx y
    have hi : Inv text s := by
      refine Run.Sys.Reach.inv (I := Inv text) ?_ ?_ hs
      · intro z hz
        exact hz ▸ start_inv
      · exact fun _ _ _ hi hstep => step_inv hi hstep
    have hposted : (s.pc x).posted = true := by
      cases hp : s.pc x <;> rw [hp] at hx <;> first | rfl | cases hx
    rcases eq_or_other x y with rfl | rfl
    · exact quoteAt_posted (hi.quote y) hposted
    · exact quoteAt_posted (hi.quote x.other) (hi.posted hx)
  · refine Run.Sys.Rests.of_measure (I := Inv text) (cost text) ?_ ?_ start_inv
    · exact fun _ _ _ hi hstep => ⟨step_inv hi hstep, cost_lt hi hstep⟩
    · intro s hi hstop x
      have hdone := hi.stopped hstop x
      have hprinted := hi.printed x
      rw [hdone] at hprinted
      exact ⟨hdone, hprinted⟩

def sample : Quote → CStr
  | .a => ⟨[110], by decide⟩
  | .b => ⟨[111], by decide⟩

/-- Without the semaphores one thread prints "o" before the other has made it "n". -/
theorem printed_as_it_was : ∃ s, (sys false sample).Reach s ∧ s.pc .a = .done ∧
    s.printed .a ≠ shown (sample Quote.a.other).1 := by
  have hrun : (Run.exec (step false) (start sample) (List.replicate 5 .a)).map
      (fun s => (s.pc .a, s.printed .a)) = some (.done, [111]) := by decide
  obtain ⟨s, hs, he⟩ := Option.map_eq_some_iff.mp hrun
  obtain ⟨hp, hout⟩ := Prod.mk.inj he
  have hinit : (sys false sample).init (start sample) := rfl
  refine ⟨s, Run.reach_exec hinit hs, hp, ?_⟩
  rw [hout]
  decide

end SysProg.Rendezvous
