/-
  SysProg.Net.WholeGets — nonstop_networking/server.c: what a GET gets while others PUT.

  A PUT empties its file under the name it will have and fills it a block at a time, and a GET
  takes the size of a file at its first block and reads the others as they come. So a GET
  between the events of a PUT is answered with a part of the contents (`half_a_file`).

  `storing` is the event loop from an empty directory on, with a note of the connection that
  opened each file last to write it. In the runs where each step is `Careful` (a PUT opens its
  file when no live connection writes it or is half through sending it, a GET begins
  to send when the PUT that opened its file last has all its contents) the connections
  write and read the files as `InPlace` says (`careful_inPlace`), and each GET that is answered
  OK gets the whole contents of a PUT of that name that is complete (`gets_whole`).
-/

import SysProg.Net.Turns

namespace SysProg.Net

open Function (update)
open InPlace (Role)
open SysProg.Bytes (Mem leEncode)

/-! ## The event loop with a note -/

/-- Which connection opened each file last to write it: after that event it is in READING_SIZE. -/
def noteOpened (s : Server) (opened : Nat → Option Nat) : Label → Nat → Option Nat
  | .occur i (.ready _), f =>
    if ∃ k ∈ s.conns[i]?, k.conn.client.state = .readingSize ∧ k.conn.client.fp = some f then some i else opened f
  | _, f => opened f

def stepNoted (C : Config) (s : Server × (Nat → Option Nat)) (a : Label) : Option (Server × (Nat → Option Nat)) :=
  (Server.step C s.1 a).map fun s' => (s', noteOpened s' s.2 a)

/-- `main` makes the directory. -/
def storing (C : Config) : Run.Sys (Server × (Nat → Option Nat)) Label :=
  Run.ofFun (fun s => s = (⟨Fs.empty, []⟩, fun _ => none)) (stepNoted C)

/-- The note changes nothing. -/
theorem exec_noted (C : Config) (s : Server × (Nat → Option Nat)) (labels : List Label) :
    (Run.exec (stepNoted C) s labels).map Prod.fst = Run.exec (Server.step C) s.1 labels := by
  induction labels generalizing s with
  | nil => rfl
  | cons a labels ih =>
    unfold Run.exec stepNoted
    cases hstep : Server.step C s.1 a with
    | none => rfl
    | some s' => exact ih (s', noteOpened s' s.2 a)

/-- Live, and writing the file or half through sending it. -/
def Served.Uses (k : Served) (f : Nat) : Prop :=
  k.gone = false ∧ k.conn.client.fp = some f ∧
    (k.conn.client.state = .readingSize ∨ k.conn.client.state = .readingData ∨
      k.conn.client.state = .writingResponse ∧ k.conn.client.method = .get ∧ 0 < k.conn.client.fileOffset)

instance (k : Served) (f : Nat) : Decidable (k.Uses f) := inferInstanceAs (Decidable (_ ∧ _))

def FileCall.opens : FileCall → Option Text
  | .fopenWb path => some path
  | _ => none

def CarefulEvent (C : Config) (s : Server × (Nat → Option Nat)) (k : Served) : Prop :=
  (∀ call ∈ fileCalls C s.1.fs k.conn.client, ∀ p ∈ call.opens, ∀ f ∈ s.1.fs.inode p, ∀ k' ∈ s.1.conns, ¬ k'.Uses f) ∧
  (k.conn.client.Begins → ∀ f ∈ k.conn.client.fp, ∃ i ∈ s.2 f, ∃ k' ∈ s.1.conns[i]?, 4 ≤ k'.conn.client.state.place)

instance (C : Config) (s : Server × (Nat → Option Nat)) (k : Served) : Decidable (CarefulEvent C s k) :=
  inferInstanceAs (Decidable (_ ∧ _))

def Careful (C : Config) (s : Server × (Nat → Option Nat)) : Label → Prop
  | .accept _ input => WholeFile input
  | .occur i (.ready _) => ∀ k ∈ s.1.conns[i]?, CarefulEvent C s k
  | .occur _ .hangup => True

def Server.Stored (s : Server) (name contents : Text) : Prop :=
  ∃ k ∈ s.conns, k.input = putStream name contents.length contents ∧ 4 ≤ k.conn.client.state.place ∧
    k.conn.client.errorType = none

/-- Every GET that was answered OK has been sent the size of the contents of some complete PUT of
    that name and a first part of them, and at its end all. -/
def Server.GetsWhole (s : Server) : Prop :=
  ∀ k ∈ s.conns, ∀ name, FileName name → k.input = requestLine (ascii ['G', 'E', 'T']) name →
    okLine <+: k.conn.sent → ∃ contents, s.Stored name contents ∧
      k.conn.sent <+: okLine ++ leEncode 8 contents.length ++ contents ∧
      (k.conn.client.state = .complete → k.conn.sent = okLine ++ leEncode 8 contents.length ++ contents)

variable {C : Config} {fs fs' : Fs} {k : Conn} {e : Event} {name contents : Text} {i : Nat}
  {r : Role Nat UInt8} {of of' : Nat → Text → Prop}
  {s s' : Server × (Nat → Option Nat)} {t : InPlace.St Nat Nat UInt8} {a : Label}

/-! ## Connections and files as actors and cells -/

/-- Each connection is an actor and each file a cell, and no file is of two paths. -/
structure Shows (C : Config) (of : Nat → Text → Prop) (s : Server × (Nat → Option Nat))
    (t : InPlace.St Nat Nat UInt8) : Prop where
  cells : t.cells = s.1.fs.data
  last : t.last = s.2
  doing : ∀ i k, s.1.conns[i]? = some k → Doing C of k.input k.conn (t.role i) ∧ t.gone i = k.gone
  idle : ∀ i, s.1.conns[i]? = none → t.role i = .idle ∧ t.gone i = false
  dir : ∀ p i, s.1.fs.inode p = some i → of i p
  unique : ∀ i p q, of i p → of i q → p = q
  fresh : ∀ i p, of i p → i < s.1.fs.next

theorem Shows.init : Shows C (fun _ _ => False) (⟨Fs.empty, []⟩, fun _ => none)
    ⟨fun _ => [], fun _ => .idle, fun _ => none, fun _ => false⟩ where
  cells := rfl
  last := rfl
  doing i k hk := by cases hk
  idle i _ := ⟨rfl, rfl⟩
  dir p i hi := by cases hi
  unique i p q hp := by cases hp
  fresh i p hp := by cases hp

/-- An actor that is not idle is a connection. -/
theorem Shows.conn {i : Nat} (h : Shows C of s t) (hr : t.role i ≠ .idle) :
    ∃ k, s.1.conns[i]? = some k ∧ Doing C of k.input k.conn (t.role i) ∧ t.gone i = k.gone := by
  cases hk : s.1.conns[i]? with
  | none => exact absurd (h.idle i hk).1 hr
  | some k => exact ⟨k, rfl, h.doing i k hk⟩

/-- A file that is written, or read half through, is used by a connection. -/
theorem Shows.uses {i f : Nat} (h : Shows C of s t) (hu : t.Writes i f ∨ t.Reads i f) :
    (∃ k ∈ s.1.conns, k.Uses f) ∧ ∃ p, of f p := by
  rcases hu with ⟨hgone, whole, n, hr⟩ | ⟨hgone, size, got, hr, hlt⟩
  · obtain ⟨k, hk, hd, hg⟩ := h.conn (i := i) (by simp [hr])
    rw [hr] at hd
    obtain ⟨hfp, hs, hof⟩ := hd.writes
    exact ⟨⟨k, List.mem_of_getElem? hk, hg.symm.trans hgone, hfp, hs.imp_right Or.inl⟩, hof⟩
  · obtain ⟨k, hk, hd, hg⟩ := h.conn (i := i) (by simp [hr])
    rw [hr] at hd
    obtain ⟨hfp, hs, hof⟩ := hd.reads hlt
    exact ⟨⟨k, List.mem_of_getElem? hk, hg.symm.trans hgone, hfp, Or.inr (Or.inr hs)⟩, hof⟩

/-- A connection takes its turn, and the files are of the paths that they were of. -/
theorem Shows.set {i : Nat} {k : Served} {r : Role Nat UInt8} {conn : Conn} (h : Shows C of s t)
    (opened : Nat → Option Nat) (hk : s.1.conns[i]? = some k) (hd : Doing C of' k.input conn r)
    (hof : ∀ i p, of i p → of' i p) (hdir : ∀ p i, fs'.inode p = some i → of' i p)
    (hunique : ∀ i p q, of' i p → of' i q → p = q) (hfresh : ∀ i p, of' i p → i < fs'.next) :
    Shows C of' (⟨fs', s.1.conns.set i { k with conn := conn }⟩, opened)
      ⟨fs'.data, update t.role i r, opened, t.gone⟩ := by
  have hlt := (List.getElem?_eq_some_iff.mp hk).1
  refine ⟨rfl, rfl, ?_, ?_, hdir, hunique, hfresh⟩
  · intro j k' hk'
    dsimp only at hk' ⊢
    rw [List.getElem?_set, if_pos hlt] at hk'
    by_cases hj : i = j
    · subst hj
      rw [if_pos rfl] at hk'
      cases hk'
      rw [Function.update_self]
      exact ⟨hd, (h.doing i k hk).2⟩
    · rw [if_neg hj] at hk'
      rw [Function.update_of_ne (Ne.symm hj)]
      exact ⟨(h.doing j k' hk').1.mono hof, (h.doing j k' hk').2⟩
  · intro j hj
    dsimp only at hj ⊢
    rw [List.getElem?_eq_none_iff, List.length_set] at hj
    rw [Function.update_of_ne (by omega)]
    exact h.idle j (List.getElem?_eq_none_iff.mpr hj)

/-- The same, when no path is new. -/
theorem Shows.set_same {i : Nat} {k : Served} {r : Role Nat UInt8} {conn : Conn} (h : Shows C of s t)
    (opened : Nat → Option Nat) (hk : s.1.conns[i]? = some k) (hd : Doing C of k.input conn r)
    (hdir : ∀ p i, fs'.inode p = some i → s.1.fs.inode p = some i) (hnext : fs'.next = s.1.fs.next) :
    Shows C of (⟨fs', s.1.conns.set i { k with conn := conn }⟩, opened)
      ⟨fs'.data, update t.role i r, opened, t.gone⟩ :=
  h.set opened hk hd (fun _ _ hp => hp) (fun p i hi => h.dir p i (hdir p i hi)) h.unique fun i p hp => by
    rw [hnext]
    exact h.fresh i p hp

/-! ## The note -/

section
variable {conns : List Served} {opened : Nat → Option Nat} {i : Nat} {k : Served} (hlt : i < conns.length)
include hlt

theorem noteOpened_same (hs : k.conn.client.state ≠ .readingSize) :
    noteOpened ⟨fs, conns.set i k⟩ opened (.occur i (.ready e)) = opened := by
  funext f
  apply if_neg
  intro ⟨k', hk', hs', _⟩
  rw [List.getElem?_set_self hlt] at hk'
  cases hk'
  exact hs hs'

theorem noteOpened_opens {f : Nat} (hs : k.conn.client.state = .readingSize) (hfp : k.conn.client.fp = some f) :
    noteOpened ⟨fs, conns.set i k⟩ opened (.occur i (.ready e)) = update opened f (some i) := by
  funext f'
  by_cases hf : f' = f
  · subst hf
    rw [Function.update_self]
    exact if_pos ⟨k, List.getElem?_set_self hlt, hs, hfp⟩
  · rw [Function.update_of_ne hf]
    apply if_neg
    intro ⟨k', hk', _, hfp'⟩
    rw [List.getElem?_set_self hlt] at hk'
    cases hk'
    exact hf (Option.some.inj (hfp'.symm.trans hfp))

end

/-! ## The simulation -/

theorem create_update (fs : Fs) (p : Text) : (fs.create p).1.data = update fs.data (fs.create p).2 [] := by
  unfold Fs.create
  split <;> rfl

/-- The file that a PUT opens is of its path, and of no other. -/
theorem Shows.opens {i : Nat} {k : Served} {p : Text} {conn : Conn} (h : Shows C of s t) (opened : Nat → Option Nat)
    (hk : s.1.conns[i]? = some k)
    (hd : ∀ of' : Nat → Text → Prop, of' (s.1.fs.create p).2 p →
      Doing C of' k.input conn (.writing (s.1.fs.create p).2 contents 0)) :
    ∃ of', Shows C of' (⟨(s.1.fs.create p).1, s.1.conns.set i { k with conn := conn }⟩, opened)
      ⟨(s.1.fs.create p).1.data, update t.role i (.writing (s.1.fs.create p).2 contents 0), opened, t.gone⟩ := by
  have hc := create_spec s.1.fs p
  have hother : ∀ q, of (s.1.fs.create p).2 q → q = p := by
    intro q hq
    rcases hc.dir with ⟨-, hi⟩ | ⟨-, -, hi⟩
    · exact h.unique _ _ _ hq (h.dir _ _ hi)
    · have hlt := h.fresh _ _ hq
      omega
  refine ⟨fun j q => of j q ∨ j = (s.1.fs.create p).2 ∧ q = p, ?_⟩
  refine h.set opened hk (hd _ (Or.inr ⟨rfl, rfl⟩)) (fun _ _ hp => Or.inl hp) ?_ ?_ ?_
  · intro q j hj
    rw [hc.inode] at hj
    split at hj
    · rename_i hq
      exact Or.inr ⟨(Option.some.inj hj).symm, hq⟩
    · exact Or.inl (h.dir q j hj)
  · rintro j q q' (hq | ⟨rfl, rfl⟩) (hq' | ⟨hj, rfl⟩)
    · exact h.unique j q q' hq hq'
    · subst hj
      exact hother q hq
    · exact (hother q' hq').symm
    · rfl
  · rintro j q (hq | ⟨rfl, rfl⟩)
    · exact Nat.lt_of_lt_of_le (h.fresh j q hq) hc.next
    · rcases hc.dir with ⟨-, hi⟩ | ⟨-, hi, -⟩
      · exact Nat.lt_of_lt_of_le (h.fresh _ _ (h.dir _ _ hi)) hc.next
      · exact hc.fresh hi

/-- An event of a connection. -/
theorem Shows.ready {i : Nat} {k : Served} {conn : Conn} (h : Shows C of s t) (hsound : InPlace.Sound t)
    (hk : s.1.conns[i]? = some k) (hgone : k.gone = false) (hc : CarefulEvent C s k)
    (hhandle : handleClientRequest C (s.1.fs, k.conn) e = some (fs', conn)) :
    ∃ of' t', InPlace.Step t i t' ∧ Shows C of' (⟨fs', s.1.conns.set i { k with conn := conn }⟩,
      noteOpened ⟨fs', s.1.conns.set i { k with conn := conn }⟩ s.2 (.occur i (.ready e))) t' := by
  have hlt := (List.getElem?_eq_some_iff.mp hk).1
  obtain ⟨hd, hg⟩ := h.doing i k hk
  have hgone' : t.gone i = false := hg.trans hgone
  have hcells := h.cells
  cases hd.turn h.dir hhandle with
  | still hdata hnext hinode hs hd' =>
    refine ⟨of, t, .skip, ?_⟩
    have hset := h.set_same s.2 hk hd' hinode hnext
    rw [Function.update_eq_self, hdata, ← hcells, ← h.last] at hset
    rw [noteOpened_same hlt hs, ← h.last]
    exact hset
  | @opens p contents hidle hcall hfs hs hfp hd' =>
    subst hfs
    -- when the file is there already, the rule keeps the others off it
    have hfree : ∀ b, ¬ (t.Writes b (s.1.fs.create p).2 ∨ t.Reads b (s.1.fs.create p).2) := by
      intro b hu
      obtain ⟨⟨k', hk', huses⟩, q, hq⟩ := h.uses hu
      rcases (create_spec s.1.fs p).dir with ⟨-, hi⟩ | ⟨-, -, hi⟩
      · exact hc.1 _ hcall p rfl _ hi k' hk' huses
      · have hfresh := h.fresh _ q hq
        omega
    obtain ⟨of', hset⟩ := h.opens (update s.2 (s.1.fs.create p).2 (some i)) hk hd'
    refine ⟨of', _, .create (s.1.fs.create p).2 contents hidle (fun b hw => hfree b (Or.inl hw))
      (fun b hr => hfree b (Or.inr hr)), ?_⟩
    rw [noteOpened_opens hlt hs hfp, hcells, h.last, ← create_update]
    exact hset
  | @writes f whole n part rest hr hpart hfs hs hd' =>
    subst hfs
    refine ⟨of, _, .write part rest hgone' hr hpart, ?_⟩
    rw [noteOpened_same hlt hs, hcells, h.last]
    exact h.set_same _ hk hd' (fun _ _ hi => hi) rfl
  | @stores f whole n hr hfs hs hd' =>
    subst hfs
    refine ⟨of, _, .finish hgone' hr, ?_⟩
    rw [noteOpened_same hlt hs, hcells, h.last]
    exact h.set_same _ hk hd' (fun _ _ hi => hi) rfl
  | @begins f hidle hb hfp hsend =>
    -- the last to open the file has all its contents, which are the file's
    obtain ⟨j, hj, k', hk', hplace⟩ := hc.2 hb f hfp
    have hlast : t.last f = some j := by
      rw [h.last]
      exact hj
    have hdj := (h.doing j k' hk').1
    obtain ⟨whole, hr | ⟨n, hr⟩⟩ := hsound.emptied j f hlast
    swap
    · rw [hr] at hdj
      obtain ⟨-, hs | hs, -⟩ := hdj.writes <;>
      · rw [hs] at hplace
        exact absurd hplace (by decide)
    rw [hr] at hdj
    obtain ⟨-, -, hmax, -⟩ := hdj.wrote
    have hfile : s.1.fs.data f = whole := by
      rw [← hcells]
      exact hsound.whole j f whole hlast hr
    obtain ⟨rfl, hs, hd'⟩ := hsend (by rw [hfile]; exact hmax)
    refine ⟨of, _, .begin dataSize hidle hlast hr, ?_⟩
    rw [noteOpened_same hlt hs, hcells, h.last]
    exact h.set_same _ hk hd' (fun _ _ hi => hi) rfl
  | @sends f size got n hr hlt' hfs hs hd' =>
    subst hfs
    refine ⟨of, _, .read n hgone' hr hlt', ?_⟩
    rw [noteOpened_same hlt hs, hcells, h.last]
    exact h.set_same _ hk hd' (fun _ _ hi => hi) rfl

/-- One step of the event loop. -/
theorem Shows.step (h : Shows C of s t) (hsound : InPlace.Sound t) (hc : Careful C s a)
    (hs : stepNoted C s a = some s') : ∃ of' i t', InPlace.Step t i t' ∧ Shows C of' s' t' := by
  obtain ⟨srv, hstep, rfl⟩ := Option.map_eq_some_iff.mp hs
  rcases step_cases hstep with ⟨buffer, input, rfl, rfl⟩ | ⟨i, o, k, fs', k', rfl, hk, hocc, rfl⟩
  · refine ⟨of, 0, t, .skip, h.cells, h.last, ?_, ?_, h.dir, h.unique, h.fresh⟩
    · intro j k hk
      dsimp only at hk
      rw [List.getElem?_append] at hk
      split at hk
      · exact h.doing j k hk
      · rename_i hge
        rw [List.getElem?_singleton] at hk
        split at hk
        · cases hk
          obtain ⟨hr, hg⟩ := h.idle j (List.getElem?_eq_none_iff.mpr (Nat.le_of_not_lt hge))
          rw [hr]
          exact ⟨.fresh hc, hg⟩
        · cases hk
    · intro j hj
      dsimp only at hj
      rw [List.getElem?_eq_none_iff, List.length_append] at hj
      exact h.idle j (List.getElem?_eq_none_iff.mpr (by omega))
  · obtain ⟨hgone, ⟨e, conn, rfl, hhandle, rfl⟩ | ⟨rfl, rfl, rfl⟩⟩ := occur_cases hocc
    · obtain ⟨of', t', hstep', hshows⟩ := h.ready hsound hk hgone (hc k hk) hhandle
      exact ⟨of', i, t', hstep', hshows⟩
    · have hlt := (List.getElem?_eq_some_iff.mp hk).1
      refine ⟨of, i, _, .leave, h.cells, h.last, ?_, ?_, h.dir, h.unique, h.fresh⟩
      · intro j k' hk'
        dsimp only at hk' ⊢
        rw [List.getElem?_set, if_pos hlt] at hk'
        by_cases hj : i = j
        · subst hj
          rw [if_pos rfl] at hk'
          cases hk'
          exact ⟨(h.doing i k hk).1, Function.update_self ..⟩
        · rw [if_neg hj] at hk'
          rw [Function.update_of_ne (Ne.symm hj)]
          exact h.doing j k' hk'
      · intro j hj
        dsimp only at hj ⊢
        rw [List.getElem?_eq_none_iff, List.length_set] at hj
        rw [Function.update_of_ne (by omega)]
        exact h.idle j (List.getElem?_eq_none_iff.mpr hj)

/-- In a careful run the connections write and read the files in place. -/
theorem careful_inPlace (h : (storing C).Via (Careful C) s) :
    ∃ of t, (InPlace.inPlace Nat Nat UInt8).Reach t ∧ Shows C of s t := by
  refine Run.Sys.Via.inv (I := fun s => ∃ of t, (InPlace.inPlace Nat Nat UInt8).Reach t ∧ Shows C of s t) ?_ ?_ h
  · intro s heq
    subst heq
    exact ⟨_, _, .init ⟨fun _ => rfl, fun _ => rfl⟩, Shows.init⟩
  · intro s a s' ⟨of, t, hreach, hshows⟩ hc hs
    obtain ⟨of', i, t', hstep, hshows'⟩ := hshows.step (InPlace.reach_sound hreach) hc hs
    exact ⟨of', t', .step i hreach trivial hstep, hshows'⟩

/-! ## What a GET gets -/

theorem requestLine_inj {verb name' : Text} (h : requestLine verb name = requestLine verb name') : name = name' := by
  simpa [requestLine] using h

/-- A GET that was answered OK is a reader of a file of its name. -/
theorem Doing.answered (h : Doing C of (requestLine (ascii ['G', 'E', 'T']) name) k r) (hok : okLine <+: k.sent) :
    ∃ i size got, r = .reading i size got ∧ of i (path C name) ∧ C.directory k.client.filename i = none ∧
      Sending i size got k := by
  have hnone : k.sends ≠ [] := by
    intro hs
    rw [Conn.sent, hs] at hok
    exact absurd (List.prefix_nil.mp hok) (by decide)
  generalize hin : requestLine (ascii ['G', 'E', 'T']) name = input at h
  have hput : ∀ name' n contents, requestLine (ascii ['G', 'E', 'T']) name ≠ putStream name' n contents := by
    intro name' n contents he
    have hhead := congrArg List.head? he
    simp [requestLine, putStream, ascii] at hhead
  cases h with
  | fresh => exact absurd rfl hnone
  | named => exact absurd rfl hnone
  | size => exact absurd hin (hput _ _ _)
  | first => exact absurd hin (hput _ _ _)
  | upload => exact absurd hin (hput _ _ _)
  | stored => exact absurd hin (hput _ _ _)
  | opened _ _ _ _ hs => exact absurd hs hnone
  | @sending name' got i size k hi hfile hs =>
    cases requestLine_inj hin
    exact ⟨i, size, got, rfl, hi, hfile, hs⟩
  | missing ha =>
    rcases ha.state with ⟨-, hs⟩ | ⟨-, hs⟩
    · exact absurd hs hnone
    · rcases hok with ⟨l, hl⟩
      rcases hs (by simp) with ⟨l', hl'⟩
      have hhead := congrArg List.head? (hl.trans hl'.symm)
      simp [okLine, errorLine, ascii] at hhead
  | deleting =>
    have hhead := congrArg List.head? hin
    simp [requestLine, ascii] at hhead

/-- The next event of a GET that is half through sends more. -/
theorem Sending.goes_on {size : Nat} {got : Text} (e : Event) (h : Sending i size got k)
    (hdir : C.directory k.client.filename i = none) (hlt : got.length < size) (hfile : (fs.data i).length = size) :
    ∃ k', handleClientRequest C (fs, k) e = some (fs, k') ∧ k.sent.length < k'.sent.length := by
  have hs : k.client.state = .writingResponse := h.state.trans (if_neg (Nat.not_le.mpr hlt))
  have hsome : (handleClientRequest C (fs, k) e).isSome := by
    rw [handle_response hs]
    simp only [writeResponse, h.errorType, h.method, sendGetResponse, h.fp, Option.map_some, Option.isSome_some]
  obtain ⟨⟨fs', k'⟩, hk⟩ := Option.isSome_iff_exists.mp hsome
  obtain ⟨rfl, -, hs'⟩ := h.next hdir hlt hk
  refine ⟨k', hk, ?_⟩
  rw [h.sent, hs'.sent]
  simp only [List.length_append, List.length_take, List.length_drop, hfile]
  unfold dataSize
  omega

/-- In every careful run each GET that is answered OK gets the size and all the contents of a complete
    PUT of its name, as long as it has events. -/
theorem gets_whole (C : Config) {s : Server × (Nat → Option Nat)} (h : (storing C).Via (Careful C) s) :
    s.1.GetsWhole ∧
    ∀ (i : Nat) (k : Served) name e, s.1.conns[i]? = some k → k.gone = false →
      k.input = requestLine (ascii ['G', 'E', 'T']) name → okLine <+: k.conn.sent → k.conn.client.state ≠ .complete →
      ∃ s' k', Server.step C s.1 (.occur i (.ready e)) = some s' ∧ s'.conns[i]? = some k' ∧
        k.conn.sent.length < k'.conn.sent.length := by
  obtain ⟨of, t, hreach, hshows⟩ := careful_inPlace h
  refine ⟨?_, ?_⟩
  · intro k hmem name hv hinput hok
    obtain ⟨i, hk⟩ := List.mem_iff_getElem?.mp hmem
    have hd := (hshows.doing i k hk).1
    rw [hinput] at hd
    obtain ⟨f, size, got, hr, hof, -, hs⟩ := hd.answered hok
    obtain ⟨j, whole, hj, rfl, hgot⟩ := InPlace.reading_whole hreach hr
    obtain ⟨k', hk', hd', -⟩ := hshows.conn (i := j) (by simp [hj])
    rw [hj] at hd'
    obtain ⟨name', hinput', -, hof', hplace, ht⟩ := hd'.wrote
    have hname : name' = name := path_inj (hshows.unique f _ _ hof' hof)
    rw [hname] at hinput'
    refine ⟨whole, ⟨k', List.mem_of_getElem? hk', hinput', hplace, ht⟩, ?_, ?_⟩
    · rw [hs.sent]
      exact (List.prefix_append_right_inj _).mpr hgot
    · intro hc
      have hle : whole.length ≤ got.length := by
        by_contra hlt
        rw [hs.state, if_neg hlt] at hc
        cases hc
      rw [hs.sent, hgot.eq_of_length_le hle]
  · intro i k name e hk hgone hinput hok hnot
    obtain ⟨hd, hg⟩ := hshows.doing i k hk
    rw [hinput] at hd
    obtain ⟨f, size, got, hr, -, hdir, hs⟩ := hd.answered hok
    have hlt : got.length < size := by
      by_contra hge
      exact hnot (hs.state.trans (if_pos (Nat.le_of_not_lt hge)))
    have hfile := InPlace.reading_rest hreach (hg.trans hgone) hr hlt
    rw [hshows.cells] at hfile
    obtain ⟨conn, hhandle, hmore⟩ := hs.goes_on e hdir hlt hfile
    refine ⟨⟨s.1.fs, s.1.conns.set i { k with conn := conn }⟩, { k with conn := conn }, ?_, ?_, hmore⟩
    · simp only [Server.step, hk, Option.bind_some, occur, hgone, Bool.false_eq_true, if_false, hhandle,
        Option.map_some]
    · exact List.getElem?_set_self (List.getElem?_eq_some_iff.mp hk).1

def CarefulReady (C : Config) (s : Server × (Nat → Option Nat)) : Label → Prop
  | .occur i (.ready _) => ∀ k ∈ s.1.conns[i]?, CarefulEvent C s k
  | _ => False

instance (C : Config) (s : Server × (Nat → Option Nat)) (a : Label) : Decidable (CarefulReady C s a) :=
  match a with
  | .occur i (.ready _) => inferInstanceAs (Decidable (∀ k ∈ s.1.conns[i]?, CarefulEvent C s k))
  | .occur _ .hangup => inferInstanceAs (Decidable False)
  | .accept _ _ => inferInstanceAs (Decidable False)

theorem CarefulReady.careful (h : CarefulReady C s a) : Careful C s a := by
  unfold CarefulReady at h
  split at h
  · exact h
  · cases h

def eventsOf (conns : List Nat) : List Label := conns.map fun i => .occur i (.ready anyEvent)

/-- Two bytes are put, the file is got, another byte is put and got. -/
def putsAndGets : List Label :=
  [.accept (fun _ => 0) (putStream (ascii ['a']) 2 (ascii ['x', 'y'])),
    .accept (fun _ => 0) (requestLine (ascii ['G', 'E', 'T']) (ascii ['a'])),
    .accept (fun _ => 0) (putStream (ascii ['a']) 1 (ascii ['z'])),
    .accept (fun _ => 0) (requestLine (ascii ['G', 'E', 'T']) (ascii ['a']))]

theorem putsAndGets_whole : ∀ a ∈ putsAndGets, ∀ buffer input, a = .accept buffer input → WholeFile input := by
  have hv : FileName (ascii ['a']) := by constructor <;> decide
  intro a ha buffer input he
  simp only [putsAndGets, List.mem_cons, List.not_mem_nil, or_false] at ha
  rcases ha with rfl | rfl | rfl | rfl <;> cases he
  · exact WholeFile.put hv (show (ascii ['x', 'y']).length < 2 ^ 63 by decide)
  · exact .get hv
  · exact WholeFile.put hv (show (ascii ['z']).length < 2 ^ 63 by decide)
  · exact .get hv

theorem gets_whole_two : ∃ s : Server × (Nat → Option Nat), (storing sampleConfig).Via (Careful sampleConfig) s ∧
    s.1.conns.map (fun k => (k.conn.client.state.place, k.conn.sent)) =
      [(4, []), (5, okLine ++ leEncode 8 2 ++ ascii ['x', 'y']), (4, []), (5, okLine ++ leEncode 8 1 ++ ascii ['z'])] ∧
    s.1.GetsWhole := by
  have hrun : ((Run.exec (stepNoted sampleConfig) (⟨Fs.empty, []⟩, fun _ => none) putsAndGets).bind fun s =>
      Run.exec (Run.guard (CarefulReady sampleConfig) (stepNoted sampleConfig)) s
        (eventsOf [0, 0, 1, 1, 0, 0, 1, 2, 2, 3, 3, 2, 2, 3])).map
          (fun s => s.1.conns.map fun k => (k.conn.client.state.place, k.conn.sent)) =
      some [(4, []), (5, okLine ++ leEncode 8 2 ++ ascii ['x', 'y']), (4, []),
        (5, okLine ++ leEncode 8 1 ++ ascii ['z'])] := by decide +kernel
  obtain ⟨s', hs', hconns⟩ := Option.map_eq_some_iff.mp hrun
  obtain ⟨s, hs, hrest⟩ := Option.bind_eq_some_iff.mp hs'
  have hinit : (storing sampleConfig).init (⟨Fs.empty, []⟩, fun _ => none) := rfl
  have hvia : (storing sampleConfig).Via (Careful sampleConfig) s := by
    refine Run.via_exec (.init hinit) ?_ hs
    intro a ha u
    have hwhole := putsAndGets_whole a ha
    cases a with
    | accept buffer input => exact hwhole buffer input rfl
    | occur i o => simp [putsAndGets] at ha
  have hvia' := Run.via_guard_of (fun s a h => CarefulReady.careful h) hvia hrest
  exact ⟨s', hvia', hconns, (gets_whole sampleConfig hvia').1⟩

/-- A GET between the events of a PUT: the file is open, and empty. -/
theorem half_a_file : ∃ s : Server × (Nat → Option Nat),
    (storing sampleConfig).Via (fun _ a => ∀ buffer input, a = .accept buffer input → WholeFile input) s ∧
    s.1.conns.map (fun k => (k.conn.client.state, k.input, k.conn.sent)) =
      [(.readingSize, putStream (ascii ['a']) 2 (ascii ['x', 'y']), []),
        (.complete, requestLine (ascii ['G', 'E', 'T']) (ascii ['a']), okLine ++ leEncode 8 0)] ∧
    ¬ s.1.GetsWhole := by
  have hrun : (Run.exec (stepNoted sampleConfig) (⟨Fs.empty, []⟩, fun _ => none)
      (putsAndGets.take 2 ++ eventsOf [0, 0, 1, 1, 1])).map
        (fun s => s.1.conns.map fun k => (k.conn.client.state, k.input, k.conn.sent)) =
      some [(.readingSize, putStream (ascii ['a']) 2 (ascii ['x', 'y']), []),
        (.complete, requestLine (ascii ['G', 'E', 'T']) (ascii ['a']), okLine ++ leEncode 8 0)] := by decide +kernel
  obtain ⟨s, hs, hconns⟩ := Option.map_eq_some_iff.mp hrun
  have hinit : (storing sampleConfig).init (⟨Fs.empty, []⟩, fun _ => none) := rfl
  refine ⟨s, Run.via_exec (.init hinit) ?_ hs, hconns, ?_⟩
  · intro a ha _ buffer input he
    rcases List.mem_append.mp ha with ha | ha
    · exact putsAndGets_whole a (List.mem_of_mem_take ha) buffer input he
    · subst he
      simp [eventsOf] at ha
  · intro hall
    have hmem : ∀ k ∈ s.1.conns, _ := fun k hk =>
      List.mem_map_of_mem (f := fun k : Served => (k.conn.client.state, k.input, k.conn.sent)) hk
    have hget : (.complete, requestLine (ascii ['G', 'E', 'T']) (ascii ['a']), okLine ++ leEncode 8 0) ∈
        s.1.conns.map fun k => (k.conn.client.state, k.input, k.conn.sent) := by
      rw [hconns]
      exact List.mem_cons_of_mem _ List.mem_cons_self
    obtain ⟨k, hk, he⟩ := List.mem_map.mp hget
    simp only [Prod.mk.injEq] at he
    obtain ⟨-, hinput, hsent⟩ := he
    obtain ⟨contents, ⟨k', hk', hinput', hplace, -⟩, -⟩ := hall k hk (ascii ['a']) (by constructor <;> decide) hinput
      (by rw [hsent]; exact List.prefix_append _ _)
    -- only the GET is so far
    have hk'' := hmem k' hk'
    rw [hconns] at hk''
    simp only [List.mem_cons, List.not_mem_nil, or_false, Prod.mk.injEq] at hk''
    rcases hk'' with ⟨hs', -⟩ | ⟨-, hin, -⟩
    · rw [hs'] at hplace
      exact absurd hplace (by decide)
    · have hhead := congrArg List.head? (hin.symm.trans hinput')
      simp [requestLine, putStream, ascii] at hhead

end SysProg.Net
