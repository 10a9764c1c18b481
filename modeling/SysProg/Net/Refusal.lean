/-
  SysProg.Net.Refusal — a PUT whose body is not as long as it says.

  READING_DATA sees one buffer at a time. A body that is too long is noticed when the buffer
  that has the last of the declared bytes has more in it, a body that is too short when a read finds
  the end of the stream; both remove the file. When a read ends exactly at the declared
  end the server answers OK, whatever follows, and a hangup frees the client and leaves its
  file as it is. `refused_iff` says for every declared size, body and sequence of events and
  hangups when an ERROR is answered and no file remains, and when no file remains; `put_finishes`
  that every such sequence comes to an end of the connection.
-/

import SysProg.Net.FileMap
import SysProg.Net.Poll
import SysProg.Net.Uploads

namespace SysProg.Net

open SysProg.Bytes (Mem load store leEncode)

variable {C : Config} {fs fs' : Fs} {k k' : Conn} {name : Text} {i n w : Nat}

/-! ## One part of the body -/

theorem FileName.remove (hv : FileName name) (fs : Fs) : C.remove fs (path C name) = fs.remove (path C name) :=
  if_pos hv.direct

/-- The part of the body that came with the header. -/
theorem handle_put_first (C : Config) (fs : Fs) (i : Nat) (b : Mem) (body : Text) (e : Event) (calls : List FileCall)
    (hv : FileName name) (hn : n < wordSize) :
    ∃ k', handleClientRequest C
        (fs, putConn C b name (putStream name n body) i .readingData (name.length + 5 + 8) n calls) e =
        some (if n < (body.take (bodyRoom name)).length then
          (fs.append i ((body.take (bodyRoom name)).take n)).remove (path C name)
          else fs.append i (body.take (bodyRoom name)), k') ∧
      k'.stream = body.drop (bodyRoom name) ∧ k'.closed = false ∧
      (n < (body.take (bodyRoom name)).length → Replying (some .badFileSize) k') ∧
      (n = (body.take (bodyRoom name)).length → Replying none k') ∧
      ((body.take (bodyRoom name)).length < n → Uploading (path C name) i n (body.take (bodyRoom name)).length k') := by
  rcases putStream_block n body hv with ⟨hblock, hdrop⟩
  have hlen : ((putStream name n body).take dataSize).length =
      name.length + 5 + 8 + (body.take (bodyRoom name)).length := by
    rw [hblock, List.length_append, List.length_append, putLine_length, Bytes.leEncode_length, Nat.add_assoc (_ + _)]
  have hfit : ((putStream name n body).take dataSize).length ≤ dataSize := by
    rw [List.length_take]
    exact Nat.min_le_left _ _
  have hload := Bytes.load_store (m := b) (a := 0) (b := name.length + 5 + 8)
    (l := (putStream name n body).take dataSize) (n := (body.take (bodyRoom name)).length) (by omega)
  have hbody : ((putStream name n body).take dataSize).drop (name.length + 5 + 8) = body.take (bodyRoom name) := by
    rw [hblock, ← List.append_assoc, List.drop_left']
    rw [List.length_append, putLine_length, Bytes.leEncode_length]
  rw [hbody, List.take_length, Nat.zero_add] at hload
  generalize hk : putConn C b name (putStream name n body) i .readingData (name.length + 5 + 8) n calls = k
  have hsize : k.client.bufferSize = name.length + 5 + 8 + (body.take (bodyRoom name)).length := by
    rw [← hk]
    exact hlen
  have hidle : receive k e.chunks = k := by
    apply if_neg
    rw [hsize, ← hk]
    rintro (⟨-, hempty⟩ | hverb)
    · omega
    · cases hverb
  have hpart := handle_part C fs (p := path C name) (i := i) (w := 0) (body.take (bodyRoom name)) hn hidle
    (by rw [← hk]; rfl) (by rw [← hk]; rfl) (by rw [← hk]; rfl) (by rw [← hk]; rfl) (by rw [← hk]; rfl)
    (by rw [← hk]; rfl)
    (by rw [← hk]; rfl) (by rw [← hk]; rfl) (Nat.zero_le _) (by rw [hsize, ← hk]; rfl) (by omega)
    (by rw [← hk]; exact hfit) (by rw [← hk]; exact hload) (by rw [← hk]; rfl)
  rw [Nat.zero_add, Nat.sub_zero, hv.remove] at hpart
  rw [← hdrop]
  have hstream : k.stream = (putStream name n body).drop dataSize ∧ k.closed = false := by
    rw [← hk]
    exact ⟨rfl, rfl⟩
  rw [hstream.1, hstream.2] at hpart
  obtain ⟨k', hhandle, hstream', hclosed, -, hcases⟩ := hpart
  exact ⟨k', hhandle, hstream', hclosed, hcases⟩

/-! ## To the end of the connection -/

def finished (s : Fs × Served) : Bool := s.2.gone || decide (s.2.conn.client.state = .complete)

def follow (C : Config) (s : Fs × Served) (o : Occurrence) : Option (Fs × Served) := occur C s.1 s.2 o

def reads (pos : Nat) (stream : Text) : List Occurrence → List (Nat × Nat)
  | .ready e :: os =>
    let next := pos + (got e.chunks stream).length
    (pos, next) :: reads next (stream.drop (got e.chunks stream).length) os
  | _ => []

/-- Where the reads of a PUT start and end, once it has come to writing to its file: the first block,
    read at the first event and written at the fourth, and what each later event would read. An
    event that reads nothing any more, as it answers, is counted as if it did. -/
def putReads (stream : Text) : List Occurrence → List (Nat × Nat)
  | .ready _ :: .ready _ :: .ready _ :: .ready _ :: os =>
    let first := (stream.take dataSize).length
    (0, first) :: reads first (stream.drop dataSize) os
  | _ => []

/-- What the reads come to, where the declared bytes end at `last`: the file is gone when no
    read ended there and one was empty or went past it, and then an ERROR is answered
    unless the connection hangs up. -/
structure Comes (C : Config) (name : Text) (last : Nat) (rs : List (Nat × Nat)) (os : List Occurrence) (fs : Fs)
    (k : Served) : Prop where
  file : fs.inode (path C name) = none ↔ (∀ r ∈ rs, r.2 ≠ last) ∧ ∃ r ∈ rs, r.1 = r.2 ∨ last < r.2
  answer : errorLine <+: k.conn.sent ↔ (∀ r ∈ rs, r.2 ≠ last) ∧ .hangup ∉ os
  removed : errorLine <+: k.conn.sent → fs.inode (path C name) = none

variable {input : Text} {os : List Occurrence} {s' : Fs × Served} {pos last : Nat} {stream : Text}

theorem upTo_finished {s : Fs × Served} (hs : finished s = true) (h : Run.upTo finished (follow C) os s = some s') :
    os = [] ∧ s' = s := by
  cases os with
  | nil =>
    rw [Run.upTo, if_pos hs] at h
    exact ⟨rfl, (Option.some.inj h).symm⟩
  | cons o os =>
    rw [Run.upTo, if_pos hs] at h
    cases h

/-- The first thing that happens to a connection that is not over. -/
theorem upTo_cases (hc : k.client.state ≠ .complete)
    (h : Run.upTo finished (follow C) os (fs, ⟨k, input, false⟩) = some s') :
    (os = [.hangup] ∧ s' = (fs, ⟨k, input, true⟩)) ∨ ∃ e os' fs₁ k₁, os = .ready e :: os' ∧
      handleClientRequest C (fs, k) e = some (fs₁, k₁) ∧
      Run.upTo finished (follow C) os' (fs₁, ⟨k₁, input, false⟩) = some s' := by
  have hnot : finished (fs, ⟨k, input, false⟩) = false := by
    unfold finished
    simpa using hc
  cases os with
  | nil =>
    rw [Run.upTo, hnot] at h
    cases h
  | cons o os =>
    rw [Run.upTo, hnot] at h
    rcases Option.bind_eq_some_iff.mp h with ⟨s₁, hstep, hrest⟩
    rcases occur_cases hstep with ⟨-, ⟨e, conn, rfl, hhandle, hs₁⟩ | ⟨rfl, hfs, hs₁⟩⟩
    · exact Or.inr ⟨e, os, s₁.1, conn, rfl, hhandle, by rw [← hs₁]; exact hrest⟩
    · apply Or.inl
      have hs₁' : s₁ = (fs, ⟨k, input, true⟩) := Prod.ext hfs hs₁
      rcases upTo_finished (by rw [hs₁']; rfl) hrest with ⟨rfl, rfl⟩
      exact ⟨rfl, hs₁'⟩

theorem error_answered {sends : List Send} {text : Text} (h : sends = [.status (errorLine ++ text)]) :
    errorLine <+: sentBy sends := by
  rw [h, sentBy_cons, sentBy_nil, List.append_nil]
  exact List.prefix_append _ _

/-- An error is answered unless the connection hangs up. -/
theorem Replying.refuses (h : Replying (some .badFileSize) k)
    (hrun : Run.upTo finished (follow C) os (fs, ⟨k, input, false⟩) = some s') :
    s'.1 = fs ∧ (errorLine <+: s'.2.conn.sent ↔ .hangup ∉ os) := by
  rcases upTo_cases (by rw [h.state]; decide) hrun with ⟨rfl, rfl⟩ | ⟨e, os', fs₁, k₁, rfl, hhandle, hrest⟩
  · refine ⟨rfl, iff_of_false ?_ (by simp)⟩
    show ¬ errorLine <+: sentBy k.sends
    rw [h.sends]
    decide
  · rw [handle_process (by rw [h.state]; decide) (by rw [h.state]; simp)] at hhandle
    simp only [processRequest, writeResponse, h.state, h.errorType, h.sends, List.nil_append, Option.map_some,
      Option.some.injEq, Prod.mk.injEq] at hhandle
    rcases hhandle with ⟨rfl, rfl⟩
    rcases upTo_finished rfl hrest with ⟨rfl, rfl⟩
    exact ⟨rfl, iff_of_true (error_answered rfl) (by simp)⟩

/-- Nothing but OK is answered. -/
theorem Replying.accepts (h : Replying none k) (hrun : Run.upTo finished (follow C) os (fs, ⟨k, input, false⟩) =
    some s') :
    s'.1 = fs ∧ ¬ errorLine <+: s'.2.conn.sent := by
  rcases upTo_cases (by rw [h.state]; decide) hrun with ⟨rfl, rfl⟩ | ⟨e, os', fs₁, k₁, rfl, hhandle, hrest⟩
  · refine ⟨rfl, ?_⟩
    show ¬ errorLine <+: sentBy k.sends
    rw [h.sends]
    decide
  · rw [handle_process (by rw [h.state]; decide) (by rw [h.state]; simp)] at hhandle
    simp only [processRequest, writeResponse, h.state, h.errorType, h.method, h.sends, List.nil_append, Option.map_some,
      Option.some.injEq, Prod.mk.injEq] at hhandle
    rcases hhandle with ⟨rfl, rfl⟩
    rcases upTo_finished rfl hrest with ⟨rfl, rfl⟩
    refine ⟨rfl, ?_⟩
    show ¬ errorLine <+: sentBy [.status (okLine ++ [0])]
    rw [sentBy_cons, sentBy_nil]
    decide

/-! ## The reads -/

theorem reads_le {r : Nat × Nat} (hr : r ∈ reads pos stream os) : pos ≤ r.1 ∧ r.1 ≤ r.2 := by
  induction os generalizing pos stream with
  | nil => cases hr
  | cons o os ih =>
    cases o with
    | hangup => cases hr
    | ready e =>
      rcases List.mem_cons.mp hr with rfl | hr
      · exact ⟨Nat.le_refl _, Nat.le_add_right _ _⟩
      · have h := ih hr
        exact ⟨Nat.le_trans (Nat.le_add_right _ _) h.1, h.2⟩

theorem reads_ended {r : Nat × Nat} (hr : r ∈ reads pos [] os) : r.2 = pos := by
  induction os generalizing pos with
  | nil => cases hr
  | cons o os ih =>
    cases o with
    | hangup => cases hr
    | ready e =>
      have hgot : got e.chunks [] = [] := (List.append_eq_nil_iff.mp (got_append e.chunks []).1).1
      unfold reads at hr
      rw [hgot, List.length_nil, Nat.add_zero, List.drop_nil] at hr
      rcases List.mem_cons.mp hr with rfl | hr
      · rfl
      · exact ih hr

variable {rs : List (Nat × Nat)} {k' : Served}

/-- A read that shows the wrong size, and no read after it ends at the declared end. -/
theorem Comes.refused {r : Nat × Nat} (hr : r.1 = r.2 ∨ last < r.2) (hne : r.2 ≠ last) (hrs : ∀ r' ∈ rs, r'.2 ≠ last)
    (hfile : fs'.inode (path C name) = none) (hanswer : errorLine <+: k'.conn.sent ↔ .hangup ∉ os) :
    Comes C name last (r :: rs) os fs' k' := by
  have hall : ∀ r' ∈ r :: rs, r'.2 ≠ last := List.forall_mem_cons.mpr ⟨hne, hrs⟩
  exact ⟨iff_of_true hfile ⟨hall, r, List.mem_cons_self, hr⟩, hanswer.trans (and_iff_right hall).symm, fun _ => hfile⟩

/-- A read that ends at the declared end. -/
theorem Comes.accepted {r : Nat × Nat} (hr : r.2 = last) (hfile : fs'.inode (path C name) ≠ none)
    (hanswer : ¬ errorLine <+: k'.conn.sent) : Comes C name last (r :: rs) os fs' k' :=
  ⟨iff_of_false hfile fun h => h.1 r List.mem_cons_self hr, iff_of_false hanswer fun h => h.1 r List.mem_cons_self hr,
    fun h => absurd h hanswer⟩

/-- A read before that. -/
theorem Comes.later {r : Nat × Nat} {o : Occurrence} (hr : r.2 < last) (hsome : r.1 ≠ r.2) (ho : o ≠ .hangup)
    (h : Comes C name last rs os fs' k') : Comes C name last (r :: rs) (o :: os) fs' k' := by
  have hall : (∀ r' ∈ r :: rs, r'.2 ≠ last) ↔ ∀ r' ∈ rs, r'.2 ≠ last := by
    rw [List.forall_mem_cons]
    exact and_iff_right (Nat.ne_of_lt hr)
  have hhang : Occurrence.hangup ∉ o :: os ↔ .hangup ∉ os := by
    rw [List.mem_cons, not_or]
    exact and_iff_right (Ne.symm ho)
  have hsees : (∃ r' ∈ r :: rs, r'.1 = r'.2 ∨ last < r'.2) ↔ ∃ r' ∈ rs, r'.1 = r'.2 ∨ last < r'.2 := by
    rw [List.exists_mem_cons_iff]
    apply or_iff_right
    rintro (he | hlt)
    · exact hsome he
    · omega
  exact ⟨by rw [hall, hsees]; exact h.file, by rw [hall, hhang]; exact h.answer, h.removed⟩

theorem Comes.congr {os' : List Occurrence} (hos : Occurrence.hangup ∈ os' ↔ .hangup ∈ os)
    (h : Comes C name last rs os fs' k') : Comes C name last rs os' fs' k' :=
  ⟨h.file, by rw [hos]; exact h.answer, h.removed⟩

/-- A connection that hangs up with its file there and nothing sent. -/
theorem Comes.hungUp (hfile : fs.inode (path C name) ≠ none) (hs : k'.conn.sends = []) (hos : .hangup ∈ os) :
    Comes C name last [] os fs k' := by
  have hsent : ¬ errorLine <+: k'.conn.sent := by
    unfold Conn.sent
    rw [hs]
    decide
  refine ⟨iff_of_false hfile ?_, iff_of_false hsent fun h => h.2 hos, fun h => absurd h hsent⟩
  intro ⟨_, r, hr, _⟩
  cases hr

/-- What a write and a removal leave. -/
theorem inode_written (i : Nat) (data : Text) (h : fs.inode (path C name) ≠ none) (b : Prop) [Decidable b]
    (data' : Text) :
    (if b then (fs.append i data').remove (path C name) else fs.append i data).inode (path C name) = none ↔ b := by
  by_cases hb : b
  · rw [if_pos hb]
    exact iff_of_true (by rw [inode_remove, if_pos rfl]) hb
  · rw [if_neg hb]
    exact iff_of_false h hb

/-- An upload, from here to the end of the connection. -/
theorem Uploading.comes (header : Nat) (h : Uploading (path C name) i n w k) (hv : FileName name) (hn : n < wordSize)
    (hw : w < n) (hfile : fs.inode (path C name) ≠ none)
    (hrun : Run.upTo finished (follow C) os (fs, ⟨k, input, false⟩) = some s') :
    Comes C name (header + n) (reads (header + w) k.stream os) os s'.1 s'.2 := by
  induction os generalizing fs k w with
  | nil =>
    rcases upTo_cases (by rw [h.state]; decide) hrun with ⟨hos, -⟩ | ⟨e, os', fs₁, k₁, hos, -⟩
    · cases hos
    · cases hos
  | cons o os ih =>
    rcases upTo_cases (by rw [h.state]; decide) hrun with ⟨hos, rfl⟩ | ⟨e, os', fs₁, k₁, hos, hhandle, hrest⟩
    · cases hos
      exact .hungUp hfile h.sends (by simp)
    cases hos
    unfold reads
    by_cases hgot : got e.chunks k.stream = []
    · -- the end of the stream
      rcases h.ended C fs hgot with ⟨k₂, hended, -, -, -, hreply⟩
      rw [hv.remove] at hended
      cases hhandle.symm.trans hended
      rcases hreply.refuses hrest with ⟨hfs, hanswer⟩
      rw [hgot, List.length_nil, Nat.add_zero, List.drop_zero, got_nil hgot]
      refine .refused (Or.inl rfl) (by dsimp only; omega) ?_ ?_ ?_
      · intro r hr
        rw [reads_ended hr]
        omega
      · rw [hfs, inode_remove, if_pos rfl]
      · rw [hanswer]
        simp
    · rcases h.next C fs hn (Nat.le_of_lt hw) hgot with ⟨k₂, hnext, hstream, -, -, hmore, hlast, hless⟩
      rw [hv.remove] at hnext
      cases hhandle.symm.trans hnext
      have hpos := List.length_pos_iff.mpr hgot
      have hinode := inode_written i (got e.chunks k.stream) hfile
        (n < w + (got e.chunks k.stream).length) ((got e.chunks k.stream).take (n - w))
      rcases Nat.lt_trichotomy n (w + (got e.chunks k.stream).length) with hlt | heq | hgt
      · rcases (hmore hlt).refuses hrest with ⟨hfs, hanswer⟩
        refine .refused (Or.inr ?_) ?_ ?_ ?_ ?_
        · dsimp only
          omega
        · dsimp only
          omega
        · intro r hr
          have hle := reads_le hr
          omega
        · rw [hfs]
          exact hinode.mpr hlt
        · rw [hanswer]
          simp
      · rcases (hlast heq).accepts hrest with ⟨hfs, hanswer⟩
        refine .accepted (by dsimp only; omega) ?_ hanswer
        rw [hfs]
        intro hnone
        exact absurd (hinode.mp hnone) (by omega)
      · refine .later (by dsimp only; omega) (by dsimp only; omega) (by intro h; cases h) ?_
        have hrest' := ih (hless hgt) hgt (fun hnone => absurd (hinode.mp hnone) (by omega)) hrest
        rw [hstream, ← Nat.add_assoc] at hrest'
        exact hrest'

/-! ## A PUT -/

theorem firstRead_place (b : Mem) (stream : Text) :
    (firstRead b stream).client.state.place = 1 ∨ (firstRead b stream).client.state = .writingResponse :=
  readVerb_orderly.imp_right And.left

theorem firstRead_state (b : Mem) (stream : Text) : (firstRead b stream).client.state ≠ .complete := by
  intro hc
  rcases firstRead_place b stream with hplace | hstate
  · rw [hc] at hplace
    cases hplace
  · cases hc.symm.trans hstate

theorem inode_create : (fs.create (path C name)).1.inode (path C name) ≠ none := by
  rw [(create_spec fs (path C name)).inode, if_pos rfl]
  intro h
  cases h

/-- From the event that writes the first of the body on. -/
theorem put_written {b : Mem} {body : Text} {calls : List FileCall} {e : Event} {fs₁ : Fs} {k₁ : Conn}
    (hv : FileName name) (hn : n < wordSize) (hfile : fs.inode (path C name) ≠ none)
    (hhandle : handleClientRequest C
      (fs, putConn C b name (putStream name n body) i .readingData (name.length + 5 + 8) n calls) e = some (fs₁, k₁))
    (hrun : Run.upTo finished (follow C) os (fs₁, ⟨k₁, input, false⟩) = some s') (e₁ e₂ e₃ : Event) :
    Comes C name (name.length + 5 + 8 + n) (putReads (putStream name n body) (.ready e₁ :: .ready e₂ :: .ready e₃ ::
      .ready e :: os)) (.ready e₁ :: .ready e₂ :: .ready e₃ :: .ready e :: os) s'.1 s'.2 := by
  rcases putStream_block n body hv with ⟨hblock, hdrop⟩
  have hlen : ((putStream name n body).take dataSize).length =
      name.length + 5 + 8 + (body.take (bodyRoom name)).length := by
    rw [hblock, List.length_append, List.length_append, putLine_length, Bytes.leEncode_length, Nat.add_assoc (_ + _)]
  rcases handle_put_first C fs i b body e calls hv hn with
    ⟨k₂, hfirst, hstream, -, hmore, hlast, hless⟩
  cases hhandle.symm.trans hfirst
  have hinode := inode_written i (body.take (bodyRoom name)) hfile (n < (body.take (bodyRoom name)).length)
    ((body.take (bodyRoom name)).take n)
  unfold putReads
  rw [hlen, hdrop]
  dsimp only
  rcases Nat.lt_trichotomy n (body.take (bodyRoom name)).length with hlt | heq | hgt
  · rcases (hmore hlt).refuses hrun with ⟨hfs, hanswer⟩
    refine .refused (Or.inr ?_) ?_ ?_ ?_ ?_
    · dsimp only
      omega
    · dsimp only
      omega
    · intro r hr
      have hle := reads_le hr
      omega
    · rw [hfs]
      exact hinode.mpr hlt
    · rw [hanswer]
      simp
  · rcases (hlast heq).accepts hrun with ⟨hfs, hanswer⟩
    refine .accepted (by dsimp only; omega) ?_ hanswer
    rw [hfs]
    intro hnone
    exact absurd (hinode.mp hnone) (by omega)
  · have hrest := (hless hgt).comes (name.length + 5 + 8) hv hn hgt
      (fun hnone => absurd (hinode.mp hnone) (by omega)) hrun
    rw [hstream] at hrest
    have hready : ∀ e : Event, Occurrence.ready e ≠ .hangup := by intro e h; cases h
    refine .congr ?_ (.later (by dsimp only; omega) (by dsimp only; omega) (hready e) hrest)
    simp

theorem put_comes {b : Mem} {body : Text} (hv : FileName name) (hn : n < wordSize)
    (hrun : Run.upTo finished (follow C) os (fs, ⟨newConnection b (putStream name n body), input, false⟩) = some s') :
    (os.length ≤ 2 ∧ .hangup ∈ os ∧ s'.1 = fs ∧ s'.2.conn.sends = [] ∧ putReads (putStream name n body) os = []) ∨
    2 < os.length ∧ Comes C name (name.length + 5 + 8 + n) (putReads (putStream name n body) os) os s'.1 s'.2 := by
  rcases upTo_cases (by intro h; cases h) hrun with ⟨rfl, rfl⟩ | ⟨e₁, os₁, fs₁, k₁, rfl, hverb, hrun₁⟩
  · exact Or.inl ⟨by decide, by simp, rfl, rfl, rfl⟩
  cases hverb.symm.trans handle_first
  rcases upTo_cases (firstRead_state b _) hrun₁ with ⟨rfl, rfl⟩ | ⟨e₂, os₂, fs₂, k₂, rfl, hname, hrun₂⟩
  · exact Or.inl ⟨by simp, by simp, rfl, rfl, rfl⟩
  apply Or.inr
  rcases handle_put_name C fs b n body e₂ hv with ⟨calls, hname'⟩
  cases hname.symm.trans hname'
  rcases upTo_cases (by intro h; cases h) hrun₂ with ⟨rfl, rfl⟩ | ⟨e₃, os₃, fs₃, k₃, rfl, hsize, hrun₃⟩
  · exact ⟨by simp, .hungUp inode_create rfl (by simp)⟩
  cases hsize.symm.trans (handle_put_size hv hn)
  rcases upTo_cases (by intro h; cases h) hrun₃ with ⟨rfl, rfl⟩ | ⟨e₄, os₄, fs₄, k₄, rfl, hpart, hrun₄⟩
  · exact ⟨by simp, .hungUp inode_create rfl (by simp)⟩
  · exact ⟨by simp, put_written hv hn inode_create hpart hrun₄ e₁ e₂ e₃⟩

/-! ## Every connection comes to its end -/

theorem ends_of_handle (hc : k.client.state ≠ .complete) (h : ∀ e, ∃ fs₁ k₁,
    handleClientRequest C (fs, k) e = some (fs₁, k₁) ∧
      Run.Ends finished (follow C) (fun _ => True) (fs₁, ⟨k₁, input, false⟩)) :
    Run.Ends finished (follow C) (fun _ => True) (fs, ⟨k, input, false⟩) := by
  apply Run.Ends.of_step (by unfold finished; simpa using hc)
  intro o
  cases o with
  | ready e =>
    rcases h e with ⟨fs₁, k₁, hhandle, hends⟩
    refine ⟨_, ?_, hends⟩
    unfold follow occur
    rw [if_neg (by intro h; cases h)]
    dsimp only
    rw [hhandle]
    rfl
  | hangup => exact ⟨(fs, ⟨k, input, true⟩), rfl, .done rfl trivial⟩

theorem Replying.ends {error : Option ErrorType} (h : Replying error k) :
    Run.Ends finished (follow C) (fun _ => True) (fs, ⟨k, input, false⟩) := by
  apply ends_of_handle (by rw [h.state]; decide)
  intro e
  rw [handle_process (by rw [h.state]; decide) (by rw [h.state]; simp)]
  cases error with
  | none =>
    simp only [processRequest, writeResponse, h.state, h.errorType, h.method, Option.map_some]
    exact ⟨_, _, rfl, .done rfl trivial⟩
  | some t =>
    simp only [processRequest, writeResponse, h.state, h.errorType, Option.map_some]
    exact ⟨_, _, rfl, .done rfl trivial⟩

theorem Uploading.ends (h : Uploading (path C name) i n w k) (hn : n < wordSize) (hw : w < n) :
    Run.Ends finished (follow C) (fun _ => True) (fs, ⟨k, input, false⟩) := by
  generalize hlen : k.stream.length = len
  induction len using Nat.strongRecOn generalizing fs k w with
  | _ len ih =>
    apply ends_of_handle (by rw [h.state]; decide)
    intro e
    by_cases hgot : got e.chunks k.stream = []
    · rcases h.ended C fs hgot with ⟨k₁, hended, -, -, -, hreply⟩
      exact ⟨_, k₁, hended, hreply.ends⟩
    · rcases h.next C fs hn (Nat.le_of_lt hw) hgot with ⟨k₁, hnext, hstream, -, -, hmore, hlast, hless⟩
      refine ⟨_, k₁, hnext, ?_⟩
      rcases Nat.lt_trichotomy n (w + (got e.chunks k.stream).length) with hlt | heq | hgt
      · exact (hmore hlt).ends
      · exact (hlast heq).ends
      · have hpos := List.length_pos_iff.mpr hgot
        have hle := congrArg List.length (got_append e.chunks k.stream).1
        rw [List.length_append] at hle
        refine ih k₁.stream.length ?_ (hless hgt) hgt rfl
        rw [hstream]
        omega

theorem put_finishes {b : Mem} {body : Text} (hv : FileName name) (hn : n < wordSize) :
    Run.Ends finished (follow C) (fun _ => True) (fs, ⟨newConnection b (putStream name n body), input, false⟩) := by
  refine ends_of_handle (by intro h; cases h) fun e => ⟨_, _, handle_first, ?_⟩
  refine ends_of_handle (firstRead_state b _) fun e => ?_
  rcases handle_put_name C fs b n body e hv with ⟨calls, hname⟩
  refine ⟨_, _, hname, ends_of_handle (by intro h; cases h) fun e => ⟨_, _, handle_put_size hv hn, ?_⟩⟩
  refine ends_of_handle (by intro h; cases h) fun e => ?_
  rcases handle_put_first C (fs.create (path C name)).1 (fs.create (path C name)).2 b body e calls hv hn with
    ⟨k₁, hfirst, -, -, hmore, hlast, hless⟩
  refine ⟨_, k₁, hfirst, ?_⟩
  rcases Nat.lt_trichotomy n (body.take (bodyRoom name)).length with hlt | heq | hgt
  · exact (hmore hlt).ends
  · exact (hlast heq).ends
  · exact (hless hgt).ends hn hgt

/-! ## Refused or not -/

def Refused (C : Config) (name : Text) (s : Fs × Served) : Prop :=
  errorLine <+: s.2.conn.sent ∧ s.1.inode (path C name) = none

/-- After a complete header a PUT is refused exactly when the connection is not reset and no read ends
    at the end of the declared bytes. No file remains, reset or not, exactly when no read
    ends there and the size was seen to be wrong, or the reset came before the file was
    opened and there was none. Whatever happens, the connection comes to an end. -/
theorem refused_iff (C : Config) (fs : Fs) (b : Mem) {name : Text} {n : Nat} (body : Text) (hv : FileName name)
    (hn : n < wordSize) :
    (∀ os s', Run.upTo finished (follow C) os
        (fs, ⟨newConnection b (putStream name n body), putStream name n body, false⟩) = some s' →
      (Refused C name s' ↔
        .hangup ∉ os ∧ ∀ r ∈ putReads (putStream name n body) os, r.2 ≠ name.length + 5 + 8 + n) ∧
      (s'.1.inode (path C name) = none ↔
        ((∀ r ∈ putReads (putStream name n body) os, r.2 ≠ name.length + 5 + 8 + n) ∧
          ∃ r ∈ putReads (putStream name n body) os, r.1 = r.2 ∨ name.length + 5 + 8 + n < r.2) ∨
        os.length ≤ 2 ∧ fs.inode (path C name) = none)) ∧
    ∀ g : Nat → Occurrence, ∃ m s', Run.upTo finished (follow C) ((List.range m).map g)
      (fs, ⟨newConnection b (putStream name n body), putStream name n body, false⟩) = some s' := by
  refine ⟨?_, (put_finishes hv hn).total⟩
  intro os s' hrun
  rcases put_comes hv hn hrun with ⟨hshort, hhang, hfs, hsends, hreads⟩ | ⟨hlong, hcomes⟩
  · refine ⟨iff_of_false ?_ fun h => h.1 hhang, ?_⟩
    · intro ⟨hanswer, _⟩
      unfold Conn.sent at hanswer
      rw [hsends] at hanswer
      revert hanswer
      decide
    · rw [hfs, hreads]
      constructor
      · exact fun h => Or.inr ⟨hshort, h⟩
      · rintro (⟨-, r, hr, -⟩ | ⟨-, h⟩)
        · cases hr
        · exact h
  · refine ⟨?_, ?_⟩
    · unfold Refused
      rw [and_iff_left_of_imp hcomes.removed, hcomes.answer]
      exact and_comm
    · rw [hcomes.file]
      exact (or_iff_left fun h => absurd h.1 (by omega)).symm

theorem refused_iff_short : ∃ s', Run.upTo finished (follow sampleConfig) (List.replicate 6 (.ready anyEvent))
      (Fs.empty, ⟨newConnection (fun _ => 0) (putStream (ascii ['a']) 3 (ascii ['x', 'y'])),
        putStream (ascii ['a']) 3 (ascii ['x', 'y']), false⟩) = some s' ∧ Refused sampleConfig (ascii ['a']) s' := by
  have hv : FileName (ascii ['a']) := by constructor <;> decide
  have hrun : (Run.upTo finished (follow sampleConfig) (List.replicate 6 (.ready anyEvent)) (Fs.empty,
      ⟨newConnection (fun _ => 0) (putStream (ascii ['a']) 3 (ascii ['x', 'y'])),
        putStream (ascii ['a']) 3 (ascii ['x', 'y']), false⟩)).isSome := by decide +kernel
  rcases Option.isSome_iff_exists.mp hrun with ⟨s', hs⟩
  refine ⟨s', hs, ((refused_iff sampleConfig Fs.empty (fun _ => 0) (ascii ['x', 'y']) hv (n := 3) (by decide)).1 _ s'
    hs).1.mpr ⟨?_, by decide +kernel⟩⟩
  intro h
  cases List.eq_of_mem_replicate h

/-- The declared bytes end with the first block: one byte more is not noticed, and the file stays. A
    reset leaves what there is. -/
theorem excess_accepted :
    (Run.upTo finished (follow sampleConfig) (List.replicate 5 (.ready anyEvent)) (Fs.empty,
      ⟨newConnection (fun _ => 0) (putStream (ascii ['a']) 1010 (List.replicate 1011 120)),
        putStream (ascii ['a']) 1010 (List.replicate 1011 120), false⟩)).map
      (fun s => (s.2.conn.sends, s.1.inode (path sampleConfig (ascii ['a'])))) =
        some ([.status (okLine ++ [0])], some 0) ∧
    (Run.upTo finished (follow sampleConfig) (List.replicate 4 (.ready anyEvent) ++ [.hangup]) (Fs.empty,
      ⟨newConnection (fun _ => 0) (putStream (ascii ['a']) 3 (ascii ['x', 'y'])),
        putStream (ascii ['a']) 3 (ascii ['x', 'y']), false⟩)).map
      (fun s => (s.2.conn.sends, s.1.inode (path sampleConfig (ascii ['a'])))) = some ([], some 0) := by
  refine ⟨?_, ?_⟩
  · decide +kernel
  · decide +kernel

end SysProg.Net
