/-
  SysProg.Net.Headers — which headers are taken for requests, and what they name.

  `process_request` compares the start of the buffer with the verbs, steps over the byte
  that comes next, and takes all up to a newline for the name. What it comes to (`Parses`)
  is compared with the format of the client's requests (`IsRequest`): a verb, one space, and a
  name that ends with a newline. `reads_format_iff`: they agree exactly on the headers in which the
  byte after the verb is the right one, the name is not empty and fits into the array
  for the path, and the search for the newline stays in the buffer (`PlainLines`).

  The name is used as it is. `stays_inside_iff`: a connection is refused as a bad request, or
  uses no path but that of a file directly in the directory, exactly when the name is one component
  that fits (`OwnName`).
-/

import SysProg.Net.Determined
import SysProg.Net.FileMap
import SysProg.Net.Poll

namespace SysProg.Net

open SysProg.Bytes (Mem load store load_add mem_load)

/-! ## The line -/

variable {C : Config} {fs fs' : Fs} {c c' : Client} {k k' : Conn} {m : Mem} {ch : UInt8} {left a x n : Nat} {v w : Verb}
  {name s t : Text}

theorem strchr_found (h : strchr m ch left a = some (some x)) :
    ∃ n, n < left ∧ x = a + n ∧ m (a + n) = ch ∧ ch ∉ load m a n ∧ (ch ≠ 0 → 0 ∉ load m a n) := by
  induction left generalizing a with
  | zero => cases h
  | succ left ih =>
    unfold strchr at h
    by_cases hch : m a = ch
    · rw [if_pos hch] at h
      cases h
      exact ⟨0, Nat.succ_pos left, rfl, hch, List.not_mem_nil, fun _ => List.not_mem_nil⟩
    rw [if_neg hch] at h
    by_cases h0 : m a = 0
    · rw [if_pos h0] at h
      cases h
    rw [if_neg h0] at h
    rcases ih h with ⟨n, hn, hx, hat, hno, hnul⟩
    have hload : load m a (n + 1) = m a :: load m (a + 1) n := by
      rw [Nat.add_comm n 1, load_add]
      rfl
    refine ⟨n + 1, Nat.succ_lt_succ hn, by omega, by rw [← hat]; congr 1; omega, ?_, ?_⟩
    · rw [hload]
      exact fun hmem => (List.mem_cons.mp hmem).elim (fun e => hch e.symm) hno
    · intro hne
      rw [hload]
      exact fun hmem => (List.mem_cons.mp hmem).elim (fun e => h0 e.symm) (hnul hne)

theorem startsWith_append : startsWith m (s ++ t) = true ↔ startsWith m s = true ∧ load m s.length t.length = t := by
  unfold startsWith
  rw [beq_iff_eq, beq_iff_eq, List.length_append, load_add, Nat.zero_add]
  constructor
  · intro h
    exact List.append_inj h Bytes.load_length
  · intro ⟨hs, ht⟩
    rw [hs, ht]

theorem load_one (m : Mem) (a : Nat) : load m a 1 = [m a] := rfl

/-! ## The format of requests -/

structure IsRequest (v : Verb) (name : Text) (m : Mem) : Prop where
  starts : startsWith m (requestLine v.text name) = true
  received : (requestLine v.text name).length ≤ dataSize
  ne : name ≠ []
  noNewline : newline ∉ name
  noNul : 0 ∉ name

def listLine : Text := ascii ['L', 'I', 'S', 'T'] ++ [newline]

theorem startsWith_requestLine : startsWith m (requestLine v.text name) = true ↔ startsWith m v.text = true ∧
    m v.text.length = 32 ∧ load m (v.text.length + 1) name.length = name ∧
    m (v.text.length + 1 + name.length) = newline := by
  have hspace : ascii [' '] = [32] := rfl
  unfold requestLine
  simp only [startsWith_append, List.length_append, hspace, List.length_singleton, load_one, List.singleton_inj,
    and_assoc]

theorem length_requestLine (v : Verb) (name : Text) :
    (requestLine v.text name).length = v.text.length + 1 + name.length + 1 := by
  unfold requestLine
  rw [List.length_append, List.length_append, List.length_append]
  rfl

/-- Where the line of a verb ends, when its name starts one byte after it. -/
def lineEnd (v : Verb) (m : Mem) : Option (Option Nat) :=
  strchr m newline (dataSize - (v.text.length + 1)) (v.text.length + 1)

/-- The line that a request has is the one that the search finds. -/
theorem IsRequest.found (h : IsRequest v name m) :
    lineEnd v m = some (some (v.text.length + 1 + name.length)) := by
  rcases startsWith_requestLine.mp h.starts with ⟨-, -, hname, hline⟩
  have hfit : v.text.length + 1 + name.length + 1 ≤ dataSize := by
    rw [← length_requestLine]
    exact h.received
  apply strchr_spec (by omega) hline
  intro i hi
  have hmem : m (v.text.length + 1 + i) ∈ name := by
    rw [← hname]
    exact mem_load.mpr ⟨i, hi, rfl⟩
  exact ⟨fun e => h.noNewline (e ▸ hmem), fun e => h.noNul (e ▸ hmem)⟩

/-- A line that is found is a request when it starts as one. -/
theorem isRequest_iff (hv : startsWith m v.text = true) (hn : n < dataSize - (v.text.length + 1))
    (hfound : lineEnd v m = some (some (v.text.length + 1 + n))) :
    IsRequest v name m ↔ name = load m (v.text.length + 1) n ∧ m v.text.length = 32 ∧ 0 < n := by
  rcases strchr_found hfound with ⟨n', -, hx, hline, hno, hnul⟩
  have hn' : n' = n := by omega
  subst hn'
  constructor
  · intro h
    have hlen := Option.some.inj (Option.some.inj (hfound.symm.trans h.found))
    rcases startsWith_requestLine.mp h.starts with ⟨-, hspace, hname, -⟩
    have hlen' : name.length = n' := by omega
    rw [hlen'] at hname
    have hpos := List.length_pos_iff.mpr h.ne
    exact ⟨hname.symm, hspace, by omega⟩
  · rintro ⟨rfl, hspace, hpos⟩
    refine ⟨startsWith_requestLine.mpr ⟨hv, hspace, ?_, ?_⟩, ?_, ?_, hno, hnul (by decide)⟩
    · rw [Bytes.load_length]
    · rw [Bytes.load_length]
      exact hline
    · rw [length_requestLine, Bytes.load_length]
      omega
    · intro hnil
      have hlen := congrArg List.length hnil
      rw [Bytes.load_length, List.length_nil] at hlen
      omega

/-! ## What a header is taken for -/

inductive Parsed where
  | request (v : Verb) (name : Text)
  | list
  | badRequest

def opening (path : Text) : Verb → Option FileCall
  | .put => some (.fopenWb path)
  | .get => some (.fopenRb path)
  | .delete => some (.access path)
  | _ => none

/-- The turn of READING_VERB of a client, and for a verb with a name the one of
    READING_FILENAME, come to this. The path of a name has to fit into `filename`. -/
def Parses (C : Config) (c : Client) : Parsed → Prop
  | .request v name => (readVerb c).state = .readingFilename ∧ (readVerb c).method = v ∧
      (path C name).length < maxDirname ∧ ∀ fs, (fileCalls C fs (readVerb c)).head? = opening (path C name) v
  | .list => (readVerb c).state = .writingResponse ∧ (readVerb c).errorType = none ∧ (readVerb c).method = .list
  | .badRequest => ((readVerb c).state = .writingResponse ∧ (readVerb c).errorType = some .badRequest) ∨
      (readVerb c).state = .readingFilename ∧ ∀ fs e, fileCalls C fs (readVerb c) = [] ∧
        ∃ c', processRequest C fs (readVerb c) e = some (fs, c', []) ∧ c'.state = .writingResponse ∧
          c'.errorType = some .badRequest

structure ReadsFormat (C : Config) (c : Client) : Prop where
  request : ∀ v : Verb, v.named → ∀ name, Parses C c (.request v name) ↔ IsRequest v name c.buffer
  list : Parses C c .list ↔ startsWith c.buffer listLine = true
  badRequest : Parses C c .badRequest ↔
    (¬ ∃ v : Verb, v.named ∧ ∃ name, IsRequest v name c.buffer) ∧ ¬ startsWith c.buffer listLine = true

/-- A verb that takes a name is followed, before any newline in what is left of the buffer, by a
    NUL, or by a space and a name that fits; and `LIST` by a newline. -/
structure PlainLines (m : Mem) : Prop where
  named : ∀ v : Verb, v.named → startsWith m v.text = true → ∃ line, lineEnd v m = some line ∧
    ∀ a, line = some a → m v.text.length = 32 ∧ v.text.length + 1 < a ∧ a ≤ v.text.length + 1 + 257
  list : startsWith m Verb.list.text = true → m 4 = newline

def filled (m : Mem) (received : Nat) : Client := ⟨.unknown, [], none, 0, .readingVerb, m, received, 0, 0, none⟩

theorem startsWith_listLine : startsWith m listLine = true ↔ startsWith m Verb.list.text = true ∧ m 4 = newline := by
  unfold listLine
  rw [startsWith_append, List.length_singleton, load_one, List.singleton_inj]
  rfl

theorem IsRequest.verb (h : IsRequest v name m) : startsWith m v.text = true := (startsWith_requestLine.mp h.starts).1

/-- No verb: refused at once. -/
theorem readsFormat_none (hno : ∀ v : Verb, v ≠ .unknown → ¬ startsWith c.buffer v.text = true) :
    ReadsFormat C c ∧ PlainLines c.buffer := by
  have hbad := readVerb_bad hno
  refine ⟨⟨?_, ?_, ?_⟩, ⟨fun v hv hs => absurd hs (hno v hv.ne.1), fun hs => absurd hs (hno .list (by decide))⟩⟩
  · intro v hv name
    refine ⟨?_, fun h => absurd h.verb (hno v hv.ne.1)⟩
    intro ⟨hstate, _⟩
    rw [hbad] at hstate
    cases hstate
  · refine ⟨?_, fun h => absurd (startsWith_listLine.mp h).1 (hno .list (by decide))⟩
    intro ⟨_, herror, _⟩
    rw [hbad] at herror
    cases herror
  · refine ⟨fun _ => ⟨?_, fun h => absurd (startsWith_listLine.mp h).1 (hno .list (by decide))⟩, fun _ => ?_⟩
    · intro ⟨v, hv, name, h⟩
      exact hno v hv.ne.1 h.verb
    · apply Or.inl
      rw [hbad]
      exact ⟨rfl, rfl⟩

theorem readsFormat_list (hc : c.errorType = none) (hs : startsWith c.buffer Verb.list.text = true) :
    ReadsFormat C c ↔ PlainLines c.buffer := by
  have hlist : readVerb c = { c with method := .list, state := .writingResponse } := readVerb_verb (by decide) hs
  have hother : ∀ v : Verb, v.named → ¬ startsWith c.buffer v.text = true := fun v hv hs' =>
    hv.ne.2.1 (startsWith_verb hv.ne.1 (by decide) hs' hs)
  have hparses : Parses C c .list := by
    unfold Parses
    rw [hlist]
    exact ⟨rfl, hc, rfl⟩
  constructor
  · intro h
    exact ⟨fun v hv hs' => absurd hs' (hother v hv), fun _ => (startsWith_listLine.mp (h.list.mp hparses)).2⟩
  · intro h
    have hline : startsWith c.buffer listLine = true := startsWith_listLine.mpr ⟨hs, h.list hs⟩
    refine ⟨?_, iff_of_true hparses hline, iff_of_false ?_ fun hno => hno.2 hline⟩
    · intro v hv name
      refine iff_of_false ?_ fun h => hother v hv h.verb
      intro ⟨hstate, _⟩
      rw [hlist] at hstate
      cases hstate
    · unfold Parses
      rw [hlist]
      rintro (⟨-, herror⟩ | ⟨hstate, -⟩)
      · rw [show _ = none from hc] at herror
        cases herror
      · cases hstate

/-- With its terminator the path of a name has the bytes of the array. -/
theorem path_fits : (path C name).length < maxDirname ↔ name.length ≤ 257 := by
  unfold path maxDirname
  rw [List.length_append, List.length_cons, C.length_tempDirectory]
  omega

theorem opening_inj {p q : Text} (hv : v.named) (h : opening p v = opening q v) : p = q := by
  rcases hv with rfl | rfl | rfl <;> cases h <;> rfl

theorem fileCalls_head {a : Nat} (hs : c.state = .readingFilename) (hm : c.method.named)
    (h : strchr c.buffer newline (dataSize - c.boffset) c.boffset = some (some a)) :
    (fileCalls C fs c).head? = opening (path C (load c.buffer c.boffset (a - c.boffset))) c.method := by
  unfold fileCalls
  rcases hm with hm | hm | hm
  · simp only [hs, h, hm]
    rfl
  · simp only [hs, h, hm]
    rfl
  · simp only [hs, h, hm]
    rfl

theorem readFilename_noLine (h : strchr c.buffer newline (dataSize - c.boffset) c.boffset = some none) :
    readFilename C fs c = some (fs, { c with errorType := some .badRequest, state := .writingResponse }) := by
  unfold readFilename
  rw [h]
  rfl

def namedVerb (c : Client) (v : Verb) : Client :=
  { c with method := v, state := .readingFilename, boffset := v.text.length + 1 }

section
variable (hv : v.named) (hread : readVerb c = namedVerb c v)
include hv hread

theorem parses_request (h : lineEnd v c.buffer = some (some (v.text.length + 1 + n))) :
    Parses C c (.request v name) ↔ name = load c.buffer (v.text.length + 1) n ∧ n ≤ 257 := by
  have hhead : ∀ fs,
      (fileCalls C fs (readVerb c)).head? = opening (path C (load c.buffer (v.text.length + 1) n)) v := by
    intro fs
    rw [hread]
    have hcalls : (fileCalls C fs (namedVerb c v)).head? = _ := fileCalls_head rfl hv h
    rw [show (namedVerb c v).boffset = v.text.length + 1 from rfl, Nat.add_sub_cancel_left] at hcalls
    exact hcalls
  constructor
  · intro ⟨_, _, hfits, hcalls⟩
    have hname : name = load c.buffer (v.text.length + 1) n :=
      path_inj (opening_inj hv ((hcalls Fs.empty).symm.trans (hhead Fs.empty)))
    rw [path_fits, hname, Bytes.load_length] at hfits
    exact ⟨hname, hfits⟩
  · rintro ⟨rfl, hfits⟩
    refine ⟨by rw [hread]; rfl, by rw [hread]; rfl, ?_, hhead⟩
    rw [path_fits, Bytes.load_length]
    exact hfits

theorem not_parses_badRequest (h : lineEnd v c.buffer ≠ some none) : ¬ Parses C c .badRequest := by
  rintro (⟨hstate, -⟩ | ⟨-, hturn⟩)
  · rw [hread] at hstate
    cases hstate
  · rcases hturn Fs.empty anyEvent with ⟨hcalls, c', hp, -, herror⟩
    rw [hread] at hcalls hp
    rcases Option.map_eq_some_iff.mp hp with ⟨⟨fs, c''⟩, hfile, he⟩
    cases he
    rcases Option.bind_eq_some_iff.mp hfile with ⟨line, hline, -⟩
    cases line with
    | none => exact h hline
    | some a =>
      have hne : fileCalls C Fs.empty (namedVerb c v) ≠ [] := fileCalls_line rfl hv hline
      exact hne hcalls

theorem parses_nothing (h : ∀ a, lineEnd v c.buffer ≠ some (some a)) :
    ¬ Parses C c (.request v name) ∧ ¬ IsRequest v name c.buffer := by
  refine ⟨?_, fun hrequest => h _ hrequest.found⟩
  intro ⟨_, _, _, hcalls⟩
  have hnone : fileCalls C Fs.empty (namedVerb c v) = [] := by
    unfold fileCalls
    dsimp only [namedVerb]
    rcases hfind : strchr c.buffer newline (dataSize - (v.text.length + 1)) (v.text.length + 1) with _ | _ | a
    · rfl
    · rfl
    · exact absurd hfind (h a)
  have hhead := hcalls Fs.empty
  rw [hread, hnone] at hhead
  rcases hv with rfl | rfl | rfl <;> cases hhead

omit hv in
theorem parses_badRequest (h : lineEnd v c.buffer = some none) : Parses C c .badRequest := by
  refine Or.inr ⟨by rw [hread]; rfl, ?_⟩
  intro fs e
  rw [hread]
  have hfile : readFilename C fs (namedVerb c v) = _ := readFilename_noLine (c := namedVerb c v) h
  refine ⟨fileCalls_noLine rfl h, { namedVerb c v with errorType := some .badRequest, state := .writingResponse },
    ?_, rfl, rfl⟩
  show (readFilename C fs (namedVerb c v)).map _ = _
  rw [hfile]
  rfl

end

/-- A verb with a name: what is taken for the name is up to the first newline. -/
theorem readsFormat_named (hv : v.named) (hs : startsWith c.buffer v.text = true) :
    ReadsFormat C c ↔ PlainLines c.buffer := by
  have hread : readVerb c = namedVerb c v := by
    rw [readVerb_verb hv.ne.1 hs, if_neg hv.ne.2.1]
    rfl
  have honly : ∀ w : Verb, w ≠ .unknown → startsWith c.buffer w.text = true → w = v := fun w hw hs' =>
    startsWith_verb hw hv.ne.1 hs' hs
  have hnotList : ¬ startsWith c.buffer Verb.list.text = true := fun hs' => hv.ne.2.1 (honly .list (by decide) hs').symm
  have hline : ¬ startsWith c.buffer listLine = true := fun h => hnotList (startsWith_listLine.mp h).1
  have hlist : Parses C c .list ↔ startsWith c.buffer listLine = true := by
    refine iff_of_false ?_ hline
    intro ⟨hstate, _⟩
    rw [hread] at hstate
    cases hstate
  have hplain : PlainLines c.buffer ↔ ∃ line, lineEnd v c.buffer = some line ∧ ∀ a, line = some a →
      c.buffer v.text.length = 32 ∧ v.text.length + 1 < a ∧ a ≤ v.text.length + 1 + 257 := by
    refine ⟨fun h => h.named v hv hs, fun h => ⟨?_, fun hs' => absurd hs' hnotList⟩⟩
    intro w hw hs'
    rw [honly w hw.ne.1 hs']
    exact h
  have hrequest : (∃ w : Verb, w.named ∧ ∃ name, IsRequest w name c.buffer) ↔ ∃ name, IsRequest v name c.buffer := by
    refine ⟨?_, fun h => ⟨v, hv, h⟩⟩
    intro ⟨w, hw, name, h⟩
    rw [honly w hw.ne.1 h.verb] at h
    exact ⟨name, h⟩
  have hother : ∀ w : Verb, w.named → w ≠ v → ∀ name, Parses C c (.request w name) ↔ IsRequest w name c.buffer := by
    intro w hw hne name
    refine iff_of_false ?_ fun h => hne (honly w hw.ne.1 h.verb)
    intro ⟨_, hmethod, _⟩
    rw [hread] at hmethod
    exact hne hmethod.symm
  have hformat : ReadsFormat C c ↔ (∀ name, Parses C c (.request v name) ↔ IsRequest v name c.buffer) ∧
      (Parses C c .badRequest ↔ ¬ ∃ name, IsRequest v name c.buffer) := by
    constructor
    · intro h
      refine ⟨h.request v hv, ?_⟩
      rw [h.badRequest, hrequest, and_iff_left hline]
    · intro ⟨hreq, hbad⟩
      refine ⟨?_, hlist, ?_⟩
      · intro w hw name
        by_cases hne : w = v
        · rw [hne]
          exact hreq name
        · exact hother w hw hne name
      · rw [hbad, hrequest, and_iff_left hline]
  rw [hplain, hformat]
  rcases hfind : lineEnd v c.buffer with _ | _ | a
  · -- the search leaves the buffer, which has no request
    have hnone : ∀ a, lineEnd v c.buffer ≠ some (some a) := by
      intro a h
      rw [hfind] at h
      cases h
    have hbad : ¬ Parses C c .badRequest := not_parses_badRequest hv hread (by rw [hfind]; rintro ⟨⟩)
    refine iff_of_false ?_ (by rintro ⟨line, hl, -⟩; cases hl)
    intro ⟨_, hiff⟩
    refine hbad (hiff.mpr ?_)
    intro ⟨name, h⟩
    exact (parses_nothing (C := C) hv hread hnone).2 h
  · have hnone : ∀ a, lineEnd v c.buffer ≠ some (some a) := by
      intro a h
      rw [hfind] at h
      cases h
    refine iff_of_true ⟨?_, ?_⟩ ⟨none, rfl, by intro a h; cases h⟩
    · intro name
      exact iff_of_false (parses_nothing hv hread hnone).1 (parses_nothing (C := C) hv hread hnone).2
    · apply iff_of_true (parses_badRequest hread hfind)
      intro ⟨name, h⟩
      exact (parses_nothing (C := C) hv hread hnone).2 h
  · rcases strchr_found hfind with ⟨n, hn, rfl, -⟩
    have hbad : ¬ Parses C c .badRequest := not_parses_badRequest hv hread (by rw [hfind]; rintro ⟨⟩)
    constructor
    · intro ⟨hreq, hiff⟩
      have hsome : ∃ name, IsRequest v name c.buffer := by
        by_contra h
        exact hbad (hiff.mpr h)
      rcases hsome with ⟨name, h⟩
      have hparses := (parses_request hv hread hfind).mp ((hreq name).mpr h)
      rcases (isRequest_iff hs hn hfind).mp h with ⟨-, hspace, hpos⟩
      refine ⟨_, rfl, ?_⟩
      intro a ha
      cases ha
      exact ⟨hspace, by omega, by omega⟩
    · intro ⟨line, hl, hall⟩
      rcases hall _ (Option.some.inj hl).symm with ⟨hspace, hpos, hfits⟩
      refine ⟨?_, iff_of_false hbad ?_⟩
      · intro name
        rw [parses_request hv hread hfind, isRequest_iff hs hn hfind]
        exact ⟨fun h => ⟨h.1, hspace, by omega⟩, fun h => ⟨h.1, by omega⟩⟩
      · exact not_not.mpr ⟨_, (isRequest_iff hs hn hfind).mpr ⟨rfl, hspace, by omega⟩⟩

theorem reads_format_iff (C : Config) (m : Mem) (received : Nat) :
    ReadsFormat C (filled m received) ↔ PlainLines m := by
  by_cases h : ∃ v : Verb, v ≠ .unknown ∧ startsWith m v.text = true
  · rcases h with ⟨v, hv, hs⟩
    cases v with
    | get => exact readsFormat_named (c := filled m received) (Or.inl rfl) hs
    | put => exact readsFormat_named (c := filled m received) (Or.inr (Or.inl rfl)) hs
    | delete => exact readsFormat_named (c := filled m received) (Or.inr (Or.inr rfl)) hs
    | list => exact readsFormat_list (c := filled m received) rfl hs
    | unknown => exact absurd rfl hv
  · have hboth := readsFormat_none (C := C) (c := filled m received) fun v hv hs => h ⟨v, hv, hs⟩
    exact iff_of_true hboth.1 hboth.2

/-- A word that only starts with `LIST`. -/
theorem listen_is_list : ¬ ReadsFormat sampleConfig
    (filled (store (fun _ => 0) 0 (ascii ['L', 'I', 'S', 'T', 'E', 'N'] ++ [newline])) 7) := by
  intro h
  have hline := h.list.mp ⟨by decide +kernel, by decide +kernel, by decide +kernel⟩
  exact absurd hline (by decide +kernel)

/-! ## The paths of a connection -/

def FileCall.paths : FileCall → List Text
  | .fopenWb p | .fopenRb p | .access p | .remove p => [p]
  | _ => []

def Inside (C : Config) (p : Text) : Prop := ∃ name, p = path C name ∧ plainName name = true ∧ p.length + 1 ≤ maxDirname

def CallsInside (C : Config) (calls : List FileCall) : Prop := ∀ call ∈ calls, ∀ p ∈ call.paths, Inside C p

/-- Whatever happens to the files: all the paths that a connection has used are inside, and when it has
    a name to read it refuses the request and makes no call on files, or makes some, all of
    them inside. -/
structure StaysInside (C : Config) (k₀ : Conn) : Prop where
  calls : ∀ dirs es fs k, handleEvents C dirs es (dirs 0, k₀) = some (fs, k) → CallsInside C k.calls
  turn : ∀ dirs es fs k, handleEvents C dirs es (dirs 0, k₀) = some (fs, k) → k.client.state = .readingFilename →
    ∀ fs, (fileCalls C fs k.client = [] ∧
        ∃ c, readFilename C fs k.client = some (fs, c) ∧ c.errorType = some .badRequest) ∨
      fileCalls C fs k.client ≠ [] ∧ CallsInside C (fileCalls C fs k.client)

/-- After a verb that takes a name, what is left of the buffer has a NUL before any newline, or
    a newline after one component that fits. -/
def OwnName (m : Mem) : Prop :=
  ∀ v : Verb, v.named → startsWith m v.text = true → ∃ line, lineEnd v m = some line ∧
    ∀ a, line = some a → plainName (load m (v.text.length + 1) (a - (v.text.length + 1))) = true ∧
      a ≤ v.text.length + 1 + 257

theorem inside_path : Inside C (path C name) ↔ plainName name = true ∧ name.length ≤ 257 := by
  rw [← path_fits (C := C)]
  constructor
  · intro ⟨name', he, hplain, hfits⟩
    rw [path_inj he]
    rw [← he]
    exact ⟨hplain, hfits⟩
  · intro ⟨hplain, hfits⟩
    exact ⟨name, rfl, hplain, hfits⟩

/-- The calls of the turn that reads the name are on its path, and there is one at least. -/
theorem fileCalls_inside {a : Nat} (hs : c.state = .readingFilename) (hm : c.method.named)
    (h : strchr c.buffer newline (dataSize - c.boffset) c.boffset = some (some a)) :
    CallsInside C (fileCalls C fs c) ↔ Inside C (path C (load c.buffer c.boffset (a - c.boffset))) := by
  generalize hp : path C (load c.buffer c.boffset (a - c.boffset)) = p
  have hcalls : ∀ call ∈ fileCalls C fs c, call.paths = [p] := by
    rw [← hp]
    unfold fileCalls path
    rcases hm with hm | hm | hm
    · simp only [hs, h, hm]
      split <;> simp [FileCall.paths]
    · simp only [hs, h, hm]
      simp [FileCall.paths]
    · simp only [hs, h, hm]
      split <;> simp [FileCall.paths]
  have hne : fileCalls C fs c ≠ [] := fileCalls_line hs hm h
  constructor
  · intro hall
    rcases List.exists_mem_of_ne_nil _ hne with ⟨call, hcall⟩
    exact hall call hcall p (by rw [hcalls call hcall]; exact List.mem_singleton_self p)
  · intro hin call hcall q hq
    rw [hcalls call hcall] at hq
    rw [List.mem_singleton.mp hq]
    exact hin

/-- Later paths are that of the file that is being written. -/
theorem fileCalls_later (hs : 2 ≤ c.state.place) {call : FileCall} (hcall : call ∈ fileCalls C fs c) {p : Text}
    (hp : p ∈ call.paths) : c.state.place < 4 ∧ p = c.filename := by
  unfold fileCalls at hcall
  cases hstate : c.state with
  | readingVerb | readingFilename =>
    rw [hstate] at hs
    exact absurd hs (by decide)
  | readingSize | complete =>
    rw [hstate] at hcall
    cases hcall
  | readingData =>
    refine ⟨by decide, ?_⟩
    simp only [hstate, List.mem_flatMap] at hcall
    rcases hcall with ⟨i, -, hcall⟩
    have hremove : call.paths = [] ∨ call = .remove c.filename := by
      split at hcall
      · simp only [List.mem_cons, List.not_mem_nil, or_false] at hcall
        rcases hcall with rfl | rfl
        · exact Or.inl rfl
        · exact Or.inr rfl
      split at hcall
      · simp only [List.mem_cons, List.not_mem_nil, or_false] at hcall
        rcases hcall with rfl | rfl | rfl
        · exact Or.inl rfl
        · exact Or.inr rfl
        · exact Or.inl rfl
      split at hcall
      · simp only [List.mem_cons, List.not_mem_nil, or_false] at hcall
        rcases hcall with rfl | rfl | rfl
        · exact Or.inl rfl
        · exact Or.inl rfl
        · exact Or.inr rfl
      split at hcall
      all_goals
        simp only [List.mem_cons, List.not_mem_nil, or_false] at hcall
        rcases hcall with rfl | rfl <;> exact Or.inl rfl
    rcases hremove with hnone | rfl
    · rw [hnone] at hp
      cases hp
    · exact List.mem_singleton.mp hp
  | writingResponse =>
    exfalso
    rw [hstate] at hcall
    dsimp only at hcall
    split at hcall
    · rw [List.mem_singleton.mp hcall] at hp
      cases hp
    · rcases List.mem_flatMap.mp hcall with ⟨i, -, hcall⟩
      generalize (if 0 < c.fileOffset then c.reqSize else C.ftell fs c.filename i) = size at hcall
      split at hcall
      · simp only [List.mem_cons, List.not_mem_nil, or_false] at hcall
        rcases hcall with rfl | rfl <;> cases hp
      · rw [List.mem_singleton.mp hcall] at hp
        cases hp
    · cases hcall

theorem readData_filename (h : readData C fs c = some (fs', c')) : c'.filename = c.filename := by
  unfold readData at h
  by_cases hm : c.method = .put
  swap
  · rw [if_pos hm] at h
    cases h
  rw [if_neg (not_not_intro hm)] at h
  dsimp only at h
  split at h
  · cases h
    rfl
  split at h
  · cases h
  rcases Option.map_eq_some_iff.mp h with ⟨i, -, he⟩
  split at he
  · cases he
    rfl
  split at he
  · cases he
    rfl
  split at he <;> cases he <;> rfl

theorem process_filename {e : Event} {sends : List Send} (hs : 2 ≤ c.state.place)
    (h : processRequest C fs c e = some (fs', c', sends)) : c'.filename = c.filename := by
  unfold processRequest at h
  cases hstate : c.state with
  | readingVerb | readingFilename =>
    rw [hstate] at hs
    exact absurd hs (by decide)
  | readingSize =>
    rw [hstate] at h
    rcases Option.map_eq_some_iff.mp h with ⟨c₁, hread, he⟩
    unfold readSize at hread
    split at hread
    · cases he
      cases hread
      rfl
    · cases hread
  | readingData =>
    rw [hstate] at h
    rcases Option.map_eq_some_iff.mp h with ⟨⟨fs₁, c₁⟩, hread, he⟩
    cases he
    exact readData_filename hread
  | writingResponse =>
    rw [hstate] at h
    rcases Option.map_eq_some_iff.mp h with ⟨⟨c₁, sends₁⟩, hw, he⟩
    cases he
    exact (writeResponse_same hw).2.2.2
  | complete =>
    rw [hstate] at h
    cases h
    rfl

theorem openFile_named (hm : c.method.named) (h : openFile C fs c = some (fs', c')) :
    c'.filename = c.filename ∧ 2 ≤ c'.state.place := by
  unfold openFile at h
  rcases hm with hm | hm | hm
  · rw [hm] at h
    dsimp only at h
    split at h
    · cases h
      exact ⟨rfl, show 2 ≤ 4 by decide⟩
    · split at h <;> cases h <;> exact ⟨rfl, show 2 ≤ 4 by decide⟩
  · rw [hm] at h
    rcases Option.map_eq_some_iff.mp h with ⟨⟨fs₁, i⟩, -, he⟩
    cases he
    exact ⟨rfl, Nat.le_refl 2⟩
  · rw [hm] at h
    dsimp only at h
    split at h <;> cases h <;> exact ⟨rfl, show 2 ≤ 4 by decide⟩

def NameRead (C : Config) (b : Mem) (stream : Text) (k : Conn) : Prop :=
  k = newConnection b stream ∨ (k = firstRead b stream ∧ k.client.state = .readingFilename) ∨
    2 ≤ k.client.state.place ∧ CallsInside C k.calls ∧ (k.client.state.place < 4 → Inside C k.client.filename)

variable {b : Mem} {stream : Text} {dirs : Nat → Fs}

/-- The client after the first read has a verb that takes a name, or a reply to send. -/
theorem firstRead_verb (b : Mem) (stream : Text) :
    (∃ v : Verb, v.named ∧ startsWith (store b 0 (stream.take dataSize)) v.text = true ∧ (firstRead b stream).client =
      namedVerb (filled (store b 0 (stream.take dataSize)) (stream.take dataSize).length) v) ∨
    (firstRead b stream).client.state = .writingResponse := by
  by_cases h : ∃ v : Verb, v ≠ .unknown ∧ startsWith (store b 0 (stream.take dataSize)) v.text = true
  · rcases h with ⟨v, hv, hs⟩
    have hread : (firstRead b stream).client = _ := readVerb_verb hv (c := filled _ (stream.take dataSize).length) hs
    by_cases hlist : v = .list
    · rw [if_pos hlist] at hread
      exact Or.inr (by rw [hread])
    · rw [if_neg hlist] at hread
      refine Or.inl ⟨v, ?_, hs, hread⟩
      cases v
      · exact Or.inl rfl
      · exact Or.inr (Or.inl rfl)
      · exact Or.inr (Or.inr rfl)
      · exact absurd rfl hlist
      · exact absurd rfl hv
  · have hread : (firstRead b stream).client = _ :=
      readVerb_bad (c := filled _ (stream.take dataSize).length) fun v hv hs => h ⟨v, hv, hs⟩
    exact Or.inr (by rw [hread])

/-- The turn that reads a name of its own. -/
theorem OwnName.turn (h : OwnName (store b 0 (stream.take dataSize)))
    (hs : (firstRead b stream).client.state = .readingFilename) (fs : Fs) :
    (fileCalls C fs (firstRead b stream).client = [] ∧
        ∃ c, readFilename C fs (firstRead b stream).client = some (fs, c) ∧ c.errorType = some .badRequest ∧
          c.state = .writingResponse) ∨
      (fileCalls C fs (firstRead b stream).client ≠ [] ∧ CallsInside C (fileCalls C fs (firstRead b stream).client)) ∧
        ∀ fs' c', readFilename C fs (firstRead b stream).client = some (fs', c') →
          2 ≤ c'.state.place ∧ Inside C c'.filename := by
  rcases firstRead_verb b stream with ⟨v, hv, hstarts, hclient⟩ | hwriting
  swap
  · rw [hs] at hwriting
    cases hwriting
  rw [hclient]
  rcases h v hv hstarts with ⟨line, hline, hall⟩
  generalize hc : namedVerb (filled (store b 0 (stream.take dataSize)) (stream.take dataSize).length) v = c
  have hstate : c.state = .readingFilename := by rw [← hc]; rfl
  have hm : c.method.named := by rw [← hc]; exact hv
  have hfind : strchr c.buffer newline (dataSize - c.boffset) c.boffset = some line := by rw [← hc]; exact hline
  cases line with
  | none => exact Or.inl ⟨fileCalls_noLine hstate hfind, _, readFilename_noLine hfind, rfl, rfl⟩
  | some a =>
    have hname : plainName (load c.buffer c.boffset (a - c.boffset)) = true ∧ a ≤ c.boffset + 257 := by
      rw [← hc]
      exact hall a rfl
    have hin : Inside C (path C (load c.buffer c.boffset (a - c.boffset))) := by
      rw [inside_path, Bytes.load_length]
      exact ⟨hname.1, by omega⟩
    refine Or.inr ⟨⟨fileCalls_line hstate hm hfind, (fileCalls_inside hstate hm hfind).mpr hin⟩, ?_⟩
    intro fs' c' hread
    unfold readFilename at hread
    rw [hfind, Option.bind_some] at hread
    dsimp only at hread
    split at hread
    · have hopened := fun hm => openFile_named hm hread
      rcases hopened hm with ⟨hfile, hplace⟩
      refine ⟨hplace, ?_⟩
      rw [hfile]
      exact hin
    · cases hread

/-- One event. -/
theorem handle_nameRead {e : Event} (hown : OwnName (store b 0 (stream.take dataSize)))
    (hn : NameRead C b stream k) (h : handleClientRequest C (fs, k) e = some (fs', k')) : NameRead C b stream k' := by
  rcases hn with rfl | ⟨rfl, hs⟩ | ⟨hplace, hcalls, hfile⟩
  · have hfirst : handleClientRequest C (fs, newConnection b stream) e = _ := handle_first
    rw [hfirst] at h
    cases h
    rcases firstRead_verb b stream with ⟨v, -, -, hclient⟩ | hwriting
    · exact Or.inr (Or.inl ⟨rfl, by rw [hclient]; rfl⟩)
    · refine Or.inr (Or.inr ⟨by rw [hwriting]; decide, nofun, ?_⟩)
      intro hlt
      rw [hwriting] at hlt
      exact absurd hlt (by decide)
  · rw [handle_process (by rw [hs]; decide) (by rw [hs]; simp)] at h
    rcases Option.map_eq_some_iff.mp h with ⟨⟨fs₁, c, sends⟩, hp, he⟩
    cases he
    unfold processRequest at hp
    rw [hs] at hp
    rcases Option.map_eq_some_iff.mp hp with ⟨⟨fs₂, c₂⟩, hread, he⟩
    cases he
    refine Or.inr (Or.inr ?_)
    rcases hown.turn hs fs with ⟨hnone, c', hbad, -, hstate⟩ | ⟨⟨-, hin⟩, hopen⟩
    · rw [hbad] at hread
      cases hread
      refine ⟨by rw [hstate]; decide, ?_, ?_⟩
      · dsimp only
        rw [hnone]
        intro call h
        cases h
      · intro hlt
        rw [hstate] at hlt
        exact absurd hlt (by decide)
    · rcases hopen _ _ hread with ⟨hplace, hfile⟩
      exact ⟨hplace, hin, fun _ => hfile⟩
  · refine Or.inr (Or.inr ?_)
    have honward := (handle_onward h).place
    rcases handle_cases h with ⟨-, -, rfl⟩ | ⟨-, c, sends, hp, rfl⟩
    · exact ⟨hplace, hcalls, hfile⟩
    have hsame : (receive k e.chunks).client.state = k.client.state ∧
        (receive k e.chunks).client.filename = k.client.filename ∧ (receive k e.chunks).calls = k.calls := by
      unfold receive
      split <;> exact ⟨rfl, rfl, rfl⟩
    have hplace' : 2 ≤ (receive k e.chunks).client.state.place := by
      rw [hsame.1]
      exact hplace
    refine ⟨Nat.le_trans hplace honward, ?_, ?_⟩
    · intro call hcall p hp'
      rcases List.mem_append.mp hcall with hcall | hcall
      · exact hcalls call (hsame.2.2 ▸ hcall) p hp'
      · rcases fileCalls_later hplace' hcall hp' with ⟨hlt, rfl⟩
        rw [hsame.1] at hlt
        rw [hsame.2.1]
        exact hfile hlt
    · intro hlt
      have hkept := process_filename hplace' hp
      dsimp only at hlt honward ⊢
      rw [hkept, hsame.2.1]
      exact hfile (Nat.lt_of_le_of_lt honward hlt)

theorem OwnName.run {es : List Event} (hown : OwnName (store b 0 (stream.take dataSize)))
    (h : handleEvents C dirs es (dirs 0, newConnection b stream) = some (fs, k)) : NameRead C b stream k := by
  refine handleEvents_inv (P := fun _ => True) (I := NameRead C b stream) ?_ (fun _ => trivial) (Or.inl rfl) h
  exact fun fs fs' k k' e _ hk hstep => handle_nameRead hown hk hstep

theorem stays_inside_iff (C : Config) (b : Mem) (stream : Text) :
    StaysInside C (newConnection b stream) ↔ OwnName (store b 0 (stream.take dataSize)) := by
  constructor
  · intro h v hv hs
    have hfirst : handleEvents C (fun _ => Fs.empty) [anyEvent] (Fs.empty, newConnection b stream) =
        some (Fs.empty, firstRead b stream) := by
      rw [handleEvents_cons, handle_first]
      rfl
    have hread : (firstRead b stream).client = _ :=
      readVerb_verb hv.ne.1 (c := filled _ (stream.take dataSize).length) hs
    rw [if_neg hv.ne.2.1] at hread
    have hturn := h.turn (fun _ => Fs.empty) [anyEvent] Fs.empty _ hfirst (by rw [hread]) Fs.empty
    generalize (firstRead b stream).client = c at hread hturn
    have hstate : c.state = .readingFilename := by rw [hread]
    have hm : c.method.named := by rw [hread]; exact hv
    have hfind : lineEnd v (store b 0 (stream.take dataSize)) =
        strchr c.buffer newline (dataSize - c.boffset) c.boffset := by rw [hread]; rfl
    rw [hfind]
    rcases hturn with ⟨hnone, c', hbad, -⟩ | ⟨hsome, hin⟩
    · rcases Option.bind_eq_some_iff.mp hbad with ⟨line, hline, -⟩
      refine ⟨line, hline, ?_⟩
      intro a ha
      rw [ha] at hline
      exact absurd hnone (fileCalls_line hstate hm hline)
    · rcases hline : strchr c.buffer newline (dataSize - c.boffset) c.boffset with _ | _ | a
      · refine absurd ?_ hsome
        unfold fileCalls
        simp only [hstate, hline]
      · exact ⟨none, rfl, by intro a h; cases h⟩
      · refine ⟨some a, rfl, ?_⟩
        intro a' ha
        cases ha
        have hinside := (fileCalls_inside hstate hm hline).mp hin
        rw [inside_path, Bytes.load_length] at hinside
        have hoff : c.boffset = v.text.length + 1 := by rw [hread]
        have hbuf : c.buffer = store b 0 (stream.take dataSize) := by rw [hread]; rfl
        rw [hoff, hbuf] at hinside
        exact ⟨hinside.1, by omega⟩
  · intro hown
    constructor
    · intro dirs es fs k h
      rcases hown.run h with rfl | ⟨rfl, -⟩ | ⟨-, hcalls, -⟩
      · intro call h
        cases h
      · intro call h
        cases h
      · exact hcalls
    · intro dirs es fs k h hs fs'
      rcases hown.run h with rfl | ⟨rfl, -⟩ | ⟨hplace, -⟩
      · cases hs
      · rcases hown.turn hs fs' with ⟨hnone, c, hbad, herror, -⟩ | ⟨hin, -⟩
        · exact Or.inl ⟨hnone, c, hbad, herror⟩
        · exact Or.inr hin
      · rw [hs] at hplace
        exact absurd hplace (by decide)

/-- A name with a slash leaves the directory. -/
theorem dots_leave : ¬ StaysInside sampleConfig
    (newConnection (fun _ => 0) (requestLine (ascii ['G', 'E', 'T']) (ascii ['.', '.', '/', 'x']))) := by
  intro h
  have hrun : (handleEvents sampleConfig (fun _ => Fs.empty) [anyEvent, anyEvent] (Fs.empty,
      newConnection (fun _ => 0) (requestLine (ascii ['G', 'E', 'T']) (ascii ['.', '.', '/', 'x'])))).map
        (fun s => s.2.calls) = some [.fopenRb (path sampleConfig (ascii ['.', '.', '/', 'x']))] := by decide +kernel
  rcases Option.map_eq_some_iff.mp hrun with ⟨⟨fs, k⟩, hk, hcalls⟩
  have hin := h.calls (fun _ => Fs.empty) _ fs k hk _ (by rw [hcalls]; exact List.mem_singleton_self _) _
    (List.mem_singleton_self _)
  rw [inside_path] at hin
  exact absurd hin.1 (by decide)

end SysProg.Net
