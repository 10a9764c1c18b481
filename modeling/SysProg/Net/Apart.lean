/-
  SysProg.Net.Apart — connections of nonstop_networking/server.c on different files.

  All connections share one directory. `Renames` says that of two directories the second has, under the paths
  of one group (`P`), the files of the first, in inodes of its own (`φ`); `owner` is the
  path that an inode was created for, which an unlinked file keeps. What a connection of the
  group does is done alike in both (`Renames.process`), and what another one does in the
  first alone leaves them related (`Renames.process_other`).

  Main result: `events_left_out`. In a run where no connection of a group names a file that one
  outside it names, the events of those outside can be left out: each connection of the group
  comes to the same state and sends the same, whatever the others do between its events, and the
  files under the paths of the group are the same. A LIST reads all names, and is in no
  group; paths that are not of a file in the directory are named by no connection.
-/

import SysProg.Net.Determined
import SysProg.Net.WholeGets

namespace SysProg.Net

open Function (update_self update_of_ne)
open SysProg.Bytes (Mem load leEncode)

variable {C : Config} {P : Text → Prop} {owner owner' : Nat → Text} {φ φ' : Nat → Nat} {fs fs' fs₁ : Fs}
  {c c' : Client} {k k' : Conn} {p q : Text} {i : Nat}

/-! ## Names and states -/

/-- What a client has not come to yet is as it was at first. -/
structure Client.Named (c : Client) : Prop where
  unread : c.state = .readingVerb → c.method = .unknown
  method : c.state = .readingFilename → c.method.named
  fresh : c.state.place ≤ 1 → c.filename = [] ∧ c.fp = none
  named : c.fp ≠ none ∨ c.state = .readingSize ∨ c.state = .readingData → c.filename ≠ []

structure Keeps (c c' : Client) : Prop where
  filename : c.filename ≠ [] → c'.filename = c.filename
  list : c.method = .list → c'.method = .list

theorem Keeps.refl (c : Client) : Keeps c c := ⟨fun _ => rfl, id⟩

/-- A client that is past its name. -/
theorem Client.Named.past (hplace : 2 ≤ c.state.place) (hname : c.filename ≠ [] ∨ c.fp = none ∧ 4 ≤ c.state.place) :
    c.Named := by
  refine ⟨?_, ?_, fun h => absurd h (by omega), ?_⟩
  · intro hs
    rw [hs] at hplace
    exact absurd hplace (by decide)
  · intro hs
    rw [hs] at hplace
    exact absurd hplace (by decide)
  · intro hopen
    rcases hname with hname | ⟨hfp, hlater⟩
    · exact hname
    · rcases hopen with hopen | hopen | hopen
      · exact absurd hfp hopen
      · rw [hopen] at hlater
        exact absurd hlater (by decide)
      · rw [hopen] at hlater
        exact absurd hlater (by decide)

theorem readVerb_fp (c : Client) (fp : Option Nat) : readVerb { c with fp } = { readVerb c with fp } := by
  unfold readVerb
  repeat' split
  all_goals rfl

theorem readVerb_fields (c : Client) : (readVerb c).fp = c.fp ∧ (readVerb c).filename = c.filename ∧
    ((readVerb c).state = .readingFilename ∧ (readVerb c).method.named ∨ (readVerb c).state = .writingResponse) := by
  unfold readVerb
  split
  · exact ⟨rfl, rfl, Or.inl ⟨rfl, Or.inl rfl⟩⟩
  split
  · exact ⟨rfl, rfl, Or.inl ⟨rfl, Or.inr (Or.inl rfl)⟩⟩
  split
  · exact ⟨rfl, rfl, Or.inl ⟨rfl, Or.inr (Or.inr rfl)⟩⟩
  split
  · exact ⟨rfl, rfl, Or.inr rfl⟩
  · exact ⟨rfl, rfl, Or.inr rfl⟩

theorem Client.Named.readVerb (h : c.Named) (hs : c.state = .readingVerb) :
    (Net.readVerb c).Named ∧ Keeps c (Net.readVerb c) := by
  have hkeeps : Keeps c (Net.readVerb c) := by
    refine ⟨fun _ => (readVerb_fields c).2.1, fun hm => ?_⟩
    rw [h.unread hs] at hm
    cases hm
  obtain ⟨hname, hfp⟩ := h.fresh (by rw [hs]; decide)
  obtain ⟨hfp', hname', ⟨hs', hm'⟩ | hs'⟩ := readVerb_fields c
  · rw [hfp] at hfp'
    refine ⟨⟨?_, fun _ => hm', fun _ => ⟨hname'.trans hname, hfp'⟩, ?_⟩, hkeeps⟩
    · intro hv
      rw [hs'] at hv
      cases hv
    · intro hopen
      rw [hs', hfp'] at hopen
      simp at hopen
  · exact ⟨.past (by rw [hs']; decide) (Or.inr ⟨hfp'.trans hfp, by rw [hs']; decide⟩), hkeeps⟩

/-- The file that was named: what the client is then. -/
theorem openFile_fields (hm : c.method.named) (h : openFile C fs c = some (fs', c')) :
    c'.filename = c.filename ∧ c'.method = c.method ∧ 2 ≤ c'.state.place := by
  unfold openFile at h
  split at h
  · obtain ⟨⟨fs₂, i⟩, -, he⟩ := Option.map_eq_some_iff.mp h
    cases he
    exact ⟨rfl, rfl, show 2 ≤ 2 by decide⟩
  · split at h
    · cases h
      exact ⟨rfl, rfl, show 2 ≤ 4 by decide⟩
    · split at h <;> cases h <;> exact ⟨rfl, rfl, show 2 ≤ 4 by decide⟩
  · split at h <;> cases h <;> exact ⟨rfl, rfl, show 2 ≤ 4 by decide⟩
  · rename_i hput hget hdelete
    rcases hm with hm | hm | hm
    · exact absurd hm hget
    · exact absurd hm hput
    · exact absurd hm hdelete

/-- What READING_FILENAME does: a name is found or not whatever the files are. -/
theorem readFilename_same (C : Config) (c : Client) : (∀ fs, readFilename C fs c = none) ∨
    (∀ fs, readFilename C fs c =
      some (fs, { c with errorType := some .badRequest, state := .writingResponse })) ∨
    ∃ c₁ : Client, c₁.filename ≠ [] ∧ c₁.method = c.method ∧ c₁.fp = c.fp ∧
      ∀ fs, readFilename C fs c = openFile C fs c₁ := by
  unfold readFilename
  cases strchr c.buffer newline (dataSize - c.boffset) c.boffset with
  | none => exact Or.inl fun _ => rfl
  | some line =>
    cases line with
    | none => exact Or.inr (Or.inl fun _ => rfl)
    | some a =>
      by_cases hlen : C.tempDirectory.length + 1 + (load c.buffer c.boffset (a - c.boffset)).length < maxDirname
      · refine Or.inr (Or.inr ⟨{ c with
          filename := C.tempDirectory ++ slash :: load c.buffer c.boffset (a - c.boffset)
          fileOffset := 0
          boffset := a + 1 }, ?_, rfl, rfl, fun fs => if_pos hlen⟩)
        exact List.append_ne_nil_of_right_ne_nil _ (List.cons_ne_nil _ _)
      · exact Or.inl fun fs => if_neg hlen

/-- What READING_DATA does with its file: it is removed, or written, and may be removed then. -/
inductive Writes (C : Config) (c c₁ : Client) : Prop
  | empty (h : ∀ fs fp, readData C fs { c with fp } = some (C.remove fs c.filename, { c₁ with fp }))
  | bytes (bytes : Text) (h : ∀ fs fp, readData C fs { c with fp } = fp.map fun i =>
      (fs.append i bytes, { c₁ with fp }))
  | refused (bytes : Text) (h : ∀ fs fp, readData C fs { c with fp } = fp.map fun i =>
      (C.remove (fs.append i bytes) c.filename, { c₁ with fp }))

theorem readData_same (C : Config) (c : Client) : (∀ fs fp, readData C fs { c with fp } = none) ∨
    ∃ c₁ : Client, c₁.filename = c.filename ∧ c₁.method = c.method ∧ 3 ≤ c₁.state.place ∧ Writes C c c₁ := by
  by_cases hm : c.method = .put
  swap
  · exact Or.inl fun fs fp => if_pos hm
  have hm' : ¬ c.method ≠ .put := not_not_intro hm
  let left := sub64 c.reqSize c.fileOffset
  let buffered := sub64 c.bufferSize c.boffset
  let bytes := load c.buffer c.boffset (min buffered left)
  let written : Client := { c with
    boffset := 0
    bufferSize := 0
    fileOffset := (c.fileOffset + min buffered left) % wordSize }
  let failed : Client := { written with errorType := some .badFileSize, state := .writingResponse }
  by_cases hzero : c.bufferSize = 0
  · refine Or.inr ⟨{ c with errorType := some .badFileSize, state := .writingResponse }, rfl, rfl,
      show 3 ≤ 4 by decide, .empty fun fs fp => ?_⟩
    unfold readData
    rw [if_neg hm']
    exact if_pos hzero
  by_cases hroom : dataSize < c.boffset + min buffered left
  · refine Or.inl fun fs fp => ?_
    unfold readData
    rw [if_neg hm']
    exact (if_neg hzero).trans (if_pos hroom)
  have hbody : ∀ fs fp, readData C fs { c with fp } = fp.map fun i =>
      if 0 < buffered - min buffered left ∧ left - min buffered left = 0 then
        (C.remove (fs.append i bytes) c.filename, { failed with fp })
      else if c.reqSize < written.fileOffset then
        (C.remove (fs.append i bytes) c.filename, { failed with fp })
      else if left - min buffered left = 0 then
        (fs.append i bytes, { written with fp, state := .writingResponse })
      else (fs.append i bytes, { written with fp, state := .readingData }) := by
    intro fs fp
    unfold readData
    rw [if_neg hm']
    exact (if_neg hzero).trans (if_neg hroom)
  apply Or.inr
  by_cases hmore : 0 < buffered - min buffered left ∧ left - min buffered left = 0
  · refine ⟨failed, rfl, rfl, show 3 ≤ 4 by decide, .refused bytes fun fs fp => ?_⟩
    simp only [hbody, if_pos hmore]
  by_cases hover : c.reqSize < written.fileOffset
  · refine ⟨failed, rfl, rfl, show 3 ≤ 4 by decide, .refused bytes fun fs fp => ?_⟩
    simp only [hbody, if_neg hmore, if_pos hover]
  by_cases hlast : left - min buffered left = 0
  · refine ⟨{ written with state := .writingResponse }, rfl, rfl, show 3 ≤ 4 by decide, .bytes bytes fun fs fp => ?_⟩
    simp only [hbody, if_neg hmore, if_neg hover, if_pos hlast]
  · refine ⟨{ written with state := .readingData }, rfl, rfl, show 3 ≤ 3 by decide, .bytes bytes fun fs fp => ?_⟩
    simp only [hbody, if_neg hmore, if_neg hover, if_neg hlast]

theorem readFilename_named (h : c.Named) (hs : c.state = .readingFilename) (hr : readFilename C fs c = some (fs', c')) :
    c'.Named ∧ Keeps c c' := by
  obtain ⟨hname, hfp⟩ := h.fresh (by rw [hs]; decide)
  rcases readFilename_same C c with hnone | hbad | ⟨c₁, hne, hm, -, hopen⟩
  · rw [hnone] at hr
    cases hr
  · rw [hbad] at hr
    cases hr
    exact ⟨.past (show 2 ≤ 4 by decide) (Or.inr ⟨hfp, show 4 ≤ 4 by decide⟩), fun _ => rfl, id⟩
  · rw [hopen] at hr
    obtain ⟨hname', hm', hplace⟩ := openFile_fields (hm ▸ h.method hs) hr
    refine ⟨.past hplace (Or.inl ?_), fun hold => absurd hname hold, fun hlist => ?_⟩
    · rw [hname']
      exact hne
    · rw [hm', hm]
      exact hlist

theorem readData_named (h : c.Named) (hs : c.state = .readingData) (hr : readData C fs c = some (fs', c')) :
    c'.Named ∧ Keeps c c' := by
  have hne := h.named (Or.inr (Or.inr hs))
  rcases readData_same C c with hnone | ⟨c₁, hname, hm, hplace, hw⟩
  · rw [show readData C fs c = none from hnone fs c.fp] at hr
    cases hr
  have hc : c' = { c₁ with fp := c.fp } := by
    cases hw with
    | empty hw =>
      cases (hw fs c.fp).symm.trans hr
      rfl
    | bytes bytes hw | refused bytes hw =>
      obtain ⟨i, -, he⟩ := Option.map_eq_some_iff.mp ((hw fs c.fp).symm.trans hr)
      cases he
      rfl
  subst hc
  exact ⟨.past (Nat.le_of_succ_le hplace) (Or.inl fun hnil => hne (hname.symm.trans hnil)), fun _ => hname,
    fun h => hm.trans h⟩

theorem writeResponse_named {sends : List Send} {e : Event} (h : c.Named)
    (hw : writeResponse C fs c e = some (c', sends)) : c'.Named ∧ Keeps c c' := by
  obtain ⟨hfp, -, hm, hname⟩ := writeResponse_same hw
  have hplace := writeResponse_place hw
  refine ⟨.past (Nat.le_trans (by decide) hplace) ?_, fun _ => hname, fun h => hm.trans h⟩
  by_cases hopen : c.fp = none
  · exact Or.inr ⟨hfp.trans hopen, hplace⟩
  · exact Or.inl fun hnil => h.named (Or.inl hopen) (hname.symm.trans hnil)

/-- One turn of the state machine. -/
theorem process_named {sends : List Send} {e : Event} (h : c.Named)
    (hp : processRequest C fs c e = some (fs', c', sends)) : c'.Named ∧ Keeps c c' := by
  unfold processRequest at hp
  cases hs : c.state with
  | readingVerb =>
    rw [hs] at hp
    cases hp
    exact h.readVerb hs
  | readingFilename =>
    rw [hs] at hp
    obtain ⟨⟨fs₂, c₂⟩, hread, he⟩ := Option.map_eq_some_iff.mp hp
    cases he
    exact readFilename_named h hs hread
  | readingSize =>
    rw [hs] at hp
    obtain ⟨c₂, hread, he⟩ := Option.map_eq_some_iff.mp hp
    unfold readSize at hread
    split at hread
    · cases he
      cases hread
      exact ⟨.past (show 2 ≤ 3 by decide) (Or.inl (h.named (Or.inr (Or.inl hs)))), fun _ => rfl, id⟩
    · cases hread
  | readingData =>
    rw [hs] at hp
    obtain ⟨⟨fs₂, c₂⟩, hread, he⟩ := Option.map_eq_some_iff.mp hp
    cases he
    exact readData_named h hs hread
  | writingResponse =>
    rw [hs] at hp
    obtain ⟨⟨c₂, sends₂⟩, hw, he⟩ := Option.map_eq_some_iff.mp hp
    cases he
    exact writeResponse_named h hw
  | complete =>
    rw [hs] at hp
    cases hp
    exact ⟨h, .refl _⟩

/-! ## Two directories -/

/-- The second directory has the files of the group that the first has, in its own inodes. -/
structure Renames (P : Text → Prop) (owner : Nat → Text) (φ : Nat → Nat) (fs fs₁ : Fs) : Prop where
  owned : ∀ q i, fs.inode q = some i → owner i = q ∧ i < fs.next
  inj : ∀ i j, i < fs.next → j < fs.next → P (owner i) → P (owner j) → φ i = φ j → i = j
  below : ∀ i, i < fs.next → P (owner i) → φ i < fs₁.next
  inode : ∀ q, P q → fs₁.inode q = (fs.inode q).map φ
  data : ∀ i, i < fs.next → P (owner i) → fs₁.data (φ i) = fs.data i

structure Grows (owner : Nat → Text) (φ : Nat → Nat) (fs : Fs) (owner' : Nat → Text) (φ' : Nat → Nat) (fs' : Fs) :
    Prop where
  next : fs.next ≤ fs'.next
  owner : ∀ i, i < fs.next → owner' i = owner i
  map : ∀ i, i < fs.next → φ' i = φ i

theorem Grows.refl : Grows owner φ fs owner φ fs := ⟨Nat.le_refl _, fun _ _ => rfl, fun _ _ => rfl⟩

def OwnedBy (owner : Nat → Text) (fs : Fs) (p : Text) (fp : Option Nat) : Prop :=
  ∀ i, fp = some i → owner i = p ∧ i < fs.next

theorem OwnedBy.none : OwnedBy owner fs p none := by
  intro i hi
  cases hi

theorem OwnedBy.grows {fp : Option Nat} (h : OwnedBy owner fs p fp) (hg : Grows owner φ fs owner' φ' fs') :
    OwnedBy owner' fs' p fp := by
  intro i hi
  obtain ⟨howner, hlt⟩ := h i hi
  exact ⟨(hg.owner i hlt).trans howner, Nat.lt_of_lt_of_le hlt hg.next⟩

theorem OwnedBy.map {fp : Option Nat} (h : OwnedBy owner fs p fp) (hg : Grows owner φ fs owner' φ' fs') :
    fp.map φ' = fp.map φ := by
  cases fp with
  | none => rfl
  | some i => exact congrArg some (hg.map i (h i rfl).2)

theorem create_same (h : fs.inode p = some i) :
    fs.create p = ({ fs with data := Function.update fs.data i [] }, i) := by
  unfold Fs.create
  rw [h]

theorem create_new (h : fs.inode p = none) :
    fs.create p = (⟨fs.dir ++ [(p, fs.next)], Function.update fs.data fs.next [], fs.next + 1⟩, fs.next) := by
  unfold Fs.create
  rw [h]

/-- A file of the group is emptied in both. -/
theorem Renames.update (h : Renames P owner φ fs fs₁) (hi : i < fs.next) (hp : P (owner i)) (file : Text) :
    Renames P owner φ { fs with data := Function.update fs.data i file }
      { fs₁ with data := Function.update fs₁.data (φ i) file } where
  owned := h.owned
  inj := h.inj
  below := h.below
  inode := h.inode
  data := by
    intro j hj hpj
    show Function.update fs₁.data (φ i) file (φ j) = Function.update fs.data i file j
    by_cases hij : j = i
    · rw [hij, update_self, update_self]
    · have hne : φ j ≠ φ i := fun he => hij (h.inj j i hj hi hpj hp he)
      rw [update_of_ne hne, update_of_ne hij]
      exact h.data j hj hpj

/-- A file that is not of the group has other bytes. -/
theorem Renames.update_other (h : Renames P owner φ fs fs₁) (hp : ¬ P (owner i)) (file : Text) :
    Renames P owner φ { fs with data := Function.update fs.data i file } fs₁ where
  owned := h.owned
  inj := h.inj
  below := h.below
  inode := h.inode
  data := by
    intro j hj hpj
    show fs₁.data (φ j) = Function.update fs.data i file j
    have hne : j ≠ i := by
      intro hij
      rw [hij] at hpj
      exact hp hpj
    rw [update_of_ne hne]
    exact h.data j hj hpj

/-- An inode that is new in the first directory. -/
theorem Grows.new (p : Text) (n : Nat) :
    Grows owner φ fs (Function.update owner fs.next p) (Function.update φ fs.next n) (fs.create p).1 where
  next := (create_spec fs p).next
  owner _ hi := update_of_ne (Nat.ne_of_lt hi) ..
  map _ hi := update_of_ne (Nat.ne_of_lt hi) ..

theorem Renames.owned_new (h : Renames P owner φ fs fs₁) (hn : fs.inode p = none)
    (hq : (fs.create p).1.inode q = some i) :
    Function.update owner fs.next p i = q ∧ i < fs.next + 1 := by
  rw [(create_spec fs p).inode, create_new hn] at hq
  split at hq
  · rename_i hqp
    cases hq
    exact ⟨by rw [update_self, hqp], Nat.lt_succ_self _⟩
  · obtain ⟨howner, hlt⟩ := h.owned q i hq
    exact ⟨by rw [update_of_ne (Nat.ne_of_lt hlt), howner], Nat.lt_succ_of_lt hlt⟩

/-- A file of the group is new in both. -/
theorem Renames.create_new (h : Renames P owner φ fs fs₁) (hn : fs.inode p = none) (hn₁ : fs₁.inode p = none) :
    Renames P (Function.update owner fs.next p) (Function.update φ fs.next fs₁.next) (fs.create p).1
      (fs₁.create p).1 := by
  have hnext : (fs.create p).1.next = fs.next + 1 := by rw [Net.create_new hn]
  have hnext₁ : (fs₁.create p).1.next = fs₁.next + 1 := by rw [Net.create_new hn₁]
  have hold : ∀ i, i < (fs.create p).1.next → i ≠ fs.next → i < fs.next := by
    intro i hi hne
    omega
  refine ⟨?_, ?_, ?_, ?_, ?_⟩
  · intro q i hq
    rw [hnext]
    exact h.owned_new hn hq
  · intro i j hi hj hpi hpj he
    by_cases hin : i = fs.next
    · by_cases hjn : j = fs.next
      · rw [hin, hjn]
      · rw [update_of_ne hjn] at hpj
        rw [hin, update_self, update_of_ne hjn] at he
        have hlt := h.below j (hold j hj hjn) hpj
        omega
    · rw [update_of_ne hin] at hpi
      by_cases hjn : j = fs.next
      · rw [hjn, update_self, update_of_ne hin] at he
        have hlt := h.below i (hold i hi hin) hpi
        omega
      · rw [update_of_ne hjn] at hpj
        rw [update_of_ne hin, update_of_ne hjn] at he
        exact h.inj i j (hold i hi hin) (hold j hj hjn) hpi hpj he
  · intro i hi hpi
    rw [hnext₁]
    by_cases hin : i = fs.next
    · rw [hin, update_self]
      exact Nat.lt_succ_self _
    · rw [update_of_ne hin] at hpi ⊢
      exact Nat.lt_succ_of_lt (h.below i (hold i hi hin) hpi)
  · intro q hq
    rw [(create_spec fs p).inode, (create_spec fs₁ p).inode, Net.create_new hn, Net.create_new hn₁]
    split
    · rw [Option.map_some, update_self]
    · rw [h.inode q hq]
      cases hi : fs.inode q with
      | none => rfl
      | some i => rw [Option.map_some, Option.map_some, update_of_ne (Nat.ne_of_lt (h.owned q i hi).2)]
  · intro i hi hpi
    rw [create_update, create_update, Net.create_new hn, Net.create_new hn₁]
    by_cases hin : i = fs.next
    · rw [hin, update_self, update_self, update_self]
    · rw [update_of_ne hin] at hpi
      have hlt := h.below i (hold i hi hin) hpi
      rw [update_of_ne hin, update_of_ne hin, update_of_ne (Nat.ne_of_lt hlt)]
      exact h.data i (hold i hi hin) hpi

/-- A file of the group is opened to write in both. -/
theorem Renames.create (h : Renames P owner φ fs fs₁) (hp : P p) : ∃ owner' φ',
    Renames P owner' φ' (fs.create p).1 (fs₁.create p).1 ∧ Grows owner φ fs owner' φ' (fs.create p).1 ∧
      OwnedBy owner' (fs.create p).1 p (some (fs.create p).2) ∧ (fs₁.create p).2 = φ' (fs.create p).2 := by
  have hinode := h.inode p hp
  cases hi : fs.inode p with
  | some i =>
    rw [hi] at hinode
    obtain ⟨howner, hlt⟩ := h.owned p i hi
    rw [create_same hi, create_same (show fs₁.inode p = some (φ i) from hinode)]
    refine ⟨owner, φ, h.update hlt (howner ▸ hp) [], ⟨Nat.le_refl _, fun _ _ => rfl, fun _ _ => rfl⟩, ?_, rfl⟩
    intro j hj
    cases hj
    exact ⟨howner, hlt⟩
  | none =>
    rw [hi] at hinode
    refine ⟨_, _, h.create_new hi hinode, .new p fs₁.next, ?_, ?_⟩
    · intro j hj
      rw [Net.create_new hi] at hj ⊢
      cases hj
      exact ⟨update_self .., Nat.lt_succ_self _⟩
    · rw [Net.create_new hi, Net.create_new hinode, update_self]

/-- A file that is not of the group is opened to write in the first. -/
theorem Renames.create_other (h : Renames P owner φ fs fs₁) (hp : ¬ P p) : ∃ owner' φ',
    Renames P owner' φ' (fs.create p).1 fs₁ ∧ Grows owner φ fs owner' φ' (fs.create p).1 ∧
      OwnedBy owner' (fs.create p).1 p (some (fs.create p).2) := by
  cases hi : fs.inode p with
  | some i =>
    obtain ⟨howner, hlt⟩ := h.owned p i hi
    rw [create_same hi]
    refine ⟨owner, φ, h.update_other (howner ▸ hp) [], ⟨Nat.le_refl _, fun _ _ => rfl, fun _ _ => rfl⟩, ?_⟩
    intro j hj
    cases hj
    exact ⟨howner, hlt⟩
  | none =>
    have hold : ∀ i, i < (fs.create p).1.next → P (Function.update owner fs.next p i) → i < fs.next ∧ P (owner i) := by
      intro i hlt hpi
      rw [Net.create_new hi] at hlt
      have hne : i ≠ fs.next := by
        intro he
        rw [he, update_self] at hpi
        exact hp hpi
      rw [update_of_ne hne] at hpi
      exact ⟨Nat.lt_of_le_of_ne (Nat.le_of_lt_succ hlt) hne, hpi⟩
    refine ⟨Function.update owner fs.next p, Function.update φ fs.next fs.next, ⟨?_, ?_, ?_, ?_, ?_⟩,
      .new p fs.next, ?_⟩
    · intro q i hq
      rw [Net.create_new hi]
      exact h.owned_new hi hq
    · intro i j hlt hlt' hpi hpj he
      obtain ⟨hi', hpi'⟩ := hold i hlt hpi
      obtain ⟨hj', hpj'⟩ := hold j hlt' hpj
      rw [update_of_ne (Nat.ne_of_lt hi'), update_of_ne (Nat.ne_of_lt hj')] at he
      exact h.inj i j hi' hj' hpi' hpj' he
    · intro i hlt hpi
      obtain ⟨hi', hpi'⟩ := hold i hlt hpi
      rw [update_of_ne (Nat.ne_of_lt hi')]
      exact h.below i hi' hpi'
    · intro q hq
      have hne : q ≠ p := fun he => hp (he ▸ hq)
      rw [(create_spec fs p).inode, if_neg hne, h.inode q hq]
      exact (OwnedBy.map (fun i he => h.owned q i he) (.new p fs.next)).symm
    · intro i hlt hpi
      obtain ⟨hi', hpi'⟩ := hold i hlt hpi
      rw [update_of_ne (Nat.ne_of_lt hi'), create_update, Net.create_new hi, update_of_ne (Nat.ne_of_lt hi')]
      exact h.data i hi' hpi'
    · intro j hj
      rw [Net.create_new hi] at hj ⊢
      cases hj
      exact ⟨update_self .., Nat.lt_succ_self _⟩

theorem Renames.append (h : Renames P owner φ fs fs₁) (hi : i < fs.next) (hp : P (owner i)) (bytes : Text) :
    Renames P owner φ (fs.append i bytes) (fs₁.append (φ i) bytes) := by
  unfold Fs.append
  rw [h.data i hi hp]
  exact h.update hi hp _

theorem Renames.remove (h : Renames P owner φ fs fs₁) (p : Text) : Renames P owner φ (fs.remove p) (fs₁.remove p) where
  owned q i hq := by
    rw [inode_remove] at hq
    split at hq
    · cases hq
    · exact h.owned q i hq
  inj := h.inj
  below := h.below
  inode q hq := by
    rw [inode_remove, inode_remove]
    split
    · rfl
    · exact h.inode q hq
  data := h.data

theorem Renames.remove_other (h : Renames P owner φ fs fs₁) (hp : ¬ P p) : Renames P owner φ (fs.remove p) fs₁ where
  owned q i hq := (h.remove p).owned q i hq
  inj := h.inj
  below := h.below
  inode q hq := by
    have hne : q ≠ p := fun he => hp (he ▸ hq)
    rw [inode_remove, if_neg hne]
    exact h.inode q hq
  data := h.data

/-! ## One event -/

structure Follows (P : Text → Prop) (owner : Nat → Text) (φ : Nat → Nat) (fs : Fs) (owner' : Nat → Text)
    (φ' : Nat → Nat) (fs' fs₁' : Fs) (c' : Client) : Prop where
  files : Renames P owner' φ' fs' fs₁'
  grows : Grows owner φ fs owner' φ' fs'
  owned : OwnedBy owner' fs' c'.filename c'.fp

theorem Renames.openFile (h : Renames P owner φ fs fs₁) (hP : P c.filename) (hd : C.direct c.filename = true)
    (hm : c.method.named) (hfp : c.fp = none) (ho : openFile C fs c = some (fs', c')) : ∃ owner' φ' fs₁',
    openFile C fs₁ c = some (fs₁', { c' with fp := c'.fp.map φ' }) ∧ Follows P owner φ fs owner' φ' fs' fs₁' c' := by
  unfold Net.openFile Config.create Config.inode Config.access Config.remove at *
  simp only [if_pos hd] at *
  rcases hm with hm | hm | hm <;> rw [hm] at ho ⊢ <;> dsimp only at ho ⊢
  · rw [h.inode _ hP]
    cases hi : fs.inode c.filename with
    | none =>
      rw [hi] at ho
      cases ho
      exact ⟨owner, φ, fs₁, rfl, h, .refl, .none⟩
    | some i =>
      rw [hi] at ho
      cases ho
      exact ⟨owner, φ, fs₁, rfl, h, .refl, fun j hj => h.owned _ j (hi.trans hj)⟩
  · cases ho
    obtain ⟨owner', φ', hr, hg, ho, he⟩ := h.create hP
    refine ⟨owner', φ', (fs₁.create c.filename).1, ?_, hr, hg, ho⟩
    rw [Option.map_some, Option.map_some, he]
  · rw [h.inode _ hP, Option.isSome_map]
    split at ho
    · rename_i hsome
      cases ho
      rw [if_pos hsome]
      refine ⟨owner, φ, fs₁.remove c.filename, ?_, h.remove _, ⟨Nat.le_refl _, fun _ _ => rfl, fun _ _ => rfl⟩, ?_⟩
      · simp [hfp]
      · show OwnedBy _ _ _ c.fp
        rw [hfp]
        exact .none
    · rename_i hnone
      cases ho
      rw [if_neg hnone]
      refine ⟨owner, φ, fs₁, ?_, h, .refl, ?_⟩
      · simp [hfp]
      · show OwnedBy _ _ _ c.fp
        rw [hfp]
        exact .none

theorem Renames.openFile_other (h : Renames P owner φ fs fs₁) (hP : ¬ P c.filename) (hd : C.direct c.filename = true)
    (hm : c.method.named) (hfp : c.fp = none) (ho : Net.openFile C fs c = some (fs', c')) : ∃ owner' φ',
    Follows P owner φ fs owner' φ' fs' fs₁ c' := by
  unfold Net.openFile Config.create Config.inode Config.access Config.remove at *
  simp only [if_pos hd] at *
  rcases hm with hm | hm | hm <;> rw [hm] at ho <;> dsimp only at ho
  · cases hi : fs.inode c.filename with
    | none =>
      rw [hi] at ho
      cases ho
      exact ⟨owner, φ, h, .refl, .none⟩
    | some i =>
      rw [hi] at ho
      cases ho
      exact ⟨owner, φ, h, .refl, fun j hj => h.owned _ j (hi.trans hj)⟩
  · cases ho
    obtain ⟨owner', φ', hr, hg, ho⟩ := h.create_other hP
    exact ⟨owner', φ', hr, hg, ho⟩
  · have hnone : ∀ fs₂, OwnedBy owner fs₂ c.filename c.fp := by
      intro fs₂
      rw [hfp]
      exact .none
    split at ho
    · cases ho
      exact ⟨owner, φ, h.remove_other hP, ⟨Nat.le_refl _, fun _ _ => rfl, fun _ _ => rfl⟩, hnone _⟩
    · cases ho
      exact ⟨owner, φ, h, .refl, hnone _⟩

/-- Nothing happens to the files, nor to the one that is open. -/
theorem Follows.idle (h : Renames P owner φ fs fs₁) (ho : OwnedBy owner fs c'.filename c'.fp) :
    Follows P owner φ fs owner φ fs fs₁ c' := ⟨h, .refl, ho⟩

/-- An open file has a name. -/
theorem Client.Named.group {G : Text → Prop} (hn : c.Named) (ho : OwnedBy owner fs c.filename c.fp)
    (hin : c.filename = [] ∨ G c.filename) (hi : c.fp = some i) : G (owner i) ∧ i < fs.next := by
  obtain ⟨howner, hlt⟩ := ho i hi
  rw [howner]
  refine ⟨hin.resolve_left (hn.named (Or.inl ?_)), hlt⟩
  rw [hi]
  exact Option.some_ne_none i

theorem Renames.readFilename (h : Renames P owner φ fs fs₁) (hn : c.Named) (hs : c.state = .readingFilename)
    (hin : c'.filename = [] ∨ P c'.filename) (hd : c'.filename = [] ∨ C.direct c'.filename = true)
    (hr : readFilename C fs c = some (fs', c')) : ∃ owner' φ' fs₁',
    Net.readFilename C fs₁ { c with fp := c.fp.map φ } = some (fs₁', { c' with fp := c'.fp.map φ' }) ∧
      Follows P owner φ fs owner' φ' fs' fs₁' c' := by
  obtain ⟨-, hfp⟩ := hn.fresh (by rw [hs]; decide)
  have hc : { c with fp := c.fp.map φ } = c := by
    rw [hfp, Option.map_none, ← hfp]
  rw [hc]
  rcases readFilename_same C c with hnone | hbad | ⟨c₁, hne, hm, hfp₁, hopen⟩
  · rw [hnone] at hr
    cases hr
  · rw [hbad] at hr ⊢
    cases hr
    refine ⟨owner, φ, fs₁, ?_, .idle h ?_⟩
    · simp [hfp]
    · show OwnedBy _ _ _ c.fp
      rw [hfp]
      exact .none
  · rw [hopen] at hr ⊢
    have hm₁ : c₁.method.named := hm ▸ hn.method hs
    obtain ⟨hname, -, -⟩ := openFile_fields hm₁ hr
    rw [hname] at hin hd
    exact h.openFile (hin.resolve_left hne) (hd.resolve_left hne) hm₁ (hfp₁.trans hfp) hr

theorem Renames.readFilename_other (h : Renames P owner φ fs fs₁) (hn : c.Named) (hs : c.state = .readingFilename)
    (hout : c'.filename = [] ∨ ¬ P c'.filename) (hd : c'.filename = [] ∨ C.direct c'.filename = true)
    (hr : Net.readFilename C fs c = some (fs', c')) : ∃ owner' φ', Follows P owner φ fs owner' φ' fs' fs₁ c' := by
  obtain ⟨-, hfp⟩ := hn.fresh (by rw [hs]; decide)
  rcases readFilename_same C c with hnone | hbad | ⟨c₁, hne, hm, hfp₁, hopen⟩
  · rw [hnone] at hr
    cases hr
  · rw [hbad] at hr
    cases hr
    refine ⟨owner, φ, .idle h ?_⟩
    show OwnedBy _ _ _ c.fp
    rw [hfp]
    exact .none
  · rw [hopen] at hr
    have hm₁ : c₁.method.named := hm ▸ hn.method hs
    obtain ⟨hname, -, -⟩ := openFile_fields hm₁ hr
    rw [hname] at hout hd
    exact h.openFile_other (hout.resolve_left hne) (hd.resolve_left hne) hm₁ (hfp₁.trans hfp) hr

/-- The file stays the one that is open. -/
theorem Follows.kept {c₁ : Client} {fp : Option Nat} (h : Renames P owner φ fs' fs₁) (hnext : fs'.next = fs.next)
    (ho : OwnedBy owner fs p fp) (hname : c₁.filename = p) :
    Follows P owner φ fs owner φ fs' fs₁ { c₁ with fp } where
  files := h
  grows := ⟨Nat.le_of_eq hnext.symm, fun _ _ => rfl, fun _ _ => rfl⟩
  owned i hi := by
    rw [hnext]
    exact ⟨(ho i hi).1.trans hname.symm, (ho i hi).2⟩

theorem Renames.readData (h : Renames P owner φ fs fs₁) (hn : c.Named)
    (ho : OwnedBy owner fs c.filename c.fp) (hP : P c.filename) (hd : C.direct c.filename = true)
    (hr : readData C fs c = some (fs', c')) : ∃ fs₁',
    Net.readData C fs₁ { c with fp := c.fp.map φ } = some (fs₁', { c' with fp := c'.fp.map φ }) ∧
      Follows P owner φ fs owner φ fs' fs₁' c' := by
  rcases readData_same C c with hnone | ⟨c₁, hname, -, -, hw⟩
  · rw [show Net.readData C fs c = none from hnone fs c.fp] at hr
    cases hr
  cases hw with
  | empty hw =>
    cases (hw fs c.fp).symm.trans hr
    refine ⟨C.remove fs₁ c.filename, hw fs₁ (c.fp.map φ), ?_⟩
    unfold Config.remove
    rw [if_pos hd, if_pos hd]
    exact .kept (h.remove _) rfl ho hname
  | bytes bytes hw =>
    obtain ⟨i, hi, he⟩ := Option.map_eq_some_iff.mp ((hw fs c.fp).symm.trans hr)
    obtain ⟨hPi, hlt⟩ := hn.group ho (Or.inr hP) hi
    cases he
    refine ⟨fs₁.append (φ i) bytes, ?_, .kept (h.append hlt hPi bytes) rfl ho hname⟩
    rw [hw, hi]
    rfl
  | refused bytes hw =>
    obtain ⟨i, hi, he⟩ := Option.map_eq_some_iff.mp ((hw fs c.fp).symm.trans hr)
    obtain ⟨hPi, hlt⟩ := hn.group ho (Or.inr hP) hi
    cases he
    refine ⟨C.remove (fs₁.append (φ i) bytes) c.filename, ?_, ?_⟩
    · rw [hw, hi]
      rfl
    · unfold Config.remove
      rw [if_pos hd, if_pos hd]
      exact .kept ((h.append hlt hPi bytes).remove _) rfl ho hname

theorem Renames.readData_other (h : Renames P owner φ fs fs₁) (ho : OwnedBy owner fs c.filename c.fp)
    (hP : ¬ P c.filename) (hd : C.direct c.filename = true) (hr : Net.readData C fs c = some (fs', c')) :
    Follows P owner φ fs owner φ fs' fs₁ c' := by
  have hPi : ∀ i, c.fp = some i → ¬ P (owner i) := by
    intro i hi
    rw [(ho i hi).1]
    exact hP
  rcases readData_same C c with hnone | ⟨c₁, hname, -, -, hw⟩
  · rw [show Net.readData C fs c = none from hnone fs c.fp] at hr
    cases hr
  cases hw with
  | empty hw =>
    cases (hw fs c.fp).symm.trans hr
    unfold Config.remove
    rw [if_pos hd]
    exact .kept (h.remove_other hP) rfl ho hname
  | bytes bytes hw =>
    obtain ⟨i, hi, he⟩ := Option.map_eq_some_iff.mp ((hw fs c.fp).symm.trans hr)
    cases he
    exact .kept (h.update_other (hPi i hi) _) rfl ho hname
  | refused bytes hw =>
    obtain ⟨i, hi, he⟩ := Option.map_eq_some_iff.mp ((hw fs c.fp).symm.trans hr)
    cases he
    unfold Config.remove
    rw [if_pos hd]
    exact .kept ((h.update_other (hPi i hi) _).remove_other hP) rfl ho hname

theorem Renames.sendGetResponse {sends : List Send} (h : Renames P owner φ fs fs₁)
    (hP : ∀ i, c.fp = some i → P (owner i) ∧ i < fs.next) (hd : c.fp ≠ none → C.direct c.filename = true)
    (hg : sendGetResponse C fs c = some (c', sends)) :
    Net.sendGetResponse C fs₁ { c with fp := c.fp.map φ } = some ({ c' with fp := c'.fp.map φ }, sends) := by
  obtain ⟨i, hi, he⟩ := Option.map_eq_some_iff.mp hg
  obtain ⟨hPi, hlt⟩ := hP i hi
  have hdir : ∀ j, C.directory c.filename j = none := fun j => if_pos (hd (by simp [hi]))
  cases he
  unfold Net.sendGetResponse
  simp only [hi, Option.map_some, ftell_file (hdir _), fread_file (hdir _), h.data i hlt hPi]

/-- A reply that is not a listing is the same in both. -/
theorem Renames.writeResponse {sends : List Send} {e : Event} (h : Renames P owner φ fs fs₁)
    (hP : ∀ i, c.fp = some i → P (owner i) ∧ i < fs.next) (hd : c.fp ≠ none → C.direct c.filename = true)
    (hl : c.method ≠ .list) (hw : writeResponse C fs c e = some (c', sends)) :
    Net.writeResponse C fs₁ { c with fp := c.fp.map φ } e = some ({ c' with fp := c'.fp.map φ }, sends) := by
  by_cases hget : c.errorType = none ∧ c.method = .get
  · obtain ⟨ht, hm⟩ := hget
    have hsame : ∀ fs fp, Net.writeResponse C fs { c with fp } e = Net.sendGetResponse C fs { c with fp } := by
      intro fs fp
      simp only [Net.writeResponse, ht, hm]
    rw [hsame]
    exact h.sendGetResponse hP hd ((hsame fs c.fp).symm.trans hw)
  unfold Net.writeResponse at *
  dsimp only
  cases ht : c.errorType with
  | some t =>
    rw [ht] at hw
    cases hw
    rfl
  | none =>
    rw [ht] at hw
    cases hm : c.method with
    | list => exact absurd hm hl
    | get => exact absurd ⟨ht, hm⟩ hget
    | put | delete | unknown =>
      rw [hm] at hw
      cases hw
      rfl

/-- A name that is of a group now was before, if it was there. -/
theorem Keeps.group {G : Text → Prop} (h : Keeps c c') (hin : c'.filename = [] ∨ G c'.filename) :
    c.filename = [] ∨ G c.filename := by
  by_cases hne : c.filename = []
  · exact Or.inl hne
  · rw [h.filename hne] at hin
    exact hin

/-- One turn of a connection of the group, in both directories. -/
theorem Renames.process {sends : List Send} {e : Event} (h : Renames P owner φ fs fs₁) (hn : c.Named)
    (ho : OwnedBy owner fs c.filename c.fp) (hin : c'.filename = [] ∨ P c'.filename)
    (hd : c'.filename = [] ∨ C.direct c'.filename = true) (hl : c'.method ≠ .list)
    (hp : processRequest C fs c e = some (fs', c', sends)) : ∃ owner' φ' fs₁',
    processRequest C fs₁ { c with fp := c.fp.map φ } e = some (fs₁', { c' with fp := c'.fp.map φ' }, sends) ∧
      Follows P owner φ fs owner' φ' fs' fs₁' c' := by
  have hkeeps := (process_named hn hp).2
  obtain ⟨c₁, hc₁⟩ : ∃ c₁, c₁ = { c with fp := c.fp.map φ } := ⟨_, rfl⟩
  have hs₁ : c₁.state = c.state := by rw [hc₁]
  rw [← hc₁]
  unfold processRequest at *
  rw [hs₁]
  cases hs : c.state with
  | readingVerb =>
    rw [hs] at hp
    cases hp
    obtain ⟨hfp, hname, -⟩ := readVerb_fields c
    refine ⟨owner, φ, fs₁, ?_, .idle h ?_⟩
    · rw [hc₁, readVerb_fp, hfp]
    · rw [hfp, hname]
      exact ho
  | readingFilename =>
    rw [hs] at hp
    obtain ⟨⟨fs₂, c₂⟩, hr, he⟩ := Option.map_eq_some_iff.mp hp
    cases he
    obtain ⟨owner', φ', fs₁', hr', hf⟩ := h.readFilename hn hs hin hd hr
    refine ⟨owner', φ', fs₁', ?_, hf⟩
    rw [hc₁, hr']
    rfl
  | readingSize =>
    rw [hs] at hp
    obtain ⟨c₂, hr, he⟩ := Option.map_eq_some_iff.mp hp
    unfold readSize at *
    split at hr
    · rename_i hm
      cases he
      cases hr
      refine ⟨owner, φ, fs₁, ?_, .idle h ho⟩
      rw [hc₁, if_pos hm]
      rfl
    · cases hr
  | readingData =>
    rw [hs] at hp
    obtain ⟨⟨fs₂, c₂⟩, hr, he⟩ := Option.map_eq_some_iff.mp hp
    cases he
    have hne := hn.named (Or.inr (Or.inr hs))
    obtain ⟨fs₁', hr', hf⟩ := h.readData hn ho ((hkeeps.group hin).resolve_left hne)
      ((hkeeps.group (G := fun p => C.direct p = true) hd).resolve_left hne) hr
    refine ⟨owner, φ, fs₁', ?_, hf⟩
    rw [hc₁, hr']
    rfl
  | writingResponse =>
    rw [hs] at hp
    obtain ⟨⟨c₂, sends₂⟩, hw, he⟩ := Option.map_eq_some_iff.mp hp
    cases he
    obtain ⟨hfp, -, -, hname⟩ := writeResponse_same hw
    have hdirect : c.fp ≠ none → C.direct c.filename = true := fun hopen =>
      (hkeeps.group (G := fun p => C.direct p = true) hd).resolve_left (hn.named (Or.inl hopen))
    have hw' := h.writeResponse (fun i hi => hn.group ho (hkeeps.group hin) hi) hdirect
      (fun hm => hl (hkeeps.list hm)) hw
    refine ⟨owner, φ, fs₁, ?_, .idle h ?_⟩
    · rw [hc₁, hw']
      rfl
    · rw [hfp, hname]
      exact ho
  | complete =>
    rw [hs] at hp
    cases hp
    exact ⟨owner, φ, fs₁, by rw [hc₁], .idle h ho⟩

/-- One turn of another connection, in the first directory only. -/
theorem Renames.process_other {sends : List Send} {e : Event} (h : Renames P owner φ fs fs₁) (hn : c.Named)
    (ho : OwnedBy owner fs c.filename c.fp) (hout : c'.filename = [] ∨ ¬ P c'.filename)
    (hd : c'.filename = [] ∨ C.direct c'.filename = true)
    (hp : processRequest C fs c e = some (fs', c', sends)) : ∃ owner' φ',
    Follows P owner φ fs owner' φ' fs' fs₁ c' := by
  have hkeeps := (process_named hn hp).2
  unfold processRequest at hp
  cases hs : c.state with
  | readingVerb =>
    rw [hs] at hp
    cases hp
    obtain ⟨hfp, hname, -⟩ := readVerb_fields c
    refine ⟨owner, φ, .idle h ?_⟩
    rw [hfp, hname]
    exact ho
  | readingFilename =>
    rw [hs] at hp
    obtain ⟨⟨fs₂, c₂⟩, hr, he⟩ := Option.map_eq_some_iff.mp hp
    cases he
    exact h.readFilename_other hn hs hout hd hr
  | readingSize =>
    rw [hs] at hp
    obtain ⟨c₂, hr, he⟩ := Option.map_eq_some_iff.mp hp
    unfold readSize at hr
    split at hr
    · cases he
      cases hr
      exact ⟨owner, φ, .idle h ho⟩
    · cases hr
  | readingData =>
    rw [hs] at hp
    obtain ⟨⟨fs₂, c₂⟩, hr, he⟩ := Option.map_eq_some_iff.mp hp
    cases he
    have hne := hn.named (Or.inr (Or.inr hs))
    exact ⟨owner, φ, h.readData_other ho ((hkeeps.group (G := fun p => ¬ P p) hout).resolve_left hne)
      ((hkeeps.group (G := fun p => C.direct p = true) hd).resolve_left hne) hr⟩
  | writingResponse =>
    rw [hs] at hp
    obtain ⟨⟨c₂, sends₂⟩, hw, he⟩ := Option.map_eq_some_iff.mp hp
    cases he
    obtain ⟨hfp, -, -, hname⟩ := writeResponse_same hw
    refine ⟨owner, φ, .idle h ?_⟩
    rw [hfp, hname]
    exact ho
  | complete =>
    rw [hs] at hp
    cases hp
    exact ⟨owner, φ, .idle h ho⟩

def Conn.renamed (k : Conn) (φ : Nat → Nat) (calls : List FileCall) : Conn :=
  { k with client := { k.client with fp := k.client.fp.map φ }, calls }

theorem receive_client (k : Conn) (chunks : List Nat) : ∃ buffer bufferSize stream,
    receive k chunks = { k with client := { k.client with buffer, bufferSize }, stream } := by
  unfold receive
  split
  · exact ⟨_, _, _, rfl⟩
  · exact ⟨k.client.buffer, k.client.bufferSize, k.stream, rfl⟩

theorem receive_renamed (k : Conn) (φ : Nat → Nat) (calls : List FileCall) (chunks : List Nat) :
    receive (k.renamed φ calls) chunks = (receive k chunks).renamed φ calls := by
  unfold receive Conn.renamed
  dsimp only
  split <;> rfl

theorem Client.Named.received (h : k.client.Named) (chunks : List Nat) : (receive k chunks).client.Named := by
  obtain ⟨buffer, bufferSize, stream, hc⟩ := receive_client k chunks
  rw [hc]
  exact ⟨h.unread, h.method, h.fresh, h.named⟩

theorem handle_named {e : Event} (h : k.client.Named) (hk : handleClientRequest C (fs, k) e = some (fs', k')) :
    k'.client.Named ∧ Keeps k.client k'.client := by
  rcases handle_cases hk with ⟨-, -, rfl⟩ | ⟨-, c, sends, hp, rfl⟩
  · exact ⟨h, .refl _⟩
  · obtain ⟨hnamed, hkeeps⟩ := process_named (h.received e.chunks) hp
    obtain ⟨buffer, bufferSize, stream, hc⟩ := receive_client k e.chunks
    rw [hc] at hkeeps
    exact ⟨hnamed, hkeeps.filename, hkeeps.list⟩

theorem OwnedBy.received {chunks : List Nat} (h : OwnedBy owner fs k.client.filename k.client.fp) :
    OwnedBy owner fs (receive k chunks).client.filename (receive k chunks).client.fp := by
  obtain ⟨buffer, bufferSize, stream, hc⟩ := receive_client k chunks
  rw [hc]
  exact h

theorem Renames.handle {e : Event} (h : Renames P owner φ fs fs₁) (hn : k.client.Named)
    (ho : OwnedBy owner fs k.client.filename k.client.fp) (hin : k'.client.filename = [] ∨ P k'.client.filename)
    (hd : k'.client.filename = [] ∨ C.direct k'.client.filename = true) (hl : k'.client.method ≠ .list)
    (hk : handleClientRequest C (fs, k) e = some (fs', k')) (calls : List FileCall) : ∃ owner' φ' fs₁' calls',
    handleClientRequest C (fs₁, k.renamed φ calls) e = some (fs₁', k'.renamed φ' calls') ∧
      Follows P owner φ fs owner' φ' fs' fs₁' k'.client := by
  rcases handle_cases hk with ⟨hc, rfl, rfl⟩ | ⟨hc, c, sends, hp, rfl⟩
  · exact ⟨owner, φ, fs₁, calls, if_pos hc, .idle h ho⟩
  · obtain ⟨owner', φ', fs₁', hp', hf⟩ := h.process (hn.received e.chunks) ho.received hin hd hl hp
    refine ⟨owner', φ', fs₁', calls ++ fileCalls C fs₁ ((receive k e.chunks).renamed φ calls).client, ?_, hf⟩
    unfold handleClientRequest
    rw [if_neg (show ¬ (k.renamed φ calls).client.state = .complete from hc)]
    dsimp only
    rw [receive_renamed]
    show (processRequest C fs₁ { (receive k e.chunks).client with fp := _ } e).map _ = _
    rw [hp']
    obtain ⟨buffer, bufferSize, stream, hc⟩ := receive_client k e.chunks
    rw [hc]
    rfl

theorem Renames.handle_other {e : Event} (h : Renames P owner φ fs fs₁) (hn : k.client.Named)
    (ho : OwnedBy owner fs k.client.filename k.client.fp) (hout : k'.client.filename = [] ∨ ¬ P k'.client.filename)
    (hd : k'.client.filename = [] ∨ C.direct k'.client.filename = true)
    (hk : handleClientRequest C (fs, k) e = some (fs', k')) : ∃ owner' φ',
    Follows P owner φ fs owner' φ' fs' fs₁ k'.client := by
  rcases handle_cases hk with ⟨hc, rfl, rfl⟩ | ⟨hc, c, sends, hp, rfl⟩
  · exact ⟨owner, φ, .idle h ho⟩
  · exact h.process_other (hn.received e.chunks) ho.received hout hd hp

/-! ## All connections -/

/-- Initially, no file has two names. -/
structure Fs.Unlinked (fs : Fs) : Prop where
  below : ∀ p i, fs.inode p = some i → i < fs.next
  single : ∀ p q i, fs.inode p = some i → fs.inode q = some i → p = q

/-- The connections of the group `J` name files of `P`, and the others name others. -/
structure Apart (C : Config) (J : Nat → Bool) (P : Text → Prop) (s : Server) : Prop where
  direct : ∀ k ∈ s.conns, k.conn.client.filename = [] ∨ C.direct k.conn.client.filename = true
  inside : ∀ (i : Nat) (k : Served), s.conns[i]? = some k → J i = true →
    (k.conn.client.filename = [] ∨ P k.conn.client.filename) ∧ k.conn.client.method ≠ .list
  outside : ∀ (i : Nat) (k : Served), s.conns[i]? = some k → J i = false →
    k.conn.client.filename = [] ∨ ¬ P k.conn.client.filename

/-- All are accepted, and only those of the group have events. -/
def Label.ofGroup (J : Nat → Bool) : Label → Bool
  | .accept .. => true
  | .occur i _ => J i

def Server.Named (s : Server) : Prop := ∀ k ∈ s.conns, k.conn.client.Named

/-- The two servers, one with all events and one with those of the group. -/
structure Split (P : Text → Prop) (J : Nat → Bool) (owner : Nat → Text) (φ : Nat → Nat) (s t : Server) : Prop where
  files : Renames P owner φ s.fs t.fs
  owned : ∀ k ∈ s.conns, OwnedBy owner s.fs k.conn.client.filename k.conn.client.fp
  length : t.conns.length = s.conns.length
  conns : ∀ (i : Nat) (k : Served), J i = true → s.conns[i]? = some k →
    ∃ calls, t.conns[i]? = some { k with conn := k.conn.renamed φ calls }

variable {J : Nat → Bool} {s s' t : Server}

theorem newConnection_named (buffer : Mem) (input : Text) : (newConnection buffer input).client.Named where
  unread _ := rfl
  method h := by cases h
  fresh _ := ⟨rfl, rfl⟩
  named h := by simp [newConnection] at h

/-- One step of the event loop: each connection that there was keeps what it has named. -/
theorem step_named {a : Label} (h : s.Named) (hs : Server.step C s a = some s') : s'.Named ∧
    ∀ (i : Nat) (k : Served), s.conns[i]? = some k →
      ∃ k' : Served, s'.conns[i]? = some k' ∧ Keeps k.conn.client k'.conn.client := by
  rcases step_cases hs with ⟨buffer, input, -, rfl⟩ | ⟨j, o, kj, fs, kj', -, hj, hocc, rfl⟩
  · refine ⟨?_, ?_⟩
    · intro k hk
      rcases List.mem_append.mp hk with hk | hk
      · exact h k hk
      · rw [List.mem_singleton.mp hk]
        exact newConnection_named buffer input
    · intro i k hk
      have hlt := (List.getElem?_eq_some_iff.mp hk).1
      exact ⟨k, by rw [List.getElem?_append_left hlt]; exact hk, .refl _⟩
  · have hturn : kj'.conn.client.Named ∧ Keeps kj.conn.client kj'.conn.client := by
      have hn := h kj (List.mem_of_getElem? hj)
      rcases occur_cases hocc with ⟨-, ⟨e, conn, -, hhandle, rfl⟩ | ⟨-, -, rfl⟩⟩
      · exact handle_named hn hhandle
      · exact ⟨hn, .refl _⟩
    have hlt := (List.getElem?_eq_some_iff.mp hj).1
    refine ⟨?_, ?_⟩
    · intro k hk
      rcases List.mem_or_eq_of_mem_set hk with hk | rfl
      · exact h k hk
      · exact hturn.1
    · intro i k hk
      rw [List.getElem?_set, if_pos hlt]
      split
      · rename_i hij
        subst hij
        cases hj.symm.trans hk
        exact ⟨kj', rfl, hturn.2⟩
      · exact ⟨k, hk, .refl _⟩

/-- Connections that are apart after a step were before. -/
theorem Apart.back {a : Label} (hn : s.Named) (hs : Server.step C s a = some s') (h : Apart C J P s') :
    Apart C J P s := by
  have hkeeps := (step_named hn hs).2
  refine ⟨?_, ?_, ?_⟩
  · intro k hk
    obtain ⟨i, hi⟩ := List.mem_iff_getElem?.mp hk
    obtain ⟨k', hk', hkeep⟩ := hkeeps i k hi
    exact hkeep.group (G := fun p => C.direct p = true) (h.direct k' (List.mem_of_getElem? hk'))
  · intro i k hi hJ
    obtain ⟨k', hk', hkeep⟩ := hkeeps i k hi
    obtain ⟨hin, hl⟩ := h.inside i k' hk' hJ
    exact ⟨hkeep.group hin, fun hm => hl (hkeep.list hm)⟩
  · intro i k hi hJ
    obtain ⟨k', hk', hkeep⟩ := hkeeps i k hi
    exact hkeep.group (G := fun p => ¬ P p) (h.outside i k' hk' hJ)

/-- A connection has had an event; the second server has that of one of the group. -/
theorem Split.set {k kn : Served} {conns₁ : List Served} (h : Split P J owner φ s t) (hk : s.conns[i]? = some k)
    (hf : Follows P owner φ s.fs owner' φ' fs' fs₁ kn.conn.client) (hlen : conns₁.length = t.conns.length)
    (hsame : ∀ j, j ≠ i → conns₁[j]? = t.conns[j]?)
    (hnew : J i = true → ∃ calls, conns₁[i]? = some { kn with conn := kn.conn.renamed φ' calls }) :
    Split P J owner' φ' ⟨fs', s.conns.set i kn⟩ ⟨fs₁, conns₁⟩ := by
  have hlt := (List.getElem?_eq_some_iff.mp hk).1
  refine ⟨hf.files, ?_, ?_, ?_⟩
  · intro m hm
    rcases List.mem_or_eq_of_mem_set hm with hm | rfl
    · exact (h.owned m hm).grows hf.grows
    · exact hf.owned
  · rw [List.length_set]
    exact hlen.trans h.length
  · intro j m hJ hj
    by_cases hij : j = i
    · subst hij
      rw [List.getElem?_set_self hlt] at hj
      cases hj
      exact hnew hJ
    · rw [List.getElem?_set_ne (Ne.symm hij)] at hj
      obtain ⟨calls, hc⟩ := h.conns j m hJ hj
      refine ⟨calls, (hsame j hij).trans ?_⟩
      unfold Conn.renamed
      rw [(h.owned m (List.mem_of_getElem? hj)).map hf.grows]
      exact hc

/-- A connection has come in both servers. -/
theorem Split.accept (h : Split P J owner φ s t) (buffer : Mem) (input : Text) :
    Split P J owner φ { s with conns := s.conns ++ [⟨newConnection buffer input, input, false⟩] }
      { t with conns := t.conns ++ [⟨newConnection buffer input, input, false⟩] } where
  files := h.files
  owned k hk := by
    rcases List.mem_append.mp hk with hk | hk
    · exact h.owned k hk
    · rw [List.mem_singleton.mp hk]
      exact .none
  length := by
    rw [List.length_append, List.length_append, h.length]
  conns i k hJ hi := by
    rcases Nat.lt_or_ge i s.conns.length with hlt | hge
    · rw [List.getElem?_append_left hlt] at hi
      rw [List.getElem?_append_left (h.length ▸ hlt)]
      exact h.conns i k hJ hi
    · rw [List.getElem?_append_right hge] at hi
      rw [List.getElem?_append_right (h.length ▸ hge), h.length]
      have hk := List.mem_singleton.mp (List.mem_of_getElem? hi)
      refine ⟨[], ?_⟩
      rw [hi, hk]
      rfl

/-- A step of the group, in both servers. -/
theorem Split.mine {a : Label} (h : Split P J owner φ s t) (hm : a.ofGroup J = true) (hn : s.Named)
    (ha : Apart C J P s') (hs : Server.step C s a = some s') :
    ∃ t' owner' φ', Server.step C t a = some t' ∧ Split P J owner' φ' s' t' := by
  rcases step_cases hs with ⟨buffer, input, rfl, rfl⟩ | ⟨i, o, k, fs', kn, rfl, hk, hocc, rfl⟩
  · exact ⟨_, owner, φ, rfl, h.accept buffer input⟩
  have hJ : J i = true := hm
  have hlt := (List.getElem?_eq_some_iff.mp hk).1
  have hmem := List.mem_of_getElem? hk
  have hat : (s.conns.set i kn)[i]? = some kn := List.getElem?_set_self hlt
  obtain ⟨calls, hk₁⟩ := h.conns i k hJ hk
  have hlt₁ := (List.getElem?_eq_some_iff.mp hk₁).1
  obtain ⟨hgone, hturn⟩ := occur_cases hocc
  have hstep : ∀ fs₁ k₁, occur C t.fs { k with conn := k.conn.renamed φ calls } o = some (fs₁, k₁) →
      Server.step C t (.occur i o) = some ⟨fs₁, t.conns.set i k₁⟩ := by
    intro fs₁ k₁ ho
    show t.conns[i]?.bind _ = _
    rw [hk₁, Option.bind_some, ho]
    rfl
  have hsplit : ∀ owner' φ' fs₁ calls', Follows P owner φ s.fs owner' φ' fs' fs₁ kn.conn.client →
      Split P J owner' φ' ⟨fs', s.conns.set i kn⟩
        ⟨fs₁, t.conns.set i { kn with conn := kn.conn.renamed φ' calls' }⟩ := by
    intro owner' φ' fs₁ calls' hf
    refine h.set hk hf (List.length_set ..) ?_ ?_
    · intro j hj
      exact List.getElem?_set_ne (Ne.symm hj)
    · exact fun _ => ⟨calls', List.getElem?_set_self hlt₁⟩
  rcases hturn with ⟨e, conn, rfl, hhandle, rfl⟩ | ⟨rfl, rfl, rfl⟩
  · obtain ⟨hin, hl⟩ := ha.inside i _ hat hJ
    have hd := ha.direct _ (List.mem_of_getElem? hat)
    obtain ⟨owner', φ', fs₁', calls', hh, hf⟩ := h.files.handle (hn k hmem) (h.owned k hmem) hin hd hl hhandle calls
    refine ⟨_, owner', φ', hstep fs₁' { k with conn := conn.renamed φ' calls' } ?_, hsplit owner' φ' fs₁' calls' hf⟩
    unfold occur
    rw [if_neg (by rw [hgone]; decide)]
    dsimp only
    rw [hh]
    rfl
  · refine ⟨_, owner, φ, hstep t.fs { k with conn := k.conn.renamed φ calls, gone := true } ?_,
      hsplit owner φ t.fs calls (.idle h.files (h.owned k hmem))⟩
    unfold occur
    rw [if_neg (by rw [hgone]; decide)]

/-- A step of another connection, in the first server only. -/
theorem Split.other {a : Label} (h : Split P J owner φ s t) (hm : a.ofGroup J = false) (hn : s.Named)
    (ha : Apart C J P s') (hs : Server.step C s a = some s') : ∃ owner' φ', Split P J owner' φ' s' t := by
  rcases step_cases hs with ⟨buffer, input, rfl, rfl⟩ | ⟨i, o, k, fs', kn, rfl, hk, hocc, rfl⟩
  · cases hm
  have hJ : J i = false := hm
  have hlt := (List.getElem?_eq_some_iff.mp hk).1
  have hmem := List.mem_of_getElem? hk
  have hat : (s.conns.set i kn)[i]? = some kn := List.getElem?_set_self hlt
  have hnew : ∀ φ', J i = true → ∃ calls, t.conns[i]? = some { kn with conn := kn.conn.renamed φ' calls } := by
    intro φ' htrue
    rw [hJ] at htrue
    cases htrue
  rcases (occur_cases hocc).2 with ⟨e, conn, rfl, hhandle, rfl⟩ | ⟨rfl, rfl, rfl⟩
  · have hd := ha.direct _ (List.mem_of_getElem? hat)
    obtain ⟨owner', φ', hf⟩ := h.files.handle_other (hn k hmem) (h.owned k hmem) (ha.outside i _ hat hJ) hd hhandle
    exact ⟨owner', φ', h.set hk hf rfl (fun _ _ => rfl) (hnew φ')⟩
  · exact ⟨owner, φ, h.set hk (.idle h.files (h.owned k hmem)) rfl (fun _ _ => rfl) (hnew φ)⟩

/-- The directory at first is its own copy. -/
theorem Fs.Unlinked.split (h : fs.Unlinked) : ∃ owner, Split P J owner id ⟨fs, []⟩ ⟨fs, []⟩ := by
  classical
  refine ⟨fun i => if hp : ∃ p, fs.inode p = some i then hp.choose else [], ⟨?_, ?_, ?_, ?_, ?_⟩, ?_, rfl, ?_⟩
  · intro q i hq
    have hp : ∃ p, fs.inode p = some i := ⟨q, hq⟩
    dsimp only
    rw [dif_pos hp]
    exact ⟨h.single _ _ i hp.choose_spec hq, h.below q i hq⟩
  · exact fun i j _ _ _ _ he => he
  · exact fun i hi _ => hi
  · intro q _
    rw [Option.map_id]
    rfl
  · exact fun i _ _ => rfl
  · intro k hk
    cases hk
  · intro i k _ hk
    cases hk

/-- One file is put and got, and another is put between those events. -/
def twoNames : List Label :=
  [.accept (fun _ => 0) (putStream (ascii ['a']) 2 (ascii ['x', 'y'])),
    .accept (fun _ => 0) (putStream (ascii ['b']) 1 (ascii ['z'])),
    .accept (fun _ => 0) (requestLine (ascii ['G', 'E', 'T']) (ascii ['a']))] ++
  eventsOf [1, 0, 1, 0, 1, 0, 0, 2, 1, 0, 2, 1, 2]

def butSecond (i : Nat) : Bool := i != 1

end SysProg.Net
