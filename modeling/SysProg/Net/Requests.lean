/-
  SysProg.Net.Requests — what each request of the client comes to.

  The header is a verb and a name on one line; for a PUT the size and the contents
  follow. The first event reads a block, in which header and contents may be mixed; the
  rest of the contents arrive as they may. Each `serves_…_request` says, for any state of
  the files, what the reply is and what is then in the files.
-/

import SysProg.Net.Serving

namespace SysProg.Net

open Function (update)
open SysProg.Bytes (Mem load store leDecode leEncode leEncode_length leDecode_leEncode)

variable {C : Config} {Post : Fs → Text → Prop} {fs : Fs} {k : Conn}

/-! ## The header of a request -/

structure ValidName (name : Text) : Prop where
  ne : name ≠ []
  length : name.length ≤ 200
  noSlash : slash ∉ name
  noNewline : newline ∉ name
  noNul : 0 ∉ name
  notDot : name ≠ ascii ['.']
  notDotDot : name ≠ ascii ['.', '.']

structure FileName (name : Text) : Prop where
  ne : name ≠ []
  length : name.length ≤ maxFilename
  noSlash : slash ∉ name
  noNewline : newline ∉ name
  noNul : 0 ∉ name
  notDot : name ≠ ascii ['.']
  notDotDot : name ≠ ascii ['.', '.']

theorem ValidName.fileName {name : Text} (h : ValidName name) : FileName name :=
  ⟨h.ne, Nat.le_trans h.length (by decide), h.noSlash, h.noNewline, h.noNul, h.notDot, h.notDotDot⟩

def path (C : Config) (name : Text) : Text := C.tempDirectory ++ slash :: name

theorem path_drop (C : Config) (name : Text) : (path C name).drop (C.tempDirectory.length + 1) = name := by
  have hsplit : path C name = (C.tempDirectory ++ [slash]) ++ name := by simp [path]
  rw [hsplit, List.drop_left']
  rw [List.length_append, List.length_singleton]

theorem FileName.direct {name : Text} (h : FileName name) : C.direct (path C name) = true := by
  unfold Config.direct
  rw [path_drop]
  unfold plainName
  simp [h.ne, h.notDot, h.notDotDot, h.noSlash, h.length]

theorem FileName.isFile {name : Text} {i : Nat} (h : FileName name) : C.directory (path C name) i = none :=
  if_pos h.direct

/-- The search passes the bytes that are neither what it looks for nor the end. -/
theorem strchr_skip {m : Mem} {ch : UInt8} {left a n : Nat} (hn : n ≤ left)
    (hno : ∀ i, i < n → m (a + i) ≠ ch ∧ m (a + i) ≠ 0) : strchr m ch left a = strchr m ch (left - n) (a + n) := by
  induction n generalizing left a with
  | zero => rfl
  | succ n ih =>
    cases left with
    | zero => cases hn
    | succ left =>
      have h0 := hno 0 (Nat.succ_pos n)
      rw [Nat.add_zero] at h0
      have hrest : ∀ i, i < n → m (a + 1 + i) ≠ ch ∧ m (a + 1 + i) ≠ 0 := by
        intro i hi
        rw [Nat.add_assoc, Nat.add_comm 1 i]
        exact hno (i + 1) (Nat.succ_lt_succ hi)
      rw [strchr, if_neg h0.1, if_neg h0.2, ih (Nat.le_of_succ_le_succ hn) hrest, Nat.add_sub_add_right, Nat.add_assoc,
        Nat.add_comm 1 n]

theorem strchr_spec {m : Mem} {ch : UInt8} {left a n : Nat} (hn : n < left) (hat : m (a + n) = ch)
    (hno : ∀ i, i < n → m (a + i) ≠ ch ∧ m (a + i) ≠ 0) : strchr m ch left a = some (some (a + n)) := by
  obtain ⟨k, hk⟩ : ∃ k, left - n = k + 1 := ⟨left - n - 1, by omega⟩
  rw [strchr_skip (Nat.le_of_lt hn) hno, hk, strchr, if_pos hat]

theorem store_line {b : Mem} {pre name rest : Text} {ch : UInt8} {i : Nat} (hi : i ≤ name.length) :
    store b 0 (pre ++ (name ++ ch :: rest)) (pre.length + i) = (name ++ ch :: rest)[i]?.getD 0 := by
  have hi' : i < (name ++ ch :: rest).length := by
    rw [List.length_append, List.length_cons]
    omega
  have hlt : pre.length + i < (pre ++ (name ++ ch :: rest)).length := by
    rw [List.length_append]
    omega
  have hs := Bytes.store_at (m := b) (a := 0) hlt
  rw [Nat.zero_add] at hs
  rw [hs, List.getElem_append_right (by omega), List.getElem?_eq_getElem hi']
  simp

theorem store_line_end {b : Mem} {pre name rest : Text} {ch : UInt8} :
    store b 0 (pre ++ (name ++ ch :: rest)) (pre.length + name.length) = ch := by
  rw [store_line (Nat.le_refl _)]
  simp

theorem store_line_name (b : Mem) (pre : Text) {name : Text} (ch : UInt8) (rest : Text) {i : Nat}
    (hi : i < name.length) :
    store b 0 (pre ++ (name ++ ch :: rest)) (pre.length + i) ∈ name := by
  rw [store_line (Nat.le_of_lt hi), List.getElem?_append_left hi, List.getElem?_eq_getElem hi]
  exact List.getElem_mem hi

theorem strchr_line (b : Mem) {pre name : Text} (rest : Text) (hline : newline ∉ name) (hnul : 0 ∉ name)
    (hfit : pre.length + name.length < dataSize) :
    strchr (store b 0 (pre ++ (name ++ newline :: rest))) newline (dataSize - pre.length) pre.length =
      some (some (pre.length + name.length)) ∧
    load (store b 0 (pre ++ (name ++ newline :: rest))) pre.length name.length = name := by
  refine ⟨strchr_spec (by omega) store_line_end ?_, ?_⟩
  · intro i hi
    have hmem := store_line_name b pre newline rest hi
    exact ⟨fun e => hline (e ▸ hmem), fun e => hnul (e ▸ hmem)⟩
  · have hl := Bytes.load_store (m := b) (a := 0) (b := pre.length) (l := pre ++ (name ++ newline :: rest))
      (n := name.length) (by rw [List.length_append, List.length_append]; omega)
    rw [Nat.zero_add, List.drop_left, List.take_left] at hl
    exact hl

/-- The name that a request gives. -/
theorem readFilename_line (C : Config) (fs : Fs) {c : Client} {b : Mem} {pre name rest : Text} (hline : newline ∉ name)
    (hnul : 0 ∉ name) (hb : c.buffer = store b 0 (pre ++ (name ++ newline :: rest))) (ho : c.boffset = pre.length)
    (hfit : pre.length + name.length < dataSize) :
    readFilename C fs c = if name.length ≤ 257 then openFile C fs { c with
        filename := path C name
        fileOffset := 0
        boffset := pre.length + name.length + 1 }
      else none := by
  rcases strchr_line b rest hline hnul hfit with ⟨hstrchr, hname⟩
  rw [← hb, ← ho] at hstrchr hname
  have hdir : C.tempDirectory.length + 1 + name.length < maxDirname ↔ name.length ≤ 257 := by
    rw [C.length_tempDirectory]
    unfold maxDirname
    omega
  unfold readFilename
  rw [hstrchr, Option.bind_some]
  dsimp only
  rw [Nat.add_sub_cancel_left, hname, ← ho]
  simp only [hdir]
  rfl

theorem readFilename_spec (C : Config) (fs : Fs) {c : Client} {b : Mem} {pre name rest : Text} (hline : newline ∉ name)
    (hnul : 0 ∉ name) (hlen : name.length ≤ 257) (hb : c.buffer = store b 0 (pre ++ (name ++ newline :: rest)))
    (ho : c.boffset = pre.length) (hfit : pre.length + name.length < dataSize) :
    readFilename C fs c = openFile C fs { c with
      filename := path C name
      fileOffset := 0
      boffset := pre.length + name.length + 1 } :=
  (readFilename_line C fs hline hnul hb ho hfit).trans (if_pos hlen)

/-! ## The file of a name -/

section
variable {c : Client} {name : Text} (hv : FileName name) (hpath : c.filename = path C name)
include hv hpath

theorem openFile_put (hm : c.method = .put) : openFile C fs c =
    some ((fs.create (path C name)).1, { c with fp := some (fs.create (path C name)).2, state := .readingSize }) := by
  simp only [openFile, hm, hpath, Config.create, hv.direct, if_true, Option.map_some]

theorem openFile_get (hm : c.method = .get) : openFile C fs c = some (fs, match fs.inode (path C name) with
    | none => { c with fp := none, errorType := some .noSuchFile, state := .writingResponse }
    | some i => { c with fp := some i, state := .writingResponse }) := by
  simp only [openFile, hm, hpath, Config.inode, Config.access, hv.direct, if_true]
  cases fs.inode (path C name) <;> rfl

theorem openFile_delete (hm : c.method = .delete) : openFile C fs c = match fs.inode (path C name) with
    | none => some (fs, { c with errorType := some .noSuchFile, state := .writingResponse })
    | some _ => some (fs.remove (path C name), { c with state := .writingResponse }) := by
  simp only [openFile, hm, hpath, Config.access, Config.remove, hv.direct, if_true]
  cases fs.inode (path C name) <;> rfl

end

/-- The connection after its first event, which reads a block, or all there is. -/
def firstRead (b : Mem) (stream : Text) : Conn :=
  ⟨readVerb ⟨.unknown, [], none, 0, .readingVerb, store b 0 (stream.take dataSize), (stream.take dataSize).length, 0, 0,
    none⟩, stream.drop dataSize, [], [], true, false⟩

theorem handle_first {b : Mem} {stream : Text} {e : Event} :
    handleClientRequest C (fs, newConnection b stream) e = some (fs, firstRead b stream) := by
  rcases recvall_blocking dataSize ⟨e.chunks, stream⟩ with ⟨h1, h2⟩
  unfold handleClientRequest receive newConnection processRequest firstRead fileCalls
  simp [h1, h2]

theorem serves_new {b : Mem} {stream : Text} (h : Serves C Post fs (firstRead b stream)) :
    Serves C Post fs (newConnection b stream) :=
  Run.Ends.of_step rfl fun _ => ⟨_, handle_first, h⟩

theorem startsWith_head {m : Mem} {a : UInt8} {l : Text} (h : startsWith m (a :: l) = true) : m 0 = a := by
  unfold startsWith load at h
  rw [List.length_cons, List.range_succ_eq_map, List.map_cons, beq_iff_eq] at h
  exact (List.cons.inj h).1

theorem startsWith_store {b : Mem} {verb l : Text} : startsWith (store b 0 (verb ++ l)) verb = true := by
  have hl := Bytes.load_store (m := b) (a := 0) (b := 0) (l := verb ++ l) (n := verb.length)
    (by rw [List.length_append]; omega)
  rw [List.drop_zero, List.take_left] at hl
  unfold startsWith
  rw [beq_iff_eq]
  exact hl

theorem startsWith_other {b : Mem} {verb l other : Text} {a a' : UInt8} (h : a ≠ a') :
    startsWith (store b 0 ((a :: verb) ++ l)) (a' :: other) = false := by
  rw [Bool.eq_false_iff]
  intro hs
  exact h ((startsWith_head startsWith_store).symm.trans (startsWith_head hs))

theorem readVerb_get {c : Client} {b : Mem} {l : Text} (hb : c.buffer = store b 0 (ascii ['G', 'E', 'T'] ++ l)) :
    readVerb c = { c with method := .get, state := .readingFilename, boffset := 4 } := by
  unfold readVerb
  rw [if_pos (by rw [hb]; exact startsWith_store)]

theorem readVerb_put {c : Client} {b : Mem} {l : Text} (hb : c.buffer = store b 0 (ascii ['P', 'U', 'T'] ++ l)) :
    readVerb c = { c with method := .put, state := .readingFilename, boffset := 4 } := by
  have hg : startsWith c.buffer (ascii ['G', 'E', 'T']) = false := by
    rw [hb]
    exact startsWith_other (by decide)
  unfold readVerb
  rw [if_neg (by rw [hg]; decide), if_pos (by rw [hb]; exact startsWith_store)]

theorem readVerb_delete {c : Client} {b : Mem} {l : Text}
    (hb : c.buffer = store b 0 (ascii ['D', 'E', 'L', 'E', 'T', 'E'] ++ l)) :
    readVerb c = { c with method := .delete, state := .readingFilename, boffset := 7 } := by
  have hg : startsWith c.buffer (ascii ['G', 'E', 'T']) = false := by
    rw [hb]
    exact startsWith_other (by decide)
  have hp : startsWith c.buffer (ascii ['P', 'U', 'T']) = false := by
    rw [hb]
    exact startsWith_other (by decide)
  unfold readVerb
  rw [if_neg (by rw [hg]; decide), if_neg (by rw [hp]; decide), if_pos (by rw [hb]; exact startsWith_store)]

theorem readVerb_list {c : Client} {b : Mem} {l : Text} (hb : c.buffer = store b 0 (ascii ['L', 'I', 'S', 'T'] ++ l)) :
    readVerb c = { c with method := .list, state := .writingResponse } := by
  have hg : startsWith c.buffer (ascii ['G', 'E', 'T']) = false := by
    rw [hb]
    exact startsWith_other (by decide)
  have hp : startsWith c.buffer (ascii ['P', 'U', 'T']) = false := by
    rw [hb]
    exact startsWith_other (by decide)
  have hd : startsWith c.buffer (ascii ['D', 'E', 'L', 'E', 'T', 'E']) = false := by
    rw [hb]
    exact startsWith_other (by decide)
  unfold readVerb
  rw [if_neg (by rw [hg]; decide), if_neg (by rw [hp]; decide), if_neg (by rw [hd]; decide),
    if_pos (by rw [hb]; exact startsWith_store)]

/-! ## Requests -/

/-- The event that reads the file's name. -/
theorem handle_filename {e : Event} {b : Mem} {pre name rest : Text} {fs' : Fs} {c : Client}
    (hs : k.client.state = .readingFilename) (hv : FileName name)
    (hb : k.client.buffer = store b 0 (pre ++ (name ++ newline :: rest))) (ho : k.client.boffset = pre.length)
    (hpre : pre.length ≤ 7)
    (hopen : openFile C fs { k.client with
        filename := path C name
        fileOffset := 0
        boffset := pre.length + name.length + 1 } = some (fs', c)) :
    handleClientRequest C (fs, k) e =
      some (fs', { k with client := c, calls := k.calls ++ fileCalls C fs k.client, nonblocking := true }) := by
  have hlen := hv.length
  unfold maxFilename at hlen
  have hfit : pre.length + name.length < dataSize := by
    unfold dataSize
    omega
  have hread : readFilename C fs k.client = some (fs', c) :=
    (readFilename_spec C fs hv.noNewline hv.noNul (by omega) hb ho hfit).trans hopen
  rw [handle_process (by rw [hs]; decide) (by rw [hs]; simp)]
  simp only [processRequest, hs, hread, Option.map_some, List.append_nil]

theorem serves_filename {b : Mem} {pre name rest : Text} {fs' : Fs} {c : Client} (hk : k.closed = false)
    (hs : k.client.state = .readingFilename) (hv : FileName name)
    (hb : k.client.buffer = store b 0 (pre ++ (name ++ newline :: rest))) (ho : k.client.boffset = pre.length)
    (hpre : pre.length ≤ 7)
    (hopen : openFile C fs { k.client with
        filename := path C name
        fileOffset := 0
        boffset := pre.length + name.length + 1 } = some (fs', c))
    (h : ∀ calls, Serves C Post fs' { k with client := c, calls, nonblocking := true }) : Serves C Post fs k :=
  Run.Ends.of_step hk fun _ => ⟨_, handle_filename hs hv hb ho hpre hopen, h _⟩

def lineConn (b : Mem) (method : Verb) (stream : Text) (boffset : Nat) : Conn :=
  ⟨⟨method, [], none, 0, .readingFilename, store b 0 stream, stream.length, boffset, 0, none⟩, [], [], [], true, false⟩

section
variable {b : Mem} {name : Text} (hv : FileName name)
include hv

theorem firstRead_get : firstRead b (requestLine (ascii ['G', 'E', 'T']) name) =
    lineConn b .get ((ascii ['G', 'E', 'T'] ++ ascii [' ']) ++ (name ++ newline :: [])) 4 := by
  have hstream : requestLine (ascii ['G', 'E', 'T']) name =
      (ascii ['G', 'E', 'T'] ++ ascii [' ']) ++ (name ++ newline :: []) := by simp [requestLine]
  have hlen : ((ascii ['G', 'E', 'T'] ++ ascii [' ']) ++ (name ++ newline :: [])).length ≤ dataSize := by
    have hname := hv.length
    unfold maxFilename at hname
    simp only [ascii, List.length_append, List.length_map, List.length_cons, List.length_nil]
    unfold dataSize
    omega
  rw [firstRead, hstream, List.take_of_length_le hlen, List.drop_of_length_le hlen,
    readVerb_get (b := b) (by rw [List.append_assoc])]
  rfl

theorem firstRead_delete : firstRead b (requestLine (ascii ['D', 'E', 'L', 'E', 'T', 'E']) name) =
    lineConn b .delete ((ascii ['D', 'E', 'L', 'E', 'T', 'E'] ++ ascii [' ']) ++ (name ++ newline :: [])) 7 := by
  have hstream : requestLine (ascii ['D', 'E', 'L', 'E', 'T', 'E']) name =
      (ascii ['D', 'E', 'L', 'E', 'T', 'E'] ++ ascii [' ']) ++ (name ++ newline :: []) := by simp [requestLine]
  have hlen : ((ascii ['D', 'E', 'L', 'E', 'T', 'E'] ++ ascii [' ']) ++ (name ++ newline :: [])).length ≤ dataSize := by
    have hname := hv.length
    unfold maxFilename at hname
    simp only [ascii, List.length_append, List.length_map, List.length_cons, List.length_nil]
    unfold dataSize
    omega
  rw [firstRead, hstream, List.take_of_length_le hlen, List.drop_of_length_le hlen,
    readVerb_delete (b := b) (by rw [List.append_assoc])]
  rfl

end

theorem serves_get_request {b : Mem} {name : Text} (hv : FileName name)
    (hnone : fs.inode (path C name) = none → Post fs (errorLine ++ C.errText .noSuchFile))
    (hsome : ∀ i, fs.inode (path C name) = some i → (fs.data i).length < 2 ^ 63 ∧
      Post fs (okLine ++ leEncode 8 (fs.data i).length ++ fs.data i)) :
    Serves C Post fs (newConnection b (requestLine (ascii ['G', 'E', 'T']) name)) := by
  apply serves_new
  rw [firstRead_get hv]
  apply serves_filename rfl rfl hv rfl rfl (by decide) (openFile_get hv rfl rfl)
  intro calls
  cases hi : fs.inode (path C name) with
  | none => exact serves_error rfl rfl rfl (hnone hi)
  | some i =>
    rcases hsome i hi with ⟨hmax, hpost⟩
    exact serves_get rfl rfl rfl rfl rfl hv.isFile rfl hmax hpost

theorem serves_delete_request {b : Mem} {name : Text} (hv : FileName name)
    (hnone : fs.inode (path C name) = none → Post fs (errorLine ++ C.errText .noSuchFile))
    (hsome : ∀ i, fs.inode (path C name) = some i → Post (fs.remove (path C name)) (okLine ++ [0])) :
    Serves C Post fs (newConnection b (requestLine (ascii ['D', 'E', 'L', 'E', 'T', 'E']) name)) := by
  apply serves_new
  rw [firstRead_delete hv]
  cases hi : fs.inode (path C name) with
  | none =>
    apply serves_filename rfl rfl hv rfl rfl (by decide) ((openFile_delete hv rfl rfl).trans (by rw [hi]))
    exact fun calls => serves_error rfl rfl rfl (hnone hi)
  | some i =>
    apply serves_filename rfl rfl hv rfl rfl (by decide) ((openFile_delete hv rfl rfl).trans (by rw [hi]))
    exact fun calls => serves_ok rfl rfl rfl (Or.inr rfl) (hsome i hi)

theorem serves_list_request {b : Mem} (hsize : listingSize (fs.names C) < 2 ^ 63)
    (h : ∀ names, names.Perm (fs.names C) →
      Post fs (okLine ++ leEncode 8 ([newline].intercalate names).length ++ [newline].intercalate names)) :
    Serves C Post fs (newConnection b (ascii ['L', 'I', 'S', 'T'] ++ [newline])) := by
  apply serves_new
  rw [firstRead, List.take_of_length_le (by decide), readVerb_list rfl]
  exact serves_list rfl rfl rfl rfl hsize h

/-- The event that reads the size. -/
theorem handle_size {e : Event} {b : Mem} (pre rest : Text) {n : Nat} (hs : k.client.state = .readingSize)
    (hm : k.client.method = .put) (hb : k.client.buffer = store b 0 (pre ++ (leEncode 8 n ++ rest)))
    (ho : k.client.boffset = pre.length) (hn : n < wordSize) :
    handleClientRequest C (fs, k) e = some (fs, { k with
      client := { k.client with reqSize := n, boffset := pre.length + 8, state := .readingData }
      nonblocking := true }) := by
  have hload : load k.client.buffer k.client.boffset 8 = leEncode 8 n := by
    have hl := Bytes.load_store (m := b) (a := 0) (b := pre.length) (l := pre ++ (leEncode 8 n ++ rest)) (n := 8)
      (by rw [List.length_append, List.length_append, leEncode_length]; omega)
    rw [Nat.zero_add, List.drop_left, List.take_left' leEncode_length] at hl
    rw [hb, ho]
    exact hl
  have hread : readSize k.client =
      some { k.client with reqSize := n, boffset := pre.length + 8, state := .readingData } := by
    unfold readSize
    rw [if_pos hm, hload, leDecode_leEncode hn, ho]
  rw [handle_process (by rw [hs]; decide) (by rw [hs]; simp)]
  simp only [processRequest, fileCalls, hs, hread, Option.map_some, List.append_nil]

/-- The event that writes what came with the header, and all after it. -/
theorem serves_put {b : Mem} (pre : Text) {contents : Text} {i j : Nat} (hk : k.closed = false)
    (hs : k.client.state = .readingData) (hm : k.client.method = .put) (ht : k.client.errorType = none)
    (hfp : k.client.fp = some i) (hreq : k.client.reqSize = contents.length) (hmax : contents.length < 2 ^ 63)
    (hb : k.client.buffer = store b 0 (pre ++ contents.take j)) (ho : k.client.boffset = pre.length)
    (hsize : k.client.bufferSize = (pre ++ contents.take j).length) (hpos : 0 < pre.length)
    (hfit : (pre ++ contents.take j).length ≤ dataSize) (hoff : k.client.fileOffset = 0) (hdata : fs.data i = [])
    (hstream : k.stream = contents.drop j)
    (h : Post { fs with data := update fs.data i contents } (k.sent ++ (okLine ++ [0]))) : Serves C Post fs k := by
  rw [List.length_append] at hsize hfit
  have hload : load k.client.buffer k.client.boffset (contents.take j).length = contents.take j := by
    have hl := Bytes.load_store (m := b) (a := 0) (b := pre.length) (l := pre ++ contents.take j)
      (n := (contents.take j).length) (by rw [List.length_append])
    rw [Nat.zero_add, List.drop_left, List.take_length] at hl
    rw [hb, ho]
    exact hl
  have hle : (contents.take j).length ≤ contents.length := List.length_take_le' _ _
  have hread : readData C fs k.client = _ := readData_spec (contents.take j) hm hfp (by rw [ho]; exact hsize)
    (by omega) (by rw [hsize]; exact hfit) hload (by rw [hoff, hreq]; omega)
    (by rw [hreq]; exact Nat.lt_of_lt_of_le hmax (by decide))
  rw [hoff, hreq, Nat.zero_add] at hread
  have hfs : fs.append i (contents.take j) = { fs with data := update fs.data i (contents.take j) } := by
    unfold Fs.append
    rw [hdata, List.nil_append]
  rw [hfs] at hread
  apply serves_process hk (by rw [hs]; decide) (by rw [hs]; simp only [reduceCtorEq, or_false]; omega)
  intro e
  refine ⟨{ fs with data := update fs.data i (contents.take j) }, { k.client with
    boffset := 0
    bufferSize := 0
    fileOffset := (contents.take j).length
    reqSize := contents.length
    state := if (contents.take j).length = contents.length then .writingResponse else .readingData }, [], ?_, ?_⟩
  · simp only [processRequest, hs, hread, Option.map_some]
  rw [List.append_nil]
  by_cases hlast : (contents.take j).length = contents.length
  · have hall : contents.take j = contents := by
      rw [List.length_take] at hlast
      rw [List.take_of_length_le (by omega)]
    refine serves_ok hk (if_pos hlast) ht (Or.inl hm) ?_
    rw [hall]
    exact h
  · have hj : (contents.take j).length = j := by
      rw [List.length_take] at hlast ⊢
      omega
    refine serves_put_rest (i := i) (n := j) contents hk (if_neg hlast) rfl rfl hm ht hfp rfl hmax hj
      (by omega) ?_ hstream ?_
    · exact Function.update_self ..
    · simp only [Function.update_idem]
      exact h

theorem create_data {p : Text} : (fs.create p).1.data (fs.create p).2 = [] := by
  unfold Fs.create
  split
  · exact Function.update_self ..
  · exact Function.update_self ..

/-! ## The header of a PUT -/

def putStream (name : Text) (n : Nat) (body : Text) : Text :=
  requestLine (ascii ['P', 'U', 'T']) name ++ leEncode 8 n ++ body

def bodyRoom (name : Text) : Nat := dataSize - (name.length + 5) - 8

theorem putLine_length {name : Text} : (requestLine (ascii ['P', 'U', 'T']) name).length = name.length + 5 := by
  simp [requestLine, ascii]

theorem putStream_block {name : Text} (n : Nat) (body : Text) (hv : FileName name) :
    (putStream name n body).take dataSize =
        requestLine (ascii ['P', 'U', 'T']) name ++ (leEncode 8 n ++ body.take (bodyRoom name)) ∧
      (putStream name n body).drop dataSize = body.drop (bodyRoom name) := by
  have hlen := hv.length
  unfold maxFilename at hlen
  have hhead : (requestLine (ascii ['P', 'U', 'T']) name ++ leEncode 8 n).length = name.length + 5 + 8 := by
    rw [List.length_append, putLine_length, leEncode_length]
  have hroom : dataSize - (name.length + 5 + 8) = bodyRoom name := by
    unfold bodyRoom
    omega
  unfold putStream
  refine ⟨?_, ?_⟩
  · rw [List.take_append, hhead, hroom, List.take_of_length_le, List.append_assoc]
    rw [hhead]
    unfold dataSize
    omega
  · rw [List.drop_append, hhead, hroom, List.drop_of_length_le, List.nil_append]
    rw [hhead]
    unfold dataSize
    omega

/-- The connection of a PUT whose first block has been read, in one of its states. -/
def putConn (C : Config) (b : Mem) (name stream : Text) (i : Nat) (state : ClientState) (boffset reqSize : Nat)
    (calls : List FileCall) : Conn :=
  ⟨⟨.put, path C name, some i, 0, state, store b 0 (stream.take dataSize), (stream.take dataSize).length, boffset,
    reqSize, none⟩, stream.drop dataSize, [], calls, true, false⟩

section
variable {b : Mem} {name body : Text} {n : Nat} {e : Event}

theorem putStream_line (n : Nat) (body : Text) (hv : FileName name) :
    (putStream name n body).take dataSize = (ascii ['P', 'U', 'T'] ++ ascii [' ']) ++
      (name ++ newline :: (leEncode 8 n ++ body.take (bodyRoom name))) := by
  rw [(putStream_block n body hv).1]
  simp [requestLine]

theorem firstRead_put (b : Mem) (n : Nat) (body : Text) (hv : FileName name) :
    firstRead b (putStream name n body) = ⟨⟨.put, [], none, 0, .readingFilename,
      store b 0 ((putStream name n body).take dataSize), ((putStream name n body).take dataSize).length, 4, 0, none⟩,
      (putStream name n body).drop dataSize, [], [], true, false⟩ := by
  unfold firstRead
  rw [readVerb_put (b := b) (l := ascii [' '] ++ (name ++ newline :: (leEncode 8 n ++ body.take (bodyRoom name))))
    (by rw [putStream_line n body hv, List.append_assoc])]

theorem handle_put_name (C : Config) (fs : Fs) (b : Mem) (n : Nat) (body : Text) (e : Event) (hv : FileName name) :
    ∃ calls, handleClientRequest C (fs, firstRead b (putStream name n body)) e = some ((fs.create (path C name)).1,
      putConn C b name (putStream name n body) (fs.create (path C name)).2 .readingSize (name.length + 5) 0 calls) := by
  have hoff : (ascii ['P', 'U', 'T'] ++ ascii [' ']).length + name.length + 1 = name.length + 5 := by
    rw [show (ascii ['P', 'U', 'T'] ++ ascii [' ']).length = 4 from rfl]
    omega
  refine ⟨fileCalls C fs (firstRead b (putStream name n body)).client, ?_⟩
  rw [firstRead_put b n body hv]
  refine (handle_filename (b := b) rfl hv (by rw [putStream_line n body hv]) rfl (by decide)
    (openFile_put hv rfl rfl)).trans ?_
  rw [hoff]
  rfl

theorem handle_put_size (hv : FileName name) (hn : n < wordSize) {i : Nat} {calls : List FileCall} :
    handleClientRequest C (fs, putConn C b name (putStream name n body) i .readingSize (name.length + 5) 0 calls) e =
      some (fs, putConn C b name (putStream name n body) i .readingData (name.length + 5 + 8) n calls) := by
  refine (handle_size (b := b) (requestLine (ascii ['P', 'U', 'T']) name) (body.take (bodyRoom name)) rfl rfl ?_
    putLine_length.symm hn).trans ?_
  · unfold putConn
    rw [(putStream_block n body hv).1]
  · rw [putLine_length]
    rfl

end

theorem serves_put_request {b : Mem} {name contents : Text} (hv : FileName name) (hmax : contents.length < 2 ^ 63)
    (h : Post { (fs.create (path C name)).1 with
        data := update (fs.create (path C name)).1.data (fs.create (path C name)).2 contents } (okLine ++ [0])) :
    Serves C Post fs (newConnection b
      (requestLine (ascii ['P', 'U', 'T']) name ++ leEncode 8 contents.length ++ contents)) := by
  have hlen := hv.length
  unfold maxFilename at hlen
  rcases putStream_block contents.length contents hv with ⟨hblock, hdrop⟩
  refine serves_new (Run.Ends.of_step rfl fun e => ?_)
  rcases handle_put_name C fs b contents.length contents e hv with ⟨calls, hname⟩
  refine ⟨_, hname, Run.Ends.of_step rfl fun e => ⟨_, handle_put_size hv (Nat.lt_of_lt_of_le hmax (by decide)), ?_⟩⟩
  refine serves_put (b := b) (requestLine (ascii ['P', 'U', 'T']) name ++ leEncode 8 contents.length)
    (j := bodyRoom name) rfl rfl rfl rfl rfl rfl hmax ?_ ?_ ?_ ?_ ?_ rfl create_data hdrop h
  · unfold putConn
    rw [hblock, List.append_assoc]
  · unfold putConn
    rw [List.length_append, leEncode_length, putLine_length]
  · unfold putConn
    rw [hblock, List.append_assoc]
  · rw [List.length_append, putLine_length]
    omega
  · rw [List.append_assoc, ← hblock, List.length_take]
    exact Nat.min_le_left _ _

end SysProg.Net
