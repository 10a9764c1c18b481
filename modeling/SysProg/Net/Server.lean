/-
  SysProg.Net.Server — nonstop_networking/server.c: one connection.

  A connection is served one event at a time: the first event reads up to `dataSize` bytes
  from a blocking socket, later ones are on a nonblocking one, and each runs
  `process_request` once, which moves the state machine of the connection. `stream` holds
  the bytes that the client has sent or will send before it shuts its side down, `sends`
  what the server has passed to `sendall` so far, and `sent` the bytes of that when every `send`
  takes all it is given. `calls` are its calls on files, without `fseek` and `ftell`. The buffer
  is not initialised, and keeps what is in it beyond the bytes received last.

  `Fs` holds the files of the server's directory by path. A file that is open has an
  inode, which stays when its path is removed; `fread` gives all the bytes there are, and
  what `fwrite` is given is in the file at once. What is done with a path that is not of a
  file directly in the directory is up to `Elsewhere`; files and directories can be opened
  there, pipes and devices are left out. Nothing (`none`) comes of a call that
  fails an assertion or leaves a buffer, nor of a PUT whose file does not open, after which `main`
  uses the client that has been freed; a heap block of 2^63 bytes or more is never
  obtained. The heap block in which a reply is put together before it is sent is not
  modelled; that of an ERROR is a byte short of its terminator (server.c:480-493), and what
  lies after it is taken to bear that.
-/

import Mathlib.Algebra.GroupWithZero.Nat
import Mathlib.Logic.Function.Basic
import SysProg.Net.Common

namespace SysProg.Net

open Function (update)
open SysProg.Bytes (Mem load store leDecode leEncode)

def maxDirname : Nat := 265

def wordSize : Nat := 2 ^ 64

def sub64 (a b : Nat) : Nat := (a + wordSize - b) % wordSize

inductive ClientState where
  | readingVerb
  | readingFilename
  | readingSize
  | readingData
  | writingResponse
  | complete
  deriving DecidableEq

/-- `error_type` 0, 1 and 2. -/
inductive ErrorType where
  | badRequest
  | badFileSize
  | noSuchFile
  deriving DecidableEq

/-! ## Files -/

structure Fs where
  dir : List (Text × Nat)
  data : Nat → Text
  next : Nat

def Fs.empty : Fs := ⟨[], fun _ => [], 0⟩

def Fs.inode (fs : Fs) (path : Text) : Option Nat := fs.dir.lookup path

/-- `fopen(path, "wb")` -/
def Fs.create (fs : Fs) (path : Text) : Fs × Nat :=
  match fs.inode path with
  | some i => ({ fs with data := update fs.data i [] }, i)
  | none => (⟨fs.dir ++ [(path, fs.next)], update fs.data fs.next [], fs.next + 1⟩, fs.next)

/-- `fseek` to the end and `fwrite` -/
def Fs.append (fs : Fs) (i : Nat) (bytes : Text) : Fs := { fs with data := update fs.data i (fs.data i ++ bytes) }

def Fs.remove (fs : Fs) (path : Text) : Fs := { fs with dir := fs.dir.filter fun e => e.1 ≠ path }

/-- What the system does with the other paths: `fopen` for writing and for reading, `access` and
    `remove`. What was opened for reading may be a directory, of which `ftell` gives this at the
    end and nothing can be read. -/
structure Elsewhere where
  create : Fs → Text → Option (Fs × Nat)
  inode : Fs → Text → Option Nat
  access : Fs → Text → Bool
  remove : Fs → Text → Fs
  directory : Nat → Option Nat

/-- The directory's name and the error texts of format.h, which the client's buffer for
    them holds. -/
structure Config where
  tempDirectory : Text
  errText : ErrorType → Text
  elsewhere : Elsewhere
  length_tempDirectory : tempDirectory.length = 6
  length_errText : ∀ e, (errText e).length < 256
  nul_errText : ∀ e, 0 ∉ errText e

def plainName (name : Text) : Bool :=
  name ≠ [] && name ≠ ascii ['.'] && name ≠ ascii ['.', '.'] && !name.contains slash

def Config.direct (C : Config) (path : Text) : Bool :=
  let name := path.drop (C.tempDirectory.length + 1)
  plainName name && decide (name.length ≤ maxFilename)

def Config.create (C : Config) (fs : Fs) (path : Text) : Option (Fs × Nat) :=
  if C.direct path = true then some (fs.create path) else C.elsewhere.create fs path

def Config.inode (C : Config) (fs : Fs) (path : Text) : Option Nat :=
  if C.direct path = true then fs.inode path else C.elsewhere.inode fs path

def Config.access (C : Config) (fs : Fs) (path : Text) : Bool :=
  if C.direct path = true then (fs.inode path).isSome else C.elsewhere.access fs path

def Config.remove (C : Config) (fs : Fs) (path : Text) : Fs :=
  if C.direct path = true then fs.remove path else C.elsewhere.remove fs path

def Config.directory (C : Config) (path : Text) (i : Nat) : Option Nat :=
  if C.direct path = true then none else C.elsewhere.directory i

/-- `ftell` at the end of a file, as a `size_t`; it fails on a size that is no `long`. -/
def ftell (file : Text) : Nat := if file.length < 2 ^ 63 then file.length else wordSize - 1

def Config.ftell (C : Config) (fs : Fs) (path : Text) (i : Nat) : Nat :=
  (C.directory path i).getD (Net.ftell (fs.data i))

def Config.fread (C : Config) (fs : Fs) (path : Text) (i offset count : Nat) : Text :=
  if C.directory path i = none then ((fs.data i).drop offset).take count else []

/-! ## Connections -/

structure Client where
  method : Verb
  filename : Text
  /-- The inode of the open file. -/
  fp : Option Nat
  fileOffset : Nat
  state : ClientState
  buffer : Mem
  bufferSize : Nat
  boffset : Nat
  reqSize : Nat
  errorType : Option ErrorType

/-- What one call of `sendall` is given: the first line of a reply, which for an error is all of
    it, or what comes after. -/
inductive Send where
  | status (text : Text)
  | payload (text : Text)
  deriving DecidableEq

def Send.text : Send → Text
  | .status text | .payload text => text

inductive FileCall where
  | fopenWb (path : Text)
  | fopenRb (path : Text)
  | access (path : Text)
  | remove (path : Text)
  | fread (i offset count : Nat)
  | fwrite (i : Nat) (bytes : Text)
  | fclose (i : Nat)
  | readdir
  deriving DecidableEq

structure Conn where
  client : Client
  stream : Text
  sends : List Send
  calls : List FileCall
  nonblocking : Bool
  closed : Bool

def sentBy (sends : List Send) : Text := sends.flatMap fun piece => sendBytes piece.text

def Conn.sent (k : Conn) : Text := sentBy k.sends

/-- What is outside the server's control at one event: how the bytes arrive, and the
    order in which `readdir` lists the directory. -/
structure Event where
  chunks : List Nat
  readdir : { f : List Text → List Text // ∀ l, (f l).Perm l }

def startsWith (m : Mem) (s : Text) : Bool := load m 0 s.length == s

/-- `strchr` from an address on, in a buffer with this many bytes left. -/
def strchr (m : Mem) (ch : UInt8) : Nat → Nat → Option (Option Nat)
  | 0, _ => none
  | left + 1, a => if m a = ch then some (some a) else if m a = 0 then some none else strchr m ch left (a + 1)

def readVerb (c : Client) : Client :=
  if startsWith c.buffer (ascii ['G', 'E', 'T']) = true then
    { c with method := .get, state := .readingFilename, boffset := 4 }
  else if startsWith c.buffer (ascii ['P', 'U', 'T']) = true then
    { c with method := .put, state := .readingFilename, boffset := 4 }
  else if startsWith c.buffer (ascii ['D', 'E', 'L', 'E', 'T', 'E']) = true then
    { c with method := .delete, state := .readingFilename, boffset := 7 }
  else if startsWith c.buffer (ascii ['L', 'I', 'S', 'T']) = true then
    { c with method := .list, state := .writingResponse }
  else { c with errorType := some .badRequest, state := .writingResponse }

def openFile (C : Config) (fs : Fs) (c : Client) : Option (Fs × Client) :=
  match c.method with
  | .put => (C.create fs c.filename).map fun (fs, i) => (fs, { c with fp := some i, state := .readingSize })
  | .get =>
    match C.inode fs c.filename with
    | none => some (fs, { c with fp := none, errorType := some .noSuchFile, state := .writingResponse })
    | some i =>
      if C.access fs c.filename = true then some (fs, { c with fp := some i, state := .writingResponse })
      else some (fs, { c with fp := some i, errorType := some .noSuchFile, state := .writingResponse })
  | .delete =>
    if C.access fs c.filename = true then some (C.remove fs c.filename, { c with state := .writingResponse })
    else some (fs, { c with errorType := some .noSuchFile, state := .writingResponse })
  | _ => some (fs, c)

def readFilename (C : Config) (fs : Fs) (c : Client) : Option (Fs × Client) :=
  (strchr c.buffer newline (dataSize - c.boffset) c.boffset).bind fun
    | none => some (fs, { c with errorType := some .badRequest, state := .writingResponse })
    | some a =>
      let name := load c.buffer c.boffset (a - c.boffset)
      if C.tempDirectory.length + 1 + name.length < maxDirname then
        openFile C fs { c with
          filename := C.tempDirectory ++ slash :: name
          fileOffset := 0
          boffset := a + 1 }
      else none

def readSize (c : Client) : Option Client :=
  if c.method = .put then
    some { c with
      reqSize := leDecode (load c.buffer c.boffset 8)
      boffset := c.boffset + 8
      state := .readingData }
  else none

def readData (C : Config) (fs : Fs) (c : Client) : Option (Fs × Client) :=
  if c.method ≠ .put then none
  else
    let bytesLeft := sub64 c.reqSize c.fileOffset
    let leftInBuffer := sub64 c.bufferSize c.boffset
    if c.bufferSize = 0 then
      some (C.remove fs c.filename, { c with errorType := some .badFileSize, state := .writingResponse })
    else
      let bytesToWrite := min leftInBuffer bytesLeft
      if dataSize < c.boffset + bytesToWrite then none
      else c.fp.map fun i =>
        let fs := fs.append i (load c.buffer c.boffset bytesToWrite)
        let bytesLeft := bytesLeft - bytesToWrite
        let leftInBuffer := leftInBuffer - bytesToWrite
        let c := { c with boffset := 0, bufferSize := 0, fileOffset := (c.fileOffset + bytesToWrite) % wordSize }
        if 0 < leftInBuffer ∧ bytesLeft = 0 then
          (C.remove fs c.filename, { c with errorType := some .badFileSize, state := .writingResponse })
        else if c.reqSize < c.fileOffset then
          (C.remove fs c.filename, { c with errorType := some .badFileSize, state := .writingResponse })
        else if bytesLeft = 0 then (fs, { c with state := .writingResponse })
        else (fs, { c with state := .readingData })

def sendGetResponse (C : Config) (fs : Fs) (c : Client) : Option (Client × List Send) :=
  c.fp.map fun i =>
    let size := if 0 < c.fileOffset then c.reqSize else C.ftell fs c.filename i
    let header := if 0 < c.fileOffset then [] else [.status okLine, .payload (leEncode 8 size)]
    let bytesToSend := min (sub64 size c.fileOffset) dataSize
    let buffer := C.fread fs c.filename i c.fileOffset bytesToSend
    let offset := c.fileOffset + buffer.length
    ({ c with
        reqSize := size
        fileOffset := offset
        state := if size ≤ offset then .complete else .writingResponse }, header ++ [.payload buffer])

/-- The names, a newline after each but the last, where the byte is not initialised. -/
def listData : List Text → Text
  | [] => []
  | [name] => name ++ [0]
  | name :: names => name ++ newline :: listData names

def Fs.names (C : Config) (fs : Fs) : List Text := fs.dir.map fun e => e.1.drop (C.tempDirectory.length + 1)

def listResponse (C : Config) (fs : Fs) (e : Event) : Option (Text × Nat) :=
  let files := e.readdir.1 (fs.names C)
  let size := (files.map fun name => name.length + 1).sum
  if size < 2 ^ 63 then some (listData files, size) else none

def writeResponse (C : Config) (fs : Fs) (c : Client) (e : Event) : Option (Client × List Send) :=
  match c.errorType with
  | some t => some ({ c with state := .complete }, [.status (errorLine ++ C.errText t)])
  | none =>
    match c.method with
    | .list => (listResponse C fs e).map fun (data, size) =>
        let size := if size ≠ 0 then size - 1 else size
        ({ c with state := .complete },
          [.status okLine, .payload (leEncode 8 size), .payload (data.take size)])
    | .get => sendGetResponse C fs c
    | .put => some ({ c with state := .complete }, [.status (okLine ++ [0])])
    | .delete => some ({ c with state := .complete }, [.status (okLine ++ [0])])
    | .unknown => some ({ c with state := .complete }, [])

def processRequest (C : Config) (fs : Fs) (c : Client) (e : Event) : Option (Fs × Client × List Send) :=
  match c.state with
  | .readingVerb => some (fs, readVerb c, [])
  | .readingFilename => (readFilename C fs c).map fun (fs, c) => (fs, c, [])
  | .readingSize => (readSize c).map fun c => (fs, c, [])
  | .readingData => (readData C fs c).map fun (fs, c) => (fs, c, [])
  | .writingResponse => (writeResponse C fs c e).map fun (c, sends) => (fs, c, sends)
  | .complete => some (fs, c, [])

def fileCalls (C : Config) (fs : Fs) (c : Client) : List FileCall :=
  match c.state with
  | .readingFilename =>
    match strchr c.buffer newline (dataSize - c.boffset) c.boffset with
    | some (some a) =>
      let path := C.tempDirectory ++ slash :: load c.buffer c.boffset (a - c.boffset)
      match c.method with
      | .put => [.fopenWb path]
      | .get => .fopenRb path :: if (C.inode fs path).isSome then [.access path] else []
      | .delete => .access path :: if C.access fs path = true then [.remove path] else []
      | _ => []
    | _ => []
  | .readingData => c.fp.toList.flatMap fun i =>
    let bytesLeft := sub64 c.reqSize c.fileOffset
    let leftInBuffer := sub64 c.bufferSize c.boffset
    let bytesToWrite := min leftInBuffer bytesLeft
    if c.bufferSize = 0 then [.fclose i, .remove c.filename]
    else
      let write := FileCall.fwrite i (load c.buffer c.boffset bytesToWrite)
      if bytesToWrite < leftInBuffer ∧ bytesLeft ≤ bytesToWrite then [write, .remove c.filename, .fclose i]
      else if c.reqSize < (c.fileOffset + bytesToWrite) % wordSize then [write, .fclose i, .remove c.filename]
      else if bytesLeft = bytesToWrite then [write, .fclose i]
      else [write]
  | .writingResponse =>
    match c.errorType, c.method with
    | none, .list => [.readdir]
    | none, .get => c.fp.toList.flatMap fun i =>
      let size := if 0 < c.fileOffset then c.reqSize else C.ftell fs c.filename i
      let bytesToSend := min (sub64 size c.fileOffset) dataSize
      let read := FileCall.fread i c.fileOffset bytesToSend
      if size ≤ c.fileOffset + (C.fread fs c.filename i c.fileOffset bytesToSend).length then
        [read, .fclose i]
      else [read]
    | _, _ => []
  | _ => []

def receive (k : Conn) (chunks : List Nat) : Conn :=
  if (k.client.state = .readingData ∧ k.client.bufferSize = 0) ∨ k.client.state = .readingVerb then
    let (bytes, rest) := recvall k.nonblocking dataSize true dataSize ⟨chunks, k.stream⟩
    { k with
      client := { k.client with buffer := store k.client.buffer 0 bytes, bufferSize := bytes.length }
      stream := rest.stream }
  else k

def handleClientRequest (C : Config) (s : Fs × Conn) (e : Event) : Option (Fs × Conn) :=
  if s.2.client.state = .complete then some (s.1, { s.2 with closed := true })
  else
    let k := receive s.2 e.chunks
    (processRequest C s.1 k.client e).map fun (fs, c, sends) =>
      (fs, { k with
        client := c
        sends := k.sends ++ sends
        calls := k.calls ++ fileCalls C s.1 k.client
        nonblocking := true })

def newConnection (buffer : Mem) (stream : Text) : Conn :=
  ⟨⟨.unknown, [], none, 0, .readingVerb, buffer, 0, 0, 0, none⟩, stream, [], [], false, false⟩

/-- All there is arrives at once. -/
def anyEvent : Event := ⟨[], ⟨id, fun _ => List.Perm.refl _⟩⟩

def sampleConfig : Config where
  tempDirectory := ascii ['t', 'm', 'p', 'd', 'i', 'r']
  errText
    | .badRequest => ascii ['B', 'a', 'd'] ++ [newline]
    | .badFileSize => ascii ['S', 'i', 'z', 'e'] ++ [newline]
    | .noSuchFile => ascii ['N', 'o', 'n', 'e'] ++ [newline]
  elsewhere := ⟨fun _ _ => none, fun _ _ => none, fun _ _ => false, fun fs _ => fs, fun _ => none⟩
  length_tempDirectory := rfl
  length_errText := by
    intro e
    cases e <;> decide
  nul_errText := by
    intro e
    cases e <;> decide

end SysProg.Net
