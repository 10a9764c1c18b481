/-
  SysProg.Net.Sessions — a client's requests, one after the other, against the server.

  The purpose of the server is a map from names to contents: `Answers` says what a request
  to it may come to, `Files.after` what it does to the map, and `spec` is the system of
  these. `sessions` is the system of the code: the client sends a request, the server
  handles events of the connection until it has shut it down, and the client reads the
  reply. Its labels choose the request, what is in the buffer of a new connection, how the
  bytes arrive on both sides and in which order directories are read.

  Whatever the labels, the requests and their outcomes are those of a run of the map, and
  every request comes to an outcome after finitely many events (`session_refines_map`).
  What a listing takes in memory is below 2^63, or there is none.
-/

import SysProg.Net.FileMap

namespace SysProg.Net

open Function (update)
open SysProg.Bytes (Mem store leEncode)

variable {C : Config} {fs : Fs} {m : Files} {req : Request}

/-! ## The map -/

def Files.after (m : Files) : Request → Files
  | .put name contents => update m name (some contents)
  | .delete name => update m name none
  | _ => m

def noSuchFile (C : Config) : Outcome := .error ((C.errText .noSuchFile).takeWhile fun b => b ≠ newline)

def namesIn (text : Text) : List Text := if text = [] then [] else text.splitOn newline

def Answers (C : Config) (m : Files) : Request → Outcome → Prop
  | .get name, o =>
    o = match m name with
      | some file => .stored file
      | none => noSuchFile C
  | .put _ _, o => o = .success
  | .delete name, o =>
    o = match m name with
      | some _ => .success
      | none => noSuchFile C
  | .list, o => ∃ text, o = .printed text ∧ (namesIn text).Nodup ∧ ∀ name, name ∈ namesIn text ↔ m name ≠ none

/-- A map, with the requests made and their outcomes. -/
def spec (C : Config) : Run.Sys (Files × List (Request × Outcome)) (Request × Outcome) where
  init s := s = (fun _ => none, [])
  step s a s' := Answers C s.1 a.1 a.2 ∧ s' = (s.1.after a.1, s.2 ++ [a])

/-! ## The code -/

def Request.Valid : Request → Prop
  | .get name => ValidName name
  | .put name contents => ValidName name ∧ contents.length < 2 ^ 63
  | .delete name => ValidName name
  | .list => True

structure Session where
  fs : Fs
  log : List (Request × Outcome)

structure Issue where
  req : Request
  buffer : Mem
  events : List Event
  chunks : List Nat

def serve (C : Config) (fs : Fs) (buffer : Mem) (req : Request) (events : List Event) : Option (Fs × Conn) :=
  Run.upTo (fun s : Fs × Conn => s.2.closed) (handleClientRequest C) events
    (fs, newConnection buffer (sendToServer req))

def request (C : Config) (s : Session) (r : Issue) : Option Session :=
  (serve C s.fs r.buffer r.req r.events).bind fun (fs, conn) =>
    (getFromServer r.req.method ⟨r.chunks, conn.sent⟩).map fun o => ⟨fs, s.log ++ [(r.req, o)]⟩

def sessions (C : Config) : Run.Sys Session Issue := Run.ofFun (fun s => s = ⟨Fs.empty, []⟩) (request C)

/-! ## Listings -/

theorem namesIn_intercalate {names : List Text} (h : ∀ name ∈ names, name ≠ [] ∧ newline ∉ name) :
    namesIn ([newline].intercalate names) = names := by
  cases names with
  | nil => rfl
  | cons name names =>
    have hne : [newline].intercalate (name :: names) ≠ [] := by
      cases names with
      | nil => simpa using (h name (by simp)).1
      | cons other names => simp [List.intercalate_cons_cons]
    unfold namesIn
    rw [if_neg hne]
    exact List.splitOn_intercalate newline (fun l hl => (h l hl).2) (List.cons_ne_nil _ _)

theorem nul_intercalate {names : List Text} (h : ∀ name ∈ names, 0 ∉ name) : 0 ∉ [newline].intercalate names := by
  induction names with
  | nil => simp
  | cons name names ih =>
    have ih' := ih fun n hn => h n (List.mem_cons_of_mem _ hn)
    have hname := h name (by simp)
    cases names with
    | nil => simpa using hname
    | cons other names =>
      rw [List.intercalate_cons_cons, List.append_assoc, List.mem_append, List.mem_append]
      rintro (h0 | h0 | h0)
      · exact hname h0
      · exact absurd (List.mem_singleton.mp h0) (by decide)
      · exact ih' h0

theorem intercalate_length (names : List Text) : ([newline].intercalate names).length ≤ listingSize names := by
  rw [← listData_dropLast, ← listData_length, List.length_dropLast]
  exact Nat.sub_le _ _

theorem listingSize_perm {names names' : List Text} (h : names.Perm names') : listingSize names = listingSize names' :=
  (h.map _).sum_eq

/-! ## A request -/

def Responds (C : Config) (m : Files) (req : Request) (fs : Fs) (sent : Text) : Prop :=
  Rep C fs (m.after req) ∧ ∀ chunks, ∃ o, getFromServer req.method ⟨chunks, sent⟩ = some o ∧ Answers C m req o

theorem error_outcome {name : Text} (hn : m name = none) (chunks : List Nat)
    (hreq : req = .get name ∨ req = .delete name) :
    ∃ o, getFromServer req.method ⟨chunks, errorLine ++ C.errText .noSuchFile⟩ = some o ∧ Answers C m req o := by
  refine ⟨noSuchFile C, getFromServer_error (C.length_errText _) (C.nul_errText _), ?_⟩
  rcases hreq with hr | hr
  · simp only [hr, Answers, hn]
  · simp only [hr, Answers, hn]

theorem serves_get_map {b : Mem} {name : Text} (h : Rep C fs m) (hv : ValidName name) :
    Serves C (Responds C m (.get name)) fs (newConnection b (sendToServer (.get name))) := by
  have hsend : sendToServer (.get name) = requestLine (ascii ['G', 'E', 'T']) name := by
    rw [sendToServer, sendBytes_eq, hv.requestFilename]
  rw [hsend]
  refine serves_get_request hv.fileName ?_ ?_
  · intro hi
    exact ⟨h, fun chunks => error_outcome (h.noFile hi) chunks (Or.inl rfl)⟩
  · intro i hi
    have hf := h.file hi
    have hmax := h.bound _ _ hf
    refine ⟨hmax, h, ?_⟩
    intro chunks
    refine ⟨.stored (fs.data i), getFromServer_stored (Nat.lt_of_lt_of_le hmax (by decide)), ?_⟩
    simp only [Answers, hf]

theorem serves_put_map {b : Mem} {name contents : Text} (h : Rep C fs m) (hv : ValidName name)
    (hmax : contents.length < 2 ^ 63) :
    Serves C (Responds C m (.put name contents)) fs (newConnection b (sendToServer (.put name contents))) := by
  have hsend : sendToServer (.put name contents) =
      requestLine (ascii ['P', 'U', 'T']) name ++ leEncode 8 contents.length ++ contents := by
    rw [sendToServer, sendBytes_eq, sendBytes_eq, hv.requestFilename, sendFile_eq (Nat.lt_succ_self _)]
  rw [hsend]
  refine serves_put_request hv.fileName hmax ⟨h.put hv hmax (create_spec _ _), ?_⟩
  intro chunks
  exact ⟨.success, getFromServer_success (Or.inl rfl), rfl⟩

theorem serves_delete_map {b : Mem} {name : Text} (h : Rep C fs m) (hv : ValidName name) :
    Serves C (Responds C m (.delete name)) fs (newConnection b (sendToServer (.delete name))) := by
  have hsend : sendToServer (.delete name) = requestLine (ascii ['D', 'E', 'L', 'E', 'T', 'E']) name := by
    rw [sendToServer, sendBytes_eq, hv.requestFilename]
  rw [hsend]
  refine serves_delete_request hv.fileName ?_ ?_
  · intro hi
    have hn := h.noFile hi
    refine ⟨?_, fun chunks => error_outcome hn chunks (Or.inr rfl)⟩
    show Rep C fs (update m name none)
    rw [← hn, Function.update_eq_self]
    exact h
  · intro i hi
    refine ⟨h.remove, ?_⟩
    intro chunks
    refine ⟨.success, getFromServer_success (Or.inr rfl), ?_⟩
    simp only [Answers, h.file hi]

theorem serves_list_map {b : Mem} (h : Rep C fs m) (hsize : listingSize (fs.names C) < 2 ^ 63) :
    Serves C (Responds C m .list) fs (newConnection b (sendToServer .list)) := by
  have hsend : sendToServer .list = ascii ['L', 'I', 'S', 'T'] ++ [newline] := by rw [sendToServer, sendBytes_eq]
  rw [hsend]
  apply serves_list_request hsize
  intro names hperm
  have hvalid : ∀ name ∈ names, ValidName name := fun name hn => h.names_valid (hperm.mem_iff.mp hn)
  have hin : namesIn ([newline].intercalate names) = names :=
    namesIn_intercalate fun name hn => ⟨(hvalid name hn).ne, (hvalid name hn).noNewline⟩
  have hlen := intercalate_length names
  rw [listingSize_perm hperm] at hlen
  refine ⟨h, ?_⟩
  intro chunks
  refine ⟨.printed ([newline].intercalate names), getFromServer_printed (by omega)
    (nul_intercalate fun name hn => (hvalid name hn).noNul), ?_⟩
  refine ⟨[newline].intercalate names, rfl, ?_, ?_⟩
  · rw [hin]
    exact hperm.nodup_iff.mpr h.names_nodup
  · intro name
    rw [hin, hperm.mem_iff]
    exact h.mem_names

theorem serves_map {b : Mem} (h : Rep C fs m) (hv : req.Valid)
    (hsize : req = .list → listingSize (fs.names C) < 2 ^ 63) :
    Serves C (Responds C m req) fs (newConnection b (sendToServer req)) := by
  cases req with
  | get name => exact serves_get_map h hv
  | put name contents => exact serves_put_map h hv.1 hv.2
  | delete name => exact serves_delete_map h hv
  | list => exact serves_list_map h (hsize rfl)

/-- A listing that is too long is never sent. -/
theorem serve_long_list {b : Mem} {events : List Event} (hsize : ¬ listingSize (fs.names C) < 2 ^ 63) :
    serve C fs b .list events = none := by
  have hsend : sendToServer .list = ascii ['L', 'I', 'S', 'T'] ++ [newline] := by rw [sendToServer, sendBytes_eq]
  unfold serve
  rw [hsend]
  cases events with
  | nil => rfl
  | cons e events =>
    rw [Run.upTo, if_neg (by simp [newConnection]), handle_first, Option.bind_some, firstRead,
      List.take_of_length_le (by decide), readVerb_list rfl]
    cases events with
    | nil => rfl
    | cons e' events =>
      have hlong : ¬ ((e'.readdir.1 (fs.names C)).map fun name => name.length + 1).sum < 2 ^ 63 := by
        intro hlt
        apply hsize
        rw [← listingSize_perm (e'.readdir.2 (fs.names C))]
        exact hlt
      simp only [Run.upTo, handleClientRequest, receive, processRequest, writeResponse, listResponse, hlong,
        reduceCtorEq, Bool.false_eq_true, false_and, or_false, if_false, Option.map_none, Option.bind_none]

/-- What a request that is served comes to. -/
theorem serve_responds {b : Mem} {events : List Event} {fs' : Fs} {k : Conn} (h : Rep C fs m) (hv : req.Valid)
    (hrun : serve C fs b req events = some (fs', k)) : Responds C m req fs' k.sent := by
  refine (serves_map h hv ?_).sound hrun
  intro hlist
  by_contra hsize
  rw [hlist, serve_long_list hsize] at hrun
  cases hrun

/-- A request of the code is one of the map. -/
theorem request_step {s s' : Session} {r : Issue} (h : Rep C s.fs m) (hv : r.req.Valid)
    (hr : request C s r = some s') : ∃ o, Answers C m r.req o ∧ Rep C s'.fs (m.after r.req) ∧
      s'.log = s.log ++ [(r.req, o)] := by
  unfold request at hr
  rcases Option.bind_eq_some_iff.mp hr with ⟨⟨fs', k⟩, hserve, hread⟩
  rcases Option.map_eq_some_iff.mp hread with ⟨o, ho, hs'⟩
  rcases serve_responds h hv hserve with ⟨hrep, hout⟩
  rcases hout r.chunks with ⟨o', ho', hans⟩
  rw [ho', Option.some.injEq] at ho
  rw [← hs', ← ho]
  exact ⟨o', hans, hrep, rfl⟩

/-- A request comes to an outcome. -/
theorem request_returns {s : Session} (h : Rep C s.fs m) (hv : req.Valid)
    (hsize : req = .list → listingSize (s.fs.names C) < 2 ^ 63) (b : Mem) (events : Nat → Event) (chunks : List Nat) :
    ∃ n s', request C s ⟨req, b, (List.range n).map events, chunks⟩ = some s' := by
  rcases (serves_map (b := b) h hv hsize).total events with ⟨n, ⟨fs', k⟩, hserve⟩
  rcases serve_responds h hv hserve with ⟨_, hout⟩
  rcases hout chunks with ⟨o, ho, _⟩
  refine ⟨n, ⟨fs', s.log ++ [(req, o)]⟩, ?_⟩
  unfold request
  dsimp only
  rw [serve, hserve, Option.bind_some]
  dsimp only
  rw [ho]
  rfl

theorem session_refines_map (C : Config) {s : Session} (h : (sessions C).Via (fun _ r => r.req.Valid) s) :
    (∃ m, (spec C).Reach (m, s.log)) ∧
      ∀ req : Request, req.Valid → (req = .list → listingSize (s.fs.names C) < 2 ^ 63) →
        ∀ (b : Mem) (events : Nat → Event) (chunks : List Nat),
          ∃ n s', request C s ⟨req, b, (List.range n).map events, chunks⟩ = some s' := by
  have hsim : ∃ t, (spec C).Reach t ∧ Rep C s.fs t.1 ∧ t.2 = s.log := by
    refine Run.Sys.Via.simulates
      (R := fun (s : Session) (t : Files × List (Request × Outcome)) => Rep C s.fs t.1 ∧ t.2 = s.log) ?_ ?_ h
    · intro s hs
      rw [hs]
      exact ⟨_, rfl, Rep.empty, rfl⟩
    · intro s t r s' ht hv hr
      rcases request_step ht.1 hv hr with ⟨o, hans, hrep, hlog⟩
      refine ⟨(r.req, o), (t.1.after r.req, t.2 ++ [(r.req, o)]), ⟨hans, rfl⟩, hrep, ?_⟩
      rw [hlog, ht.2]
  rcases hsim with ⟨⟨m, log⟩, hreach, hrep, hlog⟩
  dsimp only at hrep hlog
  rw [hlog] at hreach
  exact ⟨⟨m, hreach⟩, fun req hv hsize b events chunks => request_returns hrep hv hsize b events chunks⟩

/-! ## A session -/

/-- A request with so many events, where bytes first come one at a time. -/
def sampleIssue (req : Request) (n : Nat) : Issue :=
  ⟨req, fun _ => 0, List.replicate n ⟨[1, 1, 1], ⟨List.reverse, List.reverse_perm⟩⟩, [1]⟩

def sampleName : Text := ascii ['a']

theorem sampleName_valid : ValidName sampleName := by constructor <;> decide

theorem session_refines_map_stored : ∃ s : Session,
    s.log = [(.put sampleName (ascii ['x', 'y']), .success), (.get sampleName, .stored (ascii ['x', 'y'])),
      (.list, .printed sampleName), (.delete sampleName, .success)] ∧
    (∃ m, (spec sampleConfig).Reach (m, s.log)) ∧
    ∃ n s', request sampleConfig s ⟨.get sampleName, fun _ => 0,
      (List.range n).map fun _ => ⟨[], ⟨id, fun _ => .refl _⟩⟩, []⟩ = some s' := by
  have hrun : (Run.exec (request sampleConfig) ⟨Fs.empty, []⟩ [sampleIssue (.put sampleName (ascii ['x', 'y'])) 6,
      sampleIssue (.get sampleName) 4, sampleIssue .list 3, sampleIssue (.delete sampleName) 4]).map (fun s => s.log) =
    some [(.put sampleName (ascii ['x', 'y']), .success), (.get sampleName, .stored (ascii ['x', 'y'])),
      (.list, .printed sampleName), (.delete sampleName, .success)] := by decide +kernel
  rcases Option.map_eq_some_iff.mp hrun with ⟨s, hs, hlog⟩
  have hvia : (sessions sampleConfig).Via (fun _ r => r.req.Valid) s := by
    have hinit : (sessions sampleConfig).Via (fun _ r => r.req.Valid) ⟨Fs.empty, []⟩ := .init rfl
    refine Run.via_exec hinit ?_ hs
    intro r hr u
    simp only [List.mem_cons, List.not_mem_nil, or_false] at hr
    rcases hr with hr | hr | hr | hr
    · rw [hr]
      exact ⟨sampleName_valid, by decide⟩
    · rw [hr]
      exact sampleName_valid
    · rw [hr]
      trivial
    · rw [hr]
      exact sampleName_valid
  rcases session_refines_map sampleConfig hvia with ⟨hmap, hreturns⟩
  exact ⟨s, hlog, hmap, hreturns (.get sampleName) sampleName_valid (by intro h; cases h) _ _ _⟩

end SysProg.Net
