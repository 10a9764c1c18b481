/-
  SysProg.Net.GetSends — a GET to a client whose socket is full now and then.

  From its second event on a connection is nonblocking, so a `send` may be refused (EAGAIN).
  `send_get_response` passes its pieces to `sendall`, the first line, the size and one
  block of the file at each event, and goes on as if each had been taken: it looks at no
  result. `handOver` gives what the socket takes of the pieces of a connection.

  When a GET is complete its pieces are the whole response, each once
  (`Responding.complete`), so what the client gets is the response exactly when none of
  these `send`s was refused (`get_handed_iff`).
-/

import SysProg.Net.Determined
import SysProg.Net.Poll
import SysProg.Net.Sending

namespace SysProg.Net

open SysProg.Bytes (Mem leEncode leEncode_length)

/-! ## Refusals -/

def Socket.refusing (refuses : Nat → Bool) : Socket where
  send i n := if n = 0 ∨ refuses i = true then none else some n
  bounds {i n k} h := by
    split at h
    · cases h
    · cases h
      omega

/-- What the socket takes of these pieces, each given to one call of `sendall`. -/
def handOver : Socket → List Send → Option Text
  | _, [] => some []
  | s, piece :: sends =>
    (sendallTurns (piece.text.length + 1) s piece.text).bind fun h => (handOver h.socket sends).map (h.taken ++ ·)

variable {refuses : Nat → Bool} {sends : List Send} {piece : Send}

theorem sendallTurns_nil (s : Socket) : sendallTurns 1 s [] = some ⟨[], 0, s⟩ := rfl

/-- A piece of at most a block is one `send`. -/
theorem sendallTurns_refusing {text : Text} (hne : text ≠ []) (hlen : text.length ≤ dataSize) :
    sendallTurns (text.length + 1) (.refusing refuses) text =
      some (if refuses 0 = true then ⟨[], 0, .refusing fun i => refuses (i + 1)⟩
        else ⟨text, text.length, .refusing fun i => refuses (i + 1)⟩) := by
  have hpos := List.length_pos_iff.mpr hne
  rcases Nat.exists_eq_succ_of_ne_zero (Nat.ne_of_gt hpos) with ⟨m, hm⟩
  have hsend : (Socket.refusing refuses).send 0 (min text.length dataSize) =
      if refuses 0 = true then none else some text.length := by
    show (if _ ∨ _ then none else some _) = _
    rw [Nat.min_eq_left hlen]
    simp [hne]
  rw [sendallTurns, if_neg hne]
  dsimp only
  rw [hsend]
  by_cases hr : refuses 0 = true
  · rw [if_pos hr, if_pos hr]
    rfl
  · rw [if_neg hr, if_neg hr, Nat.min_eq_left hlen]
    dsimp only
    rw [if_neg (not_not.mpr rfl), List.drop_length, List.take_length, hm, sendallTurns, if_pos rfl, Option.map_some,
      List.append_nil, Nat.add_zero]
    rfl

def sendCount (sends : List Send) : Nat := sends.countP fun piece => decide (piece.text ≠ [])

theorem handOver_refusing (refuses : Nat → Bool) (sends : List Send)
    (hlen : ∀ piece ∈ sends, piece.text.length ≤ dataSize) :
    ∃ taken, handOver (.refusing refuses) sends = some taken ∧ taken.length ≤ (sentBy sends).length ∧
      (taken = sentBy sends ↔ ∀ j, j < sendCount sends → refuses j = false) := by
  induction sends generalizing refuses with
  | nil => exact ⟨[], rfl, Nat.le_refl _, by simp [sendCount]⟩
  | cons piece sends ih =>
    have hrest : ∀ p ∈ sends, p.text.length ≤ dataSize := fun p hp => hlen p (List.mem_cons_of_mem _ hp)
    rw [handOver, sentBy_cons]
    by_cases hne : piece.text = []
    · rcases ih refuses hrest with ⟨taken, htaken, hle, hiff⟩
      have hcount : sendCount (piece :: sends) = sendCount sends := List.countP_cons_of_neg (by simpa using hne)
      rw [hne, List.length_nil, Nat.zero_add, sendallTurns_nil, Option.bind_some, htaken, hcount]
      exact ⟨taken, rfl, hle, hiff⟩
    · rcases ih (fun i => refuses (i + 1)) hrest with ⟨taken, htaken, hle, hiff⟩
      have hpos := List.length_pos_iff.mpr hne
      have hcount : sendCount (piece :: sends) = sendCount sends + 1 := List.countP_cons_of_pos (by simpa using hne)
      rw [sendallTurns_refusing hne (hlen piece List.mem_cons_self), Option.bind_some, hcount]
      by_cases hr : refuses 0 = true
      · rw [if_pos hr, htaken]
        refine ⟨taken, rfl, by rw [List.length_append]; omega, ?_⟩
        constructor
        · intro he
          have hlen' := congrArg List.length he
          rw [List.length_append] at hlen'
          omega
        · intro hnone
          rw [hnone 0 (Nat.succ_pos _)] at hr
          cases hr
      · rw [if_neg hr, htaken]
        refine ⟨piece.text ++ taken, rfl, by rw [List.length_append, List.length_append]; omega, ?_⟩
        rw [List.append_cancel_left_eq, hiff]
        constructor
        · intro h j hj
          cases j with
          | zero => exact Bool.eq_false_iff.mpr hr
          | succ j => exact h j (Nat.lt_of_succ_lt_succ hj)
        · exact fun h j hj => h (j + 1) (Nat.succ_lt_succ hj)

/-! ## The pieces of a response -/

def block (file : Text) (j : Nat) : Text := (file.drop (dataSize * j)).take dataSize

def getSends (file : Text) (n : Nat) : List Send :=
  .status okLine :: .payload (leEncode 8 file.length) :: (List.range n).map fun j => .payload (block file j)

theorem getSends_succ (file : Text) (n : Nat) :
    getSends file (n + 1) = getSends file n ++ [.payload (block file n)] := by
  unfold getSends
  rw [List.range_succ, List.map_append]
  rfl

theorem block_length (file : Text) (j : Nat) : (block file j).length = min (file.length - dataSize * j) dataSize := by
  unfold block
  rw [List.length_take, List.length_drop, Nat.min_comm]

theorem getSends_length {file : Text} {n : Nat} (hp : piece ∈ getSends file n) : piece.text.length ≤ dataSize := by
  rcases List.mem_cons.mp hp with rfl | hp
  · decide
  rcases List.mem_cons.mp hp with rfl | hp
  · rw [Send.text, leEncode_length]
    decide
  · rcases List.mem_map.mp hp with ⟨j, -, rfl⟩
    rw [Send.text, block_length]
    omega

theorem sentBy_getSends (file : Text) (n : Nat) :
    sentBy (getSends file n) = okLine ++ leEncode 8 file.length ++ file.take (dataSize * n) := by
  induction n with
  | zero => simp [getSends, Send.text]
  | succ n ih =>
    rw [getSends_succ, sentBy_append, ih, sentBy_cons, sentBy_nil, List.append_nil, List.append_assoc _ _ (Send.text _),
      Nat.mul_succ]
    congr 1
    rw [Send.text, block, List.take_add]

theorem sendCount_getSends {file : Text} {n : Nat} (hn : n = 1 ∨ dataSize * (n - 1) < file.length)
    (hlast : file.length ≤ dataSize * n) :
    sendCount (getSends file n) = 2 + (file.length + dataSize - 1) / dataSize := by
  have hblocks : ∀ m, m ≤ n → ((List.range m).map fun j => Send.payload (block file j)).countP
      (fun piece => decide (piece.text ≠ [])) = if file = [] then 0 else m := by
    intro m
    induction m with
    | zero =>
      intro _
      simp
    | succ m ih =>
      intro hm
      have hnil : block file m = [] ↔ file = [] := by
        rw [← List.length_eq_zero_iff, block_length, ← List.length_eq_zero_iff]
        rcases hn with hn | hn
        · have hm0 : m = 0 := by omega
          rw [hm0]
          unfold dataSize
          omega
        · have hle : dataSize * m ≤ dataSize * (n - 1) := Nat.mul_le_mul_left _ (by omega)
          unfold dataSize at *
          omega
      rw [List.range_succ, List.map_append, List.countP_append, ih (by omega), List.map_singleton,
        List.countP_singleton]
      by_cases hf : file = []
      · rw [if_pos hf, if_pos hf]
        simp [Send.text, hnil.mpr hf]
      · rw [if_neg hf, if_neg hf]
        simp [Send.text, mt hnil.mp hf]
  have hsize : leEncode 8 file.length ≠ [] := by
    intro h
    have hlen := congrArg List.length h
    rw [leEncode_length] at hlen
    cases hlen
  unfold sendCount getSends
  rw [List.countP_cons_of_pos (by decide), List.countP_cons_of_pos ?_, hblocks n (Nat.le_refl n)]
  swap
  · exact decide_eq_true hsize
  split
  · rename_i hf
    rw [hf]
    rfl
  · rename_i hf
    have hpos := List.length_pos_iff.mpr hf
    have hdiv : (file.length + dataSize - 1) / dataSize = n := by
      rw [Nat.div_eq_iff (by decide)]
      unfold dataSize at *
      omega
    omega

/-! ## A GET, event by event -/

variable {C : Config} {dirs : Nat → Fs} {fs fs' : Fs} {c c' : Client} {k k' : Conn} {file stream : Text} {b : Mem}
  {i n : Nat}

/-- A response with so many blocks, none of them beyond the end of the file. -/
structure Sent (file : Text) (n fileOffset reqSize : Nat) (sends : List Send) : Prop where
  offset : fileOffset = min file.length (dataSize * n)
  size : 0 < n → reqSize = file.length
  sends : sends = if n = 0 then [] else getSends file n
  needed : n ≤ 1 ∨ dataSize * (n - 1) < file.length

def Responding (C : Config) (i : Nat) (file : Text) (c : Client) (sends : List Send) : Prop :=
  c.fp = some i → C.directory c.filename i = none → c.errorType = none → c.method = .get →
    (c.state = .writingResponse →
      ∃ n, (n = 0 ∨ dataSize * n < file.length) ∧ Sent file n c.fileOffset c.reqSize sends) ∧
    (c.state = .complete → ∃ n, 0 < n ∧ file.length ≤ dataSize * n ∧ Sent file n c.fileOffset c.reqSize sends)

theorem sendGetResponse_sent {sent sends : List Send} (hfile : fs.data i = file) (hmax : file.length < 2 ^ 63)
    (hfp : c.fp = some i) (hdir : C.directory c.filename i = none) (hn : n = 0 ∨ dataSize * n < file.length)
    (h : Sent file n c.fileOffset c.reqSize sent)
    (hg : sendGetResponse C fs c = some (c', sends)) : Sent file (n + 1) c'.fileOffset c'.reqSize (sent ++ sends) ∧
      c'.state = if file.length ≤ dataSize * (n + 1) then .complete else .writingResponse := by
  have hoff : c.fileOffset = dataSize * n := by
    have hmin := h.offset
    rcases hn with hn | hn
    · rw [hn] at hmin ⊢
      omega
    · omega
  have hzero : 0 < dataSize * n ↔ 0 < n := by
    unfold dataSize
    omega
  have hsize : (if 0 < n then c.reqSize else ftell file) = file.length := by
    split
    · rename_i hpos
      exact h.size hpos
    · exact ftell_eq hmax
  have hle : dataSize * n ≤ file.length := by
    rcases hn with hn | hn
    · rw [hn]
      exact Nat.zero_le _
    · exact Nat.le_of_lt hn
  have hleft : sub64 file.length (dataSize * n) = file.length - dataSize * n :=
    sub64_eq (Nat.lt_of_lt_of_le hmax (by decide)) hle
  have hblock : (file.drop (dataSize * n)).take (min (file.length - dataSize * n) dataSize) = block file n := by
    rw [block, List.take_eq_take_iff, List.length_drop]
    omega
  have hend : dataSize * n + (block file n).length = min file.length (dataSize * (n + 1)) := by
    rw [block_length, Nat.mul_succ]
    omega
  unfold sendGetResponse at hg
  rw [hfp] at hg
  simp only [Option.map_some, ftell_file hdir, fread_file hdir, hfile, hzero, hsize, hoff, hleft, hblock, hend,
    Option.some.injEq, Prod.mk.injEq] at hg
  rcases hg with ⟨rfl, rfl⟩
  have hlast : file.length ≤ min file.length (dataSize * (n + 1)) ↔ file.length ≤ dataSize * (n + 1) := by omega
  refine ⟨⟨rfl, fun _ => rfl, ?_, ?_⟩, by simp only [hlast]⟩
  · rw [h.sends, if_neg (Nat.succ_ne_zero n)]
    by_cases hpos : n = 0
    · rw [hpos]
      rfl
    · rw [if_neg hpos, if_pos (Nat.pos_of_ne_zero hpos), getSends_succ]
      rfl
  · rcases hn with hn | hn
    · exact Or.inl (by omega)
    · exact Or.inr hn

/-- One turn of the state machine. -/
theorem process_responding {sent sends : List Send} {e : Event} (hfile : fs.data i = file) (hmax : file.length < 2 ^ 63)
    (hquiet : c.state.place < 4 → sent = []) (hr : Responding C i file c sent)
    (hp : processRequest C fs c e = some (fs', c', sends)) : Responding C i file c' (sent ++ sends) := by
  intro hfp hdir ht hm
  have hbefore : c'.state.place < 4 → (c'.state = .writingResponse →
      ∃ n, (n = 0 ∨ dataSize * n < file.length) ∧ Sent file n c'.fileOffset c'.reqSize (sent ++ sends)) ∧
      (c'.state = .complete →
        ∃ n, 0 < n ∧ file.length ≤ dataSize * n ∧ Sent file n c'.fileOffset c'.reqSize (sent ++ sends)) := by
    intro hplace
    refine ⟨fun hs => ?_, fun hs => ?_⟩ <;>
    · rw [hs] at hplace
      exact absurd hplace (by decide)
  unfold processRequest at hp
  cases hs : c.state with
  | readingVerb =>
    rw [hs] at hp
    cases hp
    rcases readVerb_orderly (c := c) with hplace | ⟨-, hget⟩
    · exact hbefore (by rw [hplace]; decide)
    · exact absurd hm (hget ht)
  | readingFilename =>
    have hsent : sent = [] := hquiet (by rw [hs]; decide)
    rw [hs] at hp
    rcases Option.map_eq_some_iff.mp hp with ⟨⟨fs₁, c₁⟩, hread, he⟩
    cases he
    rcases readFilename_orderly hs hread with hstate | hstate | ⟨hstate, hoff⟩
    · exact hbefore (by rw [hstate]; decide)
    · exact hbefore (by rw [hstate]; decide)
    · refine ⟨fun _ => ⟨0, Or.inl rfl, ?_, fun h => absurd h (Nat.lt_irrefl 0), ?_, Or.inl (Nat.zero_le 1)⟩, ?_⟩
      · rw [hoff ht, Nat.mul_zero, Nat.min_zero]
      · rw [hsent]
        rfl
      · intro hcomplete
        rw [hstate] at hcomplete
        cases hcomplete
  | readingSize =>
    rw [hs] at hp
    rcases Option.map_eq_some_iff.mp hp with ⟨c₁, hread, he⟩
    unfold readSize at hread
    split at hread
    · cases he
      cases hread
      exact hbefore (show 3 < 4 by decide)
    · cases hread
  | readingData =>
    rw [hs] at hp
    rcases Option.map_eq_some_iff.mp hp with ⟨⟨fs₁, c₁⟩, hread, he⟩
    cases he
    rw [(readData_orderly hread).1] at hm
    cases hm
  | writingResponse =>
    rw [hs] at hp
    rcases Option.map_eq_some_iff.mp hp with ⟨⟨c₁, sends₁⟩, hw, he⟩
    cases he
    rcases writeResponse_same hw with ⟨hfp', ht', hm', hname⟩
    rw [hfp'] at hfp
    rw [hname] at hdir
    rw [ht'] at ht
    rw [hm'] at hm
    rcases (hr hfp hdir ht hm).1 hs with ⟨n, hn, hsent⟩
    simp only [writeResponse, ht, hm] at hw
    rcases sendGetResponse_sent hfile hmax hfp hdir hn hsent hw with ⟨hsent', hstate⟩
    split at hstate
    · rename_i hlast
      refine ⟨?_, fun _ => ⟨n + 1, Nat.succ_pos n, hlast, hsent'⟩⟩
      intro hwriting
      rw [hstate] at hwriting
      cases hwriting
    · rename_i hlast
      refine ⟨fun _ => ⟨n + 1, Or.inr (Nat.lt_of_not_le hlast), hsent'⟩, ?_⟩
      intro hcomplete
      rw [hstate] at hcomplete
      cases hcomplete
  | complete =>
    rw [hs] at hp
    cases hp
    rw [List.append_nil]
    exact hr hfp hdir ht hm

/-- One event. -/
theorem handle_responding {e : Event} (hfile : fs.data i = file) (hmax : file.length < 2 ^ 63)
    (hquiet : k.client.state.place < 4 → k.sends = []) (hr : Responding C i file k.client k.sends)
    (hk : handleClientRequest C (fs, k) e = some (fs', k')) : Responding C i file k'.client k'.sends := by
  rcases handle_cases hk with ⟨-, -, rfl⟩ | ⟨hc, c, sends, hp, rfl⟩
  · exact hr
  · have hr' : Responding C i file (receive k e.chunks).client k.sends := by
      unfold receive
      split <;> exact hr
    exact process_responding hfile hmax (by rw [receive_state]; exact hquiet) hr' hp

/-- The pieces of a complete GET, whatever happens to other files. -/
theorem get_sends {es : List Event} (h : handleEvents C dirs es (dirs 0, newConnection b stream) = some (fs, k))
    (hc : k.client.state = .complete) (hm : k.client.method = .get) (ht : k.client.errorType = none)
    (hfp : k.client.fp = some i) (hdir : C.directory k.client.filename i = none) (hfile : ∀ n, (dirs n).data i = file)
    (hmax : file.length < 2 ^ 63) : ∃ n, file.length ≤ dataSize * n ∧ (n = 1 ∨ dataSize * (n - 1) < file.length) ∧
      k.sends = getSends file n := by
  have hinv : (k.client.state.place < 4 → k.sends = []) ∧ Responding C i file k.client k.sends := by
    refine handleEvents_inv (P := fun fs => fs.data i = file)
      (I := fun k => (k.client.state.place < 4 → k.sends = []) ∧ Responding C i file k.client k.sends) ?_ hfile ?_ h
    · intro fs fs' k k' e hfs hk hstep
      exact ⟨handle_quiet hk.1 hstep, handle_responding hfs hmax hk.1 hk.2 hstep⟩
    · refine ⟨fun _ => rfl, ?_⟩
      intro hnone
      cases hnone
  rcases (hinv.2 hfp hdir ht hm).2 hc with ⟨n, hpos, hlast, hsent⟩
  refine ⟨n, hlast, ?_, by rw [hsent.sends, if_neg (Nat.ne_of_gt hpos)]⟩
  rcases hsent.needed with hn | hn
  · exact Or.inl (by omega)
  · exact Or.inr hn

def twoBytes : Fs := ⟨[(path sampleConfig (ascii ['x']), 0)], fun _ => ascii ['a', 'b'], 1⟩

def getX : Conn := newConnection (fun _ => 0) (requestLine (ascii ['G', 'E', 'T']) (ascii ['x']))

theorem getX_complete : ∃ fs k, handleEvents sampleConfig (fun _ => twoBytes) [anyEvent, anyEvent, anyEvent]
      (twoBytes, getX) = some (fs, k) ∧ k.client.state = .complete ∧ k.client.method = .get ∧
    k.client.errorType = none ∧ k.client.fp = some 0 ∧
    k.sends = [.status okLine, .payload (leEncode 8 2), .payload (ascii ['a', 'b'])] := by
  have hrun : (handleEvents sampleConfig (fun _ => twoBytes) [anyEvent, anyEvent, anyEvent] (twoBytes, getX)).map
      (fun s => ((s.2.client.state, s.2.client.method), (s.2.client.errorType, s.2.client.fp), s.2.sends)) =
        some ((.complete, .get), (none, some 0),
          [.status okLine, .payload (leEncode 8 2), .payload (ascii ['a', 'b'])]) := by decide +kernel
  rcases Option.map_eq_some_iff.mp hrun with ⟨⟨fs, k⟩, hk, he⟩
  simp only [Prod.mk.injEq, and_assoc] at he
  exact ⟨fs, k, hk, he⟩

/-- What a socket that refuses some `send`s takes of a complete GET. -/
theorem get_handed_iff {es : List Event} (refuses : Nat → Bool)
    (h : handleEvents C dirs es (dirs 0, newConnection b stream) = some (fs, k)) (hc : k.client.state = .complete)
    (hm : k.client.method = .get) (ht : k.client.errorType = none) (hfp : k.client.fp = some i)
    (hdir : C.directory k.client.filename i = none) (hfile : ∀ n, (dirs n).data i = file)
    (hmax : file.length < 2 ^ 63) :
    handOver (.refusing refuses) k.sends = some (okLine ++ leEncode 8 file.length ++ file) ↔
      ∀ j, j < 2 + (file.length + dataSize - 1) / dataSize → refuses j = false := by
  rcases get_sends h hc hm ht hfp hdir hfile hmax with ⟨n, hlast, hn, hsends⟩
  rcases handOver_refusing refuses (getSends file n) fun piece hp => getSends_length hp with ⟨taken, htaken, -, hiff⟩
  rw [sendCount_getSends hn hlast, sentBy_getSends, List.take_of_length_le hlast] at hiff
  rw [hsends, htaken, ← hiff, Option.some.injEq]

theorem get_handed_two : ∃ fs k, handleEvents sampleConfig (fun _ => twoBytes) [anyEvent, anyEvent, anyEvent]
      (twoBytes, getX) = some (fs, k) ∧ k.client.state = .complete ∧
    (handOver (.refusing fun _ => false) k.sends = some (okLine ++ leEncode 8 2 ++ ascii ['a', 'b']) ↔
      ∀ j, j < 2 + (2 + dataSize - 1) / dataSize → false = false) := by
  rcases getX_complete with ⟨fs, k, hk, hc, hm, ht, hfp, -⟩
  exact ⟨fs, k, hk, hc, get_handed_iff (fun _ => false) hk hc hm ht hfp sample_directory (fun _ => rfl) (by decide)⟩

/-- The `send` of the first line is refused, and the client gets the size and the file. -/
theorem first_line_lost : ∃ fs k, handleEvents sampleConfig (fun _ => twoBytes) [anyEvent, anyEvent, anyEvent]
      (twoBytes, getX) = some (fs, k) ∧ k.client.state = .complete ∧ k.client.method = .get ∧
    k.client.errorType = none ∧ k.client.fp = some 0 ∧
    handOver (.refusing (· == 0)) k.sends = some (leEncode 8 2 ++ ascii ['a', 'b']) ∧
    handOver (.refusing (· == 0)) k.sends ≠ some (okLine ++ leEncode 8 2 ++ ascii ['a', 'b']) := by
  have htaken : handOver (.refusing (· == 0)) [.status okLine, .payload (leEncode 8 2), .payload (ascii ['a', 'b'])] =
      some (leEncode 8 2 ++ ascii ['a', 'b']) := by decide +kernel
  rcases getX_complete with ⟨fs, k, hk, hc, hm, ht, hfp, hsends⟩
  rw [← hsends] at htaken
  refine ⟨fs, k, hk, hc, hm, ht, hfp, htaken, ?_⟩
  rw [htaken]
  decide

end SysProg.Net
