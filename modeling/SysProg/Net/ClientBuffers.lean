/-
  SysProg.Net.ClientBuffers — nonstop_networking/client.c: where a reply is written.

  `get_from_server` believes the lengths that the server sends. The bytes of a LIST are copied
  into a block of `size + 1` bytes, in 64 bits, whether or not there is such a block; the text of
  an error is appended to 256 bytes up to the end of its line. `receiveListWrites` is
  the loop of a LIST with all that it writes into the block (`receiveListWrites_fst`).

  `in_bounds_iff`: nothing is written outside exactly when the line of an error has fewer
  than 256 bytes that are not NUL, and the block of a LIST has its size or nothing is
  written to it. The announced size 2^64 - 1 leaves a block of no bytes.
-/

import SysProg.Net.Client
import SysProg.Net.Server

namespace SysProg.Net

open SysProg.Bytes (leDecode leDecode_lt)

/-! ## What is written -/

/-- `malloc`: the bytes of the block that it returns, none with NULL. -/
structure Allocator where
  bytes : Nat → Nat
  full : ∀ n, bytes n = n ∨ bytes n = 0
  large : ∀ n, 2 ^ 63 ≤ n → bytes n = 0

/-- The loop of a LIST, with the place and the length of each copy. -/
def receiveListWrites (size : Nat) : Nat → Text → Incoming → Option Text × List (Nat × Nat)
  | 0, output, _ => (some output, [])
  | fuel + 1, output, s =>
    let (buffer, s) := receiveBytes dataSize s
    if buffer = [] then (some output, [])
    else if size < output.length + buffer.length then (none, [])
    else
      let rest := receiveListWrites size fuel (output ++ buffer) s
      (rest.1, (output.length, buffer.length) :: rest.2)

theorem receiveListWrites_fst (size fuel : Nat) (output : Text) (s : Incoming) :
    (receiveListWrites size fuel output s).1 = receiveList size fuel output s := by
  induction fuel generalizing output s with
  | zero => rfl
  | succ fuel ih =>
    unfold receiveListWrites receiveList
    dsimp only
    split
    · rfl
    · split
      · rfl
      · exact ih _ _

def listWrites (size : Nat) (s : Incoming) : List (Nat × Nat) :=
  match receiveListWrites size (s.stream.length + 1) [] s with
  | (none, writes) => writes
  | (some output, writes) => if output.length < size then writes else writes ++ [(size, 1)]

/-- The size that the reply to a LIST announces, and what is written for it. -/
def outputWrites (method : Verb) (s : Incoming) : Option (Nat × List (Nat × Nat)) :=
  let (first, s) := receiveBytes 1 s
  if first = ascii ['O'] then
    let (rest, s) := receiveBytes 2 s
    if first ++ rest ≠ okLine ∨ method ≠ .list then none
    else
      let (sizeBytes, s) := receiveBytes 8 s
      some (leDecode sizeBytes, listWrites (leDecode sizeBytes) s)
  else none

/-- The text of an error fits with its terminator, and each write of a LIST is to the block. -/
structure InBounds (A : Allocator) (method : Verb) (s : Incoming) : Prop where
  error : ∃ outcome, getFromServer method s = some outcome ∧ ∀ text, outcome = .error text → text.length + 1 ≤ 256
  output : ∀ size writes, outputWrites method s = some (size, writes) →
    ∀ w ∈ writes, w.1 + w.2 ≤ A.bytes ((size + 1) % wordSize)

/-- The block has its size, or no byte follows a size, or more than was announced comes at once. -/
def FitsBlock (A : Allocator) (size : Nat) (data : Text) : Prop :=
  A.bytes ((size + 1) % wordSize) = size + 1 ∨ (data = [] ∧ 0 < size) ∨ size < min data.length dataSize

structure SafeReply (A : Allocator) (method : Verb) (reply : Text) : Prop where
  error : errorLine <+: reply → ((reply.drop 6).takeWhile fun b => b ≠ newline).countP (fun b => b ≠ 0) < 256
  output : okLine <+: reply → method = .list → FitsBlock A (leDecode ((reply.drop 3).take 8)) (reply.drop 11)

variable {A : Allocator} {method : Verb} {s : Incoming} {size fuel : Nat} {output error : Text}

/-! ## The text of an error -/

theorem receiveError_iff (error : Text) (hfuel : s.stream.length < fuel) (hlen : error.length < 256) :
    (∃ text, receiveError fuel error s = some text ∧ text.length + 1 ≤ 256) ↔
      error.length + (s.stream.takeWhile fun b => b ≠ newline).countP (fun b => b ≠ 0) < 256 := by
  induction fuel generalizing error s with
  | zero => cases hfuel
  | succ fuel ih =>
    unfold receiveError
    cases hs : s.stream with
    | nil =>
      obtain ⟨s', hpair⟩ := receiveBytes_one_nil hs
      rw [hpair]
      exact iff_of_true ⟨error, rfl, hlen⟩ hlen
    | cons b l =>
      obtain ⟨s', hpair, hstream⟩ := receiveBytes_one_cons hs
      rw [hs] at hfuel
      have hfuel' : s'.stream.length < fuel := by
        rw [hstream]
        exact Nat.lt_of_succ_lt_succ hfuel
      rw [hpair]
      dsimp only
      by_cases hb : b = newline
      · rw [if_pos hb, List.takeWhile_cons_of_neg (by simpa using hb)]
        exact iff_of_true ⟨error, rfl, hlen⟩ hlen
      rw [if_neg hb, List.takeWhile_cons_of_pos (by simpa using hb)]
      by_cases hb0 : b = 0
      · rw [if_pos hb0, ih error hfuel' hlen, hstream, List.countP_cons_of_neg (by simpa using hb0)]
      · rw [if_neg hb0, List.countP_cons_of_pos (by simpa using hb0)]
        split
        · rename_i hroom
          rw [ih (error ++ [b]) hfuel' (by rw [List.length_append]; exact hroom), hstream, List.length_append,
            List.length_singleton]
          omega
        · rename_i hroom
          refine iff_of_false ?_ (by omega)
          intro hsome
          obtain ⟨text, htext, -⟩ := hsome
          cases htext

/-! ## The block of a LIST -/

theorem receiveListWrites_le {w : Nat × Nat} (hw : w ∈ (receiveListWrites size fuel output s).2) :
    w.1 + w.2 ≤ size ∧ 0 < w.2 := by
  induction fuel generalizing output s with
  | zero => cases hw
  | succ fuel ih =>
    unfold receiveListWrites at hw
    dsimp only at hw
    split at hw
    · cases hw
    rename_i hne
    split at hw
    · cases hw
    rename_i hroom
    rcases List.mem_cons.mp hw with rfl | hw
    · exact ⟨Nat.le_of_not_lt hroom, List.length_pos_iff.mpr hne⟩
    · exact ih hw

/-- Copies are within the announced size, and the terminator comes after them. -/
theorem listWrites_le {w : Nat × Nat} (hw : w ∈ listWrites size s) : w.1 + w.2 ≤ size + 1 ∧ 0 < w.2 := by
  have hcopy : ∀ w ∈ (receiveListWrites size (s.stream.length + 1) [] s).2, w.1 + w.2 ≤ size + 1 ∧ 0 < w.2 :=
    fun w hw => ⟨Nat.le_succ_of_le (receiveListWrites_le hw).1, (receiveListWrites_le hw).2⟩
  unfold listWrites at hw
  split at hw
  · rename_i hr
    rw [hr] at hcopy
    exact hcopy w hw
  · rename_i hr
    rw [hr] at hcopy
    split at hw
    · exact hcopy w hw
    · rcases List.mem_append.mp hw with hw | hw
      · exact hcopy w hw
      · rw [List.mem_singleton.mp hw]
        exact ⟨Nat.le_refl _, Nat.one_pos⟩

theorem listWrites_nil : listWrites size s = [] ↔ (s.stream = [] ∧ 0 < size) ∨ size < min s.stream.length dataSize := by
  have hfirst : receiveListWrites size (s.stream.length + 1) [] s =
      if s.stream.take dataSize = [] then (some [], [])
      else if size < (s.stream.take dataSize).length then (none, [])
      else
        let rest := receiveListWrites size s.stream.length (s.stream.take dataSize) (receiveBytes dataSize s).2
        (rest.1, (0, (s.stream.take dataSize).length) :: rest.2) := by
    rw [receiveListWrites]
    dsimp only
    rw [(receiveBytes_eq dataSize s).1, List.nil_append, List.length_nil, Nat.zero_add]
  have hlen : (s.stream.take dataSize).length = min s.stream.length dataSize := by
    rw [List.length_take, Nat.min_comm]
  have hdata : 0 < dataSize := by decide
  unfold listWrites
  rw [hfirst]
  by_cases hnil : s.stream = []
  · rw [hnil, List.take_nil, if_pos rfl]
    dsimp only
    rw [List.length_nil, Nat.zero_min]
    by_cases hsize : 0 < size
    · rw [if_pos hsize]
      simp [hsize]
    · rw [if_neg hsize]
      simp [hsize]
  · have hpos := List.length_pos_iff.mpr hnil
    have hne : s.stream.take dataSize ≠ [] := by
      rw [← List.length_pos_iff, hlen]
      omega
    rw [if_neg hne, hlen]
    by_cases hmore : size < min s.stream.length dataSize
    · rw [if_pos hmore]
      simp [hmore]
    · rw [if_neg hmore]
      refine iff_of_false ?_ (fun h => h.elim (fun h => hnil h.1) hmore)
      generalize receiveListWrites size s.stream.length (s.stream.take dataSize) (receiveBytes dataSize s).2 = rest
      rcases rest with ⟨_ | out, writes⟩
      · exact List.cons_ne_nil _ _
      · dsimp only
        split <;> exact List.cons_ne_nil _ _

theorem fitsBlock_iff (hsize : size < wordSize) :
    (∀ w ∈ listWrites size s, w.1 + w.2 ≤ A.bytes ((size + 1) % wordSize)) ↔ FitsBlock A size s.stream := by
  unfold FitsBlock
  rw [← listWrites_nil]
  constructor
  · intro h
    by_cases hnil : listWrites size s = []
    · exact Or.inr hnil
    · apply Or.inl
      rcases List.exists_mem_of_ne_nil _ hnil with ⟨w, hw⟩
      have hle := h w hw
      have hpos := (listWrites_le hw).2
      rcases A.full ((size + 1) % wordSize) with hfull | hzero
      · rw [hfull] at hle ⊢
        unfold wordSize at *
        omega
      · omega
  · rintro (hfull | hnil)
    · intro w hw
      rw [hfull]
      exact (listWrites_le hw).1
    · rw [hnil]
      intro w h
      cases h

/-! ## Every reply -/

/-- The first bytes of a reply, as they are compared with a line. -/
theorem receiveBytes_line (s : Incoming) {line : Text} {n : Nat} (hn : line.length = n + 1) :
    (receiveBytes 1 s).1 ++ (receiveBytes n (receiveBytes 1 s).2).1 = line ↔ line <+: s.stream := by
  rcases receiveBytes_eq 1 s with ⟨h1, h2⟩
  rw [h1, (receiveBytes_eq n (receiveBytes 1 s).2).1, h2, ← List.take_add, Nat.add_comm 1 n, ← hn]
  exact ⟨fun h => List.prefix_iff_eq_take.mpr h.symm, fun h => (List.prefix_iff_eq_take.mp h).symm⟩

theorem take_one_line {a : UInt8} {line : Text} (h : (a :: line) <+: s.stream) : (receiveBytes 1 s).1 = [a] := by
  rcases h with ⟨rest, hrest⟩
  rw [(receiveBytes_eq 1 s).1, ← hrest]
  rfl

/-- The response to a request is not an error. -/
theorem receiveResponse_some (method : Verb) (s : Incoming) :
    ∃ outcome, receiveResponse method s = some outcome ∧ ∀ text, outcome ≠ .error text := by
  unfold receiveResponse
  split
  · dsimp only
    split
    · exact ⟨_, rfl, by intro text h; cases h⟩
    · split <;> exact ⟨_, rfl, by intro text h; cases h⟩
  · dsimp only
    split
    · exact ⟨_, rfl, by intro text h; cases h⟩
    · split <;> exact ⟨_, rfl, by intro text h; cases h⟩
  · exact ⟨_, rfl, by intro text h; cases h⟩

theorem error_fits_iff : (∃ outcome, getFromServer method s = some outcome ∧
      ∀ text, outcome = .error text → text.length + 1 ≤ 256) ↔
    (errorLine <+: s.stream → ((s.stream.drop 6).takeWhile fun b => b ≠ newline).countP (fun b => b ≠ 0) < 256) := by
  have hline := receiveBytes_line s (show errorLine.length = 5 + 1 from rfl)
  have hinvalid : ∃ outcome, some Outcome.invalidResponse = some outcome ∧
      ∀ text, outcome = .error text → text.length + 1 ≤ 256 := ⟨_, rfl, by intro text h; cases h⟩
  have hstart : (receiveBytes 1 s).1 ≠ ascii ['E'] → ¬ errorLine <+: s.stream := fun hne h => hne (take_one_line h)
  unfold getFromServer
  dsimp only
  by_cases hO : (receiveBytes 1 s).1 = ascii ['O']
  · have hno := hstart (by rw [hO]; decide)
    rw [if_pos hO]
    refine iff_of_true ?_ fun h => absurd h hno
    split
    · exact hinvalid
    · rcases receiveResponse_some method (receiveBytes 2 (receiveBytes 1 s).2).2 with ⟨outcome, ho, hne⟩
      exact ⟨outcome, ho, fun text htext => absurd htext (hne text)⟩
  rw [if_neg hO]
  by_cases hE : (receiveBytes 1 s).1 = ascii ['E']
  · rw [if_pos hE]
    by_cases hfull : errorLine <+: s.stream
    · have hstream : (receiveBytes 5 (receiveBytes 1 s).2).2.stream = s.stream.drop 6 := by
        rw [(receiveBytes_eq 5 _).2, (receiveBytes_eq 1 s).2, List.drop_drop]
      have hiff := receiveError_iff (s := (receiveBytes 5 (receiveBytes 1 s).2).2) [] (Nat.lt_succ_self _) (by decide)
      rw [hstream, List.length_nil, Nat.zero_add] at hiff
      rw [if_neg (not_not.mpr (hline.mpr hfull)), hstream, forall_prop_of_true hfull, ← hiff]
      constructor
      · intro ⟨outcome, ho, hall⟩
        rcases Option.map_eq_some_iff.mp ho with ⟨text, htext, rfl⟩
        exact ⟨text, htext, hall text rfl⟩
      · intro ⟨text, htext, hfits⟩
        refine ⟨.error text, by rw [htext]; rfl, ?_⟩
        intro text' h
        cases h
        exact hfits
    · rw [if_pos (mt hline.mp hfull)]
      exact iff_of_true hinvalid fun h => absurd h hfull
  · rw [if_neg hE]
    exact iff_of_true hinvalid fun h => absurd h (hstart hE)

theorem outputWrites_eq : outputWrites method s = if okLine <+: s.stream ∧ method = .list then
      some (leDecode ((s.stream.drop 3).take 8), listWrites (leDecode ((s.stream.drop 3).take 8))
        (receiveBytes 8 (receiveBytes 2 (receiveBytes 1 s).2).2).2)
    else none := by
  have hline := receiveBytes_line s (show okLine.length = 2 + 1 from rfl)
  have hsize : (receiveBytes 8 (receiveBytes 2 (receiveBytes 1 s).2).2).1 = (s.stream.drop 3).take 8 := by
    rw [(receiveBytes_eq 8 _).1, (receiveBytes_eq 2 _).2, (receiveBytes_eq 1 s).2, List.drop_drop]
  unfold outputWrites
  dsimp only
  by_cases hO : (receiveBytes 1 s).1 = ascii ['O']
  · rw [if_pos hO, hsize]
    by_cases hok : okLine <+: s.stream ∧ method = .list
    · rw [if_pos hok, if_neg]
      rintro (h | h)
      · exact h (hline.mpr hok.1)
      · exact h hok.2
    · rw [if_neg hok, if_pos]
      by_contra hno
      rw [not_or, not_not, not_not, hline] at hno
      exact hok hno
  · rw [if_neg hO, if_neg]
    intro ⟨h, _⟩
    exact hO (take_one_line h)

theorem in_bounds_iff (A : Allocator) (method : Verb) (s : Incoming) :
    InBounds A method s ↔ SafeReply A method s.stream := by
  have hsize : leDecode ((s.stream.drop 3).take 8) < wordSize := by
    apply Nat.lt_of_lt_of_le leDecode_lt
    have hpow : 256 ^ ((s.stream.drop 3).take 8).length ≤ 256 ^ 8 :=
      Nat.pow_le_pow_right (by decide) (List.length_take_le 8 _)
    exact Nat.le_trans hpow (by decide)
  have hstream : (receiveBytes 8 (receiveBytes 2 (receiveBytes 1 s).2).2).2.stream = s.stream.drop 11 := by
    rw [(receiveBytes_eq 8 _).2, (receiveBytes_eq 2 _).2, (receiveBytes_eq 1 s).2, List.drop_drop, List.drop_drop]
  have hfits := fitsBlock_iff (A := A) (s := (receiveBytes 8 (receiveBytes 2 (receiveBytes 1 s).2).2).2) hsize
  rw [hstream] at hfits
  have houtput : (∀ size writes, outputWrites method s = some (size, writes) →
      ∀ w ∈ writes, w.1 + w.2 ≤ A.bytes ((size + 1) % wordSize)) ↔
      (okLine <+: s.stream → method = .list →
        FitsBlock A (leDecode ((s.stream.drop 3).take 8)) (s.stream.drop 11)) := by
    rw [outputWrites_eq]
    by_cases hok : okLine <+: s.stream ∧ method = .list
    · rw [if_pos hok]
      constructor
      · intro h _ _
        exact hfits.mp (h _ _ rfl)
      · intro h size writes h
        cases h
        exact hfits.mpr (h hok.1 hok.2)
    · rw [if_neg hok]
      refine iff_of_true ?_ fun h hm => absurd ⟨h, hm⟩ hok
      intro size writes h
      cases h
  exact ⟨fun h => ⟨error_fits_iff.mp h.error, houtput.mp h.output⟩,
    fun h => ⟨error_fits_iff.mpr h.error, houtput.mpr h.output⟩⟩

def plenty : Allocator where
  bytes n := if n < 2 ^ 63 then n else 0
  full n := by
    split
    · exact Or.inl rfl
    · exact Or.inr rfl
  large n hn := if_neg (Nat.not_lt.mpr hn)

/-- The size 2^64 - 1 and one byte, which is written to a block of none. -/
theorem one_byte_out :
    ¬ InBounds plenty .list ⟨[], okLine ++ [255, 255, 255, 255, 255, 255, 255, 255] ++ ascii ['x']⟩ := by
  intro h
  have hwrites : outputWrites .list ⟨[], okLine ++ [255, 255, 255, 255, 255, 255, 255, 255] ++ ascii ['x']⟩ =
      some (2 ^ 64 - 1, [(0, 1)]) := by decide +kernel
  have hle := h.output _ _ hwrites (0, 1) (List.mem_singleton_self _)
  revert hle
  decide +kernel

end SysProg.Net
