/-
  SysProg.ExtremeEdgeCases.CamelCase — what camel_caser makes of a string (see
  `SysProg.ExtremeEdgeCases.CamelCaser`).

  `pieces` are the texts before the punctuation characters and `camelCase` is the camel
  case of a text, word by word. The code makes an entry of each piece, all but the first
  without its leading whitespace (`camelCaser_eq`); no entry is missing, since whitespace
  is no punctuation and both scans find the same pieces. What it needs is that its ints
  hold the lengths (`Runs`).

  Main results: `camelCase_iff`, for every string that does not begin with whitespace,
  `append_iff`, for two strings of which the first ends in punctuation, and the strings
  `too_long` and `leading_whitespace` that break them.
-/

import Mathlib.Data.List.Basic
import Mathlib.Data.List.TakeWhile
import SysProg.ExtremeEdgeCases.CamelCaser

namespace SysProg.ExtremeEdgeCases

open Ctype

/-! ## Camel case -/

def pieces (s : Text) : List Text := (s.splitOnP ispunct).dropLast

def trim (text : Text) : Text := text.dropWhile isspace

def words (text : Text) : List Text := (text.splitOnP isspace).filter (· ≠ [])

def capitalised (word : Text) : Text :=
  word.takeWhile (fun c => !isalpha c) ++ match word.dropWhile (fun c => !isalpha c) with
    | [] => []
    | c :: more => toupper c :: more.map tolower

def camelCase (text : Text) : Text :=
  match words text with
  | [] => []
  | first :: more => first.map tolower ++ more.flatMap capitalised

/-! ## Sentences -/

variable {s t text rest : Text} {c : UInt8} {size : Int} {k cnt : Nat}

theorem scan_append : (scan s).1 ++ (scan s).2 = s := List.takeWhile_append_dropWhile

theorem scan_fst (h : c ∈ (scan s).1) : ispunct c = false := by
  have hc := List.mem_takeWhile_imp h
  rwa [Bool.not_eq_true'] at hc

theorem scan_snd (h : (scan s).2 = c :: rest) : ispunct c = true := by
  have hdrop : s.dropWhile (fun c => !ispunct c) = c :: rest := h
  simpa [hdrop] using List.head?_dropWhile_not (fun c => !ispunct c) s

/-- Punctuation character by punctuation character. -/
theorem scan_induction {P : Text → Prop} (hend : ∀ s, (scan s).2 = [] → P s)
    (hnext : ∀ s c rest, (scan s).2 = c :: rest → P rest → P s) (s : Text) : P s := by
  induction hn : s.length using Nat.strongRecOn generalizing s with
  | ind n ih =>
    cases hs : (scan s).2 with
    | nil => exact hend s hs
    | cons c rest => exact hnext s c rest hs (ih rest.length (hn ▸ scan_lt hs) rest rfl)

theorem pieces_nil (h : (scan s).2 = []) : pieces s = [] := by
  have hs := scan_append (s := s)
  rw [h, List.append_nil] at hs
  rw [pieces, List.splitOnP_eq_singleton fun c hc => scan_fst (hs ▸ hc)]
  rfl

theorem pieces_cons (h : (scan s).2 = c :: rest) : pieces s = (scan s).1 :: pieces rest := by
  have hsplit : s.splitOnP ispunct = (scan s).1 :: rest.splitOnP ispunct := by
    conv => lhs; rw [← scan_append (s := s), h]
    exact List.splitOnP_append_cons_of_forall_mem (fun c hc => scan_fst hc) c (scan_snd h) rest
  rw [pieces, hsplit, List.dropLast_cons_of_ne_nil (List.splitOnP_ne_nil ispunct rest)]
  rfl

/-- Whitespace is no punctuation. -/
theorem scan_trim : scan (trim s) = (trim (scan s).1, (scan s).2) := by
  induction s with
  | nil => rfl
  | cons c s ih =>
    unfold scan trim at ih ⊢
    by_cases hc : isspace c = true
    · rw [List.dropWhile_cons_of_pos hc, ih]
      simp [ispunct_of_isspace hc, hc]
    · rw [List.dropWhile_cons_of_neg hc]
      by_cases hp : ispunct c = true
      · simp [hp]
      · simp [hp, hc]

theorem pieces_trim : pieces (trim s) = match pieces s with
    | [] => []
    | p :: ps => trim p :: ps := by
  have htrim := scan_trim (s := s)
  cases hs : (scan s).2 with
  | nil =>
    rw [pieces_nil hs, pieces_nil (by rw [htrim]; exact hs)]
  | cons c rest =>
    rw [pieces_cons hs, pieces_cons (show (scan (trim s)).2 = c :: rest by rw [htrim]; exact hs), htrim]

theorem count_eq (h : cnt < 2 ^ 31) :
    count s cnt = if cnt + (pieces s).length < 2 ^ 31 then some (cnt + (pieces s).length) else none := by
  fun_induction count s cnt with
  | case1 s cnt hend =>
    rw [pieces_nil hend]
    exact (if_pos h).symm
  | case2 s cnt c rest hend hlt ih =>
    have hnext : cnt + (pieces s).length = cnt + 1 + (pieces rest).length := by
      rw [pieces_cons hend, List.length_cons]
      omega
    rw [ih hlt, hnext]
  | case3 s cnt c rest hend hlt =>
    rw [pieces_cons hend, List.length_cons, if_neg (by omega)]

/-- The sentences as the code comes to them: the first has its leading whitespace. -/
def sentences (s : Text) : List Text :=
  match pieces s with
  | [] => []
  | p :: ps => p :: ps.map trim

theorem sentences_length : (sentences s).length = (pieces s).length := by
  unfold sentences
  cases pieces s with
  | nil => rfl
  | cons p ps => simp

theorem sentences_trim : sentences (trim s) = (pieces s).map trim := by
  unfold sentences
  rw [pieces_trim]
  cases pieces s with
  | nil => rfl
  | cons p ps => rfl

def Fits (size : Int) (text : Text) : Prop := 0 ≤ int text.length ∧ int text.length < size

instance : Decidable (Fits size text) := inferInstanceAs (Decidable (_ ∧ _))

/-- As much of a sentence as its length as an `int` says. -/
def copied (text : Text) : Text := text.take (int text.length).toNat

theorem copy_eq : copy size text = if Fits size text then some (copied text) else none := rfl

theorem entries_eq : entries size (pieces s).length s =
    if ∀ text ∈ sentences s, Fits size text then some ((sentences s).map fun text => convert 0 false (copied text))
    else none := by
  induction hn : (pieces s).length generalizing s with
  | zero =>
    have hnil : sentences s = [] := List.eq_nil_of_length_eq_zero (sentences_length.trans hn)
    rw [entries, hnil]
    simp
  | succ n ih =>
    cases hs : (scan s).2 with
    | nil =>
      rw [pieces_nil hs] at hn
      cases hn
    | cons c rest =>
      have hpieces := pieces_cons hs
      have hrest : (pieces (trim rest)).length = n := by
        rw [hpieces, List.length_cons] at hn
        rw [← sentences_length, sentences_trim, List.length_map]
        omega
      have hsentences : sentences s = (scan s).1 :: sentences (trim rest) := by
        rw [sentences_trim]
        unfold sentences
        rw [hpieces]
      have hscan : scan s = ((scan s).1, c :: rest) := Prod.ext rfl hs
      rw [entries, hscan, hsentences]
      dsimp only
      have hdrop : rest.dropWhile isspace = trim rest := rfl
      rw [hdrop, copy_eq, ih hrest]
      by_cases hfits : Fits size (scan s).1
      · rw [if_pos hfits, Option.bind_some]
        by_cases hall : ∀ text ∈ sentences (trim rest), Fits size text
        · rw [if_pos hall, if_pos (List.forall_mem_cons.mpr ⟨hfits, hall⟩)]
          rfl
        · rw [if_neg hall, if_neg fun h => hall (List.forall_mem_cons.mp h).2]
          rfl
      · rw [if_neg hfits, if_neg fun h => hfits (List.forall_mem_cons.mp h).1]
        rfl

def Runs (s : Text) : Prop :=
  (pieces s).length + 1 < 2 ^ 31 ∧ ∀ text ∈ sentences s, Fits (int s.length) text

instance (s : Text) : Decidable (Runs s) := inferInstanceAs (Decidable (_ ∧ _))

/-- One entry for each sentence. -/
theorem camelCaser_eq : camelCaser (some s) =
    if Runs s then some (some ((sentences s).map fun text => convert 0 false (copied text))) else none := by
  have hpos : (0 : Nat) < 2 ^ 31 := by decide
  unfold camelCaser
  dsimp only
  rw [count_eq hpos, Nat.zero_add]
  by_cases hcnt : (pieces s).length + 1 < 2 ^ 31
  · rw [if_pos (by omega), Option.bind_some, if_pos hcnt, entries_eq]
    by_cases hfits : ∀ text ∈ sentences s, Fits (int s.length) text
    · rw [if_pos hfits, if_pos ⟨hcnt, hfits⟩]
      rfl
    · rw [if_neg hfits, if_neg fun h => hfits h.2]
      rfl
  · rw [if_neg (fun h : Runs s => hcnt h.1)]
    by_cases hlt : (pieces s).length < 2 ^ 31
    · rw [if_pos hlt, Option.bind_some, if_neg hcnt]
    · rw [if_neg hlt]
      rfl

/-! ## Words -/

/-- A letter is written, in one case or the other, and clears `Cap`. -/
theorem convert_letter (k : Nat) (Cap : Bool) (h : isalpha c = true) :
    ∃ d, ∀ text, convert k Cap (c :: text) = d :: convert (k + 1) false text := by
  by_cases hk : k = 0
  · exact ⟨tolower c, fun text => by rw [convert, if_pos h, if_pos hk]⟩
  · cases Cap with
    | false => exact ⟨tolower c, fun text => by rw [convert, if_pos h, if_neg hk, if_neg Bool.false_ne_true]⟩
    | true => exact ⟨toupper c, fun text => by rw [convert, if_pos h, if_neg hk, if_pos rfl]⟩

theorem convert_length {Cap : Bool} : (convert k Cap text).length = text.countP fun c => !isspace c := by
  induction text generalizing k Cap with
  | nil => rfl
  | cons c text ih =>
    by_cases halpha : isalpha c = true
    · rcases convert_letter k Cap halpha with ⟨d, hd⟩
      rw [hd, List.length_cons, ih, List.countP_cons_of_pos (by simp [isspace_of_isalpha halpha])]
    · unfold convert
      rw [if_neg halpha]
      by_cases hspace : isspace c = true
      · rw [if_pos hspace, ih, List.countP_cons_of_neg (by simp [hspace])]
      · rw [if_neg hspace, List.length_cons, ih, List.countP_cons_of_pos (by simp [hspace])]

theorem capitalised_letter (h : isalpha c = true) : capitalised (c :: text) = toupper c :: text.map tolower := by
  simp [capitalised, h]

theorem capitalised_other (h : isalpha c = false) : capitalised (c :: text) = c :: capitalised text := by
  simp [capitalised, h]

theorem splitOnP_word (h : isspace c = false) {word : Text} {more : List Text}
    (hsplit : text.splitOnP isspace = word :: more) : (c :: text).splitOnP isspace = (c :: word) :: more := by
  rw [List.splitOnP_cons_eq_if_modifyHead, h, hsplit]
  rfl

/-- The rest of a word and the words after it; the rest is the beginning of a word when
    `Cap` is set. -/
theorem convert_words (text : Text) (hk : k ≠ 0) : ∃ word more, text.splitOnP isspace = word :: more ∧
    convert k false text = word.map tolower ++ more.flatMap capitalised ∧
    convert k true text = capitalised word ++ more.flatMap capitalised := by
  induction text generalizing k with
  | nil => exact ⟨[], [], rfl, rfl, rfl⟩
  | cons c text ih =>
    by_cases halpha : isalpha c = true
    · rcases ih (Nat.succ_ne_zero k) with ⟨word, more, hsplit, hfalse, -⟩
      refine ⟨c :: word, more, splitOnP_word (isspace_of_isalpha halpha) hsplit, ?_, ?_⟩
      · rw [convert, if_pos halpha, if_neg hk, if_neg Bool.false_ne_true, hfalse]
        rfl
      · rw [convert, if_pos halpha, if_neg hk, if_pos rfl, hfalse, capitalised_letter halpha]
        rfl
    · by_cases hspace : isspace c = true
      · rcases ih hk with ⟨word, more, hsplit, -, htrue⟩
        refine ⟨[], word :: more, ?_, ?_, ?_⟩
        · rw [List.splitOnP_cons_eq_if_modifyHead, if_pos hspace, hsplit]
        · rw [convert, if_neg halpha, if_pos hspace, htrue]
          rfl
        · rw [convert, if_neg halpha, if_pos hspace, htrue]
          rfl
      · rcases ih (Nat.succ_ne_zero k) with ⟨word, more, hsplit, hfalse, htrue⟩
        rw [Bool.not_eq_true] at halpha hspace
        refine ⟨c :: word, more, splitOnP_word hspace hsplit, ?_, ?_⟩
        · rw [convert, halpha, hspace, List.map_cons, tolower_of_not_isalpha halpha]
          exact congrArg (c :: ·) hfalse
        · rw [convert, halpha, hspace, capitalised_other halpha]
          exact congrArg (c :: ·) htrue

theorem flatMap_capitalised (more : List Text) :
    (more.filter (· ≠ [])).flatMap capitalised = more.flatMap capitalised := by
  induction more with
  | nil => rfl
  | cons word more ih =>
    cases word with
    | nil => exact ih
    | cons c word => simpa using ih

/-- Without whitespace before it a text is read word by word. -/
theorem convert_eq (h : ∀ c ∈ text.head?, isspace c = false) : convert 0 false text = camelCase text := by
  cases text with
  | nil => rfl
  | cons c text =>
    have hspace := h c rfl
    rcases convert_words text Nat.one_ne_zero with ⟨word, more, hsplit, hfalse, -⟩
    have hwords : words (c :: text) = (c :: word) :: more.filter (· ≠ []) := by
      unfold words
      rw [splitOnP_word hspace hsplit, List.filter_cons_of_pos (by simp)]
    have hcase : camelCase (c :: text) = tolower c :: (word.map tolower ++ more.flatMap capitalised) := by
      unfold camelCase
      rw [hwords, ← flatMap_capitalised]
      rfl
    rw [hcase, ← hfalse]
    by_cases halpha : isalpha c = true
    · rw [convert, if_pos halpha, if_pos rfl]
    · rw [Bool.not_eq_true] at halpha
      rw [convert, halpha, hspace, tolower_of_not_isalpha halpha]
      rfl

theorem head_trim (text : Text) : ∀ c ∈ (trim text).head?, isspace c = false := by
  intro c hc
  have hhead := List.head?_dropWhile_not isspace text
  have htrim : (text.dropWhile isspace).head? = some c := hc
  rw [htrim] at hhead
  exact hhead

/-! ## Lengths that are ints -/

theorem int_eq {n : Nat} (h : n < 2 ^ 31) : int n = n := by
  unfold int
  rw [Int.bmod_def]
  omega

theorem convert_append (a : Text) (k : Nat) (Cap : Bool) : ∃ k' Cap', ∀ b,
    convert k Cap (a ++ b) = convert k Cap a ++ convert k' Cap' b := by
  induction a generalizing k Cap with
  | nil => exact ⟨k, Cap, fun b => rfl⟩
  | cons c a ih =>
    by_cases halpha : isalpha c = true
    · rcases ih (k + 1) false with ⟨k', Cap', h⟩
      rcases convert_letter k Cap halpha with ⟨d, hd⟩
      exact ⟨k', Cap', fun b => by rw [List.cons_append, hd, hd, h, List.cons_append]⟩
    · by_cases hspace : isspace c = true
      · rcases ih k true with ⟨k', Cap', h⟩
        exact ⟨k', Cap', fun b => by simp [convert, halpha, hspace, h]⟩
      · rcases ih (k + 1) Cap with ⟨k', Cap', h⟩
        exact ⟨k', Cap', fun b => by simp [convert, halpha, hspace, h]⟩

/-- What the `int` leaves off is whitespace. -/
def Kept (text : Text) : Prop := ∀ c ∈ text.drop (int text.length).toNat, isspace c = true

instance (text : Text) : Decidable (Kept text) := inferInstanceAs (Decidable (∀ c ∈ _, _))

theorem convert_copied : convert 0 false (copied text) = convert 0 false text ↔ Kept text := by
  rcases convert_append (copied text) 0 false with ⟨k, Cap, happend⟩
  have hwhole : copied text ++ text.drop (int text.length).toNat = text := List.take_append_drop ..
  have hrest := happend (text.drop (int text.length).toNat)
  rw [hwhole] at hrest
  rw [hrest, List.self_eq_append_right, ← List.length_eq_zero_iff, convert_length, List.countP_eq_zero]
  simp [Kept]

/-- Some lengths need no `int` to be wide. -/
theorem pieces_lt (h : text ∈ pieces s) : text.length < s.length := by
  induction s using scan_induction with
  | hend s hs =>
    rw [pieces_nil hs] at h
    cases h
  | hnext s c rest hs ih =>
    have hlen := congrArg List.length (scan_append (s := s))
    rw [hs, List.length_append, List.length_cons] at hlen
    rw [pieces_cons hs, List.mem_cons] at h
    rcases h with rfl | h
    · omega
    · exact Nat.lt_trans (ih h) (scan_lt hs)

theorem sentences_lt (h : text ∈ sentences s) : text.length < s.length := by
  have hpieces : ∀ p ∈ pieces s, p.length < s.length := fun p hp => pieces_lt hp
  unfold sentences at h
  split at h
  · cases h
  · rename_i p ps he
    rw [he] at hpieces
    rcases List.mem_cons.mp h with rfl | h
    · exact hpieces _ (by simp)
    · rcases List.mem_map.mp h with ⟨q, hq, rfl⟩
      exact Nat.lt_of_le_of_lt (List.length_dropWhile_le isspace q) (hpieces q (by simp [hq]))

/-- So strings below 2 GiB run through. -/
theorem runs_of_short (h : s.length < 2 ^ 31) (hcnt : (pieces s).length + 1 < 2 ^ 31) :
    Runs s ∧ ∀ text ∈ sentences s, Kept text := by
  refine ⟨⟨hcnt, ?_⟩, ?_⟩
  · intro text ht
    have hlt := sentences_lt ht
    unfold Fits
    rw [int_eq h, int_eq (Nat.lt_trans hlt h)]
    omega
  · intro text ht c hc
    rw [int_eq (Nat.lt_trans (sentences_lt ht) h), Int.toNat_natCast, List.drop_length] at hc
    cases hc

/-! ## The whole string -/

theorem trim_eq (h : ∀ c ∈ text.head?, isspace c = false) : trim text = text := by
  cases text with
  | nil => rfl
  | cons c text => exact List.dropWhile_cons_of_neg (by simp [h c rfl])

/-- There is an entry for each punctuation character. -/
theorem pieces_length : (pieces s).length = s.countP ispunct := by
  have hnone : ∀ s : Text, (scan s).1.countP ispunct = 0 := by
    intro s
    rw [List.countP_eq_zero]
    intro c hc
    rw [scan_fst hc]
    exact Bool.false_ne_true
  induction s using scan_induction with
  | hend s hs =>
    have happend := scan_append (s := s)
    rw [hs, List.append_nil] at happend
    rw [pieces_nil hs, ← happend, hnone]
    rfl
  | hnext s c rest hs ih =>
    have hcount : s.countP ispunct = rest.countP ispunct + 1 := by
      conv => lhs; rw [← scan_append (s := s)]
      rw [hs, List.countP_append, hnone, List.countP_cons_of_pos (scan_snd hs), Nat.zero_add]
    rw [pieces_cons hs, List.length_cons, ih, hcount]

theorem sentences_eq (h : ∀ c ∈ s.head?, isspace c = false) : sentences s = (pieces s).map trim := by
  rw [← sentences_trim, trim_eq h]

/-- The entries of a string that does not begin with whitespace are the camel cases of
    its pieces, exactly when the ints of the code hold its lengths. -/
theorem camelCase_iff (h : ∀ c ∈ s.head?, isspace c = false) :
    camelCaser (some s) = some (some ((pieces s).map fun text => camelCase (trim text))) ↔
      Runs s ∧ ∀ text ∈ sentences s, Kept text := by
  rw [camelCaser_eq]
  by_cases hruns : Runs s
  · have hwhole : (pieces s).map (fun text => camelCase (trim text)) = (sentences s).map (convert 0 false) := by
      rw [sentences_eq h, List.map_map]
      exact List.map_congr_left fun text _ => (convert_eq (head_trim text)).symm
    rw [if_pos hruns, Option.some_inj, Option.some_inj, hwhole, List.map_inj_left]
    refine ⟨fun hcopied => ⟨hruns, fun text ht => convert_copied.mp (hcopied text ht)⟩, ?_⟩
    intro hkept text ht
    exact convert_copied.mpr (hkept.2 text ht)
  · rw [if_neg hruns]
    refine ⟨fun e => ?_, fun h => absurd h.1 hruns⟩
    cases e

def twoSentences : Text := [72, 105, 46, 32, 98, 105, 103, 32, 119, 111, 114, 108, 100, 46]

theorem camelCase_two : camelCaser (some twoSentences) =
    some (some [[104, 105], [98, 105, 103, 87, 111, 114, 108, 100]]) := by
  have hcases : (pieces twoSentences).map (fun text => camelCase (trim text)) =
      [[104, 105], [98, 105, 103, 87, 111, 114, 108, 100]] := by decide
  have hlen : twoSentences.length = 14 := rfl
  have hpieces : (pieces twoSentences).length = 2 := by decide
  have hhead : ∀ c ∈ twoSentences.head?, isspace c = false := by
    intro c hc
    cases hc
    rfl
  rw [← hcases]
  exact (camelCase_iff hhead).mpr (runs_of_short (by omega) (by omega))

def letters (n : Nat) : Text := List.replicate n 97 ++ [46]

theorem letters_length {n : Nat} : (letters n).length = n + 1 := by
  rw [letters, List.length_append, List.length_replicate, List.length_singleton]

theorem letters_head {n : Nat} (h : n ≠ 0) : ∀ c ∈ (letters n).head?, isspace c = false := by
  intro c hc
  rw [letters, List.head?_append, List.head?_replicate, if_neg h] at hc
  cases hc
  rfl

theorem scan_letters {n : Nat} : scan (letters n) = (List.replicate n 97, [46]) := by
  have hletters : ∀ c ∈ List.replicate n (97 : UInt8), (!ispunct c) = true := by
    intro c hc
    rw [List.eq_of_mem_replicate hc]
    rfl
  unfold scan letters
  rw [List.takeWhile_append_of_pos hletters, List.dropWhile_append_of_pos hletters]
  refine Prod.ext ?_ rfl
  exact List.append_nil _

theorem sentences_letters {n : Nat} : sentences (letters n) = [List.replicate n 97] := by
  have hsnd : (scan (letters n)).2 = [46] := by rw [scan_letters]
  unfold sentences
  rw [pieces_cons hsnd, scan_letters]
  rfl

/-- The length of the string is no `int`, and the sentence has no block. -/
theorem letters_overflow {n : Nat} (h : n = 2 ^ 31 - 1) : camelCaser (some (letters n)) = none := by
  have hmem : List.replicate n 97 ∈ sentences (letters n) := by
    rw [sentences_letters]
    exact List.mem_singleton_self _
  have hwrap : int (letters n).length < 0 := by
    unfold int
    rw [letters_length, Int.bmod_def]
    omega
  have hruns : ¬ Runs (letters n) := by
    intro ⟨_, hfits⟩
    exact absurd (Int.lt_of_le_of_lt (hfits _ hmem).1 (hfits _ hmem).2) (Int.not_lt.mpr (Int.le_of_lt hwrap))
  rw [camelCaser_eq, if_neg hruns]

theorem too_long : ∃ s : Text, (∀ c ∈ s.head?, isspace c = false) ∧
    camelCaser (some s) ≠ some (some ((pieces s).map fun text => camelCase (trim text))) := by
  refine ⟨letters (2 ^ 31 - 1), letters_head (by omega), ?_⟩
  rw [letters_overflow rfl]
  intro e
  cases e

/-! ## A string after another one -/

/-- The first word begins with another character than a letter, and has a letter. -/
def Misread (text : Text) : Prop :=
  (∃ c ∈ text.head?, isalpha c = false) ∧ ∃ c ∈ text.takeWhile fun c => !isspace c, isalpha c = true

theorem convert_capital (text : Text) (hk : k ≠ 0) : convert k true text = convert k false text ↔
    ∀ c ∈ text.takeWhile fun c => !isspace c, isalpha c = false := by
  induction text generalizing k with
  | nil => simp [convert]
  | cons c text ih =>
    by_cases halpha : isalpha c = true
    · have hspace := isspace_of_isalpha halpha
      simp [convert, halpha, hk, hspace, toupper_ne_tolower halpha]
    · by_cases hspace : isspace c = true
      · simp [convert, halpha, hspace]
      · simp [convert, halpha, hspace, ih (Nat.succ_ne_zero k)]

/-- `Cap` is read at a letter that is not the first byte of the entry. -/
theorem convert_misread (h : ∀ c ∈ text.head?, isspace c = false) :
    convert 0 true text = convert 0 false text ↔ ¬ Misread text := by
  cases text with
  | nil => simp [convert, Misread]
  | cons c text =>
    have hspace := h c rfl
    by_cases halpha : isalpha c = true
    · simp [convert, halpha, Misread]
    · have hrest := convert_capital text Nat.one_ne_zero
      rw [Bool.not_eq_true] at halpha
      simp [convert, halpha, hspace, Misread, hrest]

theorem convert_trim : convert k true (trim text) = convert k true text := by
  unfold trim
  induction text with
  | nil => rfl
  | cons c text ih =>
    by_cases hspace : isspace c = true
    · rw [List.dropWhile_cons_of_pos hspace, ih, convert, isalpha_of_isspace hspace, hspace]
      rfl
    · rw [List.dropWhile_cons_of_neg hspace]

/-- Leading whitespace sets `Cap`. -/
theorem convert_whitespace (h : ∀ c ∈ text.head?, isspace c = true) :
    convert k false text = convert k true (trim text) := by
  rw [convert_trim]
  cases text with
  | nil => rfl
  | cons c text =>
    have hspace := h c rfl
    rw [convert, convert, isalpha_of_isspace hspace, hspace]
    rfl

def SameAlone (text : Text) : Prop :=
  (∃ c ∈ text.head?, isspace c = true) → trim (copied text) = copied (trim text) ∧ ¬ Misread (copied (trim text))

theorem head_copied {P : UInt8 → Prop} (h : ∀ c ∈ text.head?, P c) : ∀ c ∈ (copied text).head?, P c := by
  intro c hc
  unfold copied at hc
  rw [List.head?_take] at hc
  split at hc
  · cases hc
  · exact h c hc

/-- The `int` of the whole is more by the whitespace, if it reaches past it. -/
theorem copied_trim (htrim : 0 ≤ int (trim text).length)
    (hlen : (text.takeWhile isspace).length ≤ (int text.length).toNat) : trim (copied text) = copied (trim text) := by
  have hsplit : text.takeWhile isspace ++ trim text = text := List.takeWhile_append_dropWhile
  have hspace : ∀ c ∈ text.takeWhile isspace, isspace c = true := fun c hc => List.mem_takeWhile_imp hc
  have hints : (int text.length).toNat - (text.takeWhile isspace).length = (int (trim text).length).toNat := by
    have hsum := congrArg List.length hsplit
    rw [List.length_append] at hsum
    unfold int at htrim hlen ⊢
    rw [Int.bmod_def] at htrim hlen ⊢
    rw [Int.bmod_def]
    omega
  have hcopied : copied text = text.takeWhile isspace ++ copied (trim text) := by
    unfold copied
    conv => lhs; arg 2; rw [← hsplit]
    rw [List.take_append, List.take_of_length_le hlen, hints]
  have hhead : ∀ c ∈ (copied (trim text)).head?, isspace c = false := head_copied (head_trim text)
  have htrim : ∀ l, trim (text.takeWhile isspace ++ l) = trim l := fun l => List.dropWhile_append_of_pos hspace
  rw [hcopied, htrim, trim_eq hhead]

/-- An entry is empty when there is whitespace only. -/
theorem convert_nil {Cap : Bool} : convert k Cap text = [] ↔ ∀ c ∈ text, isspace c = true := by
  rw [← List.length_eq_zero_iff, convert_length, List.countP_eq_zero]
  simp

theorem same_alone_iff (htrim : 0 ≤ int (trim text).length) :
    convert 0 false (copied (trim text)) = convert 0 false (copied text) ↔ SameAlone text := by
  by_cases hleading : ∃ c ∈ text.head?, isspace c = true
  · have hall : ∀ c ∈ text.head?, isspace c = true := by
      rcases hleading with ⟨c, hc, hspace⟩
      intro d hd
      rw [Option.mem_unique hd hc]
      exact hspace
    have hread := convert_whitespace (k := 0) (head_copied hall)
    have hmisread := convert_misread (head_copied (head_trim text))
    rw [hread]
    constructor
    · intro he _
      have hsame : trim (copied text) = copied (trim text) := by
        by_cases hlen : (text.takeWhile isspace).length ≤ (int text.length).toNat
        · exact copied_trim htrim hlen
        -- no more than whitespace is copied, so there is nothing more
        have hcopied : copied text = (text.takeWhile isspace).take (int text.length).toNat := by
          unfold copied
          conv => lhs; arg 2; rw [← List.takeWhile_append_dropWhile (p := isspace) (l := text)]
          exact List.take_append_of_le_length (by omega)
        have hspace : ∀ c ∈ copied text, isspace c = true := by
          intro c hc
          rw [hcopied] at hc
          exact List.mem_takeWhile_imp (List.mem_of_mem_take hc)
        have hnil : trim (copied text) = [] := List.dropWhile_eq_nil_iff.mpr hspace
        rw [hnil] at he ⊢
        have hrest := convert_nil.mp he
        cases hq : copied (trim text) with
        | nil => rfl
        | cons c q =>
          have hhead := head_copied (head_trim text) c (by rw [hq]; rfl)
          rw [hrest c (by rw [hq]; exact List.mem_cons_self)] at hhead
          cases hhead
      rw [hsame] at he
      exact ⟨hsame, hmisread.mp he.symm⟩
    · intro h
      rcases h hleading with ⟨hsame, hnot⟩
      rw [hsame]
      exact (hmisread.mpr hnot).symm
  · have htext : trim text = text := trim_eq fun c hc => by
      by_contra hspace
      exact hleading ⟨c, hc, by simpa using hspace⟩
    rw [htext]
    exact ⟨fun _ h => absurd h hleading, fun _ => rfl⟩

theorem pieces_append (hc : ispunct c = true) : pieces (s ++ [c] ++ t) = pieces (s ++ [c]) ++ pieces t := by
  have hlast : pieces (s ++ [c]) = s.splitOnP ispunct := by
    rw [pieces, List.splitOnP_append_cons s [] hc]
    exact List.dropLast_concat
  rw [hlast, pieces, List.append_assoc, List.singleton_append, List.splitOnP_append_cons s t hc,
    List.dropLast_append_of_ne_nil (List.splitOnP_ne_nil ispunct t)]
  rfl

theorem sentences_append (hc : ispunct c = true) :
    sentences (s ++ [c] ++ t) = sentences (s ++ [c]) ++ (pieces t).map trim := by
  have hne : pieces (s ++ [c]) ≠ [] := by
    intro h
    have hlen := pieces_length (s := s ++ [c])
    rw [h, List.countP_append, List.countP_singleton, if_pos hc] at hlen
    cases hlen
  unfold sentences
  rw [pieces_append hc]
  cases hp : pieces (s ++ [c]) with
  | nil => exact absurd hp hne
  | cons p ps =>
    exact congrArg (p :: ·) List.map_append

/-- One string after another is read as the two alone, exactly when the ints of the code
    hold the lengths of all three, and the first text of the second is read the same with
    its leading whitespace as without. -/
theorem append_iff (s t : Text) (hc : ispunct c = true) : (∃ result result',
    camelCaser (some (s ++ [c])) = some (some result) ∧ camelCaser (some t) = some (some result') ∧
      camelCaser (some (s ++ [c] ++ t)) = some (some (result ++ result'))) ↔
    Runs (s ++ [c]) ∧ Runs t ∧ Runs (s ++ [c] ++ t) ∧ ∀ text ∈ (pieces t).head?, SameAlone text := by
  have hruns : ∀ {s result}, camelCaser (some s) = some (some result) ↔
      Runs s ∧ (sentences s).map (fun text => convert 0 false (copied text)) = result := by
    intro s result
    rw [camelCaser_eq]
    by_cases h : Runs s
    · rw [if_pos h, Option.some_inj, Option.some_inj]
      exact ⟨fun e => ⟨h, e⟩, And.right⟩
    · rw [if_neg h]
      exact ⟨fun e => absurd e (by simp), fun e => absurd e.1 h⟩
  have hsame : Runs t → Runs (s ++ [c] ++ t) →
      (((pieces t).map trim).map (fun text => convert 0 false (copied text)) =
        (sentences t).map (fun text => convert 0 false (copied text)) ↔ ∀ text ∈ (pieces t).head?, SameAlone text) := by
    intro ht hst
    have htrim := hst.2
    rw [sentences_append hc] at htrim
    unfold sentences
    cases hp : pieces t with
    | nil => simp
    | cons p ps =>
      have hfits := htrim (trim p) (by simp [hp])
      rw [List.map_cons, List.map_cons, List.map_cons, List.cons_eq_cons, same_alone_iff hfits.1]
      simp
  simp only [hruns]
  constructor
  · rintro ⟨result, result', ⟨hs, rfl⟩, ⟨ht, rfl⟩, hst, he⟩
    rw [sentences_append hc, List.map_append, List.append_cancel_left_eq] at he
    exact ⟨hs, ht, hst, (hsame ht hst).mp he⟩
  · intro ⟨hs, ht, hst, halone⟩
    refine ⟨_, _, ⟨hs, rfl⟩, ⟨ht, rfl⟩, hst, ?_⟩
    rw [sentences_append hc, List.map_append, (hsame ht hst).mpr halone]

/-- "Hi." and " big world.". -/
theorem append_words : ∃ result result', camelCaser (some ([72, 105] ++ [46])) = some (some result) ∧
    camelCaser (some [32, 98, 105, 103, 32, 119, 111, 114, 108, 100, 46]) = some (some result') ∧
      camelCaser (some ([72, 105] ++ [46] ++ [32, 98, 105, 103, 32, 119, 111, 114, 108, 100, 46])) =
        some (some (result ++ result')) := by
  refine (append_iff [72, 105] _ (by decide)).mpr ⟨by decide, by decide, by decide, ?_⟩
  intro text ht
  cases ht
  intro _
  exact ⟨by decide, fun h => absurd h.1 (by decide)⟩

/-- "." and " 1a.": the letter is a capital in "1A" only. -/
theorem leading_whitespace : ¬ ∃ result result',
    camelCaser (some ([] ++ [46])) = some (some result) ∧ camelCaser (some [32, 49, 97, 46]) = some (some result') ∧
      camelCaser (some ([] ++ [46] ++ [32, 49, 97, 46])) = some (some (result ++ result')) := by
  intro ⟨result, result', hs, ht, hst⟩
  rw [camelCaser_eq, if_pos (by decide), Option.some_inj, Option.some_inj] at hs ht hst
  rw [← hs, ← ht] at hst
  exact absurd hst (by decide)

end SysProg.ExtremeEdgeCases
