/-
  SysProg.Vector.SstringValues — sstrings against plain strings
  (see `SysProg.Vector.Sstring`).

  What sstrings are for is a set of strings that can be copied, appended to, split,
  changed in place and sliced: `Strings.after` says what each call does to it, and only
  `append` and `substitute` change a string. `sstring_split` writes a NUL over every
  delimiter of its argument and leaves its size, so its argument is cut at the first one;
  `sstring_append` of a string to itself overwrites the terminator it is looking for
  (`append_self_faults`).
  - `split_cuts_its_argument`: both, at fixed inputs.
  - `sstrings_track`: in every run that splits no string at a delimiter it has and appends
    no string but the empty one to itself, every sstring holds its string with its size,
    and every call returns.
-/

import Mathlib.Data.Option.Basic
import SysProg.Vector.Sstring

namespace SysProg.Sstrings

open Function (update)
open SysProg.CString (Text CStr cstr strlen put strcpy strncpy strcat strcpyWithin strstr malloc realloc cstr_append
  cstr_eq_some cstr_drop strcpy_append strncpy_append strcat_spec malloc_length realloc_length realloc_cstr)

/-! ## Strings -/

abbrev Strings := Id → Option Text

def replaceAt (v : Text) (offset : Nat) (target substitution : Text) : Text :=
  match strstr target (v.drop offset) with
  | none => v
  | some i => v.take (offset + i) ++ (substitution ++ v.drop (offset + i + target.length))

/-- What a call does to the strings; one whose allocation fails does nothing. -/
def Strings.after (m : Strings) : Op → Strings
  | .create a (some input) => update m a (some input.1)
  | .append (some a) (some b) true _ => update m a ((m a).bind fun v => (m b).map fun w => v ++ w)
  | .substitute (some a) offset (some target) (some substitution) true _ =>
    update m a ((m a).map fun v => replaceAt v offset target.1 substitution.1)
  | .destroy (some a) => update m a none
  | _ => m

def strings (log : List (Op × Ret)) : Strings := log.foldl (fun m x => m.after x.1) fun _ => none

theorem strings_snoc (log : List (Op × Ret)) (x : Op × Ret) : strings (log ++ [x]) = (strings log).after x.1 :=
  List.foldl_concat ..

def Holds (x : Sstring) (v : Text) : Prop := cstr x.str = some v ∧ x.size = v.length

def Tracks (s : St) (m : Strings) : Prop := ∀ a, Option.Rel Holds (s a) (m a)

/-- No string is split at a delimiter it has, or appended to itself unless it is empty. -/
def careful (s : St) : Op → Bool
  | .append (some a) (some b) ok _ => a ≠ b || !ok || ((s a).bind fun x => cstr x.str) == some []
  | .split (some a) delimiter ok => !ok || ((s a).bind fun x => cstr x.str).all fun v => !v.contains delimiter
  | _ => true

/-! ## One sstring -/

variable {x y : Sstring} {v w : Text} {fill : Nat → UInt8} {ok : Bool}

theorem cstrToSstring_holds (input : CStr) : Holds (cstrToSstring input) input.1 := ⟨input.cstr, rfl⟩

theorem appendOther_holds (hx : Holds x v) (hy : Holds y w) :
    ∃ z, appendOther x y fill = some z ∧ Holds z (v ++ w) := by
  have hlen : v.length < x.size + y.size + 1 := by
    rw [hx.2]
    omega
  rcases strcat_spec (realloc_cstr fill hx.1 hlen) hy.1 (by rw [realloc_length, hx.2, hy.2]; omega) with
    ⟨str, hcat, hstr⟩
  refine ⟨⟨str, x.size + y.size⟩, ?_, hstr, ?_⟩
  · simp only [appendOther, hcat, Option.map_some]
  · rw [List.length_append, ← hx.2, ← hy.2]

theorem appendSelf_empty (hx : Holds x []) : ∃ z, appendSelf x fill = some z ∧ Holds z [] := by
  have hsize : x.size = 0 := hx.2
  have hstr := realloc_cstr (n := x.size + x.size + 1) fill hx.1 (Nat.succ_pos _)
  rcases cstr_eq_some.mp hstr with ⟨rest, hrest, -⟩
  refine ⟨⟨0 :: rest, x.size + x.size⟩, ?_, rfl, ?_⟩
  · simp only [appendSelf, strlen, hstr, Option.map_some, Option.bind_some, List.length_nil]
    rw [hrest]
    rfl
  · rw [hsize]
    rfl

/-- A string that is not empty is never appended to itself. -/
theorem append_self_faults (hx : Holds x v) (hv : v ≠ []) : appendSelf x fill = none := by
  have hpos := List.length_pos_iff.mpr hv
  have hlen : v.length < x.size + x.size + 1 := by
    rw [hx.2]
    omega
  have hstr := realloc_cstr fill hx.1 hlen
  rcases cstr_eq_some.mp hstr with ⟨rest, hrest, h0⟩
  simp only [appendSelf, strlen, hstr, Option.map_some, Option.bind_some]
  rw [CString.strcpyWithin_runs_off hpos]
  · rfl
  · intro i hi e
    rw [hrest, List.getElem?_append_left hi] at e
    exact h0 (List.mem_of_getElem? e)

/-- No delimiter, no change. -/
theorem splitLoop_keeps {delimiter : UInt8} {l : Text} {fuel start stop : Nat} {f : Bool} (pieces : List Text)
    (hl : cstr l = some v) (hstart : start ≤ stop) (hstop : stop ≤ v.length) (hd : delimiter ∉ v)
    (hfuel : v.length < stop + fuel) : ∃ pieces', splitLoop delimiter fuel l start stop f pieces =
      some (l, pieces') := by
  rcases cstr_eq_some.mp hl with ⟨rest, hrest, h0⟩
  induction fuel generalizing stop f with
  | zero => exact absurd hfuel (Nat.not_lt.mpr hstop)
  | succ fuel ih =>
    unfold splitLoop
    rcases Nat.lt_or_eq_of_le hstop with hlt | heq
    · have hat : l[stop]? = some v[stop] := by rw [hrest, List.getElem?_append_left hlt, List.getElem?_eq_getElem hlt]
      have hb0 : v[stop] ≠ 0 := fun e => h0 (e ▸ List.getElem_mem hlt)
      have hbd : v[stop] ≠ delimiter := fun e => hd (e ▸ List.getElem_mem hlt)
      rw [hat, Option.bind_some, if_neg hb0, if_neg hbd]
      exact ih (Nat.le_succ_of_le hstart) hlt (by omega)
    · have hat : l[stop]? = some 0 := by
        rw [hrest, heq, List.getElem?_append_right (Nat.le_refl _), Nat.sub_self]
        rfl
      rw [hat, Option.bind_some, if_pos rfl]
      split
      · rw [cstr_drop hl (Nat.le_trans hstart hstop)]
        exact ⟨_, rfl⟩
      · exact ⟨_, rfl⟩

theorem sstringSplit_keeps {delimiter : UInt8} {ok : Bool} (hx : Holds x v) (hd : ok = true → delimiter ∉ v) :
    ∃ pieces, sstringSplit x delimiter ok = some (x, pieces) := by
  cases ok with
  | false => exact ⟨none, rfl⟩
  | true => ?_
  have hfuel : v.length < 0 + (x.str.length + 1) := by
    rcases cstr_eq_some.mp hx.1 with ⟨rest, hrest, -⟩
    rw [hrest, List.length_append]
    omega
  rcases splitLoop_keeps (f := false) [] hx.1 (Nat.le_refl 0) (Nat.zero_le _) (hd rfl) hfuel with ⟨pieces, hp⟩
  exact ⟨some pieces, by simp only [sstringSplit, Bool.true_eq_false, if_false, hp, Option.map_some]⟩

theorem strstr_bound {needle : Text} {i : Nat} (h : strstr needle v = some i) : i + needle.length ≤ v.length := by
  induction v generalizing i with
  | nil =>
    unfold strstr at h
    split at h
    · rename_i hn
      cases h
      rw [hn]
      exact Nat.le_refl 0
    · cases h
  | cons b v ih =>
    unfold strstr at h
    split at h
    · rename_i hp
      cases h
      rw [Nat.zero_add]
      exact (List.isPrefixOf_iff_prefix.mp hp).length_le
    · rcases Option.map_eq_some_iff.mp h with ⟨j, hj, e⟩
      have hle := ih hj
      rw [List.length_cons]
      omega

/-- The three copies of `sstring_substitute`. -/
theorem substitute_copies (fill : Nat → UInt8) {pos n : Nat} (target : Text) (u : CStr) (hx : Holds x v)
    (hpos : pos + target.length ≤ v.length)
    (hn : n = v.length - target.length + u.1.length) : ∃ a b c,
      strncpy (malloc (n + 1) fill) 0 x.str pos = some a ∧ strcpy a pos u.buffer = some b ∧
      strcpy b (pos + u.1.length) (x.str.drop (pos + target.length)) = some c ∧
      cstr c = some (v.take pos ++ (u.1 ++ v.drop (pos + target.length))) := by
  have hmlen : (malloc (n + 1) fill).length = n + 1 := malloc_length
  have hdlen : (v.drop (pos + target.length)).length = v.length - (pos + target.length) := List.length_drop
  have htlen : (v.take pos).length = pos := List.length_take_of_le (by omega)
  generalize malloc (n + 1) fill = block at hmlen
  have h1 := strncpy_append (n := pos) [] hx.1 (by omega) (show pos ≤ block.length by omega)
  rw [List.nil_append, List.nil_append, List.length_nil] at h1
  have h2 := strcpy_append (v.take pos) u.cstr
    (show u.1.length < (block.drop pos).length by rw [List.length_drop]; omega)
  rw [htlen] at h2
  rw [← List.append_assoc] at h2
  have hrest : (v.drop (pos + target.length)).length < (0 :: (block.drop pos).drop (u.1.length + 1)).length := by
    simp only [List.length_cons, List.length_drop]
    omega
  have h3 := strcpy_append (v.take pos ++ u.1) (cstr_drop hx.1 hpos) hrest
  rw [List.length_append, htlen] at h3
  refine ⟨_, _, _, h1, h2, h3, ?_⟩
  rcases cstr_eq_some.mp hx.1 with ⟨_, _, h0⟩
  rw [← List.append_assoc (v.take pos ++ u.1), List.append_assoc (v.take pos)]
  apply cstr_append
  simp only [List.mem_append, not_or]
  exact ⟨fun hm => h0 (List.mem_of_mem_take hm), u.2, fun hm => h0 (List.mem_of_mem_drop hm)⟩

theorem sstringSubstitute_holds (ok : Bool) (fill : Nat → UInt8) {offset : Nat} (target u : CStr) (hx : Holds x v)
    (hoff : offset ≤ v.length) :
    ∃ z r, sstringSubstitute x offset target u ok fill = some (z, r) ∧
      Holds z (if ok = true then replaceAt v offset target.1 u.1 else v) := by
  unfold sstringSubstitute replaceAt
  rw [cstr_drop hx.1 hoff, Option.bind_some]
  cases hs : strstr target.1 (v.drop offset) with
  | none => exact ⟨x, -1, rfl, by simpa using hx⟩
  | some i =>
    have hb := strstr_bound hs
    rw [List.length_drop] at hb
    cases ok with
    | false => exact ⟨x, -1, rfl, hx⟩
    | true =>
      have hpos : offset + i + target.1.length ≤ v.length := by omega
      have hn : x.size - target.1.length + u.1.length = v.length - target.1.length + u.1.length := by rw [hx.2]
      rcases substitute_copies fill target.1 u hx hpos hn with ⟨a, b, c, h1, h2, h3, hc⟩
      refine ⟨⟨c, x.size - target.1.length + u.1.length⟩, 0, ?_, hc, ?_⟩
      · simp only [Bool.true_eq_false, if_false, h1, h2, h3, Option.bind_some, Option.map_some]
      · show x.size - target.1.length + u.1.length =
          (v.take (offset + i) ++ (u.1 ++ v.drop (offset + i + target.1.length))).length
        rw [List.length_append, List.length_append, List.length_drop, List.length_take, hx.2]
        omega

theorem toInt_le {n : Int} (h : 0 ≤ n) : toInt n ≤ n := by
  unfold toInt
  rw [Int.bmod_def]
  split <;> omega

/-- A slice that is returned is that part of the string. -/
theorem sstringSlice_spec (start stop : Int) (ok : Bool) (fill : Nat → UInt8) (hx : Holds x v) :
    ∃ r, sstringSlice x start stop ok fill = some r ∧
    ∀ block, r = some block → cstr block = some ((v.drop start.toNat).take (stop - start).toNat) := by
  unfold sstringSlice
  split
  · exact ⟨none, rfl, by simp⟩
  rename_i hrange
  split
  · exact ⟨none, rfl, by simp⟩
  have hle := toInt_le (n := x.size) (Int.natCast_nonneg _)
  rw [hx.2] at hle hrange
  simp only [not_or, Int.not_lt] at hrange
  dsimp only
  generalize hn : (stop - start).toNat = n
  have hmlen : (malloc (n + 1) fill).length = n + 1 := malloc_length
  generalize malloc (n + 1) fill = block at hmlen
  have hstart : start.toNat + n ≤ v.length := by omega
  have hdlen : (v.drop start.toNat).length = v.length - start.toNat := List.length_drop
  have hstart' : start.toNat ≤ v.length := by omega
  have hnlen : n ≤ (v.drop start.toNat).length := by omega
  have h1 := strncpy_append [] (cstr_drop hx.1 hstart') hnlen (show n ≤ block.length by omega)
  rw [List.nil_append, List.nil_append, List.length_nil] at h1
  have htlen : ((v.drop start.toNat).take n).length = n := List.length_take_of_le (by omega)
  have hzero : [(0 : UInt8)].length ≤ (block.drop n).length := by
    rw [List.length_singleton, List.length_drop]
    omega
  have h2 := CString.put_append ((v.drop start.toNat).take n) hzero
  rw [htlen] at h2
  rw [h1, Option.bind_some, h2]
  refine ⟨_, rfl, ?_⟩
  intro b hb
  rw [← Option.some.inj hb]
  rcases cstr_eq_some.mp hx.1 with ⟨_, _, h0⟩
  exact cstr_append fun hm => h0 (List.mem_of_mem_drop (List.mem_of_mem_take hm))

/-! ## One call -/

variable {s : St} {m : Strings} {a : Id}

theorem Tracks.holds (h : Tracks s m) (hx : s a = some x) : ∃ v, m a = some v ∧ Holds x v := by
  have hr := h a
  rw [hx] at hr
  cases hm : m a with
  | none =>
    rw [hm] at hr
    cases hr
  | some v =>
    rw [hm] at hr
    cases hr with
    | some hv => exact ⟨v, rfl, hv⟩

theorem Tracks.set (h : Tracks s m) {x : Option Sstring} {v : Option Text} (hv : Option.Rel Holds x v) :
    Tracks (update s a x) (update m a v) := by
  intro b
  by_cases e : b = a
  · rw [e, Function.update_self, Function.update_self]
    exact hv
  · rw [Function.update_of_ne e, Function.update_of_ne e]
    exact h b

/-- Only the sstring is changed, to what it was. -/
theorem Tracks.same (h : Tracks s m) (hx : s a = some x) : Tracks (update s a (some x)) m := by
  rw [← hx, Function.update_eq_self]
  exact h

theorem present_some (hp : present s (some a) = true) : ∃ x, s a = some x := Option.isSome_iff_exists.mp hp

theorem append_tracks {b : Id} (h : Tracks s m) (hv : valid s (.append (some a) (some b) ok fill) = true)
    (hc : careful s (.append (some a) (some b) ok fill) = true) :
    ∃ s' r, exec s (.append (some a) (some b) ok fill) = some (s', r) ∧
      Tracks s' (m.after (.append (some a) (some b) ok fill)) := by
  rcases (Bool.and_eq_true _ _).mp hv with ⟨hpa, hpb⟩
  rcases present_some hpa with ⟨x, hx⟩
  rcases present_some hpb with ⟨y, hy⟩
  rcases h.holds hx with ⟨v, hm, hxv⟩
  rcases h.holds hy with ⟨w, hm', hyw⟩
  cases ok with
  | false => exact ⟨s, .int (-1), by simp only [exec, hx, hy, Option.bind_some, if_true], h⟩
  | true =>
    have happ : ∃ z, (if a = b then appendSelf x fill else appendOther x y fill) = some z ∧ Holds z (v ++ w) := by
      split
      · rename_i hab
        rw [← hab, hx] at hy
        cases hy
        rw [← hab, hm] at hm'
        cases hm'
        have hempty : v = [] := by simpa [careful, hab.symm, hx, hxv.1] using hc
        rw [hempty] at hxv ⊢
        exact appendSelf_empty hxv
      · exact appendOther_holds hxv hyw
    rcases happ with ⟨z, hz, hzv⟩
    refine ⟨update s a (some z), .int (toInt z.size), ?_, ?_⟩
    · simp only [exec, hx, hy, Option.bind_some, Bool.true_eq_false, if_false, hz, Option.map_some]
    · simp only [Strings.after, hm, hm', Option.bind_some, Option.map_some]
      exact h.set (.some hzv)

theorem split_tracks {delimiter : UInt8} {ok : Bool} (h : Tracks s m)
    (hv : valid s (.split (some a) delimiter ok) = true) (hc : careful s (.split (some a) delimiter ok) = true) :
    ∃ s' r, exec s (.split (some a) delimiter ok) = some (s', r) ∧ Tracks s' m := by
  rcases present_some hv with ⟨x, hx⟩
  rcases h.holds hx with ⟨v, hm, hxv⟩
  have hd : ok = true → delimiter ∉ v := by
    intro hok
    simpa [careful, hok, hx, hxv.1] using hc
  rcases sstringSplit_keeps hxv hd with ⟨pieces, hsplit⟩
  refine ⟨update s a (some x), .vector pieces, ?_, h.same hx⟩
  simp only [exec, hx, Option.bind_some, hsplit, Option.map_some]

theorem substitute_tracks {offset : Nat} {target u : CStr} (h : Tracks s m)
    (hv : valid s (.substitute (some a) offset (some target) (some u) ok fill) = true) :
    ∃ s' r, exec s (.substitute (some a) offset (some target) (some u) ok fill) = some (s', r) ∧
      Tracks s' (m.after (.substitute (some a) offset (some target) (some u) ok fill)) := by
  cases hx : s a with
  | none => simp [valid, hx] at hv
  | some x =>
    rcases h.holds hx with ⟨v, hm, hxv⟩
    have hoff : offset ≤ v.length := by simpa [valid, hx, strlen, hxv.1] using hv
    rcases sstringSubstitute_holds ok fill target u hxv hoff with ⟨z, r, hz, hzv⟩
    refine ⟨update s a (some z), .int r, ?_, ?_⟩
    · simp only [exec, hx, Option.bind_some, hz, Option.map_some]
    · cases ok with
      | false =>
        have hset := h.set (a := a) (.some hzv)
        rw [if_neg Bool.false_ne_true, ← hm, Function.update_eq_self] at hset
        exact hset
      | true =>
        simp only [Strings.after, hm, Option.map_some]
        exact h.set (.some hzv)

/-- A careful call of sstrings that exist returns, and does to them what it does to the strings. -/
theorem exec_tracks (h : Tracks s m) {op : Op} (hv : valid s op = true) (hc : careful s op = true) :
    ∃ s' r, exec s op = some (s', r) ∧ Tracks s' (m.after op) := by
  cases op with
  | create a input =>
    cases input with
    | none => exact ⟨s, _, rfl, h⟩
    | some input => exact ⟨_, _, if_pos hv, h.set (.some (cstrToSstring_holds input))⟩
  | toCstr this ok =>
    cases this with
    | none => exact ⟨s, _, rfl, h⟩
    | some a =>
      rcases present_some hv with ⟨x, hx⟩
      rcases h.holds hx with ⟨v, hm, hxv⟩
      refine ⟨s, .text (if ok = true then some v else none), ?_, h⟩
      simp only [exec, hx, Option.bind_some, sstringToCstr, hxv.1, Option.map_some]
  | append this addition ok fill =>
    cases this with
    | none => exact ⟨s, _, rfl, h⟩
    | some a =>
      cases addition with
      | none => exact ⟨s, _, rfl, h⟩
      | some b => exact append_tracks h hv hc
  | split this delimiter ok =>
    cases this with
    | none => exact ⟨s, _, rfl, h⟩
    | some a => exact split_tracks h hv hc
  | substitute this offset target u ok fill =>
    cases this with
    | none => exact ⟨s, _, rfl, h⟩
    | some a =>
      cases target with
      | none => exact ⟨s, _, rfl, h⟩
      | some target =>
        cases u with
        | none => exact ⟨s, _, rfl, h⟩
        | some u => exact substitute_tracks h hv
  | slice this start stop ok fill =>
    cases this with
    | none => exact ⟨s, _, rfl, h⟩
    | some a =>
      rcases present_some hv with ⟨x, hx⟩
      rcases h.holds hx with ⟨v, hm, hxv⟩
      rcases sstringSlice_spec start stop ok fill hxv with ⟨r, hr, hblock⟩
      cases r with
      | none => exact ⟨s, .text none, by simp only [exec, hx, Option.bind_some, hr], h⟩
      | some block =>
        refine ⟨s, .text (some ((v.drop start.toNat).take (stop - start).toNat)), ?_, h⟩
        simp only [exec, hx, Option.bind_some, hr, hblock block rfl, Option.map_some]
  | destroy this =>
    cases this with
    | none => exact ⟨s, _, rfl, h⟩
    | some a =>
      rcases present_some hv with ⟨x, hx⟩
      exact ⟨update s a none, .void, by simp only [exec, hx, Option.map_some], h.set .none⟩

/-! ## Every sequence of calls -/

theorem sstrings_track {log : List (Op × Ret)}
    (h : sys.Via (fun x op => valid x.1 op = true ∧ careful x.1 op = true) (s, log)) :
    Tracks s (strings log) ∧
      ∀ op, valid s op = true → careful s op = true → ∃ s' r, exec s op = some (s', r) := by
  have ht : Tracks s (strings log) := by
    refine Run.Sys.Via.inv (M := sys) (I := fun x => Tracks x.1 (strings x.2)) ?_ ?_ h
    · intro x hx
      rw [hx]
      exact fun _ => .none
    · intro x op x' hi hc hs
      rcases Run.logged_some hs with ⟨r, hexec, hlog⟩
      rcases exec_tracks hi hc.1 hc.2 with ⟨s', r', hexec', ht⟩
      rw [hexec'] at hexec
      cases hexec
      rw [hlog, strings_snoc]
      exact ht
  refine ⟨ht, ?_⟩
  intro op hv hc
  rcases exec_tracks ht hv hc with ⟨s', r, hexec, -⟩
  exact ⟨s', r, hexec⟩

/-- "ab" and ",": appended, split at a byte they do not have, and changed. -/
def sampleCalls : List Op :=
  [.create 0 (some ⟨[97, 98], by decide⟩), .create 1 (some ⟨[44], by decide⟩),
    .append (some 0) (some 1) true fun _ => 7,
    .split (some 0) 120 true,
    .substitute (some 0) 1 (some ⟨[98, 44], by decide⟩) (some ⟨[99], by decide⟩) true fun _ => 7,
    .slice (some 0) 0 1 true fun _ => 7, .toCstr (some 0) true]

theorem sstrings_track_sample : ∃ s log, strings log 0 = some [97, 99] ∧ strings log 1 = some [44] ∧
    Tracks s (strings log) := by
  have hrun : (Run.exec (Run.guard (fun (x : St × List (Op × Ret)) op => valid x.1 op = true ∧ careful x.1 op = true)
      (Run.logged exec)) (fun _ => none, []) sampleCalls).map (fun x => (strings x.2 0, strings x.2 1)) =
      some (some [97, 99], some [44]) := by
    decide +kernel
  rcases Option.map_eq_some_iff.mp hrun with ⟨⟨s, log⟩, hexec, hstrings⟩
  have h0 : sys.Via (fun x op => valid x.1 op = true ∧ careful x.1 op = true) (fun _ => none, []) := .init rfl
  exact ⟨s, log, congrArg Prod.fst hstrings, congrArg Prod.snd hstrings, (sstrings_track (Run.via_guard h0 hexec)).1⟩

/-- "a,b" split at the comma is "a", with size 3; "a" appended to itself leaves its buffer. -/
theorem split_cuts_its_argument :
    (∃ s log, sys.Via (fun x op => valid x.1 op = true) (s, log) ∧ strings log 0 = some [97, 44, 98] ∧
      s 0 = some ⟨[97, 0, 98, 0], 3⟩ ∧ ¬ Tracks s (strings log)) ∧
    ∃ s log, sys.Via (fun x op => valid x.1 op = true) (s, log) ∧ strings log 0 = some [97] ∧
      valid s (.append (some 0) (some 0) true fun _ => 0) = true ∧
      (exec s (.append (some 0) (some 0) true fun _ => 0)).isNone = true := by
  have h0 : sys.Via (fun x op => valid x.1 op = true) (fun _ => none, []) := .init rfl
  constructor
  · have hrun : (Run.exec (Run.guard (fun (x : St × List (Op × Ret)) op => valid x.1 op = true) (Run.logged exec))
        (fun _ => none, []) [.create 0 (some ⟨[97, 44, 98], by decide⟩), .split (some 0) 44 true]).map
        (fun x => (strings x.2 0, x.1 0)) = some (some [97, 44, 98], some ⟨[97, 0, 98, 0], 3⟩) := by
      decide +kernel
    rcases Option.map_eq_some_iff.mp hrun with ⟨⟨s, log⟩, hexec, hres⟩
    have hm : strings log 0 = some [97, 44, 98] := congrArg Prod.fst hres
    have hs : s 0 = some ⟨[97, 0, 98, 0], 3⟩ := congrArg Prod.snd hres
    refine ⟨s, log, Run.via_guard h0 hexec, hm, hs, ?_⟩
    intro ht
    rcases ht.holds hs with ⟨v, hv, hcut, -⟩
    rw [hm] at hv
    cases hv
    exact absurd hcut (by decide)
  · have hrun : (Run.exec (Run.guard (fun (x : St × List (Op × Ret)) op => valid x.1 op = true) (Run.logged exec))
        (fun _ => none, []) [.create 0 (some ⟨[97], by decide⟩)]).map (fun x => (strings x.2 0,
        valid x.1 (.append (some 0) (some 0) true fun _ => 0),
        (exec x.1 (.append (some 0) (some 0) true fun _ => 0)).isNone)) = some (some [97], true, true) := by
      decide +kernel
    rcases Option.map_eq_some_iff.mp hrun with ⟨⟨s, log⟩, hexec, hres⟩
    simp only [Prod.mk.injEq] at hres
    exact ⟨s, log, Run.via_guard h0 hexec, hres⟩

end SysProg.Sstrings
