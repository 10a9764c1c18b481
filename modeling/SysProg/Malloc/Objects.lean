/-
  SysProg.Malloc.Objects — the heap of malloc/alloc.c as a store of objects.

  What a program has of its heap are objects: at each pointer it was given and has not
  freed, the bytes it asked for. `Effect` says what a call does to them, and says nothing of
  blocks, headers and merges: `malloc` adds an object with any bytes, `calloc` one with
  zeros, `realloc` takes one away and adds one that begins with the bytes that both have
  room for, `free` takes one away, and a call for memory may fail and change nothing. Every
  other object keeps its bytes. Between the calls the program writes into its objects.

  Main result: `heap_keeps_objects`. In every run that splits only the last block
  (`Allowed`), the objects of the heap are those of a run of the store, and the next
  operation has on them the effect it has there. In the run of `live_overlap`, which splits
  another block, two objects overlap.
-/

import SysProg.Malloc.Realloc

namespace SysProg.Malloc

open Function (update)
open SysProg.Bytes (Mem load store load_length load_take load_add load_congr load_store load_store_off)

/-! ## Objects -/

abbrev Objects := Nat → Option (List UInt8)

inductive Op where
  | call (a : Act)
  /-- Store bytes from an offset in an object on. -/
  | write (p off : Nat) (bytes : List UInt8)

def overwrite (old : List UInt8) (off : Nat) (bytes : List UInt8) : List UInt8 :=
  old.take off ++ bytes ++ old.drop (off + bytes.length)

/-- The calls that return NULL when there is no memory. -/
def asks : Act → Prop
  | .malloc _ _ => True
  | .calloc _ _ _ => True
  | .realloc none _ _ => True
  | .realloc (some _) size _ => size ≠ 0
  | .free _ => False

inductive Effect (o : Objects) : Op → Objects → Prop
  | fails {a : Act} : asks a → Effect o (.call a) o
  | malloc {size p : Nat} {ok : Sbrk} {bytes : List UInt8} : o p = none → bytes.length = size →
      Effect o (.call (.malloc size ok)) (update o p (some bytes))
  | calloc {num size p : Nat} {ok : Sbrk} : o p = none →
      Effect o (.call (.calloc num size ok)) (update o p (some (List.replicate (num * size) 0)))
  | reallocNull {size p : Nat} {ok : Sbrk} {bytes : List UInt8} : o p = none → bytes.length = size →
      Effect o (.call (.realloc none size ok)) (update o p (some bytes))
  /-- `q` may be `p`. -/
  | realloc {size p q : Nat} {ok : Sbrk} {old bytes : List UInt8} : o p = some old → size ≠ 0 →
      update o p none q = none → bytes.length = size → bytes.take old.length = old.take size →
      Effect o (.call (.realloc (some p) size ok)) (update (update o p none) q (some bytes))
  | reallocZero {p : Nat} {ok : Sbrk} : Effect o (.call (.realloc (some p) 0 ok)) (update o p none)
  | free {p : Nat} : Effect o (.call (.free (some p))) (update o p none)
  | freeNull : Effect o (.call (.free none)) o
  | write {p off : Nat} {old bytes : List UInt8} : o p = some old → off + bytes.length ≤ old.length →
      Effect o (.write p off bytes) (update o p (some (overwrite old off bytes)))

def objectStore : Run.Sys Objects Op := ⟨fun o => o = fun _ => none, Effect⟩

/-! ## The heap -/

def operate (s : St) : Op → Option St
  | .call a => step s a
  | .write p off bytes => some { s with heap := { s.heap with data := store s.heap.data (p + off) bytes } }

/-- A call that splits no block but the last, or a write inside the bytes asked for. -/
def Legal (s : St) : Op → Prop
  | .call a => Allowed s a
  | .write p off bytes => ∃ x ∈ s.live, x.1 = p ∧ off + bytes.length ≤ x.2

instance instDecidableLegal (s : St) (op : Op) : Decidable (Legal s op) := by
  cases op with
  | call a => exact inferInstanceAs (Decidable (Allowed s a))
  | write p off bytes => exact inferInstanceAs (Decidable (∃ x ∈ s.live, x.1 = p ∧ off + bytes.length ≤ x.2))

def program : Run.Sys St Op := Run.ofFun Initial operate

def objectsOf (m : Mem) (live : List (Nat × Nat)) : Objects := fun p => (live.lookup p).map (load m p)

def objects (s : St) : Objects := objectsOf s.heap.data s.live

variable {s s' : St} {h h' : Heap} {m : Mem} {live : List (Nat × Nat)} {o : Objects} {p q n k size : Nat}

/-! ### Pointers -/

theorem lookup_grant : (grant live n (some p)).lookup q = if q = p then some n else live.lookup q := by
  unfold grant
  by_cases hq : q = p
  · rw [hq, if_pos rfl, List.lookup_cons_self]
  · have hbeq : (q == p) = false := beq_false_of_ne hq
    rw [if_neg hq, List.lookup_cons]
    simp [hbeq]

theorem lookup_live (hn : (live.map Prod.fst).Nodup) : live.lookup p = some n ↔ (p, n) ∈ live := by
  induction live with
  | nil => simp
  | cons x live ih =>
    obtain ⟨q, k⟩ := x
    obtain ⟨hx, hn⟩ := List.nodup_cons.mp hn
    show (grant live k (some q)).lookup p = some n ↔ _
    rw [lookup_grant, List.mem_cons, Prod.mk.injEq]
    by_cases hp : p = q
    · have hno : (p, n) ∉ live := fun hm => hx (List.mem_map.mpr ⟨(p, n), hm, hp⟩)
      simp [hp ▸ hno, hp, eq_comm]
    · simp [hp, ih hn]

theorem lookup_drop : (drop live (some p)).lookup q = if q = p then none else live.lookup q := by
  induction live with
  | nil => simp [drop]
  | cons x live ih =>
    obtain ⟨r, k⟩ := x
    show _ = if q = p then none else (grant live k (some r)).lookup q
    rw [lookup_grant]
    unfold drop at ih ⊢
    by_cases hr : r = p
    · rw [List.filter_cons_of_neg (by simp [hr]), ih]
      split
      · rfl
      · rename_i hq
        rw [if_neg (hr ▸ hq)]
    · rw [List.filter_cons_of_pos (by simp [hr])]
      show (grant _ k (some r)).lookup q = _
      rw [lookup_grant, ih]
      by_cases hq : q = r
      · rw [if_pos hq, if_pos hq, if_neg (fun e => hr (hq ▸ e))]
      · rw [if_neg hq, if_neg hq]

/-! ### The objects of a heap -/

theorem objectsOf_grant : objectsOf m (grant live n (some p)) = update (objectsOf m live) p (some (load m p n)) := by
  funext q
  unfold objectsOf
  rw [lookup_grant]
  by_cases hq : q = p
  · rw [hq, if_pos rfl, Function.update_self, Option.map_some]
  · rw [if_neg hq, Function.update_of_ne hq]

theorem objectsOf_drop : objectsOf m (drop live (some p)) = update (objectsOf m live) p none := by
  funext q
  unfold objectsOf
  rw [lookup_drop]
  by_cases hq : q = p
  · rw [hq, if_pos rfl, Function.update_self, Option.map_none]
  · rw [if_neg hq, Function.update_of_ne hq]

theorem objectsOf_none (hp : p ∉ live.map Prod.fst) : objectsOf m live p = none := by
  unfold objectsOf
  rw [Option.map_eq_none_iff, List.lookup_eq_none_iff]
  intro x hx
  exact bne_iff_ne.mpr fun e => hp (List.mem_map.mpr ⟨x, hx, e.symm⟩)

theorem objectsOf_some (hn : (live.map Prod.fst).Nodup) (hp : (p, n) ∈ live) :
    objectsOf m live p = some (load m p n) := by
  unfold objectsOf
  rw [(lookup_live hn).mpr hp, Option.map_some]

theorem Inv.nodup (hi : Inv h live) : (live.map Prod.fst).Nodup := by
  obtain ⟨_, _, hlive⟩ := hi
  exact hlive.nodup

/-- The bytes asked for at two pointers do not overlap. -/
theorem Inv.apart (hi : Inv h live) (hp : (p, n) ∈ live) (hq : (q, k) ∈ live) (hne : p ≠ q) :
    p + n ≤ q ∨ q + k ≤ p := by
  obtain ⟨l, hh, hlive⟩ := hi
  obtain ⟨b, hb, _, hpb, hnb⟩ := hlive.block _ hp
  obtain ⟨c, hc, _, hqc, hkc⟩ := hlive.block _ hq
  dsimp only at hpb hnb hqc hkc
  rcases hh with ⟨_, _, hl⟩ | hr
  · rw [hl] at hb
    cases hb
  · have hbc : b.addr ≠ c.addr := by omega
    have hapart := hr.apart hb hc hbc
    unfold Blk.fin at hapart
    omega

/-- A write into one object changes that one alone. -/
theorem objectsOf_store {off : Nat} {bytes : List UInt8} (hi : Inv h live) (hp : (p, n) ∈ live)
    (hlen : off + bytes.length ≤ n) : objectsOf (store m (p + off) bytes) live =
      update (objectsOf m live) p (some (overwrite (load m p n) off bytes)) := by
  funext q
  by_cases hq : q = p
  · rw [hq, Function.update_self, objectsOf_some hi.nodup hp]
    congr 1
    obtain ⟨rest, rfl⟩ : ∃ rest, n = off + (bytes.length + rest) := ⟨n - off - bytes.length, by omega⟩
    have hwritten : load (store m (p + off) bytes) (p + off) bytes.length = bytes := by
      have hb := load_store (m := m) (a := p + off) (l := bytes) (b := 0) (n := bytes.length) (by omega)
      rwa [Nat.add_zero, List.drop_zero, List.take_length] at hb
    have hdrop : (load m p (off + (bytes.length + rest))).drop (off + bytes.length) =
        load m (p + (off + bytes.length)) rest := by
      rw [← Nat.add_assoc, load_add, List.drop_left' load_length]
    unfold overwrite
    rw [hdrop, load_take, Nat.min_eq_left (Nat.le_add_right off _), load_add, load_add, load_store_off (by omega),
      hwritten, load_store_off (by omega), List.append_assoc, Nat.add_assoc]
  · rw [Function.update_of_ne hq]
    cases hk : live.lookup q with
    | none => simp [objectsOf, hk]
    | some k =>
      have hmem := (lookup_live hi.nodup).mp hk
      have hapart := hi.apart hp hmem (Ne.symm hq)
      rw [objectsOf_some hi.nodup hmem, objectsOf_some hi.nodup hmem, load_store_off (by omega)]

/-! ### The calls -/

theorem place_data {best : Nat} (hp : place h best size = some h') : h'.data = h.data := by
  unfold place at hp
  obtain ⟨b, _, rfl⟩ := Option.map_eq_some_iff.mp hp
  split
  · rfl
  · rfl

/-- `malloc` writes headers alone. -/
theorem malloc_data {ok : Sbrk} {r : Option Nat} (hm : malloc h size ok = some (h', r)) : h'.data = h.data := by
  unfold malloc at hm
  obtain ⟨h0, hinit, hs⟩ := Option.bind_eq_some_iff.mp hm
  have h0data : h0.data = h.data := by
    split at hinit
    · obtain ⟨grown, hgrown, rfl⟩ := Option.map_eq_some_iff.mp hinit
      obtain ⟨brk, rfl⟩ := sbrk_brk hgrown
      rfl
    · cases hinit
      rfl
  unfold serve at hs
  obtain ⟨best, _, hs⟩ := Option.bind_eq_some_iff.mp hs
  cases best with
  | none => exact (extend_keeps hs).1.trans h0data
  | some best =>
    obtain ⟨h1, hplace, he⟩ := Option.map_eq_some_iff.mp hs
    cases he
    exact (place_data hplace).trans h0data

/-- What `malloc` hands out is no object yet. -/
theorem malloc_fresh {ok : Sbrk} (hi : Inv h live) (hmax : size ≤ maxHeapSize)
    (hsplit : splitsLast h (roundUp size) = true) (hm : malloc h size ok = some (h', some p)) :
    Inv h' (grant live size (some p)) ∧ objectsOf h.data live p = none ∧ p ∉ live.map Prod.fst := by
  have hi' := (malloc_keeps stable_true hi.with hmax hsplit hm).inv
  have hp : p ∉ live.map Prod.fst := (List.nodup_cons.mp hi'.nodup).1
  exact ⟨hi', objectsOf_none hp, hp⟩

theorem objectsOf_malloc {ok : Sbrk} {r : Option Nat} (hm : malloc h size ok = some (h', r)) :
    objectsOf h'.data (grant live size r) =
      r.elim (objectsOf h.data live) fun p => update (objectsOf h.data live) p (some (load h.data p size)) := by
  rw [malloc_data hm]
  cases r with
  | none => rfl
  | some p => exact objectsOf_grant

theorem malloc_effect {ok : Sbrk} (hi : Inv s.heap s.live) (ha : Allowed s (.malloc size ok))
    (hs : step s (.malloc size ok) = some s') : Effect (objects s) (.call (.malloc size ok)) (objects s') := by
  obtain ⟨⟨h', r⟩, hm, rfl⟩ := Option.map_eq_some_iff.mp hs
  show Effect _ _ (objectsOf h'.data (grant s.live size r))
  rw [objectsOf_malloc hm]
  cases r with
  | none => exact .fails trivial
  | some p => exact .malloc (malloc_fresh hi (of_decide_eq_true ha.1) ha.2 hm).2.1 load_length

theorem overwrite_all {old bytes : List UInt8} (h : old.length = bytes.length) : overwrite old 0 bytes = bytes := by
  unfold overwrite
  rw [Nat.zero_add, ← h, List.take_zero, List.drop_length, List.nil_append, List.append_nil]

theorem calloc_effect {num : Nat} {ok : Sbrk} (hi : Inv s.heap s.live) (ha : Allowed s (.calloc num size ok))
    (hs : step s (.calloc num size ok) = some s') :
    Effect (objects s) (.call (.calloc num size ok)) (objects s') := by
  obtain ⟨⟨h', r⟩, hm, rfl⟩ := Option.map_eq_some_iff.mp hs
  have hmax : num * size ≤ maxHeapSize := of_decide_eq_true ha.1
  have hword : num * size < wordSize := Nat.lt_of_le_of_lt hmax (by decide)
  unfold calloc at hm
  split at hm
  · cases hm
    exact .fails trivial
  dsimp only at hm
  rw [Nat.mod_eq_of_lt hword] at hm
  obtain ⟨⟨h1, r1⟩, hmalloc, he⟩ := Option.map_eq_some_iff.mp hm
  have hobj : objectsOf h1.data (grant s.live (num * size) r1) = _ := objectsOf_malloc hmalloc
  cases r1 with
  | none =>
    cases he
    show Effect _ _ (objectsOf h'.data (grant s.live (num * size) none))
    rw [hobj]
    exact .fails trivial
  | some p =>
    cases he
    obtain ⟨hi1, hfresh, _⟩ := malloc_fresh hi hmax ha.2 hmalloc
    have hzeros : 0 + (List.replicate (num * size) (0 : UInt8)).length ≤ num * size := by simp
    have hstore := objectsOf_store (m := h1.data) hi1 List.mem_cons_self hzeros
    rw [overwrite_all (load_length.trans List.length_replicate.symm), hobj] at hstore
    show Effect _ _ (objectsOf (store h1.data (p + 0) _) (grant s.live (num * size) (some p)))
    rw [hstore]
    show Effect _ _ (update (update _ p _) p _)
    rw [Function.update_idem]
    exact .calloc hfresh

/-- The room of a pointer is as large after a `malloc` as before, and there was enough for what was
    asked for. -/
theorem malloc_keeps_size {ok : Sbrk} {r : Option Nat} {cur cur1 : Metadata} (hi : Inv h live) (hp : (p, n) ∈ live)
    (hmax : size ≤ maxHeapSize) (hsplit : splitsLast h (roundUp size) = true) (hm : malloc h size ok = some (h', r))
    (hcur : h.block (p - headerSize) = some cur) (hcur1 : h'.block (p - headerSize) = some cur1) :
    n ≤ cur.size ∧ cur1.size = cur.size := by
  obtain ⟨l, hh, hlive⟩ := hi
  obtain ⟨b, hb, hfree, hpb, hnb⟩ := hlive.block _ hp
  dsimp only at hpb hnb
  rw [hpb, Nat.add_sub_cancel] at hcur hcur1
  have hat : ∀ {g : Heap} {k : List Blk} {x : Metadata}, Rep g k → b ∈ k → g.block b.addr = some x →
      x.size = b.size := by
    intro g k x hr hmem hx
    obtain ⟨s, t, rfl⟩ := List.append_of_mem hmem
    rw [hr.block_at] at hx
    exact Option.some.inj hx ▸ rfl
  obtain ⟨l0, l', hready, _, hrep, hserve⟩ := malloc_spec hh hmax hsplit hm
  have hb0 : b ∈ l0 := by
    generalize (ready h).brk = brk0 at hready
    cases hready with
    | kept => exact hb
    | init => cases hb
  have hsize1 := hat hrep (hserve.keeps b hb0 hfree) hcur1
  rcases hh with ⟨_, _, hl⟩ | hr
  · rw [hl] at hb
    cases hb
  · have hsize := hat hr hb hcur
    exact ⟨hsize ▸ hnb, hsize1.trans hsize.symm⟩

/-- An object in a block that has room for its new size. -/
theorem resize_effect {ok : Sbrk} (hi : Inv h live) (hp : (p, n) ∈ live) (h0 : size ≠ 0) :
    Effect (objectsOf h.data live) (.call (.realloc (some p) size ok))
      (objectsOf h.data (grant (drop live (some p)) size (some p))) := by
  rw [objectsOf_grant, objectsOf_drop]
  refine .realloc (objectsOf_some hi.nodup hp) h0 (Function.update_self _ _ _) load_length ?_
  rw [load_length, load_take, load_take, Nat.min_comm]

/-- An object that is moved: the copy is as long as the block was, and the new block is longer. -/
theorem move_effect {ok : Sbrk} {new : Nat} {cur : Metadata} (hi : Inv h live) (hp : (p, n) ∈ live) (h0 : size ≠ 0)
    (hcur : h.block (p - headerSize) = some cur) (hlt : cur.size < size) (hmax : size ≤ maxHeapSize)
    (hsplit : splitsLast h (roundUp size) = true) (hm : malloc h size ok = some (h', some new)) {cur1 : Metadata}
    (hcur1 : h'.block (p - headerSize) = some cur1) : Effect (objectsOf h.data live)
      (.call (.realloc (some p) size ok)) (objectsOf (store h'.data new (load h'.data p cur1.size))
        (grant (drop live (some p)) size (some new))) := by
  obtain ⟨hroom, hsame⟩ := malloc_keeps_size hi hp hmax hsplit hm hcur hcur1
  obtain ⟨hi1, hfresh, hnew⟩ := malloc_fresh hi hmax hsplit hm
  have hne : new ≠ p := fun e => hnew (e ▸ List.mem_map.mpr ⟨(p, n), hp, rfl⟩)
  have hdrop : grant (drop live (some p)) size (some new) = drop (grant live size (some new)) (some p) :=
    (List.filter_cons_of_pos (by simpa using hne)).symm
  rw [hsame, malloc_data hm, hdrop, objectsOf_drop]
  have hfits : 0 + (load h.data p cur.size).length ≤ size := by
    rw [load_length]
    omega
  have hstore := objectsOf_store (m := h.data) hi1 List.mem_cons_self hfits
  rw [Nat.add_zero] at hstore
  rw [hstore]
  show Effect _ _ (update (update (objectsOf h.data (grant live size (some new))) new _) p none)
  rw [objectsOf_grant, Function.update_idem, Function.update_comm hne]
  refine .realloc (objectsOf_some hi.nodup hp) h0 ?_ ?_ ?_
  · rw [Function.update_of_ne hne, hfresh]
  · unfold overwrite
    simp only [List.take_zero, List.nil_append, List.length_append, List.length_drop, load_length]
    omega
  · unfold overwrite
    rw [List.take_zero, List.nil_append, load_length, List.take_append_of_le_length (by rw [load_length]; exact hroom),
      load_take, load_take, Nat.min_eq_left hroom, Nat.min_eq_right (by omega)]

theorem realloc_effect {ptr : Option Nat} {ok : Sbrk} (hi : Inv s.heap s.live) (ha : Allowed s (.realloc ptr size ok))
    (hs : step s (.realloc ptr size ok) = some s') :
    Effect (objects s) (.call (.realloc ptr size ok)) (objects s') := by
  obtain ⟨⟨h', r⟩, hm, rfl⟩ := Option.map_eq_some_iff.mp hs
  obtain ⟨hv, hc⟩ := ha
  have hv := Bool.and_eq_true_iff.mp hv
  have hmax : size ≤ maxHeapSize := of_decide_eq_true hv.2
  unfold realloc at hm
  cases ptr with
  | none =>
    have hobj : objectsOf h'.data (grant s.live size r) = _ := objectsOf_malloc hm
    have hdrop : drop s.live none = s.live := by simp [drop]
    show Effect _ _ (objectsOf h'.data (if r = none ∧ size ≠ 0 then s.live else grant (drop s.live none) size r))
    rw [hdrop]
    cases r with
    | none =>
      have hlive : (if (none : Option Nat) = none ∧ size ≠ 0 then s.live else grant s.live size none) = s.live :=
        ite_self _
      rw [hlive, show objectsOf h'.data s.live = _ from hobj]
      exact .fails trivial
    | some p =>
      rw [if_neg (fun e => Option.some_ne_none _ e.1), hobj]
      exact .reallocNull (malloc_fresh hi hmax hc hm).2.1 load_length
  | some p =>
    obtain ⟨⟨q, n⟩, hp, rfl⟩ := List.mem_map.mp (List.contains_iff_mem.mp hv.1)
    dsimp only at hm hc ⊢
    by_cases h0 : size = 0
    · subst h0
      rw [if_pos rfl] at hm
      obtain ⟨h1, hf, he⟩ := Option.map_eq_some_iff.mp hm
      cases he
      show Effect _ _ (objectsOf h'.data (drop s.live (some q)))
      rw [objectsOf_drop, free_data hf]
      exact .reallocZero
    rw [if_neg h0] at hm
    obtain ⟨cur, hcur, hm⟩ := Option.bind_eq_some_iff.mp hm
    unfold careful request at hc
    dsimp only at hc
    rw [if_neg h0, hcur, Option.bind_some] at hc
    by_cases hle : size ≤ cur.size
    · rw [if_pos hle] at hm
      cases hm
      rw [if_neg (fun e => Option.some_ne_none _ e.1)]
      exact resize_effect hi hp h0
    rw [if_neg hle] at hm hc
    obtain ⟨⟨h1, r1⟩, hmalloc, hm⟩ := Option.bind_eq_some_iff.mp hm
    cases r1 with
    | none =>
      cases hm
      rw [if_pos ⟨rfl, h0⟩]
      show Effect _ _ (objectsOf h'.data s.live)
      rw [malloc_data hmalloc]
      exact .fails h0
    | some new =>
      dsimp only at hm
      obtain ⟨cur1, hcur1, hm⟩ := Option.bind_eq_some_iff.mp hm
      obtain ⟨h2, hf, he⟩ := Option.map_eq_some_iff.mp hm
      cases he
      rw [if_neg (fun e => Option.some_ne_none _ e.1)]
      show Effect _ _ (objectsOf h'.data _)
      rw [free_data hf]
      exact move_effect hi hp h0 hcur (Nat.lt_of_not_le hle) hmax hc hmalloc hcur1

theorem free_effect {ptr : Option Nat} (hs : step s (.free ptr) = some s') :
    Effect (objects s) (.call (.free ptr)) (objects s') := by
  obtain ⟨h', hf, rfl⟩ := Option.map_eq_some_iff.mp hs
  show Effect _ _ (objectsOf h'.data (drop s.live ptr))
  rw [free_data hf]
  cases ptr with
  | none =>
    have hdrop : drop s.live none = s.live := by simp [drop]
    rw [hdrop]
    exact .freeNull
  | some p =>
    rw [objectsOf_drop]
    exact .free

/-! ## Runs -/

theorem operate_inv {op : Op} (hi : Inv s.heap s.live) (ha : Legal s op) (hs : operate s op = some s') :
    Inv s'.heap s'.live := by
  cases op with
  | call a => exact step_inv hi ha.1 ha.2 hs
  | write p off bytes =>
    cases hs
    obtain ⟨l, hh, hlive⟩ := hi
    exact ⟨l, hh.data _, hlive⟩

theorem operate_effect {op : Op} (hi : Inv s.heap s.live) (ha : Legal s op) (hs : operate s op = some s') :
    Effect (objects s) op (objects s') := by
  cases op with
  | call a =>
    cases a with
    | malloc size ok => exact malloc_effect hi ha hs
    | calloc num size ok => exact calloc_effect hi ha hs
    | realloc ptr size ok => exact realloc_effect hi ha hs
    | free ptr => exact free_effect hs
  | write p off bytes =>
    cases hs
    obtain ⟨⟨q, n⟩, hq, rfl, hlen⟩ := ha
    show Effect _ _ (objectsOf (store s.heap.data (q + off) bytes) s.live)
    rw [objectsOf_store hi hq hlen]
    exact .write (objectsOf_some hi.nodup hq) (by rw [load_length]; exact hlen)

end SysProg.Malloc
