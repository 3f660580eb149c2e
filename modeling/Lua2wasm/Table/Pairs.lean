import Lua2wasm.Table.Traversal

/-!
# The loop over `pairs`

A compiled `for k, v in pairs(t)` does not call `next`: `$next_step` (`runtime/prelude/baselib.wat`)
carries a position, `i` for the index `i` of the array part and `-(j + 1)` for the position `j` of the
hash part. `Loop iter` is a loop that goes on with the iterator `iter`, with stores to keys that have a
value in its body.

`nextStep_eq_next` compares the two iterators on the same body: they give the same pairs in the same
order, and end together, under the conditions on which `next` gives every key (`next_traverses`), and
if the array part has fewer than `2^30` slots, as `$next_step` makes its keys with `ref.i31`. Where
`next` loses a key, `$next_step` does not (`nextStep_eq_next_fails`).
-/

namespace Lua2wasm.Table

open Sweep

/-! ## The model -/

/-- The second half of `$next_step`, over the hash part from the position `j` on. -/
def nextStepHash (s : TabState) (j : ℕ) : Option (ℤ × Val × Val) := do
  let sh ← s.shape
  match ← scanSlots s.t.vals (sh.n - j) j with
  | none => some (0, .nil, .nil)
  | some p => (hashEntry s sh p).map fun (k, v) => (-2 - (p : ℤ), k, v)

/-- `$next_step`: the position after the entry found, its key and its value. The key is nil at the
end. -/
def nextStep (s : TabState) (pos : ℤ) : Option (ℤ × Val × Val) := do
  if 0 ≤ pos then
    match ← scanSlots s.t.arr (s.t.alen - pos.toNat) pos.toNat with
    | none => nextStepHash s 0
    | some i => do
      let v ← tval (← (← s.t.arr)[i]?) s.t.farr i
      some ((i : ℤ) + 1, refI31 ((i : ℤ) + 1), v)
  else nextStepHash s (-1 - pos).toNat

/-- An iterator: where it goes on, and a key with its value. There is nothing at the end, and no result
if it raises an error or traps. -/
abbrev Iter (σ : Type) := TabState → σ → Option (Option (σ × Val × Val))

/-- The iterator that calls `next` with the key before. -/
def byKey : Iter Val := fun s k =>
  match tabNext s k with
  | .error _ => none
  | .ok none => some none
  | .ok (some (k', v)) => some (some (k', k', v))

/-- The iterator that carries a position. -/
def byPosition : Iter ℤ := fun s pos =>
  (nextStep s pos).map fun (pos', k, v) => if k = .nil then none else some (pos', k, v)

/-- The last key that the loop got, or nil. -/
def lastKey (pairs : List (Val × Val)) : Val := (pairs.map Prod.fst).getLastD .nil

/-- A loop over the table `i` with an iterator, from `start` in the world `w₀` on: the world, the
iterator, and the pairs so far. -/
inductive Loop {σ : Type} (iter : Iter σ) (start : σ) (storeOk : TabState → RawWrite → Prop)
    (nextOk : LuaTable → TabState → Val → Prop) (w₀ : World) (i : ℕ) (t₀ : LuaTable) :
    World → σ → List (Val × Val) → Prop
  /-- The start. -/
  | start : Loop iter start storeOk nextOk w₀ i t₀ w₀ start []
  /-- A store to a key that has a value. -/
  | store {w w' : World} {c : σ} {pairs : List (Val × Val)} {k : Val} {t : LuaTable} {op : RawWrite}
      {r : Except Fault Unit} (h : Loop iter start storeOk nextOk w₀ i t₀ w c pairs)
      (ht : w.tables[i]? = some t) (hkey : op.key = some k) (hlive : Live (w.state t) k)
      (hok : storeOk (w.state t) op) (hs : w.step (.write i op) = some (r, w')) (hr : r ≠ .error .stuck) :
      Loop iter start storeOk nextOk w₀ i t₀ w' c pairs
  /-- A step that does not change the table. -/
  | other {w w' : World} {c : σ} {pairs : List (Val × Val)} {op : WorldOp} {r : Except Fault Unit}
      (h : Loop iter start storeOk nextOk w₀ i t₀ w c pairs) (hl : op.Legal w) (hne : op.target ≠ some i)
      (hs : w.step op = some (r, w')) (hr : r ≠ .error .stuck) :
      Loop iter start storeOk nextOk w₀ i t₀ w' c pairs
  /-- The iterator gives a pair. -/
  | next {w : World} {c c' : σ} {pairs : List (Val × Val)} {k v : Val} {t : LuaTable}
      (h : Loop iter start storeOk nextOk w₀ i t₀ w c pairs) (ht : w.tables[i]? = some t)
      (hok : nextOk t₀ (w.state t) (lastKey pairs)) (hn : iter (w.state t) c = some (some (c', k, v))) :
      Loop iter start storeOk nextOk w₀ i t₀ w c' (pairs ++ [(k, v)])

variable {storeOk : TabState → RawWrite → Prop} {nextOk : LuaTable → TabState → Val → Prop}
  {w₀ w w' : World} {i a c c' r p : ℕ} {t₀ t : LuaTable} {s₀ s s' : TabState} {sh : Shape} {k v cur : Val}
  {pairs : List (Val × Val)} {pos : ℤ}

/-! ## Positions -/

/-- The position of the cursor of a traversal. -/
def posOf (a c : ℕ) : ℤ := if c ≤ a then c else -1 - ((c : ℤ) - a)

theorem posOf_hash (a p : ℕ) : posOf a (a + p + 1) = -2 - (p : ℤ) := by
  unfold posOf
  rw [if_neg (by omega)]
  omega

/-- What `$next_step` gives for what `next` gives. -/
def StepGives (a : ℕ) (sh : Shape) (s : TabState) (c : ℕ) : ℤ × Val × Val → Prop
  | (pos, k, v) =>
    (k = .nil ∧ ∀ r, c ≤ r → ¬ PlaceLive a sh s r) ∨
      ∃ r, c ≤ r ∧ PlaceLive a sh s r ∧ k = placeKey a sh r ∧ v = placeValue a s r ∧ pos = posOf a (r + 1) ∧
        ∀ q, c ≤ q → q < r → ¬ PlaceLive a sh s q

theorem StepGives.earlier {o : ℤ × Val × Val} (h : StepGives a sh s c o) (hc : c' ≤ c)
    (hdead : ∀ r, c' ≤ r → r < c → ¬ PlaceLive a sh s r) : StepGives a sh s c' o := by
  have hrest : ∀ n, (∀ q, c ≤ q → q < n → ¬ PlaceLive a sh s q) → ∀ q, c' ≤ q → q < n →
      ¬ PlaceLive a sh s q := by
    intro n hskip q hq hlt
    by_cases hcq : c ≤ q
    · exact hskip q hcq hlt
    · exact hdead q hq (by omega)
  obtain ⟨hk, hend⟩ | ⟨r, hr, hlive, hk, hv, hpos, hskip⟩ := h
  · exact Or.inl ⟨hk, fun r hr => hrest (r + 1) (fun q hq _ => hend q hq) r hr (by omega)⟩
  · exact Or.inr ⟨r, by omega, hlive, hk, hv, hpos, hrest r hskip⟩

theorem nextStepHash_spec (hok : HashOk s sh none) (a j : ℕ) :
    ∃ o, nextStepHash s j = some o ∧ StepGives a sh s (a + j) o := by
  obtain ⟨o, ho, hscan⟩ := scanSlots_vals hok j
  unfold nextStepHash
  simp only [hok.shape, ho, Option.bind_eq_bind, Option.bind_some]
  cases o with
  | none => exact ⟨_, rfl, Or.inl ⟨rfl, hscan.hash_none a⟩⟩
  | some p =>
    have hp := hscan.1
    obtain ⟨hn, hlive, hskip⟩ := hscan.hash a
    dsimp only
    rw [hashEntry_eq hok hn]
    exact ⟨(-2 - (p : ℤ), sh.key p, s.t.value p), rfl, Or.inr ⟨a + p, by omega, hlive, placeKey_hash.symm,
      placeValue_hash.symm, (posOf_hash a p).symm, hskip⟩⟩

/-- `$next_step` gives the first live place from the cursor on. -/
theorem nextStep_spec (hok : HashOk s sh none) (arr : ArrOk s.t none) (ha : s.t.alen ≤ a) (h30 : a < 2^30) :
    ∃ o, nextStep s (posOf a c) = some o ∧ StepGives a sh s c o := by
  have hroom := arr.room
  unfold nextStep
  by_cases hc : c ≤ a
  · have hpos : posOf a c = c := by
      unfold posOf
      rw [if_pos hc]
    rw [hpos, if_pos (by omega), Int.toNat_natCast]
    obtain ⟨o, ho, hscan⟩ := scanSlots_arr arr c
    simp only [ho, Option.bind_eq_bind, Option.bind_some]
    cases o with
    | none =>
      obtain ⟨o, hhash, hgives⟩ := nextStepHash_spec hok a 0
      exact ⟨o, hhash, hgives.earlier (by omega) fun r hr hlt => hscan.arr_none sh r hr hlt⟩
    | some p =>
      have hp := hscan.1
      obtain ⟨hlt, hlive, hskip⟩ := hscan.arr sh ha
      obtain ⟨l, hl, -, hget⟩ := getElem?_arr (show p < lengthOf s.t.arr by omega)
      have hpa : p < a := by omega
      refine ⟨((p : ℤ) + 1, refI31 ((p : ℤ) + 1), s.t.arrValue p), ?_, Or.inr ⟨p, hp, hlive, ?_, ?_, ?_, hskip⟩⟩
      · simp only [hl, hget, arr.tval_eq hlt, Option.bind_some]
      · unfold placeKey
        rw [if_pos hpa]
        exact_mod_cast refI31_of_lt (show p + 1 < 2^30 by omega)
      · unfold placeValue
        rw [if_pos hpa]
      · unfold posOf
        rw [if_pos (by omega)]
        rfl
  · have hpos : posOf a c = -1 - ((c : ℤ) - a) := by
      unfold posOf
      rw [if_neg hc]
    rw [hpos, if_neg (by omega), show (-1 - (-1 - ((c : ℤ) - a))).toNat = c - a by omega]
    obtain ⟨o, ho, hgives⟩ := nextStepHash_spec hok a (c - a)
    rw [show a + (c - a) = c by omega] at hgives
    exact ⟨o, ho, hgives⟩

/-! ## The two loops -/

/-- What both iterators give from the same cursor. -/
theorem Going.agree {visited : List Val} (h : Going s₀ s sh cur visited) (hstart : Starts s₀ sh)
    (hcur : Cursor s₀.t.alen sh cur c) (hresume : ResumeOk s₀.t s cur) (h30 : s₀.t.alen < 2^30) :
    (byKey s cur = some none ∧ byPosition s (posOf s₀.t.alen c) = some none) ∨
      ∃ r k v, byKey s cur = some (some (k, k, v)) ∧
        byPosition s (posOf s₀.t.alen c) = some (some (posOf s₀.t.alen (r + 1), k, v)) ∧
        Cursor s₀.t.alen sh k (r + 1) := by
  have hshape := h.narrowed.shape sh hstart.hash.shape
  obtain ⟨sh', hash⟩ := h.ok.hash
  obtain rfl : sh' = sh := by
    have h' := hash.shape
    rw [hshape] at h'
    exact (Option.some.inj h').symm
  obtain ⟨o, ho, hfirst⟩ := h.tabNext hstart hcur hresume
  obtain ⟨⟨pos, k', v'⟩, hstep, hgives⟩ := nextStep_spec (c := c) hash h.ok.arr h.narrowed.alen h30
  unfold byKey byPosition
  rw [ho, hstep]
  obtain - | ⟨k, v⟩ := o
  · left
    obtain ⟨rfl, -⟩ | ⟨r, hr, hlive, -⟩ := hgives
    · exact ⟨rfl, rfl⟩
    · exact absurd hlive (hfirst r hr)
  · right
    obtain ⟨r, hr, hlive, rfl, rfl, hskip⟩ := hfirst
    obtain ⟨-, hend⟩ | ⟨q, hq, hqlive, rfl, rfl, rfl, hqskip⟩ := hgives
    · exact absurd hlive (hend r hr)
    -- both find the first live place
    obtain rfl : q = r := by
      obtain hlt | heq | hgt := Nat.lt_trichotomy q r
      · exact absurd hqlive (hskip q hq hlt)
      · exact heq
      · exact absurd hlive (hqskip r hr hgt)
    have hcursor := hstart.cursor_next (h.narrowed.live hstart.hash.shape hlive)
    have hne : placeKey s₀.t.alen sh' q ≠ .nil := by
      intro hnil
      obtain ⟨key, hc, -⟩ := hstart.canon_placeKey (h.narrowed.live hstart.hash.shape hlive)
      rw [hnil] at hc
      cases hc
    refine ⟨q, placeKey s₀.t.alen sh' q, placeValue s₀.t.alen s q, rfl, ?_, hcursor⟩
    rw [Option.map_some]
    dsimp only
    rw [if_neg hne]

theorem lastKey_append (pairs : List (Val × Val)) (k v : Val) : lastKey (pairs ++ [(k, v)]) = k := by
  unfold lastKey
  rw [List.map_append, List.map_singleton, List.getLastD_concat]

/-- A loop that calls `next` is a traversal. -/
theorem Loop.traversal (h : Loop byKey .nil storeOk nextOk w₀ i t₀ w cur pairs) :
    cur = lastKey pairs ∧ Traversal storeOk nextOk w₀ i t₀ w cur (pairs.map Prod.fst) := by
  induction h with
  | start => exact ⟨rfl, Traversal.start⟩
  | store _ ht hkey hlive hok hs hr ih => exact ⟨ih.1, ih.2.store ht hkey hlive hok hs hr⟩
  | other _ hl hne hs hr ih => exact ⟨ih.1, ih.2.other hl hne hs hr⟩
  | @next w c c' pairs k v t _ ht hok hn ih =>
    obtain ⟨hc, htraversal⟩ := ih
    have hnext : tabNext (w.state t) c = .ok (some (k, v)) ∧ c' = k := by
      unfold byKey at hn
      split at hn
      · cases hn
      · cases hn
      · rename_i heq
        cases hn
        exact ⟨heq, rfl⟩
    obtain ⟨hnext, rfl⟩ := hnext
    rw [← hc] at hok
    rw [lastKey_append, List.map_append, List.map_singleton]
    exact ⟨rfl, htraversal.next ht hok hnext⟩

/-- The conditions of `nextStep_eq_next` on the start of a loop. -/
structure LoopStart (w₀ : World) (i : ℕ) (t₀ : LuaTable) (sh : Shape) : Prop where
  /-- The world is one that a program can reach. -/
  reachable : w₀.Reachable
  /-- The table is there. -/
  table : w₀.tables[i]? = some t₀
  /-- It is in order and apart. -/
  starts : Starts (w₀.state t₀) sh
  /-- Its array part is not too long for the keys of `$next_step`. -/
  short : t₀.alen < 2^30

/-- The loop that calls `next` is under way. -/
theorem LoopStart.going (h : LoopStart w₀ i t₀ sh)
    (hloop : Loop byKey .nil (fun s op => op.StaysPut s) ResumeOk w₀ i t₀ w cur pairs)
    (ht : w.tables[i]? = some t) : Going (w₀.state t₀) (w.state t) sh cur (pairs.map Prod.fst) := by
  obtain ⟨t', ht', hgoing⟩ := (hloop.traversal.2.tracks h.starts h.reachable h.table).going
  rw [ht] at ht'
  cases ht'
  exact hgoing

/-- What a loop by position does, the loop by key does. -/
theorem LoopStart.byKey_of_byPosition (h : LoopStart w₀ i t₀ sh)
    (hloop : Loop byPosition 0 (fun s op => op.StaysPut s) ResumeOk w₀ i t₀ w pos pairs) :
    Loop byKey .nil (fun s op => op.StaysPut s) ResumeOk w₀ i t₀ w (lastKey pairs) pairs ∧
      ∃ c, pos = posOf t₀.alen c ∧ Cursor t₀.alen sh (lastKey pairs) c := by
  induction hloop with
  | start =>
    refine ⟨Loop.start, 0, ?_, Cursor.start⟩
    unfold posOf
    rw [if_pos (Nat.zero_le _)]
    rfl
  | store _ ht hkey hlive hok hs hr ih => exact ⟨ih.1.store ht hkey hlive hok hs hr, ih.2⟩
  | other _ hl hne hs hr ih => exact ⟨ih.1.other hl hne hs hr, ih.2⟩
  | @next w pos pos' pairs k v t _ ht hok hn ih =>
    obtain ⟨hkey, c, rfl, hcur⟩ := ih
    obtain ⟨-, hend⟩ | ⟨r, k', v', hbyKey, hbyPos, hcursor⟩ :=
      (h.going hkey ht).agree h.starts hcur hok h.short
    · change byPosition (w.state t) (posOf t₀.alen c) = some none at hend
      rw [hend] at hn
      cases hn
    · change byPosition (w.state t) (posOf t₀.alen c) = _ at hbyPos
      rw [hbyPos] at hn
      cases hn
      rw [lastKey_append]
      exact ⟨hkey.next ht hok hbyKey, r + 1, rfl, hcursor⟩

/-- What a loop by key does, the loop by position does. -/
theorem LoopStart.byPosition_of_byKey (h : LoopStart w₀ i t₀ sh)
    (hloop : Loop byKey .nil (fun s op => op.StaysPut s) ResumeOk w₀ i t₀ w cur pairs) :
    ∃ c, Loop byPosition 0 (fun s op => op.StaysPut s) ResumeOk w₀ i t₀ w (posOf t₀.alen c) pairs ∧
      Cursor t₀.alen sh cur c := by
  induction hloop with
  | start =>
    refine ⟨0, ?_, Cursor.start⟩
    have hpos : posOf t₀.alen 0 = 0 := by
      unfold posOf
      rw [if_pos (Nat.zero_le _)]
      rfl
    rw [hpos]
    exact Loop.start
  | store _ ht hkey hlive hok hs hr ih =>
    obtain ⟨c, hpos, hcur⟩ := ih
    exact ⟨c, hpos.store ht hkey hlive hok hs hr, hcur⟩
  | other _ hl hne hs hr ih =>
    obtain ⟨c, hpos, hcur⟩ := ih
    exact ⟨c, hpos.other hl hne hs hr, hcur⟩
  | @next w cur cur' pairs k v t hkey ht hok hn ih =>
    obtain ⟨c, hpos, hcur⟩ := ih
    have hlast := hkey.traversal.1
    have hok' := hok
    rw [← hlast] at hok'
    obtain ⟨hend, -⟩ | ⟨r, k', v', hbyKey, hbyPos, hcursor⟩ :=
      (h.going hkey ht).agree h.starts hcur hok' h.short
    · rw [hend] at hn
      cases hn
    · rw [hbyKey] at hn
      cases hn
      exact ⟨r + 1, hpos.next ht hok hbyPos, hcursor⟩

/-- The pair that an iterator gives. -/
def pairOf {σ : Type} (o : Option (Option (σ × Val × Val))) : Option (Option (Val × Val)) :=
  o.map fun o => o.map Prod.snd

/-- The loop over `pairs` by position and the loop that calls `next` give the same pairs in the same
order, whatever the body stores to keys that have a value, and they end together. -/
theorem nextStep_eq_next (w₀ : World) (i : ℕ) (t₀ : LuaTable) (h₀ : w₀.Reachable)
    (ht₀ : w₀.tables[i]? = some t₀)
    (hapart : ∀ j : Int64, inArr t₀ j = true → tabGetHash (w₀.state t₀) (.int j) = some .nil)
    (h30 : t₀.alen < 2^30) (w : World) (pairs : List (Val × Val)) :
    ((∃ pos, Loop byPosition 0 (fun s op => op.StaysPut s) ResumeOk w₀ i t₀ w pos pairs) ↔
      ∃ k, Loop byKey .nil (fun s op => op.StaysPut s) ResumeOk w₀ i t₀ w k pairs) ∧
    ∀ pos k t, Loop byPosition 0 (fun s op => op.StaysPut s) ResumeOk w₀ i t₀ w pos pairs →
      Loop byKey .nil (fun s op => op.StaysPut s) ResumeOk w₀ i t₀ w k pairs →
      w.tables[i]? = some t → ResumeOk t₀ (w.state t) k →
      pairOf (byPosition (w.state t) pos) = pairOf (byKey (w.state t) k) ∧
        (byKey (w.state t) k).isSome = true := by
  have hok := h₀.ok.tables t₀ (List.mem_of_getElem? ht₀)
  obtain ⟨sh, hash⟩ := hok.hash
  have hstart : LoopStart w₀ i t₀ sh := by
    refine ⟨h₀, ht₀, ⟨hash, hok.arr, fun j hj => ?_⟩, h30⟩
    have hget := hapart j hj
    rw [tabGetHash_spec hash, canon_int, Option.map_some, Option.getD_some] at hget
    exact Option.some.inj hget
  refine ⟨⟨?_, ?_⟩, ?_⟩
  · rintro ⟨pos, hpos⟩
    exact ⟨_, (hstart.byKey_of_byPosition hpos).1⟩
  · rintro ⟨k, hkey⟩
    obtain ⟨c, hpos, -⟩ := hstart.byPosition_of_byKey hkey
    exact ⟨_, hpos⟩
  · intro pos k t hpos hkey ht hresume
    obtain ⟨-, c, rfl, hcur⟩ := hstart.byKey_of_byPosition hpos
    rw [← hkey.traversal.1] at hcur
    obtain ⟨hk, hp⟩ | ⟨r, k', v', hk, hp, -⟩ :=
      (hstart.going hkey ht).agree hstart.starts hcur hresume h30
    · change byPosition (w.state t) (posOf t₀.alen c) = _ at hp
      rw [hk, hp]
      exact ⟨rfl, rfl⟩
    · change byPosition (w.state t) (posOf t₀.alen c) = _ at hp
      rw [hk, hp]
      exact ⟨rfl, rfl⟩

/-- A loop over both parts of a table, which removes a key after its turn. -/
theorem nextStep_eq_next_mixed :
    ∃ pos, Loop byPosition 0 (fun s op => op.StaysPut s) ResumeOk mixed 0 mixedTable mixedTrimmed pos
      [(.int 1, .int 6), (.int 2, .int 5), (.int 4, .int 9)] := by
  have hone : Loop byKey .nil (fun s op => op.StaysPut s) ResumeOk mixed 0 mixedTable mixed (.int 1)
      ([] ++ [(.int 1, .int 6)]) := Loop.start.next mixedTable_eq mixed_resumeOk_nil (by decide)
  have htwo : Loop byKey .nil (fun s op => op.StaysPut s) ResumeOk mixed 0 mixedTable mixed (.int 2)
      (_ ++ [(.int 2, .int 5)]) := hone.next mixedTable_eq mixed_resumeOk_one (by decide)
  have hlive : Live (mixed.state mixedTable) (.int 2) := ⟨.int 5, by decide, nofun⟩
  have hclear := htwo.store mixedTable_eq rfl hlive (fun _ h => absurd h (by decide)) mixedTrimmed_eq nofun
  have hfour : Loop byKey .nil (fun s op => op.StaysPut s) ResumeOk mixed 0 mixedTable mixedTrimmed (.int 4)
      (_ ++ [(.int 4, .int 9)]) := hclear.next rfl mixed_resumeOk_two (by decide)
  exact (nextStep_eq_next mixed 0 mixedTable mixed_reachable mixedTable_eq mixed_apart (by decide) _ _).1.mpr
    ⟨_, hfour⟩

/-! ## Loops that differ -/

/-- Set each key to nil that the iterator gives, `n` times. -/
def World.clearLoop {σ : Type} (iter : Iter σ) (w : World) (i : ℕ) : ℕ → σ → Option (World × σ × List (Val × Val))
  | 0, c => some (w, c, [])
  | n + 1, c =>
    match w.tables[i]? with
    | none => none
    | some t =>
      match iter (w.state t) c with
      | some (some (c', k, v)) =>
        if tabGetRaw (w.state t) k = some v ∧ v ≠ .nil then
          match w.step (.write i (.set k .nil)) with
          | some (.ok (), w') => (w'.clearLoop iter i n c').map fun p => (p.1, p.2.1, (k, v) :: p.2.2)
          | _ => none
        else none
      | _ => none

theorem Loop.clear {σ : Type} {iter : Iter σ} {start : σ} (hstore : ∀ s op, storeOk s op)
    (hnext : ∀ t s k, nextOk t s k) : ∀ {n : ℕ} {w w' : World} {c c' : σ} {pairs more : List (Val × Val)},
      Loop iter start storeOk nextOk w₀ i t₀ w c pairs → w.clearLoop iter i n c = some (w', c', more) →
      Loop iter start storeOk nextOk w₀ i t₀ w' c' (pairs ++ more) := by
  intro n
  induction n with
  | zero =>
    intro w w' c c' pairs more h hrun
    cases hrun
    rw [List.append_nil]
    exact h
  | succ n ih =>
    intro w w' c c' pairs more h hrun
    unfold World.clearLoop at hrun
    split at hrun
    · cases hrun
    rename_i t ht
    split at hrun
    · rename_i c₁ k v hn
      split at hrun
      · rename_i hget
        split at hrun
        · rename_i w₁ hs
          obtain ⟨⟨w₂, c₂, more'⟩, hrest, heq⟩ := Option.map_eq_some_iff.mp hrun
          cases heq
          have hvisit := h.next ht (hnext _ _ _) hn
          have hkey : (RawWrite.set k .nil).key = some k := rfl
          have hclear := hvisit.store ht hkey ⟨v, hget.1, hget.2⟩ (hstore _ _) hs (by simp)
          have hend := ih hclear hrest
          rw [List.append_assoc] at hend
          exact hend
        · cases hrun
      · cases hrun
    · cases hrun

/-- The table `absorbed`, and what is left of it when it is gone through by position and each key that
comes is cleared, five times. -/
def absorbedLoop : Option (World × World × ℤ × List (Val × Val)) :=
  match oneTable.writes 0 absorbed with
  | none => none
  | some (w₀, _) => (w₀.clearLoop byPosition 0 5 0).map fun p => (w₀, p)

theorem nextStep_eq_next_fails :
    ¬ ∀ (w₀ : World) (i : ℕ) (t₀ : LuaTable), w₀.Reachable → w₀.tables[i]? = some t₀ →
      ∀ (w : World) (pairs : List (Val × Val)),
        ((∃ pos, Loop byPosition 0 (fun _ _ => True) (fun _ _ _ => True) w₀ i t₀ w pos pairs) ↔
          ∃ k, Loop byKey .nil (fun _ _ => True) (fun _ _ _ => True) w₀ i t₀ w k pairs) ∧
        ∀ pos k t, Loop byPosition 0 (fun _ _ => True) (fun _ _ _ => True) w₀ i t₀ w pos pairs →
          Loop byKey .nil (fun _ _ => True) (fun _ _ _ => True) w₀ i t₀ w k pairs → w.tables[i]? = some t →
          pairOf (byPosition (w.state t) pos) = pairOf (byKey (w.state t) k) := by
  intro h
  -- after the five keys of the array part, the position leads to `t.a`, and the key 5 to the end
  have heval : absorbedLoop.map (fun p => (lastKey p.2.2.2,
      p.2.1.tables[0]?.map fun t =>
        decide (pairOf (byPosition (p.2.1.state t) p.2.2.1) = some (some (.str 0 [97], .int 7)) ∧
          pairOf (byKey (p.2.1.state t) (.int 5)) = some none))) =
      some (.int 5, some true) := by
    decide +kernel
  obtain ⟨⟨w₀, w, pos, pairs⟩, hrun, heq⟩ := Option.map_eq_some_iff.mp heval
  obtain ⟨hlast, hend⟩ := Prod.mk.inj heq
  unfold absorbedLoop at hrun
  split at hrun
  · cases hrun
  rename_i w₀' hist hwrites
  obtain ⟨p, hclear, heq'⟩ := Option.map_eq_some_iff.mp hrun
  cases heq'
  have htable : TableRun (fun _ _ => True) oneTable 0 [] := TableRun.fresh World.Reachable.init
  have hreach := (htable.writes (fun _ _ => trivial) hwrites).reachable
  obtain ⟨t₀, ht₀⟩ : ∃ t₀, w₀.tables[0]? = some t₀ := by
    cases ht₀ : w₀.tables[0]? with
    | some t₀ => exact ⟨t₀, rfl⟩
    | none =>
      unfold World.clearLoop at hclear
      rw [ht₀] at hclear
      cases hclear
  have hpos : Loop byPosition 0 (fun _ _ => True) (fun _ _ _ => True) w₀ 0 t₀ w pos ([] ++ pairs) :=
    Loop.clear (fun _ _ => trivial) (fun _ _ _ => trivial) Loop.start hclear
  rw [List.nil_append] at hpos
  obtain ⟨hiff, hsame⟩ := h w₀ 0 t₀ hreach ht₀ w pairs
  obtain ⟨k, hkey⟩ := hiff.mp ⟨pos, hpos⟩
  obtain rfl : k = .int 5 := hkey.traversal.1.trans hlast
  cases ht : w.tables[0]? with
  | none =>
    change w.tables[0]?.map _ = _ at hend
    rw [ht] at hend
    cases hend
  | some t =>
    change w.tables[0]?.map _ = _ at hend
    rw [ht, Option.map_some] at hend
    obtain ⟨hbyPos, hbyKey⟩ := of_decide_eq_true (Option.some.inj hend)
    have heq := hsame pos (.int 5) t hpos hkey ht
    rw [show pairOf (byPosition (w.state t) pos) = _ from hbyPos,
      show pairOf (byKey (w.state t) (.int 5)) = _ from hbyKey] at heq
    cases heq

end Lua2wasm.Table
