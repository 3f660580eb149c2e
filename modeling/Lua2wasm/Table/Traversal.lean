import Lua2wasm.Lib.Sweep
import Lua2wasm.Table.Narrow
import Lua2wasm.Table.Runs

/-!
# Traversals with `next`

A traversal of a table calls `next` with nil, and then with each key that it got. Between the calls
the program may store to keys that have a value, and do what it likes to other tables (`Traversal`).

`next_traverses` is the guarantee: in a table that has no key in both parts, if no store appends to the
array part (`RawWrite.StaysPut`) and `next` can always go on (`ResumeOk`), each call returns, and the
traversal sweeps over the places of the table (`Sweep.Swept`). No key comes twice, each had a value at
the start and has one when it comes, and at the end every key that still has a value has come.

Without the condition on where to go on, a key is lost (`next_traverses_fails`): the hash part keeps an
entry for a key that was moved to the array part, and when all of the array part was cleared, `next`
goes on after that entry.
-/

namespace Lua2wasm.Table

open Sweep

/-- The key has a value. -/
def Live (s : TabState) (k : Val) : Prop := ∃ v, tabGetRaw s k = some v ∧ v ≠ .nil

/-- A traversal of the table `i` that started in the world `w₀`, where the table was `t₀`: the world, the
key to go on from, and the keys so far. Each store meets `storeOk`, and each call of `next` meets
`nextOk`. -/
inductive Traversal (storeOk : TabState → RawWrite → Prop) (nextOk : LuaTable → TabState → Val → Prop)
    (w₀ : World) (i : ℕ) (t₀ : LuaTable) : World → Val → List Val → Prop
  /-- The start. -/
  | start : Traversal storeOk nextOk w₀ i t₀ w₀ .nil []
  /-- A store to a key that has a value. -/
  | store {w w' : World} {cur k : Val} {visited : List Val} {t : LuaTable} {op : RawWrite}
      {r : Except Fault Unit} (h : Traversal storeOk nextOk w₀ i t₀ w cur visited)
      (ht : w.tables[i]? = some t) (hkey : op.key = some k) (hlive : Live (w.state t) k)
      (hok : storeOk (w.state t) op) (hs : w.step (.write i op) = some (r, w')) (hr : r ≠ .error .stuck) :
      Traversal storeOk nextOk w₀ i t₀ w' cur visited
  /-- A step that does not change the table. -/
  | other {w w' : World} {cur : Val} {visited : List Val} {op : WorldOp} {r : Except Fault Unit}
      (h : Traversal storeOk nextOk w₀ i t₀ w cur visited) (hl : op.Legal w) (hne : op.target ≠ some i)
      (hs : w.step op = some (r, w')) (hr : r ≠ .error .stuck) :
      Traversal storeOk nextOk w₀ i t₀ w' cur visited
  /-- A call of `next` that gives a key. -/
  | next {w : World} {cur k v : Val} {visited : List Val} {t : LuaTable}
      (h : Traversal storeOk nextOk w₀ i t₀ w cur visited) (ht : w.tables[i]? = some t)
      (hok : nextOk t₀ (w.state t) cur) (hn : tabNext (w.state t) cur = .ok (some (k, v))) :
      Traversal storeOk nextOk w₀ i t₀ w k (visited ++ [k])

/-- The number of places of a table. -/
def slotCount (s : TabState) : ℕ := s.t.alen + (s.shape.map Shape.n).getD 0

/-- What `next` may give after the keys so far: a key that has a value, with the value, or nothing if
all keys that have a value have come. -/
def NextGives (s : TabState) (visited : List Val) : Option (Val × Val) → Prop
  | some (k, v) => tabGetRaw s k = some v ∧ v ≠ .nil
  | none => ∀ k, Live s k → ∃ k' ∈ visited, canon k' = canon k

/-- What is known in the state `s` of a traversal that started in `s₀`. -/
structure Traverses (nextOk : LuaTable → TabState → Val → Prop) (s₀ s : TabState) (cur : Val)
    (visited : List Val) : Prop where
  /-- No key came twice. -/
  once : (visited.map canon).Nodup
  /-- Each had a value at the start. -/
  live : ∀ k ∈ visited, Live s₀ k
  /-- There are no more keys than places, so that the traversal ends. -/
  bound : visited.length ≤ slotCount s₀
  /-- The next call returns. -/
  next : nextOk s₀.t s cur → ∃ o, tabNext s cur = .ok o ∧ NextGives s visited o

variable {storeOk : TabState → RawWrite → Prop} {nextOk : LuaTable → TabState → Val → Prop}
  {w₀ w w' : World} {i a c r q : ℕ} {t₀ t : LuaTable} {s₀ s s' : TabState} {sh : Shape} {key : Key}
  {cur k v : Val} {visited : List Val}

/-! ## Places and keys -/

theorem live_iff (hok : TabOk s none) : Live s k ↔ ∃ key, canon k = some key ∧ s.tget key ≠ .nil := by
  unfold Live
  rw [tabGetRaw_spec hok]
  cases hc : canon k with
  | none => simp
  | some key => simp

/-- The start of a traversal: the table is in order and apart. -/
structure Starts (s₀ : TabState) (sh : Shape) : Prop where
  /-- The hash part is in order. -/
  hash : HashOk s₀ sh none
  /-- The array part is in order. -/
  arr : ArrOk s₀.t none
  /-- No key of the array part has a value in the hash part. -/
  apart : Apart s₀

theorem Starts.ok (h : Starts s₀ sh) : TabOk s₀ none := ⟨⟨sh, h.hash⟩, h.arr⟩

/-- The key of a live place. -/
theorem Starts.canon_placeKey (h : Starts s₀ sh) (hr : PlaceLive s₀.t.alen sh s₀ r) :
    ∃ key, canon (placeKey s₀.t.alen sh r) = some key ∧
      ((r < s₀.t.alen ∧ key = arrKey r) ∨
        ∃ p, r = s₀.t.alen + p ∧ sh.pos key = some p ∧ ∀ j < s₀.t.alen, key ≠ arrKey j) := by
  have hsmall := h.arr.small
  obtain hlt | ⟨p, rfl⟩ := place_cases s₀.t.alen r
  · refine ⟨arrKey r, ?_, Or.inl ⟨hlt, rfl⟩⟩
    unfold placeKey
    rw [if_pos hlt]
    rfl
  · rw [placeLive_hash] at hr
    obtain ⟨key, hc⟩ := Option.ne_none_iff_exists'.mp
      (canon_ne_none_of_normal (h.hash.wf.normal p hr.1))
    have hp := h.hash.wf.pos_of_canon hr.1 hc
    refine ⟨key, by rw [placeKey_hash, hc], Or.inr ⟨p, rfl, hp, fun j hj heq => hr.2 ?_⟩⟩
    -- a key of the array part has no value in the hash part
    rw [← hget_of_pos h.hash.shape hp, heq]
    exact h.apart _ ((inArr_ofInt (by omega)).mpr hj)

/-- Different live places have different keys. -/
theorem Starts.placeKey_inj (h : Starts s₀ sh) (hr : PlaceLive s₀.t.alen sh s₀ r)
    (hq : PlaceLive s₀.t.alen sh s₀ q)
    (heq : canon (placeKey s₀.t.alen sh r) = canon (placeKey s₀.t.alen sh q)) : r = q := by
  have hsmall := h.arr.small
  obtain ⟨key, hkey, hwhere⟩ := h.canon_placeKey hr
  obtain ⟨key', hkey', hwhere'⟩ := h.canon_placeKey hq
  obtain rfl : key = key' := by
    rw [hkey, hkey'] at heq
    exact Option.some.inj heq
  obtain ⟨hlt, hr⟩ | ⟨p, rfl, hp, hne⟩ := hwhere
  · obtain ⟨hlt', hq⟩ | ⟨p', -, -, hne'⟩ := hwhere'
    · exact arrKey_inj (by omega) (by omega) (hr.symm.trans hq)
    · exact absurd hr (hne' r hlt)
  · obtain ⟨hlt', hq⟩ | ⟨p', rfl, hp', -⟩ := hwhere'
    · exact absurd hq (hne q hlt')
    · rw [hp] at hp'
      rw [Option.some.inj hp']

theorem Starts.cursor_next (h : Starts s₀ sh) (hr : PlaceLive s₀.t.alen sh s₀ r) :
    Cursor s₀.t.alen sh (placeKey s₀.t.alen sh r) (r + 1) := by
  have hsmall := h.arr.small
  obtain hlt | ⟨p, rfl⟩ := place_cases s₀.t.alen r
  · unfold placeKey
    rw [if_pos hlt]
    exact Cursor.arr hlt
  · rw [placeKey_hash]
    obtain ⟨key, hc, ⟨hlt, -⟩ | ⟨p', hp', -, hne⟩⟩ := h.canon_placeKey hr
    · omega
    rw [placeLive_hash] at hr
    rw [placeKey_hash] at hc
    refine Cursor.hash hr.1 fun j hj hpos => ?_
    by_contra hle
    apply hne (arrIndex j)
    · unfold arrIndex
      omega
    · rw [canon_of_asArrKey hj] at hc
      rw [← Option.some.inj hc]
      unfold arrKey
      rw [← ofInt_toInt_succ (by unfold arrIndex; omega) (show j.toInt = (arrIndex j : ℤ) + 1 by
        unfold arrIndex; omega)]

/-- A key that has a value has a live place. -/
theorem exists_place (hash : HashOk s sh none) (arr : ArrOk s.t none) (ha : s.t.alen ≤ a)
    (hlive : s.tget key ≠ .nil) : ∃ r, PlaceLive a sh s r ∧ canon (placeKey a sh r) = some key := by
  obtain ⟨r, hr, hkey, hget⟩ | ⟨-, hget⟩ := tget_cases arr.small key
  · rw [hget] at hlive
    refine ⟨r, (placeLive_arr (by omega)).mpr ⟨hr, hlive⟩, ?_⟩
    unfold placeKey
    rw [if_pos (by omega), hkey]
    rfl
  · rw [hget] at hlive
    obtain ⟨p, hp, hvalue⟩ := pos_of_hget hash.shape hlive
    refine ⟨a + p, placeLive_hash.mpr ⟨Shape.pos_lt hp, hvalue⟩, ?_⟩
    rw [placeKey_hash]
    exact Shape.canon_key_of_pos hp

/-- The key of a live place reads the value at the place. -/
theorem Starts.get_placeKey (h : Starts s₀ sh) (hn : Narrowed s₀ s) (hok : TabOk s none)
    (hr : PlaceLive s₀.t.alen sh s r) :
    tabGetRaw s (placeKey s₀.t.alen sh r) = some (placeValue s₀.t.alen s r) ∧
      placeValue s₀.t.alen s r ≠ .nil := by
  have hsmall := hok.arr.small
  obtain ⟨key, hc, hwhere⟩ := h.canon_placeKey (hn.live h.hash.shape hr)
  rw [tabGetRaw_spec hok, hc, Option.map_some, Option.getD_some]
  obtain ⟨hlt, rfl⟩ | ⟨p, rfl, hp, hne⟩ := hwhere
  · rw [placeLive_arr hlt] at hr
    unfold placeValue
    rw [if_pos hlt, tget_arrKey_of_lt hr.1 (by omega)]
    exact ⟨rfl, hr.2⟩
  · rw [placeLive_hash] at hr
    rw [placeValue_hash]
    obtain ⟨j, hj, hkey, -⟩ | ⟨-, hget⟩ := tget_cases hsmall key
    · exact absurd hkey (hne j (Nat.lt_of_lt_of_le hj hn.alen))
    · rw [hget, hget_of_pos (hn.shape sh h.hash.shape) hp]
      exact ⟨rfl, hr.2⟩

/-! ## The invariant -/

/-- The traversal has swept over the places before the cursor. -/
structure Going (s₀ s : TabState) (sh : Shape) (cur : Val) (visited : List Val) : Prop where
  /-- The layout is that of the start. -/
  narrowed : Narrowed s₀ s
  /-- The table is in order. -/
  ok : TabOk s none
  /-- The sweep. -/
  swept : ∃ c seen, Swept (PlaceLive s₀.t.alen sh s₀) (PlaceLive s₀.t.alen sh s) c seen ∧
    Cursor s₀.t.alen sh cur c ∧ visited = seen.map (placeKey s₀.t.alen sh)

theorem Going.start (h : Starts s₀ sh) : Going s₀ s₀ sh .nil [] where
  narrowed := Narrowed.refl
  ok := h.ok
  swept := ⟨0, [], swept_start, Cursor.start, rfl⟩

/-- A step that keeps the layout. -/
theorem Going.narrow (h : Going s₀ s sh cur visited) (hs : s₀.shape = some sh) (hn : Narrowed s s')
    (hok : TabOk s' none) : Going s₀ s' sh cur visited where
  narrowed := h.narrowed.trans hn
  ok := hok
  swept := by
    obtain ⟨c, seen, hswept, hcur, hvisited⟩ := h.swept
    exact ⟨c, seen, hswept.shrink fun r hr => hn.live (h.narrowed.shape sh hs) hr, hcur, hvisited⟩

/-- The next call gives the first live place from the cursor on. -/
theorem Going.tabNext (h : Going s₀ s sh cur visited) (hstart : Starts s₀ sh) (hcur : Cursor s₀.t.alen sh cur c)
    (hresume : ResumeOk s₀.t s cur) :
    ∃ o, tabNext s cur = .ok o ∧ FirstFrom s₀.t.alen sh s c o := by
  have hsmall := hstart.arr.small
  have hroom := hstart.arr.room
  have hshape := h.narrowed.shape sh hstart.hash.shape
  obtain ⟨sh', hash⟩ := h.ok.hash
  obtain rfl : sh' = sh := by
    have h' := hash.shape
    rw [hshape] at h'
    exact (Option.some.inj h').symm
  refine tabNext_spec hash h.ok.arr h.narrowed.alen (by rw [h.narrowed.len]; exact hroom) hcur ?_ hresume
  -- the entry that the hash part has for a key of the array part had no value at the start
  intro idx hidx p hp
  by_contra hvalue
  apply h.narrowed.hash sh' hstart.hash.shape p (Shape.pos_lt hp) hvalue
  rw [← hget_of_pos hstart.hash.shape hp]
  exact hstart.apart _ ((inArr_ofInt (by omega)).mpr hidx)

/-- A call of `next` that gives a key. -/
theorem Going.next (h : Going s₀ s sh cur visited) (hstart : Starts s₀ sh) (hresume : ResumeOk s₀.t s cur)
    (hn : Table.tabNext s cur = .ok (some (k, v))) : Going s₀ s sh k (visited ++ [k]) where
  narrowed := h.narrowed
  ok := h.ok
  swept := by
    obtain ⟨c, seen, hswept, hcur, hvisited⟩ := h.swept
    obtain ⟨o, ho, hfirst⟩ := h.tabNext hstart hcur hresume
    rw [hn] at ho
    cases ho
    obtain ⟨r, hr, hlive, rfl, -, hskip⟩ := hfirst
    refine ⟨r + 1, seen ++ [r], hswept.visit hr hlive hskip, ?_, ?_⟩
    · exact hstart.cursor_next (h.narrowed.live hstart.hash.shape hlive)
    · rw [hvisited, List.map_append, List.map_singleton]

/-- What the invariant says of the keys so far, and of the next call. -/
theorem Going.traverses (h : Going s₀ s sh cur visited) (hstart : Starts s₀ sh) :
    Traverses ResumeOk s₀ s cur visited := by
  obtain ⟨c, seen, hswept, hcur, rfl⟩ := h.swept
  constructor
  · -- the places are in order, and different places have different keys
    rw [List.map_map]
    refine List.Nodup.map_on (fun r hr q hq heq => ?_) hswept.nodup
    exact hstart.placeKey_inj (hswept.first r hr) (hswept.first q hq) heq
  · intro k hk
    obtain ⟨r, hr, rfl⟩ := List.mem_map.mp hk
    have hget := hstart.get_placeKey Narrowed.refl hstart.ok (hswept.first r hr)
    exact ⟨_, hget.1, hget.2⟩
  · rw [List.length_map]
    apply hswept.length_le
    intro r hr
    unfold slotCount
    rw [hstart.hash.shape, Option.map_some, Option.getD_some]
    obtain hlt | ⟨p, rfl⟩ := place_cases s₀.t.alen r
    · omega
    · rw [placeLive_hash] at hr
      omega
  · intro hresume
    obtain ⟨o, ho, hfirst⟩ := h.tabNext hstart hcur hresume
    refine ⟨o, ho, ?_⟩
    obtain - | ⟨k, v⟩ := o
    · -- nothing from the cursor on is live, so every live place was visited
      intro k hk
      obtain ⟨key, hc, hlive⟩ := (live_iff h.ok).mp hk
      obtain ⟨sh', hash⟩ := h.ok.hash
      have hshape := hash.shape
      rw [h.narrowed.shape sh hstart.hash.shape] at hshape
      obtain rfl := Option.some.inj hshape
      obtain ⟨r, hr, hkey⟩ := exists_place hash h.ok.arr h.narrowed.alen hlive
      exact ⟨_, List.mem_map_of_mem (hswept.complete hfirst hr), hkey.trans hc.symm⟩
    · obtain ⟨r, -, hlive, rfl, rfl, -⟩ := hfirst
      exact hstart.get_placeKey h.narrowed h.ok hlive

/-! ## Runs -/

/-- What is known of the world after each step of a traversal. -/
structure Tracks (s₀ : TabState) (sh : Shape) (i : ℕ) (w : World) (cur : Val) (visited : List Val) : Prop where
  /-- The world is one that a program can reach. -/
  reachable : w.Reachable
  /-- The table is there, and the traversal is under way. -/
  going : ∃ t, w.tables[i]? = some t ∧ Going s₀ (w.state t) sh cur visited

theorem narrowed_of_grows {shapes shapes' : List SharedShape} (hg : Grows shapes shapes') :
    Narrowed (TabState.mk shapes t) (TabState.mk shapes' t) :=
  ⟨fun _ h => shape_of_grows hg h, Nat.le_refl _, rfl, fun _ _ h => h, fun _ _ _ _ h => h⟩

theorem Tracks.store {op : RawWrite} {r : Except Fault Unit} (h : Tracks s₀ sh i w cur visited)
    (hs₀ : s₀.shape = some sh) (ht : w.tables[i]? = some t) (hkey : op.key = some k)
    (hlive : Live (w.state t) k) (hput : op.StaysPut (w.state t))
    (hs : w.step (.write i op) = some (r, w')) (hr : r ≠ .error .stuck) :
    Tracks s₀ sh i w' cur visited where
  reachable := h.reachable.step (show (WorldOp.write i op).Legal w from trivial) hs hr
  going := by
    obtain ⟨t', ht', hgoing⟩ := h.going
    rw [ht] at ht'
    cases ht'
    have hi : i < w.tables.length := (List.getElem?_eq_some_iff.mp ht).1
    have hreach' := h.reachable.step (show (WorldOp.write i op).Legal w from trivial) hs hr
    have hget : tabGetRaw (w.state t) k ≠ some .nil := by
      obtain ⟨v, hv, hne⟩ := hlive
      rw [hv]
      simpa using hne
    have hspec := RawWrite.run_narrowed hgoing.ok op hkey hget hput
    have hs' : w.onTable i op.run = some (r, w') := hs
    unfold World.onTable at hs'
    rw [ht] at hs'
    dsimp only at hs'
    generalize hres : (op.run.run (w.state t) : Except Fault Unit × TabState) = res at hs'
    obtain ⟨r', s'⟩ := res
    cases hs'
    have ht' : (w.tables.set i s'.t)[i]? = some s'.t := List.getElem?_set_self hi
    have hok' := hreach'.ok.tables s'.t (List.mem_of_getElem? ht')
    cases r with
    | ok _ => exact ⟨s'.t, ht', hgoing.narrow hs₀ (hspec.of_ok hres) hok'⟩
    | error e => exact (hspec.of_error hres).elim

theorem Tracks.other {op : WorldOp} {r : Except Fault Unit} (h : Tracks s₀ sh i w cur visited)
    (hs₀ : s₀.shape = some sh) (hl : op.Legal w) (hne : op.target ≠ some i)
    (hs : w.step op = some (r, w')) (hr : r ≠ .error .stuck) : Tracks s₀ sh i w' cur visited where
  reachable := h.reachable.step hl hs hr
  going := by
    obtain ⟨t, ht, hgoing⟩ := h.going
    have hi : i < w.tables.length := (List.getElem?_eq_some_iff.mp ht).1
    have ht' := (step_other hs hi hne).trans ht
    obtain ⟨hstuck, -⟩ | ⟨-, -, hgrows⟩ := h.reachable.ok.step hl hs
    · exact absurd hstuck hr
    have hok' := (h.reachable.step hl hs hr).ok.tables t (List.mem_of_getElem? ht')
    exact ⟨t, ht', hgoing.narrow hs₀ (narrowed_of_grows hgrows) hok'⟩

theorem Traversal.tracks (hstart : Starts (w₀.state t₀) sh) (h₀ : w₀.Reachable) (ht₀ : w₀.tables[i]? = some t₀)
    (h : Traversal (fun s op => op.StaysPut s) ResumeOk w₀ i t₀ w cur visited) :
    Tracks (w₀.state t₀) sh i w cur visited := by
  induction h with
  | start => exact ⟨h₀, t₀, ht₀, Going.start hstart⟩
  | store _ ht hkey hlive hok hs hr ih => exact ih.store hstart.hash.shape ht hkey hlive hok hs hr
  | other _ hl hne hs hr ih => exact ih.other hstart.hash.shape hl hne hs hr
  | next _ ht hok hn ih =>
    obtain ⟨t', ht', hgoing⟩ := ih.going
    rw [ht] at ht'
    cases ht'
    exact ⟨ih.reachable, _, ht, hgoing.next hstart hok hn⟩

/-- A traversal of a table that has no key in both parts, in which no store appends to the array part
and `next` can always go on, gives each key that has a value at the start and is not removed before
its turn once, and no other key, and it ends. -/
theorem next_traverses (w₀ : World) (i : ℕ) (t₀ : LuaTable) (h₀ : w₀.Reachable)
    (ht₀ : w₀.tables[i]? = some t₀)
    (hapart : ∀ j : Int64, inArr t₀ j = true → tabGetHash (w₀.state t₀) (.int j) = some .nil)
    (w : World) (cur : Val) (visited : List Val)
    (h : Traversal (fun s op => op.StaysPut s) ResumeOk w₀ i t₀ w cur visited) :
    ∃ t, w.tables[i]? = some t ∧ Traverses ResumeOk (w₀.state t₀) (w.state t) cur visited := by
  have hok := h₀.ok.tables t₀ (List.mem_of_getElem? ht₀)
  obtain ⟨sh, hash⟩ := hok.hash
  have hstart : Starts (w₀.state t₀) sh := by
    refine ⟨hash, hok.arr, fun j hj => ?_⟩
    have hget := hapart j hj
    rw [tabGetHash_spec hash, canon_int, Option.map_some, Option.getD_some] at hget
    exact Option.some.inj hget
  obtain ⟨t, ht, hgoing⟩ := (h.tracks hstart h₀ ht₀).going
  exact ⟨t, ht, hgoing.traverses hstart⟩

/-- The mixed table after its last array key is removed, which trims the array part. -/
def mixedTrimmed : World := ((mixed.step (.write 0 (.setIk 2 .nil))).getD (.ok (), mixed)).2

theorem mixed_resumeOk_nil : ResumeOk mixedTable (mixed.state mixedTable) .nil := by
  intro i sh p hkey
  cases hkey

theorem mixed_resumeOk_one : ResumeOk mixedTable (mixed.state mixedTable) (.int 1) := by
  intro i sh p hkey hin hnot
  cases hkey
  exact absurd hin hnot

/-- The hash part has no entry for the key that was trimmed off. -/
theorem mixed_resumeOk_two :
    ResumeOk mixedTable (mixedTrimmed.state (mixedTrimmed.tables.getD 0 tabNew)) (.int 2) := by
  intro i sh p hkey hin hnot hshape hfind
  have hnone : ((mixedTrimmed.state (mixedTrimmed.tables.getD 0 tabNew)).shape.bind fun sh =>
      tabFind sh (.int 2)) = some none := by decide
  rw [hshape, Option.bind_some, hfind] at hnone
  cases hnone

/-- No key of the array part is in the hash part. -/
theorem mixed_apart (j : Int64) (hj : inArr mixedTable j = true) :
    tabGetHash (mixed.state mixedTable) (.int j) = some .nil := by
  have hbounds : 1 ≤ j.toInt ∧ j.toInt ≤ 2 := inArr_iff.mp hj
  obtain h | h : j.toInt = 1 ∨ j.toInt = 2 := by omega
  · obtain rfl : j = 1 := Int64.toInt_inj.mp h
    decide
  · obtain rfl : j = 2 := Int64.toInt_inj.mp h
    decide

theorem mixedTrimmed_eq : mixed.step (.write 0 (.setIk 2 .nil)) = some (.ok (), mixedTrimmed) := rfl
/-- A traversal of both parts, which removes a key after its turn. -/
theorem next_traverses_mixed :
    ∃ t, mixedTrimmed.tables[0]? = some t ∧
      Traverses ResumeOk (mixed.state mixedTable) (mixedTrimmed.state t) (.int 4) [.int 1, .int 2, .int 4] := by
  have hone : Traversal (fun s op => op.StaysPut s) ResumeOk mixed 0 mixedTable mixed (.int 1) ([] ++ [.int 1]) :=
    Traversal.start.next (v := .int 6) mixedTable_eq mixed_resumeOk_nil (by decide)
  have htwo := hone.next (k := .int 2) (v := .int 5) mixedTable_eq mixed_resumeOk_one (by decide)
  have hlive : Live (mixed.state mixedTable) (.int 2) := ⟨.int 5, by decide, nofun⟩
  have hclear := htwo.store mixedTable_eq rfl hlive (fun _ h => absurd h (by decide)) mixedTrimmed_eq nofun
  have hfour := hclear.next (k := .int 4) (v := .int 9) rfl mixed_resumeOk_two (by decide)
  exact next_traverses mixed 0 mixedTable mixed_reachable mixedTable_eq mixed_apart _ _ _ hfour

/-! ## A traversal that loses a key -/

/-- Call `next` and set the key to nil, `n` times. -/
def World.clear (w : World) (i : ℕ) : ℕ → Val → Option (World × List Val)
  | 0, _ => some (w, [])
  | n + 1, cur =>
    match w.tables[i]? with
    | none => none
    | some t =>
      match tabNext (w.state t) cur with
      | .ok (some (k, v)) =>
        if tabGetRaw (w.state t) k = some v ∧ v ≠ .nil then
          match w.step (.write i (.set k .nil)) with
          | some (.ok (), w') => (w'.clear i n k).map fun p => (p.1, k :: p.2)
          | _ => none
        else none
      | _ => none

theorem Traversal.clear (hstore : ∀ s op, storeOk s op) (hnext : ∀ t s k, nextOk t s k) :
    ∀ {n : ℕ} {w w' : World} {cur : Val} {visited ks : List Val},
      Traversal storeOk nextOk w₀ i t₀ w cur visited → w.clear i n cur = some (w', ks) →
      Traversal storeOk nextOk w₀ i t₀ w' (ks.getLastD cur) (visited ++ ks) := by
  intro n
  induction n with
  | zero =>
    intro w w' cur visited ks h hrun
    cases hrun
    rw [List.append_nil]
    exact h
  | succ n ih =>
    intro w w' cur visited ks h hrun
    unfold World.clear at hrun
    split at hrun
    · cases hrun
    rename_i t ht
    split at hrun
    · rename_i k v hn
      split at hrun
      · rename_i hget
        split at hrun
        · rename_i w₁ hs
          obtain ⟨⟨w₂, ks'⟩, hrest, heq⟩ := Option.map_eq_some_iff.mp hrun
          cases heq
          have hvisit := h.next ht (hnext _ _ _) hn
          have hkey : (RawWrite.set k .nil).key = some k := rfl
          have hclear := hvisit.store ht hkey ⟨v, hget.1, hget.2⟩ (hstore _ _) hs (by simp)
          have hend := ih hclear hrest
          rw [List.append_assoc] at hend
          rw [List.getLastD_cons]
          exact hend
        · cases hrun
      · cases hrun
    · cases hrun

/-- `t = {1, 2, 3}; t.a = 7; t[5] = 5; t[4] = 4`: the key 5 moves from the hash part to the array part. -/
def absorbed : List RawWrite :=
  [.set (.int 1) (.int 1), .set (.int 2) (.int 2), .set (.int 3) (.int 3), .set (.str 0 [97]) (.int 7),
    .set (.int 5) (.int 5), .set (.int 4) (.int 4)]

/-- The table, and what is left of it when it is traversed and each key that comes is cleared. -/
def absorbedThenCleared : Option (World × World × List Val) :=
  match oneTable.writes 0 absorbed with
  | none => none
  | some (w₀, _) => (w₀.clear 0 5 .nil).map fun p => (w₀, p)

theorem next_traverses_fails :
    ¬ ∀ (w₀ : World) (i : ℕ) (t₀ : LuaTable), w₀.Reachable → w₀.tables[i]? = some t₀ →
      ∀ (w : World) (cur : Val) (visited : List Val),
        Traversal (fun _ _ => True) (fun _ _ _ => True) w₀ i t₀ w cur visited →
        ∃ t, w.tables[i]? = some t ∧
          Traverses (fun _ _ _ => True) (w₀.state t₀) (w.state t) cur visited := by
  intro h
  -- the five keys of the array part come, then nothing, and `t.a` is still there
  have heval : absorbedThenCleared.map (fun p => (p.2.2,
      p.2.1.tables[0]?.map fun t =>
        (decide (tabNext (p.2.1.state t) (.int 5) = .ok none), tabGetRaw (p.2.1.state t) (.str 0 [97])))) =
      some ([.int 1, .int 2, .int 3, .int 4, .int 5], some (true, some (.int 7))) := by
    decide +kernel
  obtain ⟨⟨w₀, w, visited⟩, hrun, heq⟩ := Option.map_eq_some_iff.mp heval
  obtain ⟨hvisited, hend⟩ := Prod.mk.inj heq
  unfold absorbedThenCleared at hrun
  split at hrun
  · cases hrun
  rename_i w₀' hist hwrites
  obtain ⟨p, hclear, heq'⟩ := Option.map_eq_some_iff.mp hrun
  cases heq'
  have htable : TableRun (fun _ _ => True) oneTable 0 [] := TableRun.fresh World.Reachable.init
  have hreach := (htable.writes (fun _ _ => trivial) hwrites).reachable
  obtain ⟨t₀, ht₀⟩ : ∃ t₀, w₀.tables[0]? = some t₀ := by
    cases ht₀ : w₀.tables[0]? with
    | some t₀ => exact ⟨t₀, rfl⟩
    | none =>
      unfold World.clear at hclear
      rw [ht₀] at hclear
      cases hclear
  have hclears : Traversal (fun _ _ => True) (fun _ _ _ => True) w₀ 0 t₀ w (visited.getLastD .nil)
      ([] ++ visited) :=
    Traversal.clear (fun _ _ => trivial) (fun _ _ _ => trivial) Traversal.start hclear
  obtain ⟨t, ht, htraverses⟩ := h w₀ 0 t₀ hreach ht₀ w _ _ hclears
  rw [List.nil_append, show visited = [.int 1, .int 2, .int 3, .int 4, .int 5] from hvisited] at htraverses
  change w.tables[0]?.map _ = _ at hend
  rw [ht, Option.map_some] at hend
  obtain ⟨hnone, hlive⟩ := Prod.mk.inj (Option.some.inj hend)
  obtain ⟨o, ho, hgives⟩ := htraverses.next trivial
  change tabNext (w.state t) (.int 5) = .ok o at ho
  rw [of_decide_eq_true hnone] at ho
  cases ho
  obtain ⟨k, hk, hcanon⟩ := hgives (.str 0 [97]) ⟨.int 7, hlive, by simp⟩
  have hint : ∀ k ∈ [Val.int 1, .int 2, .int 3, .int 4, .int 5], canon k ≠ canon (.str 0 [97]) := by
    decide
  exact hint k hk hcanon

end Lua2wasm.Table
