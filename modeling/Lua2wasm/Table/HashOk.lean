import Lua2wasm.Table.Shapes

/-!
# The invariant of the hash part

`HashOk s sh skip` says that the hash part of the table in `s`, whose shape is `sh`, is in order, and
that the marked slots have their double, but for the position `skip`. There is such a position only
while a store has written a marker and not yet the double.

`TabState.hget` is the hash part as a map from keys to values. Each step of an insertion that
happens before the key is entered leaves this map alone, does not touch the array part and enters
no key (`Unchanged`).
-/

namespace Lua2wasm.Table

open Probe Raising

/-- The value slot at a position of the hash part. -/
def LuaTable.slot (t : LuaTable) (i : ℕ) : Slot := (t.vals.getD []).getD i (.val .nil)

/-- The value at a position of the hash part. -/
def LuaTable.value (t : LuaTable) (i : ℕ) : Val :=
  match t.slot i with
  | .val v => v
  | .mark => .float ((t.fvals.getD []).getD i fzero)

/-- The hash part as a map. A key that it does not have is mapped to `nil`. -/
def TabState.hget (s : TabState) (key : Key) : Val :=
  match s.shape with
  | none => .nil
  | some sh =>
    match sh.pos key with
    | none => .nil
    | some i => s.t.value i

/-- The marked slots among the first `n` have a double, but for `skip`. -/
def Marked (t : LuaTable) (n : ℕ) (skip : Option ℕ) : Prop :=
  ∀ i < n, skip ≠ some i → t.slot i = .mark → t.fvals ≠ none

/-- The invariant of the hash part. -/
structure HashOk (s : TabState) (sh : Shape) (skip : Option ℕ) : Prop where
  /-- The shared shapes are in order. -/
  shapes : ShapesOk s.shapes
  /-- The shape of the table. -/
  shape : s.shape = some sh
  /-- It is in order. -/
  wf : ShapeWf sh
  /-- The value array covers the keys. -/
  vals : sh.n ≤ lengthOf s.t.vals
  /-- It is no larger than `$vals_reserve` allows. -/
  small : lengthOf s.t.vals ≤ valsMax
  /-- The doubles cover the value array. -/
  fvals : ∀ fa, s.t.fvals = some fa → fa.length = lengthOf s.t.vals
  /-- Every marker has a double. -/
  marked : Marked s.t sh.n skip
  /-- A private shape can double its room. -/
  own : ∀ sh', s.t.shape = .own sh' → 4 ≤ sh'.keys.length

/-- The array part is the same, and the shared shapes are still there. -/
structure Frame (s s' : TabState) : Prop where
  /-- No shared shape changed. -/
  grows : Grows s.shapes s'.shapes
  /-- The values of the array part. -/
  arr : s'.t.arr = s.t.arr
  /-- Its length. -/
  alen : s'.t.alen = s.t.alen
  /-- Its doubles. -/
  farr : s'.t.farr = s.t.farr

/-- The table is the same as a map, and no key was entered. -/
structure Unchanged (s s' : TabState) : Prop extends Frame s s' where
  /-- The hash part as a map is the same. -/
  get : ∀ key, s'.hget key = s.hget key
  /-- There is no new key. -/
  absent : ∀ sh sh', s.shape = some sh → s'.shape = some sh' →
    ∀ key, sh.pos key = none → sh'.pos key = none
  /-- There are no more keys. -/
  fewer : ∀ sh sh', s.shape = some sh → s'.shape = some sh' → sh'.n ≤ sh.n

/-- The keys and their values are at the same positions. -/
def SameEntries (s s' : TabState) : Prop :=
  ∀ sh sh', s.shape = some sh → s'.shape = some sh' →
    sh'.n = sh.n ∧ ∀ p < sh.n, sh'.key p = sh.key p ∧ s'.t.value p = s.t.value p

variable {s s' s'' : TabState} {sh sh' : Shape} {skip : Option ℕ} {i : ℕ} {key : Key}

theorem Frame.refl : Frame s s := ⟨Grows.refl, rfl, rfl, rfl⟩

theorem Frame.trans (h : Frame s s') (h' : Frame s' s'') : Frame s s'' :=
  ⟨h.grows.trans h'.grows, h'.arr.trans h.arr, h'.alen.trans h.alen, h'.farr.trans h.farr⟩

theorem Unchanged.refl : Unchanged s s where
  toFrame := Frame.refl
  get _ := rfl
  absent sh sh' h h' key hp := by
    rw [h] at h'
    cases h'
    exact hp
  fewer sh sh' h h' := by
    rw [h] at h'
    cases h'
    exact Nat.le_refl _

theorem Unchanged.trans (h : Unchanged s s') (h' : Unchanged s' s'') (hs' : s'.shape = some sh') :
    Unchanged s s'' where
  toFrame := h.toFrame.trans h'.toFrame
  get key := (h'.get key).trans (h.get key)
  absent sh sh'' hs hs'' key hp := h'.absent sh' sh'' hs' hs'' key (h.absent sh sh' hs hs' key hp)
  fewer sh sh'' hs hs'' := Nat.le_trans (h'.fewer sh' sh'' hs' hs'') (h.fewer sh sh' hs hs')

theorem hget_of_shape (h : s.shape = some sh) :
    s.hget key = match sh.pos key with
      | none => .nil
      | some i => s.t.value i := by
  unfold TabState.hget
  rw [h]

theorem hget_of_pos (h : s.shape = some sh) (hp : sh.pos key = some i) : s.hget key = s.t.value i := by
  rw [hget_of_shape h, hp]

theorem hget_of_absent (h : s.shape = some sh) (hp : sh.pos key = none) : s.hget key = .nil := by
  rw [hget_of_shape h, hp]

theorem shape_of_own (h : s.t.shape = .own sh) : s.shape = some sh := by
  unfold TabState.shape
  rw [h]

theorem shape_of_shared {r : ℕ} (h : s.t.shape = .shared r) (hok : s.shape = some sh) :
    ∃ p : SharedShape, s.shapes[r]? = some p ∧ p.toShape = sh := by
  unfold TabState.shape at hok
  rw [h] at hok
  simpa using hok

/-- Shapes with the same keys have them at the same positions. -/
theorem pos_congr (hn : sh'.n = sh.n) (hkeys : ∀ i < sh.n, sh'.key i = sh.key i) (key : Key) :
    sh'.pos key = sh.pos key := by
  unfold Shape.pos
  rw [hn]
  apply List.find?_congr
  intro i hi
  rw [hkeys i (List.mem_range.mp hi)]

theorem sameEntries_of_keys (hs : s.shape = some sh) (hs' : s'.shape = some sh') (hn : sh'.n = sh.n)
    (hkeys : ∀ i < sh.n, sh'.key i = sh.key i) (hvalue : ∀ i < sh.n, s'.t.value i = s.t.value i) :
    SameEntries s s' := by
  intro sh₁ sh₁' h h'
  rw [hs] at h
  rw [hs'] at h'
  cases h
  cases h'
  exact ⟨hn, fun i hi => ⟨hkeys i hi, hvalue i hi⟩⟩

theorem SameEntries.refl : SameEntries s s := by
  intro sh sh' h h'
  rw [h] at h'
  cases h'
  exact ⟨rfl, fun _ _ => ⟨rfl, rfl⟩⟩

theorem SameEntries.trans (h : SameEntries s s') (h' : SameEntries s' s'') (hs' : s'.shape = some sh') :
    SameEntries s s'' := by
  intro sh sh'' hs hs''
  obtain ⟨hn, heq⟩ := h sh sh' hs hs'
  obtain ⟨hn', heq'⟩ := h' sh' sh'' hs' hs''
  refine ⟨hn'.trans hn, fun p hp => ?_⟩
  obtain ⟨hk, hv⟩ := heq p hp
  obtain ⟨hk', hv'⟩ := heq' p (by omega)
  exact ⟨hk'.trans hk, hv'.trans hv⟩

/-- A step that keeps the keys, their positions and their values leaves the table alone. -/
theorem unchanged_of_keys (hframe : Frame s s') (hs : s.shape = some sh) (hs' : s'.shape = some sh')
    (hn : sh'.n = sh.n) (hkeys : ∀ i < sh.n, sh'.key i = sh.key i)
    (hvalue : ∀ i < sh.n, s'.t.value i = s.t.value i) : Unchanged s s' where
  toFrame := hframe
  get key := by
    rw [hget_of_shape hs, hget_of_shape hs', pos_congr hn hkeys key]
    cases hp : sh.pos key with
    | none => rfl
    | some i => exact hvalue i (Shape.pos_lt hp)
  absent sh₁ sh₁' h h' key hp := by
    rw [hs] at h
    rw [hs'] at h'
    cases h
    cases h'
    rw [pos_congr hn hkeys key]
    exact hp
  fewer sh₁ sh₁' h h' := by
    rw [hs] at h
    rw [hs'] at h'
    cases h
    cases h'
    exact Nat.le_of_eq hn

section Steps

variable {α β : Type} {R : β → TabState → Prop} {E : Fault → TabState → Prop}

/-- A read that succeeds, as the first step. -/
theorem meets_orStuck {o : Option α} {a : α} {f : α → TabM β} (h : o = some a)
    (hf : Meets (f a) s R E) : Meets (orStuck o >>= f) s R E := by
  subst h
  exact meets_pure_bind hf

/-- A read that fails. -/
theorem meets_orStuck_none {f : α → TabM β} (h : E .stuck s) : Meets (orStuck none >>= f) s R E := by
  unfold Meets
  exact h

/-- Reading the private shape, as the first step. -/
theorem meets_getOwnShape {f : Shape → TabM β} (h : s.t.shape = .own sh) (hf : Meets (f sh) s R E) :
    Meets (getOwnShape >>= f) s R E := by
  apply Meets.bind (Q := fun a s' => a = sh ∧ s' = s)
  · unfold getOwnShape
    apply meets_get_bind
    rw [h]
    exact meets_pure ⟨rfl, rfl⟩
  · rintro _ _ ⟨rfl, rfl⟩
    exact hf

/-- Reading the shape, as the first step. -/
theorem meets_getShape {f : Shape → TabM β} (h : s.shape = some sh) (hf : Meets (f sh) s R E) :
    Meets (getShape >>= f) s R E := by
  apply Meets.bind (Q := fun a s' => a = sh ∧ s' = s)
  · unfold getShape
    apply meets_get_bind
    rw [h]
    exact meets_pure ⟨rfl, rfl⟩
  · rintro _ _ ⟨rfl, rfl⟩
    exact hf

end Steps

/-! ## Reading -/

theorem lengthOf_some {α : Type} (a : List α) : lengthOf (some a) = a.length := rfl

theorem getElem?_vals (h : i < lengthOf s.t.vals) :
    ∃ vals, s.t.vals = some vals ∧ i < vals.length ∧ vals[i]? = some (s.t.slot i) := by
  cases hv : s.t.vals with
  | none =>
    rw [hv] at h
    exact absurd h (Nat.not_lt_zero i)
  | some vals =>
    rw [hv] at h
    refine ⟨vals, rfl, h, ?_⟩
    unfold LuaTable.slot
    rw [hv]
    exact getElem?_of_lt h

/-- The slot at a position of the hash part can be read. -/
theorem HashOk.tval_eq (hok : HashOk s sh none) (hi : i < sh.n) (hn : i < lengthOf s.t.vals) :
    tval (s.t.slot i) s.t.fvals i = some (s.t.value i) := by
  unfold LuaTable.value
  cases hslot : s.t.slot i with
  | val v => rfl
  | mark =>
    obtain ⟨fa, hfa⟩ := Option.ne_none_iff_exists'.mp (hok.marked i hi (by simp) hslot)
    have hlen := hok.fvals fa hfa
    unfold tval
    rw [hfa]
    simp only [Option.bind_eq_bind, Option.bind_some, Option.getD_some]
    rw [getElem?_of_lt (show i < fa.length by omega)]
    rfl

/-- `$tab_get_hash` reads the map. -/
theorem tabGetHash_spec (hok : HashOk s sh none) (k : Val) :
    tabGetHash s k = some (((canon k).map s.hget).getD .nil) := by
  unfold tabGetHash
  simp only [hok.shape, tabFind_spec hok.wf, Option.bind_eq_bind, Option.bind_some]
  cases hc : canon k with
  | none => rfl
  | some key =>
    simp only [Option.bind_some, Option.map_some, Option.getD_some]
    cases hp : sh.pos key with
    | none => rw [hget_of_absent hok.shape hp]; rfl
    | some i =>
      have hi := Shape.pos_lt hp
      have hn : i < lengthOf s.t.vals := Nat.lt_of_lt_of_le hi hok.vals
      obtain ⟨vals, hvals, -, hget⟩ := getElem?_vals hn
      rw [hget_of_pos hok.shape hp]
      simp only [hvals, hget, Option.bind_some]
      exact hok.tval_eq hi hn

/-! ## Making room -/

/-- `$tab_own` gives the table a shape of its own with the same keys at the same positions. -/
theorem tabOwn_spec (hok : HashOk s sh none) :
    Ensures tabOwn s
      (fun _ s' => Unchanged s s' ∧ ∃ sh', s'.t.shape = .own sh' ∧ HashOk s' sh' none ∧ sh'.n = sh.n ∧
        SameEntries s s') := by
  unfold tabOwn
  apply meets_get_bind
  cases hshape : s.t.shape with
  | own sh₀ =>
    have heq : sh₀ = sh := by
      have h := hok.shape
      rw [shape_of_own hshape] at h
      exact Option.some.inj h
    subst heq
    exact meets_pure ⟨Unchanged.refl, sh₀, hshape, hok, rfl, SameEntries.refl⟩
  -- the keys and the index are copied
  | shared r =>
    obtain ⟨p, hp, rfl⟩ := shape_of_shared hshape hok.shape
    have hroom := hok.wf.room
    simp only [hp, orStuck]
    apply meets_pure_bind
    rw [arrayCopy_new hroom (Nat.le_max_left _ 4)]
    apply meets_pure_bind
    apply meets_modify
    obtain ⟨keys, hkeys⟩ : ∃ keys,
        keys = p.keys.take p.n ++ List.replicate (max p.n 4 - p.n) Val.nil := ⟨_, rfl⟩
    have hlen : keys.length = max p.n 4 := by
      rw [hkeys]
      exact length_copy hroom (Nat.le_max_left _ 4)
    have hkey : ∀ i < p.n, keys.getD i .nil = p.key i := by
      intro i hi
      rw [hkeys, getD_copy hi hroom]
      rfl
    rw [← hkeys]
    have hwf : ShapeWf ⟨keys, p.idx, p.mask, p.n, p.used⟩ := by
      constructor
      · change p.n ≤ keys.length
        omega
      · intro i hi
        change Normal (keys.getD i .nil)
        rw [hkey i hi]
        exact hok.wf.normal i hi
      · intro i hi j hj hc
        change canon (keys.getD i .nil) = canon (keys.getD j .nil) at hc
        rw [hkey i hi, hkey j hj] at hc
        exact hok.wf.distinct i hi j hj hc
      · exact hok.wf.used
      · exact hok.wf.half
      · exact hok.wf.slots
      · apply hok.wf.indexed.congr
        intro i hi
        change home p.mask (luaHash (keys.getD i .nil)) = _
        rw [hkey i hi]
        rfl
    refine ⟨?_, _, rfl, ?_, rfl, ?_⟩
    · exact unchanged_of_keys ⟨Grows.refl, rfl, rfl, rfl⟩ hok.shape rfl rfl hkey fun i _ => rfl
    · refine ⟨hok.shapes, rfl, hwf, hok.vals, hok.small, hok.fvals, hok.marked, ?_⟩
      intro sh' h
      cases h
      change 4 ≤ keys.length
      omega
    · exact sameEntries_of_keys hok.shape rfl rfl hkey fun i _ => rfl

/-- What `$vals_reserve` leaves alone: everything but the room for values. -/
structure Reserved (s s' : TabState) : Prop extends Frame s s' where
  /-- The shared shapes are the same. -/
  shapes : s'.shapes = s.shapes
  /-- So is the shape of the table. -/
  shape : s'.t.shape = s.t.shape
  /-- The slots hold what they held. -/
  slot : ∀ i, s'.t.slot i = s.t.slot i
  /-- The values are the same. -/
  value : ∀ i, s'.t.value i = s.t.value i

theorem Reserved.shape_eq (h : Reserved s s') : s'.shape = s.shape := by
  unfold TabState.shape
  rw [h.shape, h.shapes]

theorem Reserved.unchanged (h : Reserved s s') (hs : s.shape = some sh) : Unchanged s s' :=
  unchanged_of_keys h.toFrame hs (h.shape_eq.trans hs) rfl (fun _ _ => rfl) fun i _ => h.value i

/-- A longer copy of an array reads as the array does. -/
theorem getD_copy_default {α : Type} {src : List α} {v : α} {n m : ℕ} (h : n = src.length) (i : ℕ) :
    (src.take n ++ List.replicate (m - n) v).getD i v = src.getD i v := by
  subst h
  by_cases hi : i < src.length
  · exact getD_copy hi (Nat.le_refl _)
  · rw [getD_copy_fill (Nat.le_of_not_lt hi) (Nat.le_refl _), List.getD_eq_getElem?_getD,
      List.getElem?_eq_none (Nat.le_of_not_lt hi)]
    rfl

/-- `$vals_reserve` makes room, or raises and does nothing. -/
theorem valsReserve_spec (hok : HashOk s sh skip) (need : ℕ) :
    Meets (valsReserve need) s
      (fun _ s' => Reserved s s' ∧ HashOk s' sh skip ∧ need ≤ lengthOf s'.t.vals)
      (fun e s' => e = tableOverflow ∧ s' = s ∧ 8388609 < need ∧ lengthOf s.t.vals < need ∧
        valsMax < valsCap (lengthOf s.t.vals) need) := by
  unfold valsReserve
  apply meets_get_bind
  dsimp only
  split
  -- there is room already
  · rename_i hle
    exact meets_pure ⟨⟨Frame.refl, rfl, rfl, fun _ => rfl, fun _ => rfl⟩, hok, hle⟩
  rename_i hle
  split
  -- above the limit the table overflows
  · rename_i hlarge
    refine meets_throw ⟨rfl, rfl, ?_, by omega, hlarge⟩
    unfold valsMax valsCap at hlarge
    split at hlarge <;> omega
  -- otherwise the values are copied into a larger array
  rename_i hmax
  have hcap : lengthOf s.t.vals ≤ valsCap (lengthOf s.t.vals) need := by
    unfold valsCap
    split <;> omega
  have hneed : need ≤ valsCap (lengthOf s.t.vals) need := Nat.le_max_right _ _
  have hlen : (s.t.vals.getD []).length = lengthOf s.t.vals := by
    cases s.t.vals <;> rfl
  rw [arrayCopy_new (by omega) hcap]
  apply meets_pure_bind
  obtain ⟨nv, hnv⟩ : ∃ nv, nv = (s.t.vals.getD []).take (lengthOf s.t.vals) ++
      List.replicate (valsCap (lengthOf s.t.vals) need - lengthOf s.t.vals) (Slot.val .nil) := ⟨_, rfl⟩
  have hnvlen : nv.length = valsCap (lengthOf s.t.vals) need := by
    rw [hnv]
    exact length_copy (by omega) hcap
  have hslot : ∀ i, nv.getD i (.val .nil) = s.t.slot i := by
    intro i
    rw [hnv]
    exact getD_copy_default hlen.symm i
  rw [← hnv]
  cases hfv : s.t.fvals with
  | none =>
    apply meets_modify
    have hval : ∀ i, LuaTable.value { s.t with vals := some nv } i = s.t.value i := by
      intro i
      unfold LuaTable.value
      rw [show LuaTable.slot { s.t with vals := some nv } i = s.t.slot i from hslot i]
    refine ⟨⟨⟨Grows.refl, rfl, rfl, rfl⟩, rfl, rfl, hslot, hval⟩, ?_, ?_⟩
    · refine ⟨hok.shapes, hok.shape, hok.wf, ?_, ?_, ?_, ?_, hok.own⟩
      · have hv := hok.vals
        change sh.n ≤ nv.length
        omega
      · change nv.length ≤ valsMax
        omega
      · intro fa hfa
        rw [hfv] at hfa
        cases hfa
      · intro i hi hne hmark
        exact hok.marked i hi hne ((hslot i).symm.trans hmark)
    · change need ≤ nv.length
      omega
  | some fa =>
    have hfalen := hok.fvals fa hfv
    simp only
    unfold farrGrow
    rw [arrayCopy_new (by omega) hcap]
    apply meets_pure_bind
    apply meets_modify
    obtain ⟨nf, hnf⟩ : ∃ nf, nf = fa.take (lengthOf s.t.vals) ++
        List.replicate (valsCap (lengthOf s.t.vals) need - lengthOf s.t.vals) fzero := ⟨_, rfl⟩
    have hnflen : nf.length = valsCap (lengthOf s.t.vals) need := by
      rw [hnf]
      exact length_copy (by omega) hcap
    have hf : ∀ i, nf.getD i fzero = fa.getD i fzero := by
      intro i
      rw [hnf]
      exact getD_copy_default hfalen.symm i
    rw [← hnf]
    have hval : ∀ i, LuaTable.value { s.t with vals := some nv, fvals := some nf } i = s.t.value i := by
      intro i
      unfold LuaTable.value
      rw [show LuaTable.slot { s.t with vals := some nv, fvals := some nf } i = s.t.slot i from hslot i,
        hfv]
      simp only [Option.getD_some, hf]
    refine ⟨⟨⟨Grows.refl, rfl, rfl, rfl⟩, rfl, rfl, hslot, hval⟩, ?_, ?_⟩
    · refine ⟨hok.shapes, hok.shape, hok.wf, ?_, ?_, ?_, ?_, hok.own⟩
      · have hv := hok.vals
        change sh.n ≤ nv.length
        omega
      · change nv.length ≤ valsMax
        omega
      · intro fa' hfa'
        cases hfa'
        change nf.length = nv.length
        omega
      · intro i _ _ _ hnone
        cases hnone
    · change need ≤ nv.length
      omega

/-- The shape of a table with a private shape. -/
theorem HashOk.own_eq {sh₀ : Shape} (hok : HashOk s sh skip) (h : s.t.shape = .own sh₀) : sh₀ = sh := by
  have hs := hok.shape
  rw [shape_of_own h] at hs
  exact Option.some.inj hs

/-- More room for keys changes nothing about a shape. -/
theorem ShapeWf.withKeys (wf : ShapeWf sh) {keys : List Val} (hlen : sh.n ≤ keys.length)
    (hkey : ∀ i < sh.n, keys.getD i .nil = sh.key i) : ShapeWf { sh with keys } := by
  constructor
  · exact hlen
  · intro i hi
    change Normal (keys.getD i .nil)
    rw [hkey i hi]
    exact wf.normal i hi
  · intro i hi j hj hc
    change canon (keys.getD i .nil) = canon (keys.getD j .nil) at hc
    rw [hkey i hi, hkey j hj] at hc
    exact wf.distinct i hi j hj hc
  · exact wf.used
  · exact wf.half
  · exact wf.slots
  · apply wf.indexed.congr
    intro i hi
    change home sh.mask (luaHash (keys.getD i .nil)) = _
    rw [hkey i hi]
    rfl

/-- A private shape gets room for `cap` keys. -/
theorem ownKeys_spec (hok : HashOk s sh none) {c : ℕ} (hcap : sh.n ≤ c) (h4 : 4 ≤ c) :
    Ensures (do
        let keys ← orStuck (arrayCopy (List.replicate c .nil) 0 sh.keys 0 sh.n)
        modifyTable fun t => { t with shape := .own { sh with keys } }) s
      (fun _ s' => Unchanged s s' ∧ ∃ sh', s'.t.shape = .own sh' ∧ HashOk s' sh' none ∧
        sh'.n = sh.n ∧ sh'.mask = sh.mask ∧ sh'.keys.length = c ∧ SameEntries s s' ∧
        s'.t.vals = s.t.vals) := by
  have hroom := hok.wf.room
  rw [arrayCopy_new hroom hcap]
  apply meets_pure_bind
  apply meets_modify
  obtain ⟨keys, hkeys⟩ : ∃ keys, keys = sh.keys.take sh.n ++ List.replicate (c - sh.n) Val.nil :=
    ⟨_, rfl⟩
  have hlen : keys.length = c := by
    rw [hkeys]
    exact length_copy hroom hcap
  have hkey : ∀ i < sh.n, keys.getD i .nil = sh.key i := by
    intro i hi
    rw [hkeys, getD_copy hi hroom]
    rfl
  rw [← hkeys]
  have hentries := @sameEntries_of_keys s { s with t := { s.t with shape := .own { sh with keys } } } _ _
    hok.shape rfl rfl hkey fun i _ => rfl
  refine ⟨?_, _, rfl, ?_, rfl, rfl, hlen, hentries, rfl⟩
  · exact unchanged_of_keys ⟨Grows.refl, rfl, rfl, rfl⟩ hok.shape rfl rfl hkey fun i _ => rfl
  · refine ⟨hok.shapes, rfl, hok.wf.withKeys (by omega) hkey, hok.vals, hok.small, hok.fvals, ?_, ?_⟩
    · exact hok.marked
    · intro sh' h
      cases h
      change 4 ≤ keys.length
      omega

/-- A private shape gets room for one more key, or the table is too large. -/
theorem growKeys_spec (hok : HashOk s sh none) (hown : s.t.shape = .own sh) :
    Meets growKeys s
      (fun _ s' => Unchanged s s' ∧ ∃ sh', s'.t.shape = .own sh' ∧ HashOk s' sh' none ∧
        sh'.n = sh.n ∧ sh'.mask = sh.mask ∧ sh'.n < sh'.keys.length ∧ SameEntries s s' ∧
        s'.t.vals = s.t.vals)
      (fun e s' => e = tableOverflow ∧ s' = s ∧ 8388608 < sh.n ∧ sh.keys.length ≤ sh.n) := by
  have h4 := hok.own sh hown
  unfold growKeys
  apply meets_getOwnShape hown
  split
  · rename_i hlt
    exact meets_pure ⟨Unchanged.refl, _, hown, hok, rfl, rfl, hlt, SameEntries.refl, rfl⟩
  rename_i hlt
  split
  · rename_i hlarge
    exact meets_throw ⟨rfl, rfl, hlarge, by omega⟩
  · refine (ownKeys_spec hok (by omega) (by omega)).mono ?_ fun _ _ h => h.elim
    rintro _ s' ⟨hun, sh', hown', hok', hn, hmask, hlen, hentries⟩
    exact ⟨hun, sh', hown', hok', hn, hmask, by omega, hentries⟩

/-! ## Writing -/

/-- A write to a value slot. -/
theorem setVal_spec (hi : i < lengthOf s.t.vals) (v : Slot) :
    Ensures (setVal i v) s
      (fun _ s' => ∃ vals, s.t.vals = some vals ∧ s' = { s with t := { s.t with vals := some (vals.set i v) } }) := by
  obtain ⟨vals, hvals, hlt, -⟩ := getElem?_vals hi
  unfold setVal
  apply meets_get_bind
  rw [hvals]
  apply meets_pure_bind
  rw [setAt_of_lt hlt]
  apply meets_pure_bind
  exact meets_modify ⟨vals, rfl, rfl⟩

/-- The state after a write to a value slot. -/
theorem slot_set {vals : List Slot} {v : Slot} {j : ℕ} (h : s.t.vals = some vals) (hi : i < vals.length) :
    LuaTable.slot { s.t with vals := some (vals.set i v) } j = if j = i then v else s.t.slot j := by
  unfold LuaTable.slot
  rw [h]
  exact getD_set hi

end Lua2wasm.Table
