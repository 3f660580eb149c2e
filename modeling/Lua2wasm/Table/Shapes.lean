import Lua2wasm.Table.HashPart

/-!
# Well-formed shapes

`ShapeWf` is the invariant of a shape: its keys are normal and pairwise different, its index is in
order (`Probe.Indexed`) with the home slots that the hashes give, and at most half of the index is
in use. Under it the two lookups find exactly the position of the key that raw equality would find
(`findWith_spec`, `tabFind_spec`, `tabFindStr_spec`).

`ShapesOk` is the invariant of the shapes that tables share: each is well formed, and an entry of a
transition cache leads to the shape that adds the entry's key. `shapeChild_spec` says that the child
of a shape is that shape, whether it comes from the cache or is built, and that no shape that was
there before changes (`Grows`).
-/

namespace Lua2wasm.Table

open Probe

/-- The key at a position. -/
def Shape.key (sh : Shape) (i : ℕ) : Val := sh.keys.getD i .nil

/-- The position of a key. -/
def Shape.pos (sh : Shape) (k : Key) : Option ℕ :=
  (List.range sh.n).find? fun i => canon (sh.key i) = some k

/-- The home slot of the key at a position. -/
def Shape.keyHome (sh : Shape) (i : ℕ) : ℕ := home sh.mask (luaHash (sh.key i))

/-- The invariant of a shape. -/
structure ShapeWf (sh : Shape) : Prop where
  /-- There is room for the keys. -/
  room : sh.n ≤ sh.keys.length
  /-- The keys are normal. -/
  normal : ∀ i < sh.n, Normal (sh.key i)
  /-- No two keys are raw-equal. -/
  distinct : ∀ i < sh.n, ∀ j < sh.n, canon (sh.key i) = canon (sh.key j) → i = j
  /-- There are no tombstones. -/
  used : sh.used = sh.n
  /-- At most half of the index is in use. -/
  half : 2 * sh.n ≤ sh.mask + 1
  /-- The index has at least 8 slots. -/
  slots : 8 ≤ sh.mask + 1
  /-- The index finds the keys. -/
  indexed : Indexed sh.idx sh.mask sh.keyHome sh.n

variable {sh : Shape} {k : Val} {key : Key} {i : ℕ}

theorem Shape.getElem?_key (h : i < sh.keys.length) : sh.keys[i]? = some (sh.key i) := by
  unfold Shape.key
  rw [List.getD_eq_getElem?_getD, List.getElem?_eq_getElem h]
  rfl

theorem Shape.pos_lt (h : sh.pos key = some i) : i < sh.n := by
  unfold Shape.pos at h
  exact List.mem_range.mp (List.mem_of_find?_eq_some h)

theorem Shape.canon_key_of_pos (h : sh.pos key = some i) : canon (sh.key i) = some key := by
  unfold Shape.pos at h
  simpa using List.find?_some h

theorem Shape.pos_eq_none : sh.pos key = none ↔ ∀ i < sh.n, canon (sh.key i) ≠ some key := by
  unfold Shape.pos
  rw [List.find?_eq_none]
  simp

theorem ShapeWf.pos_of_canon (wf : ShapeWf sh) (hi : i < sh.n) (hc : canon (sh.key i) = some key) :
    sh.pos key = some i := by
  cases hp : sh.pos key with
  | none => exact absurd hc (Shape.pos_eq_none.mp hp i hi)
  | some j =>
    have hj := Shape.canon_key_of_pos hp
    rw [wf.distinct j (Shape.pos_lt hp) i hi (hj.trans hc.symm)]

theorem home_le {mask : ℕ} {full : UInt32} : home mask full ≤ mask := Nat.and_le_left

/-! ## Lookup -/

/-- The lookup's test of a stored key is raw equality. -/
theorem hitKey_iff {sk : Val} (h : Normal sk) (k : Val) :
    hitKey k (luaHash k) sk = true ↔ canon sk = canon k := by
  unfold hitKey refEq
  constructor
  · intro hit
    simp only [Bool.or_eq_true, decide_eq_true_eq] at hit
    obtain hid | hit := hit
    · rw [hid]
    · rw [← luaEqRaw_iff_canon h]
      split at hit <;> simp only [Bool.and_eq_true] at hit
      · exact hit.2
      · exact hit.2
  · intro hc
    have heq := (luaEqRaw_iff_canon h k).mpr hc
    have hh := luaHash_eq_of_canon_eq h hc
    -- a value that is neither a string nor a boxed number is the stored object
    cases k with
    | nil => exact absurd hc (canon_ne_none_of_normal h)
    | str o x =>
      cases sk with
      | str o' x' => simp [Val.isStr, hh, heq]
      | float f => simp [canon_float_of_normal h] at hc
      | _ => simp at hc
    | float f => simp [Val.isStr, Val.isBoxedNum, heq]
    | int j =>
      cases sk with
      | float f => simp [canon_float_of_normal h] at hc
      | int j' => simp_all
      | _ => simp at hc
    | _ =>
      cases sk with
      | float f => simp [canon_float_of_normal h] at hc
      | _ => simp_all

theorem hitStr_eq_hitKey {sk : Val} (hk : k.isStr = true) (full : UInt32) :
    hitStr k full sk = hitKey k full sk := by
  unfold hitStr hitKey
  rw [if_pos hk]

/-- A lookup whose test is raw equality finds the position of the key. -/
theorem findWith_spec {hit : Val → Bool} (wf : ShapeWf sh)
    (hhit : ∀ i < sh.n, (hit (sh.key i) = true ↔ canon (sh.key i) = canon k)) :
    findWith hit sh k (luaHash k) = some ((canon k).bind sh.pos) := by
  have hprobe : ∀ i < sh.n, (sh.keys[i]?).map hit = some (hit (sh.key i)) := by
    intro i hi
    rw [Shape.getElem?_key (by have := wf.room; omega)]
    rfl
  by_cases hex : ∃ i < sh.n, canon (sh.key i) = canon k
  · obtain ⟨i, hi, hc⟩ := hex
    have hhome : home sh.mask (luaHash k) = sh.keyHome i := by
      unfold Shape.keyHome
      rw [luaHash_eq_of_canon_eq (wf.normal i hi) hc]
    have hpos : (canon k).bind sh.pos = some i := by
      obtain ⟨key, hkey⟩ := Option.ne_none_iff_exists'.mp (canon_ne_none_of_normal (wf.normal i hi))
      rw [← hc, hkey]
      exact wf.pos_of_canon hi hkey
    have hlook : lookup sh.idx sh.mask (fun i => (sh.keys[i]?).map hit) (sh.mask + 1)
        (sh.keyHome i) = some (some i) := by
      apply wf.indexed.lookup_hit hi home_le
      · rw [hprobe i hi, (hhit i hi).mpr hc]
      · intro j hj hne
        rw [hprobe j hj]
        have hno : ¬ hit (sh.key j) = true := fun hyes =>
          hne (wf.distinct j hj i hi (((hhit j hj).mp hyes).trans hc.symm))
        simp [hno]
    rw [hpos]
    unfold findWith
    rw [hhome]
    obtain ⟨d, -, hslot, hbefore⟩ := wf.indexed.chain i hi
    -- the home slot is on the chain of the key, so something is in it
    have hzero : after sh.mask (sh.keyHome i) 0 = sh.keyHome i := after_zero home_le
    have hne : sh.idx[sh.keyHome i]? ≠ some 0 := by
      cases d with
      | zero =>
        rw [hzero] at hslot
        rw [hslot]
        simp
        omega
      | succ d =>
        have h0 := hbefore 0 (Nat.succ_pos d)
        rwa [hzero] at h0
    obtain ⟨j, hj, hjs⟩ : ∃ j < sh.n, sh.idx[sh.keyHome i]? = some ((j : ℤ) + 1) :=
      wf.indexed.entry_of_ne home_le hne
    have htoNat : ((j : ℤ) + 1 - 1).toNat = j := by omega
    simp only [hjs, hlook, Option.bind_eq_bind, Option.bind_some]
    rw [if_neg (by omega), if_pos (by omega), htoNat,
      Shape.getElem?_key (by have := wf.room; omega)]
    simp only
    split
    · rename_i hid
      have hself : sh.key j = k := by simpa [refEq] using hid
      rw [wf.distinct j hj i hi (by rw [hself, hc])]
    · rfl
  · have hpos : (canon k).bind sh.pos = none := by
      cases hk : canon k with
      | none => rfl
      | some key =>
        exact Shape.pos_eq_none.mpr fun i hi hc => hex ⟨i, hi, hc.trans hk.symm⟩
    have hlook : lookup sh.idx sh.mask (fun i => (sh.keys[i]?).map hit) (sh.mask + 1)
        (home sh.mask (luaHash k)) = some none := by
      apply wf.indexed.lookup_miss home_le
      intro j hj
      rw [hprobe j hj]
      have hno : ¬ hit (sh.key j) = true := fun hyes => hex ⟨j, hj, (hhit j hj).mp hyes⟩
      simp [hno]
    rw [hpos]
    unfold findWith
    obtain h0 | ⟨j, hj, hjs⟩ := wf.indexed.sound (home sh.mask (luaHash k)) home_le
    · simp [h0]
    · have htoNat : ((j : ℤ) + 1 - 1).toNat = j := by omega
      simp only [hjs, hlook, Option.bind_eq_bind, Option.bind_some]
      rw [if_neg (by omega), if_pos (by omega), htoNat,
        Shape.getElem?_key (by have := wf.room; omega)]
      have hno : ¬ refEq (sh.key j) k = true := by
        intro hid
        have hself : sh.key j = k := by simpa [refEq] using hid
        exact hex ⟨j, hj, by rw [hself]⟩
      simp only
      rw [if_neg hno]

/-- `$tab_index_lookup_h` finds the position of the key. -/
theorem tabIndexLookupH_spec (wf : ShapeWf sh) (k : Val) :
    tabIndexLookupH sh k (luaHash k) = some ((canon k).bind sh.pos) :=
  findWith_spec wf fun i hi => hitKey_iff (wf.normal i hi) k

/-- `$tab_find` finds the position of the key. -/
theorem tabFind_spec (wf : ShapeWf sh) (k : Val) :
    tabFind sh k = some ((canon k).bind sh.pos) := by
  unfold tabFind
  split
  · rename_i hn
    have hnone : ∀ key, sh.pos key = none := fun key =>
      Shape.pos_eq_none.mpr fun i hi => absurd hi (by omega)
    cases canon k with
    | none => rfl
    | some key => rw [Option.bind_some, hnone key]
  · exact tabIndexLookupH_spec wf k

/-- `$tab_find_str` finds the position of the key. -/
theorem tabFindStr_spec (wf : ShapeWf sh) (hk : k.isStr = true) :
    tabFindStr sh k (luaHash k) = some ((canon k).bind sh.pos) :=
  findWith_spec wf fun i hi => by
    rw [hitStr_eq_hitKey hk]
    exact hitKey_iff (wf.normal i hi) k

/-! ## Arrays -/

section Arrays

variable {α : Type} {a src : List α} {v w : α} {n m j : ℕ}

theorem setAt_of_lt (h : i < a.length) : setAt a i v = some (a.set i v) := if_pos h

theorem getD_set (h : i < a.length) : (a.set i v).getD j w = if j = i then v else a.getD j w := by
  rw [List.getD_eq_getElem?_getD, List.getD_eq_getElem?_getD]
  split
  · rename_i hj
    rw [hj, List.getElem?_set_self h]
    rfl
  · rename_i hj
    rw [List.getElem?_set_ne (Ne.symm hj)]

theorem getElem?_of_lt (h : i < a.length) : a[i]? = some (a.getD i w) := by
  rw [List.getD_eq_getElem?_getD, List.getElem?_eq_getElem h]
  rfl

/-- A copy of the front of an array into a larger new one. -/
theorem arrayCopy_new (hsrc : n ≤ src.length) (hm : n ≤ m) :
    arrayCopy (List.replicate m v) 0 src 0 n = some (src.take n ++ List.replicate (m - n) v) := by
  unfold arrayCopy
  rw [if_pos (by rw [List.length_replicate]; omega)]
  simp [List.drop_replicate]

theorem length_copy (hsrc : n ≤ src.length) (hm : n ≤ m) :
    (src.take n ++ List.replicate (m - n) v).length = m := by
  simp
  omega

theorem getD_copy (hi : i < n) (hsrc : n ≤ src.length) :
    (src.take n ++ List.replicate (m - n) v).getD i w = src.getD i w := by
  rw [List.getD_eq_getElem?_getD, List.getD_eq_getElem?_getD,
    List.getElem?_append_left (by rw [List.length_take]; omega), List.getElem?_take_of_lt hi]

theorem getD_copy_fill (hi : n ≤ i) (hsrc : n ≤ src.length) :
    (src.take n ++ List.replicate (m - n) v).getD i v = v := by
  rw [List.getD_eq_getElem?_getD,
    List.getElem?_append_right (by rw [List.length_take]; omega), List.getElem?_replicate]
  split <;> rfl

end Arrays

/-! ## Building an index -/

theorem growCap_spec {need : ℕ} : ∀ (fuel cap : ℕ), (∃ b, cap = 2^b) → need ≤ cap * 2^fuel →
    need ≤ growCap need fuel cap ∧ cap ≤ growCap need fuel cap ∧ ∃ b, growCap need fuel cap = 2^b := by
  intro fuel
  induction fuel with
  | zero =>
    intro cap hb hneed
    exact ⟨by simpa [growCap] using hneed, Nat.le_refl _, hb⟩
  | succ fuel ih =>
    intro cap hb hneed
    unfold growCap
    split
    · rename_i hle
      exact ⟨hle, Nat.le_refl _, hb⟩
    · obtain ⟨b, rfl⟩ := hb
      have hdouble : 2 * 2^b = 2^(b + 1) := (Nat.pow_succ').symm
      obtain ⟨h1, h2, h3⟩ := ih (2 * 2^b) ⟨b + 1, hdouble⟩ (by
        rw [Nat.pow_succ] at hneed
        calc need ≤ 2^b * (2^fuel * 2) := hneed
          _ = 2 * 2^b * 2^fuel := by ring)
      exact ⟨h1, by omega, h3⟩

theorem indexCap_spec (live : ℕ) :
    2 * (live + 1) ≤ indexCap live ∧ 8 ≤ indexCap live ∧ ∃ b, indexCap live = 2^b := by
  unfold indexCap
  have hpow : 2 * (live + 1) < 2^(2 * (live + 1)) := Nat.lt_two_pow_self
  exact growCap_spec _ 8 ⟨3, rfl⟩ (by omega)

/-- The loop of `$shape_index` enters the keys one after the other. -/
theorem placeKeys_spec {mask : ℕ} {keys : List Val} :
    ∀ (todo i : ℕ) (idx : List ℤ),
      Indexed idx mask (fun q => home mask (luaHash (keys.getD q .nil))) i →
      i + todo ≤ keys.length → i + todo ≤ mask →
      ∃ idx', placeKeys mask keys todo i idx = some idx' ∧
        Indexed idx' mask (fun q => home mask (luaHash (keys.getD q .nil))) (i + todo) := by
  intro todo
  induction todo with
  | zero =>
    intro i idx hi _ _
    exact ⟨idx, rfl, hi⟩
  | succ todo ih =>
    intro i idx hi hlen hmask
    obtain ⟨idx₁, hplace, hi₁⟩ := hi.place home_le (by omega)
    obtain ⟨idx₂, hrest, hi₂⟩ := ih (i + 1) idx₁ hi₁ (by omega) (by omega)
    refine ⟨idx₂, ?_, ?_⟩
    · rw [placeKeys, getElem?_of_lt (w := .nil) (by omega)]
      simp only [Option.bind_eq_bind, Option.bind_some]
      rw [hplace]
      exact hrest
    · rw [Nat.add_right_comm, Nat.add_assoc] at hi₂
      exact hi₂

/-- `$shape_index` indexes the keys, with room to spare. -/
theorem shapeIndex_spec {keys : List Val} {n : ℕ} (h : n ≤ keys.length) :
    ∃ idx mask, shapeIndex keys n = some (idx, mask) ∧ mask + 1 = indexCap n ∧
      Indexed idx mask (fun q => home mask (luaHash (keys.getD q .nil))) n := by
  obtain ⟨hcap, h8, b, hb⟩ := indexCap_spec n
  have hmask : indexCap n - 1 + 1 = indexCap n := by omega
  have hempty : Indexed (List.replicate (indexCap n - 1 + 1) 0) (indexCap n - 1)
      (fun q => home (indexCap n - 1) (luaHash (keys.getD q .nil))) 0 :=
    Indexed.empty ⟨b, by omega⟩
  obtain ⟨idx, hplace, hi⟩ := placeKeys_spec n 0 _ hempty (by omega) (by omega)
  rw [Nat.zero_add] at hi
  refine ⟨idx, indexCap n - 1, ?_, hmask, hi⟩
  unfold shapeIndex
  rw [hmask] at hplace
  simp only [hplace, Option.bind_eq_bind, Option.bind_some]
  rfl

/-! ## Shared shapes -/

/-- The shape `ch` has the keys of `p` and then `k`. -/
structure ChildOf (p : Shape) (k : Val) (ch : Shape) : Prop where
  /-- One key more. -/
  n : ch.n = p.n + 1
  /-- The keys of the parent. -/
  keys : ∀ i < p.n, ch.key i = p.key i
  /-- The key that is added. -/
  last : ch.key p.n = k

/-- The invariant of the shared shapes. -/
structure ShapesOk (shapes : List SharedShape) : Prop where
  /-- Each is well formed. -/
  wf : ∀ (r : ℕ) (sh : SharedShape), shapes[r]? = some sh → ShapeWf sh.toShape
  /-- The first is the empty shape. -/
  root : ∃ sh, shapes[0]? = some sh ∧ sh.n = 0
  /-- The two arrays of a transition cache go together. -/
  kids : ∀ (r : ℕ) (sh : SharedShape), shapes[r]? = some sh → ∀ tk, sh.tkeys = some tk →
    0 < tk.length ∧ ∃ kids, sh.tkids = some kids ∧ kids.length = tk.length
  /-- An entry of a transition cache leads to the shape that adds its key. -/
  cache : ∀ (r : ℕ) (sh : SharedShape), shapes[r]? = some sh → ∀ tk kids,
    sh.tkeys = some tk → sh.tkids = some kids → ∀ i < tk.length, tk.getD i .nil ≠ .nil →
    ∃ (c : ℕ) (ch : SharedShape), kids[i]? = some (some c) ∧ shapes[c]? = some ch ∧
      ChildOf sh.toShape (tk.getD i .nil) ch.toShape

/-- The shapes that were there are still there, with the same keys and the same index. -/
def Grows (shapes shapes' : List SharedShape) : Prop :=
  ∀ (r : ℕ) (sh : SharedShape), shapes[r]? = some sh →
    ∃ sh', shapes'[r]? = some sh' ∧ sh'.toShape = sh.toShape

variable {shapes shapes' shapes'' : List SharedShape}

theorem Grows.refl : Grows shapes shapes := fun _ sh h => ⟨sh, h, rfl⟩

theorem Grows.trans (h : Grows shapes shapes') (h' : Grows shapes' shapes'') :
    Grows shapes shapes'' := fun r sh hr => by
  obtain ⟨sh', hr', heq⟩ := h r sh hr
  obtain ⟨sh'', hr'', heq'⟩ := h' r sh' hr'
  exact ⟨sh'', hr'', heq'.trans heq⟩

/-- The empty shape is well formed. -/
theorem shapeWf_root : ShapeWf rootShape.toShape where
  room := Nat.le_refl 0
  normal i hi := absurd hi (Nat.not_lt_zero i)
  distinct i hi := absurd hi (Nat.not_lt_zero i)
  used := rfl
  half := Nat.zero_le _
  slots := Nat.le_refl 8
  indexed := Indexed.empty ⟨3, rfl⟩

/-- At first there is the empty shape alone. -/
theorem shapesOk_root : ShapesOk [rootShape] := by
  have honly : ∀ (r : ℕ) (sh : SharedShape), [rootShape][r]? = some sh → sh = rootShape := by
    intro r sh h
    have hmem := List.mem_of_getElem? h
    simpa using hmem
  constructor
  · intro r sh h
    rw [honly r sh h]
    exact shapeWf_root
  · exact ⟨rootShape, rfl, rfl⟩
  · intro r sh h tk htk
    rw [honly r sh h] at htk ⊢
    cases htk
    exact ⟨by decide, _, rfl, rfl⟩
  · intro r sh h tk kids htk _ i hi hne
    rw [honly r sh h] at htk
    cases htk
    -- nothing is in the cache yet
    refine absurd ?_ hne
    rw [List.getD_eq_getElem?_getD, List.getElem?_replicate]
    split <;> rfl

/-- The shape that `$shape_child` builds is the child. -/
theorem childShape_spec {p : Shape} (wf : ShapeWf p) (hk : Normal k)
    (hnew : ∀ i < p.n, canon (p.key i) ≠ canon k) :
    ∃ ch, childShape p k = some ch ∧ ShapeWf ch.toShape ∧ ChildOf p k ch.toShape ∧
      ch.tkeys = none ∧ ch.tkids = none := by
  have hroom := wf.room
  have hle : p.n ≤ p.n + 1 := Nat.le_succ p.n
  obtain ⟨keys, hkeys⟩ : ∃ keys,
      keys = (p.keys.take p.n ++ List.replicate (p.n + 1 - p.n) Val.nil).set p.n k := ⟨_, rfl⟩
  have hlen₀ : (p.keys.take p.n ++ List.replicate (p.n + 1 - p.n) Val.nil).length = p.n + 1 :=
    length_copy hroom hle
  have hlen : keys.length = p.n + 1 := by
    rw [hkeys, List.length_set, hlen₀]
  -- the keys of the parent are copied, and the new one comes last
  have hold : ∀ i < p.n, keys.getD i .nil = p.key i := by
    intro i hi
    rw [hkeys, getD_set (by omega), if_neg (by omega), getD_copy hi hroom]
    rfl
  have hlast : keys.getD p.n .nil = k := by
    rw [hkeys, getD_set (by omega), if_pos rfl]
  obtain ⟨idx, mask, hindex, hmask, hindexed⟩ :=
    shapeIndex_spec (show p.n + 1 ≤ keys.length by omega)
  obtain ⟨hcap, h8, -⟩ := indexCap_spec (p.n + 1)
  refine ⟨⟨⟨keys, idx, mask, p.n + 1, p.n + 1⟩, none, none⟩, ?_, ?_, ?_, rfl, rfl⟩
  · unfold childShape
    simp only [arrayCopy_new hroom hle, Option.bind_eq_bind, Option.bind_some]
    rw [setAt_of_lt (by omega), ← hkeys]
    simp only [Option.bind_some, hindex]
    rfl
  · constructor
    · change p.n + 1 ≤ keys.length
      omega
    · intro i hi
      change Normal (keys.getD i .nil)
      obtain hlt | rfl := Nat.lt_succ_iff_lt_or_eq.mp hi
      · rw [hold i hlt]
        exact wf.normal i hlt
      · rw [hlast]
        exact hk
    · intro i hi j hj hc
      change canon (keys.getD i .nil) = canon (keys.getD j .nil) at hc
      obtain hi' | rfl := Nat.lt_succ_iff_lt_or_eq.mp hi <;>
        obtain hj' | rfl := Nat.lt_succ_iff_lt_or_eq.mp hj
      · rw [hold i hi', hold j hj'] at hc
        exact wf.distinct i hi' j hj' hc
      · rw [hold i hi', hlast] at hc
        exact absurd hc (hnew i hi')
      · rw [hold j hj', hlast] at hc
        exact absurd hc.symm (hnew j hj')
      · rfl
    · rfl
    · change 2 * (p.n + 1) ≤ mask + 1
      omega
    · change 8 ≤ mask + 1
      omega
    · exact hindexed
  · exact ⟨rfl, hold, hlast⟩

theorem cacheSlot_lt {tk : List Val} (h : 0 < tk.length) (full : UInt32) :
    cacheSlot tk full < tk.length := by
  have hle : cacheSlot tk full ≤ tk.length - 1 := Nat.and_le_right
  omega

/-- The shapes after one of them gets another transition cache and a shape is added. -/
theorem getElem?_set_append {r q : ℕ} {p' ch x : SharedShape} (hr : r < shapes.length) :
    (shapes.set r p' ++ [ch])[q]? = some x ↔
      (q = r ∧ x = p') ∨ (q ≠ r ∧ shapes[q]? = some x) ∨ (q = shapes.length ∧ x = ch) := by
  obtain hlt | rfl | hgt := Nat.lt_trichotomy q shapes.length
  · rw [List.getElem?_append_left (by rw [List.length_set]; exact hlt)]
    by_cases hq : q = r
    · subst hq
      rw [List.getElem?_set_self hr]
      simp [Nat.ne_of_lt hlt, eq_comm]
    · rw [List.getElem?_set_ne (Ne.symm hq)]
      simp [hq, Nat.ne_of_lt hlt]
  · rw [List.getElem?_append_right (by rw [List.length_set])]
    simp [Nat.ne_of_gt hr, eq_comm]
  · rw [List.getElem?_eq_none (by simp; omega), List.getElem?_eq_none (by omega)]
    simp
    omega

/-- The end of `$shape_child`: the child is new, and the cache leads to it. -/
theorem shapeAdd_spec {r : ℕ} {p : SharedShape} (hok : ShapesOk shapes) (hp : shapes[r]? = some p)
    (hk : Normal k) (hnew : ∀ i < p.n, canon (p.key i) ≠ canon k) (full : UInt32) :
    ∃ c shapes' ch, shapeAdd shapes r k full = some (c, shapes') ∧ ShapesOk shapes' ∧
      Grows shapes shapes' ∧ shapes'[c]? = some ch ∧ ChildOf p.toShape k ch.toShape := by
  obtain ⟨ch, hch, hchwf, hchild, hchtk, hchkids⟩ := childShape_spec (hok.wf r p hp) hk hnew
  have hr : r < shapes.length := (List.getElem?_eq_some_iff.mp hp).1
  -- the cache, which is made if it was not there
  obtain ⟨tk, kids, htk, hkids, htklen, hlen, hold⟩ : ∃ tk kids,
      tk = p.tkeys.getD (List.replicate 8 .nil) ∧
      cacheKids p = some kids ∧
      0 < tk.length ∧ kids.length = tk.length ∧
      (∀ i < tk.length, tk.getD i .nil ≠ .nil → ∃ (c : ℕ) (ch : SharedShape),
        kids[i]? = some (some c) ∧ shapes[c]? = some ch ∧
          ChildOf p.toShape (tk.getD i .nil) ch.toShape) := by
    unfold cacheKids
    cases htk : p.tkeys with
    | none =>
      refine ⟨_, _, rfl, rfl, by simp, by simp, fun i hi hne => absurd ?_ hne⟩
      rw [Option.getD_none, List.getD_eq_getElem?_getD, List.getElem?_replicate]
      split <;> rfl
    | some tk =>
      obtain ⟨hpos, kids, hkids, hlen⟩ := hok.kids r p hp tk htk
      exact ⟨tk, kids, rfl, by simp [hkids], hpos, hlen, hok.cache r p hp tk kids htk hkids⟩
  have hslot := cacheSlot_lt htklen full
  obtain ⟨p', hp'⟩ : ∃ p' : SharedShape, p' = { p with
      tkeys := some (tk.set (cacheSlot tk full) k),
      tkids := some (kids.set (cacheSlot tk full) (some shapes.length)) } := ⟨_, rfl⟩
  have hp'shape : p'.toShape = p.toShape := by rw [hp']
  have hgrows : Grows shapes (shapes.set r p' ++ [ch]) := by
    intro q sh hq
    by_cases hqr : q = r
    · refine ⟨p', (getElem?_set_append hr).mpr (Or.inl ⟨hqr, rfl⟩), ?_⟩
      rw [hqr, hp] at hq
      cases hq
      exact hp'shape
    · exact ⟨sh, (getElem?_set_append hr).mpr (Or.inr (Or.inl ⟨hqr, hq⟩)), rfl⟩
  have hlast : (shapes.set r p' ++ [ch])[shapes.length]? = some ch :=
    (getElem?_set_append hr).mpr (Or.inr (Or.inr ⟨rfl, rfl⟩))
  refine ⟨shapes.length, shapes.set r p' ++ [ch], ch, ?_, ?_, hgrows, hlast, hchild⟩
  · unfold shapeAdd
    simp only [hp, hch, hkids, ← htk, Option.bind_eq_bind, Option.bind_some]
    rw [setAt_of_lt hslot, setAt_of_lt (by omega), hp']
    rfl
  · constructor
    · intro q sh hq
      obtain ⟨-, rfl⟩ | ⟨-, hq⟩ | ⟨-, rfl⟩ := (getElem?_set_append hr).mp hq
      · rw [hp'shape]
        exact hok.wf r p hp
      · exact hok.wf q sh hq
      · exact hchwf
    · obtain ⟨root, hroot, hn⟩ := hok.root
      obtain ⟨root', hroot', heq⟩ := hgrows 0 root hroot
      exact ⟨root', hroot', by rw [heq]; exact hn⟩
    · intro q sh hq tk' htk'
      obtain ⟨-, rfl⟩ | ⟨-, hq⟩ | ⟨-, rfl⟩ := (getElem?_set_append hr).mp hq
      · rw [hp'] at htk' ⊢
        cases htk'
        refine ⟨?_, _, rfl, ?_⟩
        · rw [List.length_set]
          exact htklen
        · rw [List.length_set, List.length_set]
          exact hlen
      · exact hok.kids q sh hq tk' htk'
      · rw [hchtk] at htk'
        cases htk'
    · -- an old entry leads to a shape that is still there
      have hkeep : ∀ (kd : List (Option ℕ)) (i : ℕ) (par : Shape) (x : Val),
          (∃ (c : ℕ) (ch : SharedShape), kd[i]? = some (some c) ∧ shapes[c]? = some ch ∧
            ChildOf par x ch.toShape) →
          ∃ (c : ℕ) (ch' : SharedShape), kd[i]? = some (some c) ∧
            (shapes.set r p' ++ [ch])[c]? = some ch' ∧ ChildOf par x ch'.toShape := by
        rintro kd i par x ⟨c, ch₁, hkd, hc, hchild₁⟩
        obtain ⟨ch₂, hc₂, heq⟩ := hgrows c ch₁ hc
        exact ⟨c, ch₂, hkd, hc₂, by rw [heq]; exact hchild₁⟩
      intro q sh hq tk' kids' htk' hkids' i hi hne
      obtain ⟨-, rfl⟩ | ⟨-, hq⟩ | ⟨-, rfl⟩ := (getElem?_set_append hr).mp hq
      · rw [hp'] at htk' hkids'
        cases htk'
        cases hkids'
        rw [hp'shape]
        rw [List.length_set] at hi
        rw [getD_set hslot] at hne ⊢
        by_cases his : i = cacheSlot tk full
        · rw [if_pos his, his]
          exact ⟨shapes.length, ch, List.getElem?_set_self (by omega), hlast, hchild⟩
        · rw [if_neg his] at hne ⊢
          rw [List.getElem?_set_ne (Ne.symm his)]
          exact hkeep _ _ _ _ (hold i hi hne)
      · exact hkeep _ _ _ _ (hok.cache q sh hq tk' kids' htk' hkids' i hi hne)
      · rw [hchtk] at htk'
        cases htk'

/-- `$shape_child` gives the child of the shape, from the cache or new. -/
theorem shapeChild_spec {r : ℕ} {p : SharedShape} (hok : ShapesOk shapes) (hp : shapes[r]? = some p)
    (hk : Normal k) (hnew : ∀ i < p.n, canon (p.key i) ≠ canon k) (full : UInt32) :
    ∃ c shapes' ch, shapeChild shapes r k full = some (c, shapes') ∧ ShapesOk shapes' ∧
      Grows shapes shapes' ∧ shapes'[c]? = some ch ∧ ChildOf p.toShape k ch.toShape := by
  have hadd := shapeAdd_spec hok hp hk hnew full
  cases htk : p.tkeys with
  | none =>
    have hred : shapeChild shapes r k full = shapeAdd shapes r k full := by
      unfold shapeChild
      simp only [hp, htk, Option.bind_eq_bind, Option.bind_some]
    rw [hred]
    exact hadd
  | some tk =>
    obtain ⟨hpos, kids, hkids, hlen⟩ := hok.kids r p hp tk htk
    have hslot := cacheSlot_lt hpos full
    have hget : tk[cacheSlot tk full]? = some (tk.getD (cacheSlot tk full) .nil) := getElem?_of_lt hslot
    by_cases hck : tk.getD (cacheSlot tk full) .nil = k
    · -- this key object was added to this shape before
      have hne : k ≠ .nil := by
        rintro rfl
        exact hk
      obtain ⟨c, ch, hkid, hc, hchild⟩ :=
        hok.cache r p hp tk kids htk hkids (cacheSlot tk full) hslot (by rw [hck]; exact hne)
      rw [hck] at hchild
      refine ⟨c, shapes, ch, ?_, hok, Grows.refl, hc, hchild⟩
      rw [hck] at hget
      unfold shapeChild
      simp only [hp, htk, hget, hkids, hkid, Option.bind_eq_bind, Option.bind_some]
      rw [if_pos (by simp [refEq])]
      rfl
    · have hred : shapeChild shapes r k full = shapeAdd shapes r k full := by
        unfold shapeChild
        simp only [hp, htk, hget, Option.bind_eq_bind, Option.bind_some]
        rw [if_neg (by simpa [refEq] using hck)]
      rw [hred]
      exact hadd

end Lua2wasm.Table
