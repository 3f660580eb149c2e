import Lua2wasm.Table.TableLib

/-!
# All tables of a program

A program has many tables, and they share shapes: a store to one table may add a shape that another
one moves to later. `World` is the shared shapes and all tables. A step is a raw write to one of them
(`RawWrite`) or one of the calls that make tables (`WorldOp`), and `World.Reachable` is what any
sequence of steps leads to, those that raise an error included.

Every step keeps the shared shapes and every table in order (`World.Ok`), because a shared shape
never changes once other tables may use it.
-/

namespace Lua2wasm.Table

open Raising

/-- A raw write to a table without a metatable. -/
inductive RawWrite
  /-- `$tab_set`. -/
  | set (k v : Val)
  /-- `$tab_set_ik`. -/
  | setIk (i : Int64) (v : Val)
  /-- `$tab_set_hash_str`, with the hash of the constant string. -/
  | setStr (obj : ℕ) (bytes : List UInt8) (v : Val)
  /-- `$lua_tabset_ik_f`, which stores in the array part or calls `$tab_set_f_hash`. -/
  | setIkF (i : Int64) (f : F64)
  /-- `$tab_set_f_hash_str`, with the hash of the constant string. -/
  | setStrF (obj : ℕ) (bytes : List UInt8) (f : F64)
  /-- `table.insert(t, v)`. -/
  | append (v : Val)
  /-- `table.insert(t, pos, v)`. -/
  | insert (pos : Int64) (v : Val)
  /-- `table.remove(t)` and `table.remove(t, pos)`. -/
  | remove (pos : Option Int64)
  deriving DecidableEq, Repr

/-- The runtime's write. -/
def RawWrite.run : RawWrite → TabM Unit
  | .set k v => tabSet k v
  | .setIk i v => tabSetIk i v
  | .setStr o x v => tabSetHashStr (.str o x) (luaHash (.str o x)) v
  | .setIkF i f => tabsetIkF i f
  | .setStrF o x f => tabSetFHashStr (.str o x) (luaHash (.str o x)) f
  | .append v => tableAppend v
  | .insert pos v => tableInsert pos v
  | .remove pos => do
    let _ ← tableRemove pos
    pure ()

/-- What the write is for a finite map. -/
def RawWrite.mapOp : RawWrite → MapOp
  | .set k v => .set (canon k) v
  | .setIk i v => .set (some (.int i)) v
  | .setStr _ x v => .set (some (.str x)) v
  | .setIkF i f => .set (some (.int i)) (.float f)
  | .setStrF _ x f => .set (some (.str x)) (.float f)
  | .append v => .append v
  | .insert pos v => .insert pos.toInt v
  | .remove pos => .remove (pos.map Int64.toInt)

/-- The condition on the table before the write. -/
def RawWrite.Clean (s : TabState) : RawWrite → Prop
  | .set k v => KeyClean s k (.val v)
  | .setIk i v => StoreClean s i (.val v)
  | .setIkF i _ => StoreClean s i .mark
  | .append v => TableAppendClean s v
  | .insert pos v => InsertClean s pos v
  | .remove pos => RemoveClean s pos
  | _ => True

/-- The shared shapes and all tables. -/
structure World where
  /-- The shared shapes. -/
  shapes : List SharedShape
  /-- The tables, in the order of their creation. -/
  tables : List LuaTable

/-- The start of a program. -/
def World.init : World where
  shapes := [rootShape]
  tables := []

/-- The state of one table. -/
def World.state (w : World) (t : LuaTable) : TabState where
  shapes := w.shapes
  t := t

/-- A step of a program. -/
inductive WorldOp
  /-- `$tab_new`. -/
  | new
  /-- `$tab_new_arr`. -/
  | newArr (a : List Val)
  /-- `$shape_for_keys`. -/
  | shapeFor (ks : List Val)
  /-- `$tab_new_shaped`. -/
  | newShaped (r : ℕ)
  /-- A raw write to the table `i`. -/
  | write (i : ℕ) (op : RawWrite)
  /-- `$tab_put_pos`. -/
  | putPos (i pos : ℕ) (v : Val)
  /-- `$tab_put_pos_f`. -/
  | putPosF (i pos : ℕ) (f : F64)
  /-- `$tab_reserve_hash`. -/
  | reserveHash (i cap : ℕ)
  /-- `$arr_ensure`, as `table.create` calls it. -/
  | reserveArr (i need : ℕ)
  /-- `$tab_bootstrap_set`. -/
  | bootstrap (i obj : ℕ) (bytes : List UInt8) (v : Val)

/-- `CTOR_SHAPE_MAX`. -/
def ctorShapeMax : ℕ := 32

/-- The end of a step that makes a table. -/
def World.add (w : World) (x : TabM Unit) (t : LuaTable) : Except Fault Unit × World :=
  match (x.run (w.state t) : Except Fault Unit × TabState) with
  | (r, s) => (r, { shapes := s.shapes, tables := w.tables ++ [s.t] })

/-- A step on the table `i`. -/
def World.onTable (w : World) (i : ℕ) (x : TabM Unit) : Option (Except Fault Unit × World) :=
  match w.tables[i]? with
  | none => none
  | some t =>
    match (x.run (w.state t) : Except Fault Unit × TabState) with
    | (r, s) => some (r, { shapes := s.shapes, tables := w.tables.set i s.t })

/-- A step, with its result. There is none if there is no such table. -/
def World.step (w : World) : WorldOp → Option (Except Fault Unit × World)
  | .new => some (w.add (pure ()) tabNew)
  | .newArr a => some (w.add (tabNewArr a) tabNew)
  | .shapeFor ks =>
    match shapeForKeys w.shapes 0 ks with
    | none => some (.error .stuck, w)
    | some (_, shapes) => some (.ok (), { w with shapes })
  | .newShaped r =>
    match tabNewShaped w.shapes r with
    | none => some (.error .stuck, w)
    | some t => some (w.add (pure ()) t)
  | .write i op => w.onTable i op.run
  | .putPos i pos v => w.onTable i (tabPutPos pos v)
  | .putPosF i pos f => w.onTable i (tabPutPosF pos f)
  | .reserveHash i cap => w.onTable i (tabReserveHash cap)
  | .reserveArr i need => w.onTable i (arrEnsure need)
  | .bootstrap i o x v => w.onTable i (tabBootstrapSet (.str o x) v)

/-- What the callers see to: the field names of a constructor with a shape are at most 32 different
strings (`ctor_shape_fields`), `$tab_bootstrap_set` gets a key that is absent (`$stdlib_init`), and
the length of an array is a number of 32 bits. -/
def WorldOp.Legal (w : World) : WorldOp → Prop
  | .newArr a => a.length < 2^31
  | .shapeFor ks => (∀ k ∈ ks, k.isStr = true) ∧ (ks.map canon).Nodup
  | .newShaped r => ∃ sh, w.shapes[r]? = some sh ∧ sh.n ≤ ctorShapeMax
  | .reserveArr _ need => need < 2^31
  | .bootstrap i o x _ => ∀ t, w.tables[i]? = some t → ∀ sh, (w.state t).shape = some sh →
    tabFind sh (.str o x) = some none
  | _ => True

/-- A state that a program can reach. A step that traps, or never ends, leads to none. -/
inductive World.Reachable : World → Prop
  /-- The start. -/
  | init : World.Reachable World.init
  /-- A step. -/
  | step {w w' : World} {op : WorldOp} {r : Except Fault Unit} (h : World.Reachable w)
    (hl : op.Legal w) (hs : w.step op = some (r, w')) (hr : r ≠ .error .stuck) : World.Reachable w'

/-- The shared shapes and all tables are in order. -/
structure World.Ok (w : World) : Prop where
  /-- The shared shapes. -/
  shapes : ShapesOk w.shapes
  /-- The tables. -/
  tables : ∀ t ∈ w.tables, TabOk (w.state t) none

variable {s s' : TabState} {sh : Shape} {shapes shapes' : List SharedShape} {t : LuaTable} {w w' : World}
  {key : Key} {v : Val} {k : Val} {i n pos : ℕ}

/-! ## Other tables -/

/-- A table finds the same shape when the shared shapes have grown. -/
theorem shape_of_grows (hg : Grows shapes shapes') (h : (TabState.mk shapes t).shape = some sh) :
    (TabState.mk shapes' t).shape = some sh := by
  cases ht : t.shape with
  | own sh' =>
    rw [shape_of_own ht] at h
    rw [shape_of_own ht]
    exact h
  | shared r =>
    obtain ⟨p, hp, rfl⟩ := shape_of_shared ht h
    obtain ⟨p', hp', heq⟩ := hg r p hp
    change shapes'[r]? = some p' at hp'
    unfold TabState.shape
    simp only [ht, hp', Option.map_some, heq]

theorem TabOk.of_grows (hok : TabOk (TabState.mk shapes t) none) (hg : Grows shapes shapes')
    (hs : ShapesOk shapes') : TabOk (TabState.mk shapes' t) none where
  hash := by
    obtain ⟨sh, hash⟩ := hok.hash
    exact ⟨sh, hs, shape_of_grows hg hash.shape, hash.wf, hash.vals, hash.small, hash.fvals,
      hash.marked, hash.own⟩
  arr := hok.arr

theorem hget_of_grows (hok : TabOk (TabState.mk shapes t) none) (hg : Grows shapes shapes') (key : Key) :
    (TabState.mk shapes' t).hget key = (TabState.mk shapes t).hget key := by
  obtain ⟨sh, hash⟩ := hok.hash
  rw [hget_of_shape hash.shape, hget_of_shape (shape_of_grows hg hash.shape)]

theorem tget_of_grows (hok : TabOk (TabState.mk shapes t) none) (hg : Grows shapes shapes') (key : Key) :
    (TabState.mk shapes' t).tget key = (TabState.mk shapes t).tget key := by
  cases key with
  | int i =>
    unfold TabState.tget
    dsimp only
    rw [hget_of_grows hok hg]
  | _ => exact hget_of_grows hok hg _

/-! ## The calls that make tables -/

theorem tabOk_new (h : ShapesOk shapes) : TabOk (TabState.mk shapes tabNew) none := by
  obtain ⟨root, hroot, hn⟩ := h.root
  refine ⟨⟨root.toShape, h, ?_, h.wf 0 root hroot, ?_, Nat.zero_le _, ?_, ?_, ?_⟩, ?_, ?_, ?_, ?_, ?_⟩
  · unfold TabState.shape tabNew
    simp only [hroot, Option.map_some]
  · rw [hn]
    exact Nat.zero_le _
  · intro fa hfa
    cases hfa
  · intro i hi
    rw [hn] at hi
    exact absurd hi (Nat.not_lt_zero i)
  · intro sh' hsh
    cases hsh
  · exact Nat.zero_le _
  · intro n hn
    cases hn
  · intro fa hfa
    cases hfa
  · intro i hi
    exact absurd hi (Nat.not_lt_zero i)
  · exact Nat.two_pow_pos 31

/-- `$shape_for_keys` leaves the shapes in order. -/
theorem shapeForKeys_spec : ∀ (ks : List Val) (shapes : List SharedShape) (r : ℕ) (p : SharedShape),
    ShapesOk shapes → shapes[r]? = some p → (∀ k ∈ ks, k.isStr = true) → (ks.map canon).Nodup →
    (∀ k ∈ ks, ∀ i < p.n, canon (p.key i) ≠ canon k) →
    ∃ r' shapes', shapeForKeys shapes r ks = some (r', shapes') ∧ ShapesOk shapes' ∧
      Grows shapes shapes' := by
  intro ks
  induction ks with
  | nil => exact fun shapes r p hok _ _ _ _ => ⟨r, shapes, rfl, hok, Grows.refl⟩
  | cons k ks ih =>
    intro shapes r p hok hp hstr hnodup hnew
    have hk : Normal k := by
      have h := hstr k List.mem_cons_self
      cases k with
      | str o x => trivial
      | _ => cases h
    rw [List.map_cons, List.nodup_cons] at hnodup
    obtain ⟨c, shapes₁, ch, hchild, hok₁, hgrows₁, hch, hof⟩ :=
      shapeChild_spec hok hp hk (hnew k List.mem_cons_self) (luaHash k)
    -- the keys that are still to come are not those of the child
    have hnew₁ : ∀ k' ∈ ks, ∀ i < ch.n, canon (ch.key i) ≠ canon k' := by
      intro k' hk' i hi
      rw [hof.n] at hi
      obtain hlt | rfl := Nat.lt_succ_iff_lt_or_eq.mp hi
      · rw [hof.keys i hlt]
        exact hnew k' (List.mem_cons_of_mem k hk') i hlt
      · rw [hof.last]
        intro heq
        apply hnodup.1
        rw [heq]
        exact List.mem_map_of_mem hk'
    obtain ⟨r', shapes', hrest, hok', hgrows'⟩ := ih shapes₁ c ch hok₁ hch
      (fun k' hk' => hstr k' (List.mem_cons_of_mem k hk')) hnodup.2 hnew₁
    refine ⟨r', shapes', ?_, hok', hgrows₁.trans hgrows'⟩
    unfold shapeForKeys
    simp only [hchild, Option.bind_eq_bind, Option.bind_some]
    exact hrest

/-- `$tab_new_shaped`. -/
theorem tabNewShaped_spec {r : ℕ} {p : SharedShape} (h : ShapesOk shapes) (hp : shapes[r]? = some p)
    (hn : p.n ≤ ctorShapeMax) :
    ∃ t, tabNewShaped shapes r = some t ∧ TabOk (TabState.mk shapes t) none := by
  refine ⟨{ tabNew with shape := .shared r, vals := some (List.replicate p.n (.val .nil)) }, ?_, ?_⟩
  · unfold tabNewShaped
    simp only [hp, Option.bind_eq_bind, Option.bind_some]
    rfl
  refine ⟨⟨p.toShape, h, ?_, h.wf r p hp, ?_, ?_, ?_, ?_, ?_⟩, ?_, ?_, ?_, ?_, ?_⟩
  · unfold TabState.shape
    simp only [hp, Option.map_some]
  · change p.n ≤ (List.replicate p.n (Slot.val .nil)).length
    rw [List.length_replicate]
  · change (List.replicate p.n (Slot.val .nil)).length ≤ valsMax
    rw [List.length_replicate]
    unfold ctorShapeMax at hn
    unfold valsMax
    omega
  · intro fa hfa
    cases hfa
  · intro i hi _ hmark
    have hslot : (List.replicate p.n (Slot.val .nil)).getD i (.val .nil) = .mark := hmark
    rw [List.getD_eq_getElem?_getD, List.getElem?_replicate] at hslot
    split at hslot <;> cases hslot
  · intro sh' hsh
    cases hsh
  · exact Nat.zero_le _
  · intro n hn
    cases hn
  · intro fa hfa
    cases hfa
  · intro i hi
    exact absurd hi (Nat.not_lt_zero i)
  · exact Nat.two_pow_pos 31

/-- A step that keeps the table in order. -/
structure Kept (s s' : TabState) : Prop where
  /-- The table is in order. -/
  ok : TabOk s' none
  /-- No shared shape changed. -/
  grows : Grows s.shapes s'.shapes

theorem Unchanged.kept (h : Unchanged s s') (hok : TabOk s none) (hash : HashOk s' sh none) : Kept s s' :=
  ⟨⟨⟨sh, hash⟩, h.toFrame.arrOk hok.arr⟩, h.grows⟩

/-- `$tab_put_pos`, within the value array. A position that has no key is never read. -/
theorem tabPutPos_spec (hok : TabOk s none) (hpos : pos < lengthOf s.t.vals) (v : Val) :
    Ensures (tabPutPos pos v) s (fun _ s' => Kept s s') := by
  obtain ⟨sh, hash⟩ := hok.hash
  unfold tabPutPos
  refine (setVal_written hash hpos (.val v)).imp ?_
  intro _ s' h
  have hash' := h.ok.of_skip (by rw [h.slot]; simp)
  exact ⟨⟨⟨sh, hash'⟩, h.toFrame.arrOk hok.arr⟩, h.grows⟩

/-- `$tab_put_pos_f`, within the value array. -/
theorem tabPutPosF_spec (hok : TabOk s none) (hpos : pos < lengthOf s.t.vals) (f : F64) :
    Ensures (tabPutPosF pos f) s (fun _ s' => Kept s s') := by
  obtain ⟨sh, hash⟩ := hok.hash
  unfold tabPutPosF
  apply (setVal_written hash hpos .mark).bind
  intro _ s₁ h
  have hpos₁ : pos < lengthOf s₁.t.vals := by
    rw [h.len]
    exact hpos
  refine (setFval_spec h.ok hpos₁ h.slot).imp ?_
  rintro _ s' ⟨hframe, hash', -⟩
  have hframe' := h.toFrame.trans hframe
  exact ⟨⟨⟨sh, hash'⟩, hframe'.arrOk hok.arr⟩, hframe'.grows⟩

/-- Outside the value array, `$tab_put_pos` traps. -/
theorem setVal_out (hpos : lengthOf s.t.vals ≤ pos) (w : Slot) :
    Meets (setVal pos w) s (fun _ _ => False) (fun e _ => e = .stuck) := by
  unfold setVal
  apply meets_get_bind
  cases hv : s.t.vals with
  | none => exact (meets_throw rfl : Meets (throw Fault.stuck) s (fun _ _ => False) _).bind fun _ _ h => h.elim
  | some vals =>
    rw [hv, lengthOf_some] at hpos
    apply meets_orStuck rfl
    have hset : setAt vals pos w = none := by
      unfold setAt
      rw [if_neg (by omega)]
    rw [hset]
    exact (meets_throw rfl : Meets (throw Fault.stuck) s (fun _ _ => False) _).bind fun _ _ h => h.elim

/-- `$tab_reserve_hash`. -/
theorem tabReserveHash_spec (hok : TabOk s none) (cap : ℕ) :
    Meets (tabReserveHash cap) s (fun _ s' => Kept s s') (fun e s' => e ≠ .stuck ∧ Kept s s') := by
  obtain ⟨sh, hash⟩ := hok.hash
  have hover : tableOverflow ≠ .stuck := by simp [tableOverflow]
  unfold tabReserveHash
  apply (tabOwn_spec hash).bind_safe
  rintro _ s₁ ⟨hun₁, sh₁, hown₁, hash₁, -⟩
  have hroom := hash₁.wf.room
  have h4 := hash₁.own sh₁ hown₁
  have hkeys : Meets (keysReserve cap) s₁
      (fun _ s₂ => Unchanged s₁ s₂ ∧ ∃ sh₂, s₂.t.shape = .own sh₂ ∧ HashOk s₂ sh₂ none)
      (fun e s₂ => e ≠ .stuck ∧ s₂ = s₁) := by
    unfold keysReserve
    apply meets_getOwnShape hown₁
    split
    · exact meets_pure ⟨Unchanged.refl, sh₁, hown₁, hash₁⟩
    split
    · exact meets_throw ⟨hover, rfl⟩
    · refine (ownKeys_spec hash₁ (c := cap) (by omega) (by omega)).mono ?_ fun _ _ h => h.elim
      rintro _ s₂ ⟨hun₂, sh₂, hown₂, hash₂, -⟩
      exact ⟨hun₂, sh₂, hown₂, hash₂⟩
  apply (hkeys.imp_error ?_).bind
  · rintro _ s₂ ⟨hun₂, sh₂, -, hash₂⟩
    have hun := hun₁.trans hun₂ hash₁.shape
    refine (valsReserve_spec hash₂ cap).mono ?_ ?_
    · rintro _ s' ⟨hres, hash', -⟩
      exact (hun.trans (hres.unchanged hash₂.shape) hash₂.shape).kept hok hash'
    · rintro e _ ⟨he, rfl, -⟩
      rw [he]
      exact ⟨hover, hun.kept hok hash₂⟩
  · rintro e s₂ ⟨he, rfl⟩
    exact ⟨he, hun₁.kept hok hash₁⟩

/-- `$arr_ensure`. -/
theorem arrEnsure_kept {need : ℕ} (hok : TabOk s none) (hneed : need < 2^31) :
    Ensures (arrEnsure need) s (fun _ s' => Kept s s') := by
  obtain ⟨sh, hash⟩ := hok.hash
  refine (arrEnsure_spec hok.arr hneed).imp ?_
  rintro _ s' ⟨hg, -⟩
  exact ⟨⟨⟨sh, hg.toHashSame.hashOk hash⟩, hg.arrOk hok.arr⟩, hg.toHashSame.grows⟩

/-- `$tab_bootstrap_set`, of a key that is absent. -/
theorem tabBootstrapSet_spec (hok : TabOk s none) (hash : HashOk s sh none) (hk : Normal k)
    (hc : canon k = some key) (habsent : sh.pos key = none) (v : Val) :
    Meets (tabBootstrapSet k v) s (fun _ s' => Kept s s') (fun e s' => e ≠ .stuck ∧ Kept s s') := by
  unfold tabBootstrapSet
  apply (tabOwn_spec hash).bind_safe
  rintro _ s₁ ⟨hun₁, sh₁, hown₁, hash₁, -⟩
  have habsent₁ := hun₁.absent sh sh₁ hash.shape hash₁.shape key habsent
  refine (tabInsertOwned_spec hash₁ hown₁ hk hc habsent₁ (.val v)).mono ?_ ?_
  · intro _ s' h
    have hset := (Inserted.of_unchanged hun₁ hash₁.shape h).hashSet
    exact ⟨⟨hset.ok, hset.toFrame.arrOk hok.arr⟩, hset.grows⟩
  · intro e s' h
    obtain ⟨sh', hash'⟩ := h.ok
    refine ⟨?_, (hun₁.trans h.toUnchanged hash₁.shape).kept hok hash'⟩
    rw [h.error]
    simp [tableOverflow]

/-- The array part declines a key past its end. -/
theorem tabSetArr_sparse {i : Int64} (hi : (s.t.alen : ℤ) + 1 < i.toInt) (w : Slot) :
    Ensures (tabSetArr i w) s (fun b s' => b = false ∧ s' = s) := by
  unfold tabSetArr
  apply meets_get_bind
  have hout : ¬ inArr s.t i = true := by
    rw [inArr_iff]
    omega
  rw [if_neg hout, if_neg (by omega)]
  exact meets_pure ⟨rfl, rfl⟩

/-- A store at an integer key past the end of the array part goes to the hash part. -/
theorem tabSetIk_sparse {i : Int64} (hash : HashOk s sh none) (hi : (s.t.alen : ℤ) + 1 < i.toInt) (v : Val) :
    Meets (tabSetIk i v) s (fun _ s' => HashSet s s' (.int i) v) (fun e s' => Overflow e s s') := by
  unfold tabSetIk
  apply (tabSetArr_sparse hi (.val v)).bind_safe
  rintro _ _ ⟨rfl, rfl⟩
  exact tabSetHash_spec hash (normal_int i) rfl v

/-- The values of a list after its first nil. -/
theorem newArrRest_spec : ∀ (vs : List Val) (j : ℕ) (s : TabState), TabOk s none → s.t.alen < j →
    j + vs.length = lengthOf s.t.arr →
    Meets (newArrRest j vs) s (fun _ s' => Kept s s') (fun e s' => e ≠ .stuck ∧ Kept s s') := by
  intro vs
  induction vs with
  | nil => exact fun j s hok _ _ => meets_pure ⟨hok, Grows.refl⟩
  | cons v vs ih =>
    intro j s hok hj hlen
    rw [List.length_cons] at hlen
    have hfit := hok.arr.len
    obtain ⟨sh, hash⟩ := hok.hash
    unfold newArrRest
    apply ((setArr_spec hok.arr.farr (show j < lengthOf s.t.arr by omega) (.val .nil)).mono
      (fun _ _ h => h) fun _ _ h => h.elim).bind
    intro _ s₁ hwr
    have hash₁ := hwr.toHashSame.hashOk hash
    have harr₁ : ArrOk s₁.t none := by
      refine ⟨?_, ?_, hwr.covered, ?_, ?_⟩
      · rw [hwr.alen, hwr.len]
        exact hok.arr.room
      · intro n hn
        rw [hwr.alen] at hn
        rw [hwr.slot, if_neg (by omega)]
        exact hok.arr.last n hn
      · intro i hi _ hmark
        rw [hwr.alen] at hi
        rw [hwr.slot, if_neg (by omega)] at hmark
        rw [hwr.farr]
        exact hok.arr.marked i hi (by simp) hmark
      · rw [hwr.len]
        exact hfit
    have hgrows₁ := hwr.toHashSame.grows
    split
    · refine (ih (j + 1) s₁ ⟨⟨sh, hash₁⟩, harr₁⟩ (by rw [hwr.alen]; omega) (by rw [hwr.len]; omega)).mono ?_ ?_
      · exact fun _ s' h => ⟨h.ok, hgrows₁.trans h.grows⟩
      · exact fun e s' h => ⟨h.1, h.2.ok, hgrows₁.trans h.2.grows⟩
    · have hto : (Int64.ofInt ((j : ℤ) + 1)).toInt = (j : ℤ) + 1 := by
        have h := toInt_ofNat (n := j + 1) (by omega)
        exact h
      -- a value behind the hole goes to the hash part
      apply ((tabSetIk_sparse hash₁ (i := Int64.ofInt ((j : ℤ) + 1)) (by rw [hto, hwr.alen]; omega) v).mono
        (fun _ _ h => h) ?_).bind
      · intro _ s₂ hset
        refine (ih (j + 1) s₂ ⟨hset.ok, hset.toFrame.arrOk harr₁⟩ ?_ ?_).mono ?_ ?_
        · rw [hset.alen, hwr.alen]
          omega
        · rw [hset.arr, hwr.len]
          omega
        · exact fun _ s' h => ⟨h.ok, (hgrows₁.trans hset.grows).trans h.grows⟩
        · exact fun e s' h => ⟨h.1, h.2.ok, (hgrows₁.trans hset.grows).trans h.2.grows⟩
      · intro e s₂ h
        obtain ⟨sh₂, hash₂⟩ := h.ok
        refine ⟨?_, ⟨⟨sh₂, hash₂⟩, h.toFrame.arrOk harr₁⟩, hgrows₁.trans h.grows⟩
        rw [h.error]
        simp [tableOverflow]

/-- `$tab_new_arr`. -/
theorem tabNewArr_spec {a : List Val} (hs : ShapesOk shapes) (ha : a.length < 2^31) :
    Meets (tabNewArr a) (TabState.mk shapes tabNew) (fun _ s' => Kept (TabState.mk shapes tabNew) s')
      (fun e s' => e ≠ .stuck ∧ Kept (TabState.mk shapes tabNew) s') := by
  obtain ⟨sh, hash⟩ := (tabOk_new hs).hash
  unfold tabNewArr
  apply meets_modify_bind
  obtain ⟨n, hn⟩ : ∃ n, n = (a.takeWhile fun v => v ≠ .nil).length := ⟨_, rfl⟩
  have hle : n ≤ a.length := by
    rw [hn]
    exact (List.takeWhile_sublist _).length_le
  rw [← hn]
  generalize hs₁ : ({ shapes := shapes, t := { tabNew with arr := some (a.map .val), alen := n } } : TabState) = s₁
  have hsame : HashSame (TabState.mk shapes tabNew) s₁ := by
    subst hs₁
    exact ⟨rfl, rfl, rfl, rfl⟩
  have hslot : ∀ i < a.length, s₁.t.arrSlot i = .val (a.getD i .nil) := by
    intro i hi
    subst hs₁
    change (a.map Slot.val).getD i (.val .nil) = _
    simp only [List.getD_eq_getElem?_getD, List.getElem?_map]
    rw [List.getElem?_eq_getElem hi]
    rfl
  -- the array part ends at the first `nil`
  have hlive : ∀ i < n, a.getD i .nil ≠ .nil := by
    intro i hi
    have hia : i < a.length := by omega
    rw [hn] at hi
    have hmem := List.mem_takeWhile_imp (List.getElem_mem hi)
    rw [(List.takeWhile_prefix _).getElem hi] at hmem
    rw [List.getD_eq_getElem a .nil hia]
    simpa using hmem
  have harr₁ : ArrOk s₁.t none := by
    subst hs₁
    refine ⟨?_, ?_, ?_, ?_, ?_⟩
    · change n ≤ (a.map Slot.val).length
      rw [List.length_map]
      exact hle
    · intro i hi
      change n = i + 1 at hi
      rw [hslot i (by omega)]
      exact decide_eq_false (by simpa using hlive i (by omega))
    · intro fa hfa
      cases hfa
    · intro i hi _ hmark
      change i < n at hi
      rw [hslot i (by omega)] at hmark
      cases hmark
    · change (a.map Slot.val).length < 2^31
      rw [List.length_map]
      exact ha
  have hok₁ : TabOk s₁ none := ⟨⟨sh, hsame.hashOk hash⟩, harr₁⟩
  have halen₁ : s₁.t.alen = n := by
    subst hs₁
    rfl
  have hlen₁ : lengthOf s₁.t.arr = a.length := by
    subst hs₁
    exact List.length_map _
  by_cases hall : n + 1 ≤ a.length
  -- the values after the `nil` are stored one by one
  · refine (newArrRest_spec (a.drop (n + 1)) (n + 1) s₁ hok₁ (by omega) ?_).mono ?_ ?_
    · rw [List.length_drop]
      omega
    · exact fun _ s' h => ⟨h.ok, hsame.grows.trans h.grows⟩
    · exact fun e s' h => ⟨h.1, h.2.ok, hsame.grows.trans h.2.grows⟩
  · -- no value is nil, so there is nothing left
    rw [List.drop_eq_nil_of_le (by omega)]
    exact meets_pure ⟨hok₁, hsame.grows⟩

/-! ## Steps -/

/-- A raw write: it is done to the map if the condition holds, and it keeps the table in order. It
traps only where `table.insert` cannot grow the array part. -/
theorem RawWrite.run_spec (hok : TabOk s none) (op : RawWrite) :
    Meets op.run s (fun _ s' => Did (op.Clean s) s s' op.mapOp false)
      (fun e s' => (e = .stuck ∧ (∃ pos v, op = .insert pos v) ∧ s.t.alen + 1 = 2^31) ∨
        (e ≠ .stuck ∧ Did (op.Clean s) s s' op.mapOp true)) := by
  obtain ⟨sh, hash⟩ := hok.hash
  have hstr : ∀ (x : List UInt8) i, Key.str x = .int i → ¬ inArr s.t i = true := by
    intro x i h
    cases h
  cases op with
  | set k v =>
    unfold RawWrite.run RawWrite.mapOp
    dsimp only
    cases hc : canon k with
    | none =>
      refine (tabSet_none hc v).mono (fun _ _ h => h.elim) ?_
      rintro e _ ⟨he, rfl⟩
      exact Or.inr ⟨he, hok, Grows.refl, fun _ hapart => ⟨hapart, Map.Step.failed none v⟩⟩
    | some key =>
      exact (tabSet_spec hok hc v).mono (fun _ _ h => h.did)
        fun _ _ h => Or.inr ⟨h.raised, h.did (some key) v⟩
  | setIk i v =>
    exact (tabSetIk_spec hok i v).mono (fun _ _ h => h.did)
      fun _ _ h => Or.inr ⟨h.raised, h.did (some (.int i)) v⟩
  | setStr o x v =>
    refine (tabSetHashStr_spec hash v).mono (fun _ _ h => (h.stored hok (hstr x)).did) ?_
    intro e s' h
    have hf := Overflow.failed (P := True) h hok
    exact Or.inr ⟨hf.raised, hf.did _ v⟩
  | setIkF i f =>
    exact (tabsetIkF_spec hok i f).mono (fun _ _ h => h.did)
      fun _ _ h => Or.inr ⟨h.raised, h.did (some (.int i)) (.float f)⟩
  | setStrF o x f =>
    refine (tabSetFHashStr_spec hash f).mono (fun _ _ h => (h.stored hok (hstr x)).did) ?_
    intro e s' h
    have hf := Overflow.failed (P := True) h hok
    exact Or.inr ⟨hf.raised, hf.did _ (.float f)⟩
  | append v => exact (tableAppend_spec hok v).imp_error fun _ _ h => Or.inr h
  | insert pos v =>
    refine (tableInsert_spec hok pos v).imp_error ?_
    rintro e s' (⟨he, hfull⟩ | h)
    · exact Or.inl ⟨he, ⟨pos, v, rfl⟩, hfull⟩
    · exact Or.inr h
  | remove pos =>
    unfold RawWrite.run
    apply ((tableRemove_spec hok pos).imp_error fun _ _ h => Or.inr h).bind
    intro _ s' h
    exact meets_pure h

/-- Where a step can trap: `table.insert` on an array part that cannot grow, and a position of a
constructor outside the value array. -/
def Traps (w : World) : WorldOp → Prop
  | .write i op => (∃ pos v, op = .insert pos v) ∧ ∃ t, w.tables[i]? = some t ∧ t.alen + 1 = 2^31
  | .putPos i pos _ => ∃ t, w.tables[i]? = some t ∧ lengthOf t.vals ≤ pos
  | .putPosF i pos _ => ∃ t, w.tables[i]? = some t ∧ lengthOf t.vals ≤ pos
  | _ => False

theorem World.Ok.init : World.init.Ok := ⟨shapesOk_root, fun _ h => absurd h List.not_mem_nil⟩

/-- A table changes, and the shared shapes grow. -/
theorem World.Ok.set (hw : w.Ok) (h : Kept (w.state t) s') :
    World.Ok ⟨s'.shapes, w.tables.set i s'.t⟩ := by
  obtain ⟨sh, hash⟩ := h.ok.hash
  refine ⟨hash.shapes, fun t' ht' => ?_⟩
  obtain hmem | rfl := List.mem_or_eq_of_mem_set ht'
  · exact (hw.tables t' hmem).of_grows h.grows hash.shapes
  · exact h.ok

/-- A table is added. -/
theorem World.Ok.add (hw : w.Ok) (h : TabOk s' none) (hg : Grows w.shapes s'.shapes) :
    World.Ok ⟨s'.shapes, w.tables ++ [s'.t]⟩ := by
  obtain ⟨sh, hash⟩ := h.hash
  refine ⟨hash.shapes, fun t' ht' => ?_⟩
  obtain hmem | hmem := List.mem_append.mp ht'
  · exact (hw.tables t' hmem).of_grows hg hash.shapes
  · rw [List.mem_singleton.mp hmem]
    exact h

/-- A step on one table keeps all tables in order. -/
theorem World.Ok.onTable {x : TabM Unit} {r : Except Fault Unit} {P : LuaTable → Prop} (hw : w.Ok)
    (hx : ∀ t, w.tables[i]? = some t → Meets x (w.state t) (fun _ s' => Kept (w.state t) s')
      (fun e s' => (e = .stuck ∧ P t) ∨ (e ≠ .stuck ∧ Kept (w.state t) s')))
    (hs : w.onTable i x = some (r, w')) :
    (r = .error .stuck ∧ ∃ t, w.tables[i]? = some t ∧ P t) ∨
      (r ≠ .error .stuck ∧ w'.Ok ∧ Grows w.shapes w'.shapes) := by
  unfold World.onTable at hs
  cases ht : w.tables[i]? with
  | none =>
    rw [ht] at hs
    cases hs
  | some t =>
    rw [ht] at hs
    dsimp only at hs
    generalize hrun : (x.run (w.state t) : Except Fault Unit × TabState) = res at hs
    obtain ⟨r', s'⟩ := res
    cases hs
    cases r with
    | ok _ =>
      right
      have hk := (hx t ht).of_ok hrun
      exact ⟨by simp, hw.set hk, hk.grows⟩
    | error e =>
      obtain ⟨rfl, hp⟩ | ⟨he, hk⟩ := (hx t ht).of_error hrun
      · exact Or.inl ⟨rfl, t, rfl, hp⟩
      · right
        exact ⟨by simpa using he, hw.set hk, hk.grows⟩

/-- A step that makes a table keeps all tables in order. -/
theorem World.Ok.ofAdd {x : TabM Unit} {r : Except Fault Unit} (hw : w.Ok)
    (hx : Meets x (w.state t) (fun _ s' => Kept (w.state t) s')
      (fun e s' => e ≠ .stuck ∧ Kept (w.state t) s'))
    (hs : w.add x t = (r, w')) : r ≠ .error .stuck ∧ w'.Ok ∧ Grows w.shapes w'.shapes := by
  unfold World.add at hs
  generalize hrun : (x.run (w.state t) : Except Fault Unit × TabState) = res at hs
  obtain ⟨r', s'⟩ := res
  cases hs
  cases r with
  | ok _ =>
    have h := hx.of_ok hrun
    exact ⟨by simp, hw.add h.ok h.grows, h.grows⟩
  | error e =>
    have h := hx.of_error hrun
    exact ⟨by simpa using h.1, hw.add h.2.ok h.2.grows, h.2.grows⟩

theorem Did.kept {P : Prop} {op : MapOp} {raised : Bool} (h : Did P s s' op raised) : Kept s s' :=
  ⟨h.ok, h.grows⟩

/-- Every step keeps the program in order, and traps only where `Traps` says. -/
theorem World.Ok.step {op : WorldOp} {r : Except Fault Unit} (hw : w.Ok) (hl : op.Legal w)
    (hs : w.step op = some (r, w')) :
    (r = .error .stuck ∧ Traps w op) ∨
      (r ≠ .error .stuck ∧ w'.Ok ∧ Grows w.shapes w'.shapes) := by
  have htab : ∀ {i t}, w.tables[i]? = some t → TabOk (w.state t) none :=
    fun ht => hw.tables _ (List.mem_of_getElem? ht)
  cases op with
  | new =>
    right
    exact hw.ofAdd (meets_pure ⟨tabOk_new hw.shapes, Grows.refl⟩) (Option.some.inj hs)
  | newArr a =>
    right
    exact hw.ofAdd (tabNewArr_spec hw.shapes hl) (Option.some.inj hs)
  | shapeFor ks =>
    right
    obtain ⟨root, hroot, hn⟩ := hw.shapes.root
    obtain ⟨r', shapes', hfor, hok', hgrows⟩ := shapeForKeys_spec ks w.shapes 0 root hw.shapes hroot
      hl.1 hl.2 (by intro _ _ i hi; omega)
    unfold World.step at hs
    simp only [hfor] at hs
    cases hs
    exact ⟨by simp, ⟨hok', fun t ht => (hw.tables t ht).of_grows hgrows hok'⟩, hgrows⟩
  | newShaped q =>
    right
    obtain ⟨p, hp, hn⟩ := hl
    obtain ⟨t, ht, hok'⟩ := tabNewShaped_spec hw.shapes hp hn
    unfold World.step at hs
    simp only [ht] at hs
    exact hw.ofAdd (meets_pure ⟨hok', Grows.refl⟩) (Option.some.inj hs)
  -- only an insertion into a full array part can trap
  | write i op =>
    have hs : w.onTable i op.run = some (r, w') := hs
    apply (hw.onTable (P := fun t => (∃ pos v, op = .insert pos v) ∧ t.alen + 1 = 2^31) ?_ hs).imp_left
    · rintro ⟨hr, t, ht, hop, hfull⟩
      exact ⟨hr, hop, t, ht, hfull⟩
    · intro t ht
      refine (RawWrite.run_spec (htab ht) op).mono (fun _ _ h => h.kept) ?_
      rintro e s' (⟨he, hop, hfull⟩ | ⟨he, h⟩)
      · exact Or.inl ⟨he, hop, hfull⟩
      · exact Or.inr ⟨he, h.kept⟩
  | putPos i pos v =>
    have hs : w.onTable i (tabPutPos pos v) = some (r, w') := hs
    apply hw.onTable (P := fun t => lengthOf t.vals ≤ pos) ?_ hs
    intro t ht
    -- a position beyond the slots of the hash part traps
    by_cases hpos : pos < lengthOf t.vals
    · exact (tabPutPos_spec (htab ht) hpos v).imp_error fun _ _ h => h.elim
    · exact (setVal_out (s := w.state t) (Nat.le_of_not_lt hpos) (.val v)).mono (fun _ _ h => h.elim)
        fun _ _ h => Or.inl ⟨h, Nat.le_of_not_lt hpos⟩
  | putPosF i pos f =>
    have hs : w.onTable i (tabPutPosF pos f) = some (r, w') := hs
    apply hw.onTable (P := fun t => lengthOf t.vals ≤ pos) ?_ hs
    intro t ht
    by_cases hpos : pos < lengthOf t.vals
    · exact (tabPutPosF_spec (htab ht) hpos f).imp_error fun _ _ h => h.elim
    · have hout : Meets (tabPutPosF pos f) (w.state t) (fun _ _ => False) (fun e _ => e = .stuck) :=
        (setVal_out (s := w.state t) (Nat.le_of_not_lt hpos) .mark).bind fun _ _ h => h.elim
      exact hout.mono (fun _ _ h => h.elim) fun _ _ h => Or.inl ⟨h, Nat.le_of_not_lt hpos⟩
  | reserveHash i cap =>
    have hs : w.onTable i (tabReserveHash cap) = some (r, w') := hs
    refine (hw.onTable (P := fun _ => False) ?_ hs).imp_left fun ⟨_, _, _, h⟩ => h.elim
    intro t ht
    exact (tabReserveHash_spec (htab ht) cap).imp_error fun _ _ h => Or.inr h
  | reserveArr i need =>
    have hs : w.onTable i (arrEnsure need) = some (r, w') := hs
    refine (hw.onTable (P := fun _ => False) ?_ hs).imp_left fun ⟨_, _, _, h⟩ => h.elim
    intro t ht
    exact (arrEnsure_kept (htab ht) hl).imp_error fun _ _ h => h.elim
  | bootstrap i o x v =>
    have hs : w.onTable i (tabBootstrapSet (.str o x) v) = some (r, w') := hs
    refine (hw.onTable (P := fun _ => False) ?_ hs).imp_left fun ⟨_, _, _, h⟩ => h.elim
    intro t ht
    obtain ⟨sh, hash⟩ := (htab ht).hash
    have hk : Normal (.str o x) := trivial
    have habsent : sh.pos (.str x) = none := by
      have hfind := tabFind_spec hash.wf (.str o x)
      rw [hl t ht sh hash.shape] at hfind
      exact (Option.some.inj hfind).symm
    exact (tabBootstrapSet_spec (htab ht) hash hk rfl habsent v).imp_error
      fun _ _ h => Or.inr h

/-- Every state that a program can reach is in order. -/
theorem World.Reachable.ok (h : w.Reachable) : w.Ok := by
  induction h with
  | init => exact World.Ok.init
  | step _ hl hs hr ih =>
    obtain ⟨hstuck, -⟩ | ⟨-, hok, -⟩ := ih.step hl hs
    · exact absurd hstuck hr
    · exact hok

/-! ## The hash part of every table -/

/-- The hash part of a table is well formed, in the words of the functions that use it. -/
structure HashWellFormed (s : TabState) (sh : Shape) : Prop where
  /-- The shape of the table. -/
  shape : s.shape = some sh
  /-- Its keys are pairwise different under raw equality. -/
  distinct : ∀ i < sh.n, ∀ j < sh.n, luaEqRaw (sh.key i) (sh.key j) = true → i = j
  /-- A key that is raw-equal to a stored one is found at its position. -/
  found : ∀ i < sh.n, ∀ k, luaEqRaw (sh.key i) k = true → tabFind sh k = some (some i)
  /-- A key that is raw-equal to no stored one is not found, and the lookup ends. -/
  absent : ∀ k, (∀ i < sh.n, luaEqRaw (sh.key i) k = false) → tabFind sh k = some none
  /-- The lookup of a constant string agrees with the general one. -/
  strings : ∀ k, k.isStr = true → tabFindStr sh k (luaHash k) = tabFind sh k
  /-- A slot of the index is free. -/
  free : ∃ slot ≤ sh.mask, sh.idx[slot]? = some 0
  /-- The value array covers the keys. -/
  vals : sh.n ≤ lengthOf s.t.vals
  /-- So does the array of doubles. -/
  fvals : ∀ fa, s.t.fvals = some fa → sh.n ≤ fa.length
  /-- A slot that holds the float marker has its double. -/
  marked : ∀ i < sh.n, s.t.slot i = .mark → ∃ fa, s.t.fvals = some fa ∧ i < fa.length

/-- The invariant of the hash part says that it is well formed. -/
theorem HashOk.wellFormed (h : HashOk s sh none) : HashWellFormed s sh where
  shape := h.shape
  distinct i hi j hj heq := by
    rw [luaEqRaw_iff_canon (h.wf.normal i hi)] at heq
    exact h.wf.distinct i hi j hj heq
  found i hi k heq := by
    rw [luaEqRaw_iff_canon (h.wf.normal i hi)] at heq
    obtain ⟨key, hkey⟩ := Option.ne_none_iff_exists'.mp (canon_ne_none_of_normal (h.wf.normal i hi))
    have hpos := h.wf.pos_of_canon hi hkey
    rw [tabFind_spec h.wf, ← heq, hkey, Option.bind_some, hpos]
  absent k hne := by
    rw [tabFind_spec h.wf]
    cases hc : canon k with
    | none => rfl
    | some key =>
      rw [Option.bind_some, Shape.pos_eq_none.mpr]
      intro i hi heq
      have heq' : luaEqRaw (sh.key i) k = true := by
        rw [luaEqRaw_iff_canon (h.wf.normal i hi), heq, hc]
      rw [hne i hi] at heq'
      cases heq'
  strings k hk := by
    rw [tabFindStr_spec h.wf hk, tabFind_spec h.wf]
  free := h.wf.indexed.exists_empty
  vals := h.vals
  fvals fa hfa := by
    rw [h.fvals fa hfa]
    exact h.vals
  marked i hi hmark := by
    obtain ⟨fa, hfa⟩ := Option.ne_none_iff_exists'.mp (h.marked i hi (by simp) hmark)
    refine ⟨fa, hfa, ?_⟩
    rw [h.fvals fa hfa]
    exact Nat.lt_of_lt_of_le hi h.vals

/-- In every state that a program can reach, the hash part of every table is well formed, and the
next step ends: it traps only where `Traps` says. -/
theorem hash_part_wellFormed (w : World) (h : w.Reachable) :
    (∀ t ∈ w.tables, ∃ sh, HashWellFormed (w.state t) sh) ∧
      ∀ op, op.Legal w → ∀ w', w.step op = some (.error .stuck, w') → Traps w op := by
  refine ⟨fun t ht => ?_, fun op hl w' hs => ?_⟩
  · obtain ⟨sh, hash⟩ := (h.ok.tables t ht).hash
    exact ⟨sh, hash.wellFormed⟩
  · obtain ⟨-, htraps⟩ | ⟨hne, -⟩ := h.ok.step hl hs
    · exact htraps
    · exact absurd rfl hne

/-- The world after some steps, or none if one of them traps. -/
def World.run : World → List WorldOp → Option World
  | w, [] => some w
  | w, op :: ops =>
    match w.step op with
    | none => none
    | some (.error .stuck, _) => none
    | some (_, w') => w'.run ops

/-- A new table and some stores to it: the keys "x", 1 and 2, and then "x" again. -/
def someStores : List WorldOp :=
  [.new, .write 0 (.setStr 0 [120] (.int 7)), .write 0 (.setIk 1 (.int 8)),
    .write 0 (.setIk 3 (.int 9)), .write 0 (.setStr 1 [120] .nil)]

theorem World.Reachable.of_run : ∀ {ops : List WorldOp} {w w' : World}, w.Reachable →
    (∀ op ∈ ops, ∀ w, op.Legal w) → w.run ops = some w' → w'.Reachable := by
  intro ops
  induction ops with
  | nil =>
    intro w w' h _ hrun
    cases hrun
    exact h
  | cons op ops ih =>
    intro w w' h hl hrun
    unfold World.run at hrun
    split at hrun
    · cases hrun
    · cases hrun
    · rename_i r w₁ hr hs
      apply ih (h.step (hl op List.mem_cons_self w) hs ?_)
        (fun op' hop' => hl op' (List.mem_cons_of_mem op hop')) hrun
      rintro rfl
      exact hr rfl

/-- Stores to both parts of a table, with values that are replaced and removed. It is left with `6` and `5` in the
array part, and with `9` at the key 4. -/
def mixedStores : List WorldOp :=
  [.new, .write 0 (.setStr 0 [120] (.int 7)), .write 0 (.setIk 1 (.int 8)), .write 0 (.setIk 2 (.int 5)),
    .write 0 (.setIk 4 (.int 9)), .write 0 (.setIk 1 (.int 6)), .write 0 (.setStr 1 [120] .nil)]

/-- The world after them. -/
def mixed : World := (World.init.run mixedStores).getD World.init

/-- Its table. -/
def mixedTable : LuaTable := mixed.tables.getD 0 tabNew

theorem mixedTable_eq : mixed.tables[0]? = some mixedTable := rfl

theorem mixedTable_mem : mixedTable ∈ mixed.tables := List.mem_of_getElem? mixedTable_eq

theorem mixed_reachable : mixed.Reachable := by
  have hsome : (World.init.run mixedStores).isSome = true := by decide
  obtain ⟨w, hw⟩ := Option.isSome_iff_exists.mp hsome
  have hmixed : World.init.run mixedStores = some mixed := by
    unfold mixed
    rw [hw, Option.getD_some]
  apply World.Reachable.init.of_run _ hmixed
  intro op hop w
  fin_cases hop <;> trivial

theorem hash_part_wellFormed_someStores :
    (∀ t ∈ ((World.init.run someStores).getD World.init).tables,
      ∃ sh, HashWellFormed (((World.init.run someStores).getD World.init).state t) sh) ∧
      ∀ op, op.Legal ((World.init.run someStores).getD World.init) → ∀ w',
        ((World.init.run someStores).getD World.init).step op = some (.error .stuck, w') →
        Traps ((World.init.run someStores).getD World.init) op := by
  have hsome : (World.init.run someStores).isSome = true := by decide
  obtain ⟨w, hw⟩ := Option.isSome_iff_exists.mp hsome
  rw [hw]
  refine hash_part_wellFormed w (World.Reachable.init.of_run ?_ hw)
  intro op hop w
  fin_cases hop <;> trivial

end Lua2wasm.Table
