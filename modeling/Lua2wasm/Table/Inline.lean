import Lua2wasm.Arith.Div
import Lua2wasm.Table.FastPaths

/-!
# Accesses in generated code

The templates of `codegen/arrays.c` for `t[k]`, `t[k] = v` and `#t`: the cases that the array part can answer are
in the generated code, and the others are left to the runtime (`index.wat`, `arith.wat`). Here the receiver is a
table, with or without a metatable, and the model is that of both sides: the functions of the runtime with their
metamethods, and the templates.

What a metamethod does is up to the program, and so is what the metatable has. `Metamethods` stands for them.
-/

namespace Lua2wasm.Table

open Raising

/-- The table that is accessed, and the rest of the program's state. -/
structure Receiver (Ω : Type) where
  /-- The table. -/
  tab : TabState
  /-- It has a metatable. -/
  hasMeta : Bool
  /-- All the rest. -/
  rest : Ω

/-- A computation that accesses the table. -/
abbrev IxM (Ω : Type) := ExceptT Fault (StateM (Receiver Ω))

/-- What the metatable has, and what its metamethods do. -/
structure Metamethods (Ω : Type) where
  /-- `__index`, with the key: the rest of `$tab_get_miss`. -/
  index : Receiver Ω → Option (Val → IxM Ω Val)
  /-- `__newindex`, with the key and the value: the rest of `$lua_tabset`. -/
  newindex : Receiver Ω → Option (Val → Val → IxM Ω Unit)
  /-- `__len`. -/
  len : Receiver Ω → Option (IxM Ω Val)

variable {Ω α β : Type}

/-- A computation on the table alone. -/
def onTab (x : TabM α) : IxM Ω α :=
  ExceptT.mk fun s =>
    match (x.run s.tab : Except Fault α × TabState) with
    | (r, tab) => (r, { s with tab })

/-! ## The functions of the runtime -/

/-- `$tab_get_miss`, of the table itself. -/
def tabGetMiss (mm : Metamethods Ω) (k : Val) : IxM Ω Val := do
  let s ← get
  match if s.hasMeta then mm.index s else none with
  | none => pure .nil
  | some index => index k

/-- `$tab_get`. -/
def tabGet (mm : Metamethods Ω) (k : Val) : IxM Ω Val := do
  let v ← onTab do orStuck (tabGetRaw (← get) k)
  if v = .nil then tabGetMiss mm k else pure v

/-- `$lua_index_ik_slow`. -/
def luaIndexIkSlow (mm : Metamethods Ω) (k : Int64) : IxM Ω Val := tabGet mm (.int k)

/-- The slot of the array part at an index. -/
def arrAt (i : ℕ) : TabM Slot := do
  let a ← orStuck (← get).t.arr
  orStuck a[i]?

/-- The double of the array part at an index. -/
def farrAt (i : ℕ) : TabM F64 := do
  let a ← orStuck (← get).t.farr
  orStuck a[i]?

/-- The value of the array part at an index: `$tval` of its slot. -/
def arrValueAt (i : ℕ) : TabM Val := do
  let w ← arrAt i
  orStuck (tval w (← get).t.farr i)

/-- `$lua_index_ik`. -/
def luaIndexIk (mm : Metamethods Ω) (k : Int64) : IxM Ω Val := do
  if inArr (← get).tab.t k then
    let v ← onTab (arrValueAt (arrIndex k))
    if v = .nil then luaIndexIkSlow mm k else pure v
  else luaIndexIkSlow mm k

/-- `$lua_tabset`, when the table has a metatable. -/
def luaTabsetMeta (mm : Metamethods Ω) (k v : Val) : IxM Ω Unit := do
  let old ← onTab do orStuck (tabGetRaw (← get) k)
  if old ≠ .nil then onTab (tabSet k v)
  else
    match mm.newindex (← get) with
    | none => onTab (tabSet k v)
    | some newindex => newindex k v

/-- `$lua_tabset`. -/
def luaTabset (mm : Metamethods Ω) (k v : Val) : IxM Ω Unit := do
  if (← get).hasMeta then luaTabsetMeta mm k v else onTab (tabSet k v)

/-- `$lua_tabset_ik`. -/
def luaTabsetIk (mm : Metamethods Ω) (k : Int64) (v : Val) : IxM Ω Unit := do
  if (← get).hasMeta then luaTabset mm (.int k) v else onTab (tabSetIk k v)

/-- `$lua_tabset_ik_f`. -/
def luaTabsetIkF (mm : Metamethods Ω) (k : Int64) (f : F64) : IxM Ω Unit := do
  if (← get).hasMeta then luaTabset mm (.int k) (.float f) else onTab (tabsetIkF k f)

/-- The end of `$arr_append_blocked`, of a table without a metatable. -/
def arrNoRoom : TabM Bool := do
  let sh ← getShape
  let t := (← get).t
  match t.arr with
  | none => pure true
  | some a => pure (sh.n ≠ 0 ∨ a.length ≤ t.alen)

/-- `$arr_append_blocked`. -/
def arrAppendBlocked (hasMeta : Bool) : TabM Bool := if hasMeta then pure true else arrNoRoom

/-- The store of an append at its index. -/
def putNext (i : ℕ) (v : Val) : TabM Unit := do
  setArr i (.val v)
  setAlen (i + 1)

/-- An append at its index, unless it is blocked. -/
def appendAt (hasMeta : Bool) (i : ℕ) (v : Val) : TabM Bool := do
  if ← arrAppendBlocked hasMeta then pure false
  else
    putNext i v
    pure true

/-- The append of `$lua_tabset_ik_miss`. -/
def appendMiss (hasMeta : Bool) (k : Int64) (v : Val) : TabM Bool := do
  let t := (← get).t
  if v ≠ .nil ∧ k.toInt = t.alen + 1 then appendAt hasMeta t.alen v else pure false

/-- `$lua_tabset_ik_miss`. -/
def luaTabsetIkMiss (mm : Metamethods Ω) (k : Int64) (v : Val) : IxM Ω Unit := do
  if ← onTab (appendMiss (← get).hasMeta k v) then pure () else luaTabsetIk mm k v

/-- `$lua_len`. -/
def luaLen (mm : Metamethods Ω) : IxM Ω Val := do
  let s ← get
  match if s.hasMeta then mm.len s else none with
  | none => do
    let n ← onTab do orStuck (tabLen (← get))
    pure (makeInt n)
  | some len => len

/-! ## Cells -/

/-- `TAG_INT`. -/
def tagInt : ℕ := 1

/-- `TAG_FLOAT`. -/
def tagFloat : ℕ := 2

/-- The locals of a value of an unknown type (`MCell`). -/
structure Cell where
  /-- The tag. -/
  t : ℕ
  /-- The integer. -/
  i : Int64
  /-- The float. -/
  f : F64
  /-- Any other value. -/
  b : Val

/-- `$box_num`: the value of a cell. -/
def Cell.boxNum (c : Cell) : Val :=
  if c.t = tagInt then .int c.i else if c.t = tagFloat then .float c.f else c.b

/-- `$unbox_num`, with the value itself: the cell of a value. -/
def unboxNum (v : Val) : Cell :=
  match v with
  | .int i => ⟨tagInt, i, fzero, v⟩
  | .float f => ⟨tagFloat, 0, f, v⟩
  | _ => ⟨0, 0, fzero, v⟩

/-- `ref.test (ref i31)`. -/
def Val.isI31 : Val → Bool
  | .int i => -(2^30) ≤ i.toInt ∧ i.toInt < 2^30
  | _ => false

/-- `$lua_index_ik_cell`. -/
def luaIndexIkCell (mm : Metamethods Ω) (k : Int64) : IxM Ω Cell := do
  if inArr (← get).tab.t k then
    match ← onTab (arrAt (arrIndex k)) with
    | .mark => do
      let f ← onTab (farrAt (arrIndex k))
      pure ⟨tagFloat, 0, f, .nil⟩
    | .val v => if v = .nil then unboxNum <$> luaIndexIkSlow mm k else pure (unboxNum v)
  else unboxNum <$> luaIndexIkSlow mm k

/-- `$lua_index_mk`. -/
def luaIndexMk (mm : Metamethods Ω) (c : Cell) : IxM Ω Val :=
  if c.t = tagInt then luaIndexIk mm c.i else tabGet mm c.boxNum

/-- `$lua_index_mk_cell`. -/
def luaIndexMkCell (mm : Metamethods Ω) (c : Cell) : IxM Ω Cell :=
  if c.t = tagInt then luaIndexIkCell mm c.i else unboxNum <$> tabGet mm c.boxNum

/-- `$lua_tabset_mk`. -/
def luaTabsetMk (mm : Metamethods Ω) (c : Cell) (v : Val) : IxM Ω Unit :=
  if c.t = tagInt then luaTabsetIk mm c.i v else luaTabset mm c.boxNum v

/-! ## The templates -/

/-- `IxKey`: the key of an access. -/
inductive IxKey
  /-- An integer. -/
  | int (i : Int64)
  /-- A cell, and whether its `static_tag` is `TAG_INT`. -/
  | cell (static : Bool) (c : Cell)

/-- `ix_key_i`. -/
def IxKey.keyI : IxKey → Int64
  | .int i => i
  | .cell _ c => c.i

/-- The test of the tag sends the access to the slow path. -/
def IxKey.isOther : IxKey → Bool
  | .int _ => false
  | .cell static c => !static ∧ c.t ≠ tagInt

/-- `k - 1`, unsigned. -/
def ixOff (k : Int64) : ℕ := (k - 1).toUInt64.toNat

/-- `$ix_i`: the low 32 bits of `k - 1`. -/
def ixIndex (k : Int64) : ℕ := (k - 1).toUInt64.toUInt32.toNat

/-- `emit_ix_probe`: the index of a key of the array part. -/
def emitIxProbe (key : IxKey) (t : LuaTable) : Option ℕ :=
  if key.isOther then none
  else if t.alen ≤ ixOff key.keyI then none
  else some (ixIndex key.keyI)

/-- `emit_ix_slow_read`, with `$lua_index_ik_slow` and `$lua_index_mk`. -/
def ixSlowRead (mm : Metamethods Ω) : IxKey → IxM Ω Val
  | .int i => luaIndexIkSlow mm i
  | .cell _ c => luaIndexMk mm c

/-- `emit_ix_slow_read`, with `$lua_index_ik_cell_slow` and `$lua_index_mk_cell`. -/
def ixSlowReadCell (mm : Metamethods Ω) : IxKey → IxM Ω Cell
  | .int i => unboxNum <$> luaIndexIkSlow mm i
  | .cell _ c => luaIndexMkCell mm c

/-- `emit_ix_get_open` and `emit_ix_get_close`: `t[k]`. -/
def emitIxGet (mm : Metamethods Ω) (key : IxKey) : IxM Ω Val := do
  match emitIxProbe key (← get).tab.t with
  | none => ixSlowRead mm key
  | some i =>
    match ← onTab (arrAt i) with
    | .mark => do
      let f ← onTab (farrAt i)
      pure (.float f)
    | .val v => if v = .nil then ixSlowRead mm key else pure v

/-- `emit_ix_get_cell`: `t[k]` into the cell `d`. -/
def emitIxGetCell (mm : Metamethods Ω) (key : IxKey) (d : Cell) : IxM Ω Cell := do
  match emitIxProbe key (← get).tab.t with
  | none => ixSlowReadCell mm key
  | some i =>
    match ← onTab (arrAt i) with
    | .mark => do
      let f ← onTab (farrAt i)
      pure { d with f, t := tagFloat }
    | .val v =>
      if v.isI31 then pure { d with i := (unboxNum v).i, t := tagInt }
      else if v = .nil then ixSlowReadCell mm key
      else pure (unboxNum v)

/-- The inline part of `emit_ix_set`, after the test of the tag: the store is done, or the slow path is to do it. -/
def ixSetInline (append hasMeta : Bool) (k : Int64) (v : Val) : TabM Bool := do
  let t := (← get).t
  if v = .nil then pure false
  else if ixOff k < t.alen then
    if (← arrAt (ixIndex k)).isNull then pure false
    else
      setArr (ixIndex k) (.val v)
      pure true
  else if append = true ∧ ixOff k = t.alen then appendAt hasMeta (ixIndex k) v
  else pure false

/-- The slow path of `emit_ix_set`. -/
def ixSetSlow (mm : Metamethods Ω) (key : IxKey) (v : Val) : IxM Ω Unit :=
  match key with
  | .int i => luaTabsetIkMiss mm i v
  | .cell _ c => luaTabsetMk mm c v

/-- `emit_ix_set`: `t[k] = v`. With `append`, the key is spelled `#t + 1`. -/
def emitIxSet (mm : Metamethods Ω) (append : Bool) (key : IxKey) (v : Val) : IxM Ω Unit := do
  if key.isOther then ixSetSlow mm key v
  else if ← onTab (ixSetInline append (← get).hasMeta key.keyI v) then pure ()
  else ixSetSlow mm key v

/-- The inline part of `emit_ix_set_f`. -/
def ixSetInlineF (k : Int64) (f : F64) : TabM Bool := do
  match emitIxProbe (.int k) (← get).t with
  | none => pure false
  | some i =>
    if (← arrAt i) ≠ .mark then pure false
    else
      let a ← orStuck (← get).t.farr
      let a ← orStuck (setAt a i f)
      modifyTable fun t => { t with farr := some a }
      pure true

/-- `emit_ix_set_f`: `t[k] = f`, of an unboxed float. -/
def emitIxSetF (mm : Metamethods Ω) (k : Int64) (f : F64) : IxM Ω Unit := do
  if ← onTab (ixSetInlineF k f) then pure () else luaTabsetIkF mm k f

/-- `emit_len_cell`: `#t` into the cell `d`. -/
def emitLenCell (mm : Metamethods Ω) (d : Cell) : IxM Ω Cell := do
  let s ← get
  if s.hasMeta then unboxNum <$> luaLen mm
  else if (← onTab getShape).n ≠ 0 then unboxNum <$> luaLen mm
  else pure { d with i := Int64.ofInt s.tab.t.alen, t := tagInt }

/-! ## What both sides read and write -/

variable {s : TabState} {k : Int64} {v : Val} {i n : ℕ} {key : IxKey} {mm : Metamethods Ω} {r : Receiver Ω}

/-- A computation on the table alone returns as it does there. -/
theorem returns_onTab {x : TabM α} {a : α} {tab : TabState} (h : Returns x r.tab a tab) :
    Returns (onTab x) r a { r with tab } := by
  have hrun : (x.run r.tab : Except Fault α × TabState) = (.ok a, tab) := h
  unfold Returns onTab
  rw [ExceptT.run_mk]
  change (match (x.run r.tab : Except Fault α × TabState) with | (r', tab) => (r', { r with tab })) = _
  rw [hrun]

/-- A read of the table, as the first part of a sequence. -/
theorem run_onTab_bind {x : TabM α} {a : α} {tab : TabState} (h : Returns x r.tab a tab)
    (f : α → IxM Ω β) :
    ((onTab x >>= f).run r : Except Fault β × Receiver Ω) = (f a).run { r with tab } :=
  (returns_onTab h).run_bind f

theorem run_get_bind (f : Receiver Ω → IxM Ω β) :
    ((get >>= f).run r : Except Fault β × Receiver Ω) = (f r).run r := rfl

theorem returns_pure {ε σ : Type} (a : α) (s : σ) : Returns (pure a : ExceptT ε (StateM σ) α) s a s := rfl

theorem returns_orStuck {o : Option α} {a : α} (h : o = some a) : Returns (orStuck o) s a s := by
  rw [h]
  rfl

/-- `k - 1` is below the length just for the keys of the array part. -/
theorem ixOff_cast (k : Int64) : (ixOff k : ℤ) = (k.toInt - 1) % 2^64 := by
  unfold ixOff
  rw [Arith.toUInt64_toNat, Int64.toInt_sub, Int64.toInt_one, Int.bmod_def]
  split <;> omega

theorem ixOff_lt_iff (hn : n < 2^31) : ixOff k < n ↔ 1 ≤ k.toInt ∧ k.toInt ≤ n := by
  have hcast := ixOff_cast k
  have hlo := k.le_toInt
  have hhi := k.toInt_lt
  omega

theorem ixOff_eq_iff (hn : n < 2^31) : ixOff k = n ↔ k.toInt = (n : ℤ) + 1 := by
  have hcast := ixOff_cast k
  have hlo := k.le_toInt
  have hhi := k.toInt_lt
  omega

/-- `$ix_i` is the index of the key. -/
theorem ixIndex_eq (hlo : 1 ≤ k.toInt) (hhi : k.toInt ≤ 2^31) : ixIndex k = arrIndex k := by
  have hcast := ixOff_cast k
  unfold ixIndex arrIndex
  rw [UInt64.toNat_toUInt32]
  change ixOff k % 2^32 = _
  omega

theorem ixOff_lt_iff_inArr (hok : TabOk s none) : ixOff k < s.t.alen ↔ inArr s.t k = true := by
  rw [ixOff_lt_iff hok.arr.small, inArr_iff]

theorem ixIndex_of_inArr (hok : TabOk s none) (hin : inArr s.t k = true) : ixIndex k = arrIndex k := by
  have hsmall := hok.arr.small
  rw [inArr_iff] at hin
  exact ixIndex_eq hin.1 (by omega)

theorem returns_arrAt (hok : TabOk s none) (hi : i < s.t.alen) : Returns (arrAt i) s (s.t.arrSlot i) s := by
  have hroom := hok.arr.room
  obtain ⟨a, ha, -, hget⟩ := getElem?_arr (s := s) (i := i) (by omega)
  unfold arrAt
  apply returns_get_bind
  exact Returns.bind (returns_orStuck ha) (returns_orStuck hget)

theorem returns_arrValueAt (hok : TabOk s none) (hi : i < s.t.alen) :
    Returns (arrValueAt i) s (s.t.arrValue i) s := by
  unfold arrValueAt
  apply Returns.bind (returns_arrAt hok hi)
  apply returns_get_bind
  exact returns_orStuck (hok.arr.tval_eq hi)

/-- The double of a marked slot. -/
theorem returns_farrAt (hok : TabOk s none) (hi : i < s.t.alen) (hmark : s.t.arrSlot i = .mark) :
    ∃ fa f, s.t.farr = some fa ∧ i < fa.length ∧ s.t.arrValue i = .float f ∧ Returns (farrAt i) s f s := by
  have hroom := hok.arr.room
  obtain ⟨fa, hfa⟩ := Option.ne_none_iff_exists'.mp (hok.arr.marked i hi (by simp) hmark)
  obtain ⟨a, ha, hlen⟩ := hok.arr.farr fa hfa
  rw [ha, lengthOf_some] at hroom
  have hlt : i < fa.length := by omega
  refine ⟨fa, fa.getD i fzero, hfa, hlt, ?_, ?_⟩
  · unfold LuaTable.arrValue
    rw [hmark, hfa, Option.getD_some]
  · unfold farrAt
    apply returns_get_bind
    apply Returns.bind (returns_orStuck hfa)
    exact returns_orStuck (getElem?_of_lt hlt)

/-! ## Reads -/

/-- The key of an access is the integer `k`. -/
def IxKey.Is (k : Int64) : IxKey → Prop
  | .int i => i = k
  | .cell _ c => c.t = tagInt ∧ c.i = k

theorem IxKey.Is.isOther (h : key.Is k) : key.isOther = false := by
  cases key with
  | int i => rfl
  | cell static c =>
    unfold IxKey.isOther
    simp [h.1]

theorem IxKey.Is.keyI (h : key.Is k) : key.keyI = k := by
  cases key with
  | int i => exact h
  | cell static c => exact h.2

/-- `$lua_index_ik`, when the array part has no value for the key. -/
theorem luaIndexIk_slow (hok : TabOk r.tab none)
    (hnil : inArr r.tab.t k = true → r.tab.t.arrValue (arrIndex k) = .nil) :
    ((luaIndexIk mm k).run r : Except Fault Val × Receiver Ω) = (luaIndexIkSlow mm k).run r := by
  unfold luaIndexIk
  rw [run_get_bind]
  by_cases hin : inArr r.tab.t k = true
  · rw [if_pos hin, run_onTab_bind (returns_arrValueAt hok (arrIndex_lt hin)), if_pos (hnil hin)]
  · rw [if_neg hin]

/-- `$lua_index_ik`, when it has one. -/
theorem luaIndexIk_value (hok : TabOk r.tab none) (hin : inArr r.tab.t k = true)
    (hne : r.tab.t.arrValue (arrIndex k) ≠ .nil) :
    ((luaIndexIk mm k).run r : Except Fault Val × Receiver Ω) = (.ok (r.tab.t.arrValue (arrIndex k)), r) := by
  unfold luaIndexIk
  rw [run_get_bind, if_pos hin, run_onTab_bind (returns_arrValueAt hok (arrIndex_lt hin)), if_neg hne]
  rfl

theorem ixSlowRead_eq (hok : TabOk r.tab none) (hk : key.Is k)
    (hnil : inArr r.tab.t k = true → r.tab.t.arrValue (arrIndex k) = .nil) :
    ((ixSlowRead mm key).run r : Except Fault Val × Receiver Ω) = (luaIndexIk mm k).run r := by
  rw [luaIndexIk_slow hok hnil]
  cases key with
  | int i =>
    obtain rfl := hk
    rfl
  | cell static c =>
    obtain ⟨ht, rfl⟩ := hk
    unfold ixSlowRead luaIndexMk
    dsimp only
    rw [if_pos ht, luaIndexIk_slow hok hnil]

theorem emitIxProbe_none (hok : TabOk s none) (hk : key.Is k) (hin : ¬ inArr s.t k = true) :
    emitIxProbe key s.t = none := by
  unfold emitIxProbe
  rw [← ixOff_lt_iff_inArr hok] at hin
  rw [hk.isOther, hk.keyI, if_neg (by simp), if_pos (by omega)]

theorem emitIxProbe_some (hok : TabOk s none) (hk : key.Is k) (hin : inArr s.t k = true) :
    emitIxProbe key s.t = some (arrIndex k) := by
  have hlt := (ixOff_lt_iff_inArr hok).mpr hin
  unfold emitIxProbe
  rw [hk.isOther, hk.keyI, if_neg (by simp), if_neg (by omega), ixIndex_of_inArr hok hin]

/-- A read that finds the key in the array part is `$lua_index_ik`, whatever it does with a slot that is empty. -/
theorem arrRead_eq {g : Slot → IxM Ω Val} (hok : TabOk r.tab none) (hin : inArr r.tab.t k = true)
    (hmark : g .mark = onTab (farrAt (arrIndex k)) >>= fun f => pure (.float f))
    (hval : ∀ v, v ≠ .nil → g (.val v) = pure v)
    (hnil : r.tab.t.arrValue (arrIndex k) = .nil → (g (.val .nil)).run r = (luaIndexIk mm k).run r) :
    ((onTab (arrAt (arrIndex k)) >>= g).run r : Except Fault Val × Receiver Ω) = (luaIndexIk mm k).run r := by
  have hlt := arrIndex_lt hin
  rw [run_onTab_bind (returns_arrAt hok hlt)]
  cases hslot : r.tab.t.arrSlot (arrIndex k) with
  | mark =>
    obtain ⟨fa, f, -, -, hvalue, hread⟩ := returns_farrAt hok hlt hslot
    rw [hmark, run_onTab_bind hread, luaIndexIk_value hok hin (by rw [hvalue]; simp), hvalue]
    rfl
  | val v =>
    have hvalue : r.tab.t.arrValue (arrIndex k) = v := by
      unfold LuaTable.arrValue
      rw [hslot]
    by_cases hv : v = .nil
    · subst hv
      exact hnil hvalue
    · rw [hval v hv, luaIndexIk_value hok hin (by rw [hvalue]; exact hv), hvalue]
      rfl

/-- `t[k]` in generated code is `$lua_index_ik`. -/
theorem emitIxGet_eq (hok : TabOk r.tab none) (hk : key.Is k) :
    ((emitIxGet mm key).run r : Except Fault Val × Receiver Ω) = (luaIndexIk mm k).run r := by
  unfold emitIxGet
  rw [run_get_bind]
  by_cases hin : inArr r.tab.t k = true
  · rw [emitIxProbe_some hok hk hin]
    exact arrRead_eq hok hin rfl (fun v hv => if_neg hv) fun h => ixSlowRead_eq hok hk fun _ => h
  · rw [emitIxProbe_none hok hk hin]
    exact ixSlowRead_eq hok hk fun h => absurd h hin

/-! ## Reads into cells -/

/-- A value comes back from its cell. -/
theorem boxNum_unboxNum (v : Val) : (unboxNum v).boxNum = v := by
  cases v <;> rfl

theorem boxNum_map_unboxNum (x : IxM Ω Val) : Cell.boxNum <$> unboxNum <$> x = x := by
  rw [Functor.map_map]
  simp only [boxNum_unboxNum, id_map']

/-- `$lua_index_ik_cell` is `$lua_index_ik`. -/
theorem luaIndexIkCell_eq (hok : TabOk r.tab none) :
    ((Cell.boxNum <$> luaIndexIkCell mm k).run r : Except Fault Val × Receiver Ω) = (luaIndexIk mm k).run r := by
  unfold luaIndexIkCell
  rw [map_bind, run_get_bind]
  by_cases hin : inArr r.tab.t k = true
  · rw [if_pos hin, map_bind]
    apply arrRead_eq hok hin (map_bind ..)
    · intro v hv
      dsimp only
      rw [if_neg hv, map_pure, boxNum_unboxNum]
    · intro h
      dsimp only
      rw [if_pos rfl, boxNum_map_unboxNum, luaIndexIk_slow hok fun _ => h]
  · rw [if_neg hin, boxNum_map_unboxNum, luaIndexIk_slow hok fun h => absurd h hin]

theorem ixSlowReadCell_eq (hok : TabOk r.tab none) (hk : key.Is k)
    (hnil : inArr r.tab.t k = true → r.tab.t.arrValue (arrIndex k) = .nil) :
    ((Cell.boxNum <$> ixSlowReadCell mm key).run r : Except Fault Val × Receiver Ω) = (luaIndexIk mm k).run r := by
  cases key with
  | int i =>
    obtain rfl := hk
    unfold ixSlowReadCell
    rw [boxNum_map_unboxNum, luaIndexIk_slow hok hnil]
  | cell static c =>
    obtain ⟨ht, rfl⟩ := hk
    unfold ixSlowReadCell luaIndexMkCell
    dsimp only
    rw [if_pos ht, luaIndexIkCell_eq hok]

/-- `t[k]` in generated code is `$lua_index_ik`, into a cell as well. -/
theorem emitIxGetCell_eq (hok : TabOk r.tab none) (hk : key.Is k) (d : Cell) :
    ((Cell.boxNum <$> emitIxGetCell mm key d).run r : Except Fault Val × Receiver Ω) = (luaIndexIk mm k).run r := by
  unfold emitIxGetCell
  rw [map_bind, run_get_bind]
  by_cases hin : inArr r.tab.t k = true
  · rw [emitIxProbe_some hok hk hin]
    rw [map_bind]
    apply arrRead_eq hok hin (map_bind ..)
    · intro v hv
      dsimp only
      split_ifs with hint
      · -- the other locals of the cell keep what they had
        cases v with
        | int i => rfl
        | _ => cases hint
      · rw [map_pure, boxNum_unboxNum]
    · exact fun h => ixSlowReadCell_eq hok hk fun _ => h
  · rw [emitIxProbe_none hok hk hin]
    exact ixSlowReadCell_eq hok hk fun h => absurd h hin

/-- `#t` in generated code is `$lua_len`. -/
theorem emitLenCell_eq (hok : TabOk r.tab none) (d : Cell) :
    ((Cell.boxNum <$> emitLenCell mm d).run r : Except Fault Val × Receiver Ω) = (luaLen mm).run r := by
  obtain ⟨sh, hash⟩ := hok.hash
  have hshape : Returns getShape r.tab sh r.tab := by
    unfold getShape
    exact returns_get_bind (returns_orStuck hash.shape)
  unfold emitLenCell
  rw [map_bind, run_get_bind]
  by_cases hmeta : r.hasMeta = true
  · rw [if_pos hmeta, boxNum_map_unboxNum]
  · rw [if_neg hmeta, map_bind, run_onTab_bind hshape]
    split
    · rw [boxNum_map_unboxNum]
    · rename_i hn
      have hlen : tabLen r.tab = some r.tab.t.alen := by
        unfold tabLen
        rw [hash.shape]
        simp only [Option.bind_eq_bind, Option.bind_some]
        rw [if_pos (not_not.mp hn)]
      have hread : Returns (do orStuck (tabLen (← get))) r.tab r.tab.t.alen r.tab :=
        returns_get_bind (returns_orStuck hlen)
      unfold luaLen
      rw [map_pure, run_get_bind, if_neg hmeta]
      rw [run_onTab_bind hread]
      rfl

end Lua2wasm.Table
