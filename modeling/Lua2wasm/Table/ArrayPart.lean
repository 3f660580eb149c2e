import Lua2wasm.Table.HashPart

/-!
# The array part of a table, and raw access

`runtime/prelude/tables.wat`, the half about the array part, with the raw reads and writes that
choose between the two parts; the store of an unboxed float at an integer key
(`$lua_tabset_ik_f` in `index.wat`); `table.insert` and `table.remove` (`tablib.wat`). All of it for
a table without a metatable.

The array part holds the integer keys `1`, ..., `alen`. Slots may be nil, but the last one never is.
-/

namespace Lua2wasm.Table

/-- `$arr_max`: the array part does not grow beyond it by appending. -/
def arrMax : ℕ := 16777216

/-- `$make_int`, of a number that fits. -/
def makeInt (n : ℤ) : Val := .int (Int64.ofInt n)

/-- `$as_arr_key`: the value of an integer key. -/
def asArrKey : Val → Option Int64
  | .int i => some i
  | .float f => f.toI64
  | _ => none

/-! ## Room -/

/-- The capacity that `$arr_ensure` chooses. Twice the length is a negative number of 32 bits from
`2^30` on. -/
def arrCap (len need : ℕ) : ℕ := if 2 * len < 2^31 then max (2 * len) need else need

/-- The growth of `$arr_ensure`. -/
def arrGrow (a : List Slot) (need : ℕ) : TabM Unit := do
  let cap := arrCap a.length need
  let na ← orStuck (arrayCopy (List.replicate cap (.val .nil)) 0 a 0 a.length)
  match (← get).t.farr with
  | none => modifyTable fun t => { t with arr := some na }
  | some fa =>
    let fa ← orStuck (farrGrow fa cap fa.length)
    modifyTable fun t => { t with arr := some na, farr := some fa }

/-- `$arr_ensure`. A need of `2^31` is a negative number. -/
def arrEnsure (need : ℕ) : TabM Unit := do
  match (← get).t.arr with
  | none => modifyTable fun t => { t with arr := some (List.replicate (max 4 need) (.val .nil)) }
  | some a => if need ≤ a.length ∨ 2^31 ≤ need then pure () else arrGrow a need

/-- `$farr_ensure`. -/
def farrEnsure : TabM (List F64) := do
  let t := (← get).t
  let a ← orStuck t.arr
  let fa ← match t.farr with
    | none => pure (List.replicate a.length fzero)
    | some fa =>
      if fa.length < a.length then orStuck (farrGrow fa a.length fa.length) else pure fa
  modifyTable fun t => { t with farr := some fa }
  pure fa

/-- Write a value slot of the array part. -/
def setArr (i : ℕ) (v : Slot) : TabM Unit := do
  let a ← orStuck (← get).t.arr
  let a ← orStuck (setAt a i v)
  modifyTable fun t => { t with arr := some a }

/-- Write a double of the array part. -/
def setFarr (i : ℕ) (f : F64) : TabM Unit := do
  let fa ← farrEnsure
  let fa ← orStuck (setAt fa i f)
  modifyTable fun t => { t with farr := some fa }

/-- Set the length of the array part. -/
def setAlen (n : ℕ) : TabM Unit := modifyTable fun t => { t with alen := n }

/-! ## Trimming and demotion -/

/-- The loop of `$arr_trim`. -/
def trimLen (a : List Slot) : ℕ → Option ℕ
  | 0 => some 0
  | n + 1 => do if (← a[n]?).isNull then trimLen a n else some (n + 1)

/-- `$arr_trim`: drop the holes at the end. -/
def arrTrim : TabM Unit := do
  let t := (← get).t
  let n ← orStuck (trimLen (t.arr.getD []) t.alen)
  setAlen n

/-- `$arr_holes`: the number of holes among the first `alen` slots. -/
def arrHoles (a : List Slot) (alen : ℕ) : Option ℕ :=
  if alen ≤ a.length then some ((a.take alen).countP Slot.isNull) else none

/-- The move of one slot of the array part to the hash part. -/
def demoteSlot (a : List Slot) (fa : Option (List F64)) (i : ℕ) : TabM Unit := do
  let v ← orStuck a[i]?
  if v.isNull then pure () else tabSetHash (makeInt (i + 1)) (← orStuck (tval v fa i))

/-- The loop of `$tab_demote` over the slots from `i` on. -/
def demoteFrom (a : List Slot) (fa : Option (List F64)) : ℕ → ℕ → TabM Unit
  | 0, _ => pure ()
  | todo + 1, i => do
    demoteSlot a fa i
    demoteFrom a fa todo (i + 1)

/-- `$tab_demote`: move the array part to the hash part. -/
def tabDemote : TabM Unit := do
  let t := (← get).t
  if t.alen = 0 then pure ()
  else
    let a ← orStuck t.arr
    modifyTable fun t => { t with alen := 0, arr := none, farr := none }
    demoteFrom a t.farr t.alen 0

/-! ## Writing -/

/-- The array part is full and mostly holes. -/
def mostlyHoles (t : LuaTable) : Option Bool :=
  match t.arr with
  | none => some false
  | some a =>
    if a.length ≤ t.alen then (arrHoles a t.alen).map fun holes => t.alen < 2 * holes
    else some false

/-- Write the slot after the array part, and make it part of it. -/
def arrPush (v : Slot) : TabM Unit := do
  let n := (← get).t.alen
  arrEnsure (n + 1)
  setArr n v
  setAlen (n + 1)

/-- The key that continues the array part, from the hash part. -/
def nextInHash (s : TabState) : Option Val :=
  if s.t.alen < arrMax then tabGetHash s (makeInt (s.t.alen + 1)) else some .nil

/-- Move the key that continues the array part, whose value is `hv`. -/
def absorbOne (hv : Val) : TabM Unit := do
  let n := (← get).t.alen
  arrEnsure (n + 1)
  setArr n (.val hv)
  tabSetHash (makeInt (n + 1)) .nil
  setAlen (n + 1)

/-- The loop of `$arr_append` that absorbs the keys that continue the array part. Every key that it
moves is one of the hash part, so the number of those bounds it. -/
def absorb : ℕ → TabM Unit
  | 0 => throw .stuck
  | fuel + 1 => do
    let hv ← orStuck (nextInHash (← get))
    if hv = .nil then pure ()
    else
      absorbOne hv
      absorb fuel

/-- The end of `$arr_append`. -/
def absorbAll : TabM Unit := do
  let sh ← getShape
  if sh.n = 0 then pure () else absorb (sh.n + 1)

/-- `$arr_append`. -/
def arrAppend (v : Slot) : TabM Bool := do
  let t := (← get).t
  if v.isNull then pure false
  else if arrMax ≤ t.alen then pure false
  else if ← orStuck (mostlyHoles t) then
    tabDemote
    pure false
  else
    arrPush v
    absorbAll
    pure true

/-- The key is in the array part. -/
def inArr (t : LuaTable) (i : Int64) : Bool := 1 ≤ i.toInt ∧ i.toInt ≤ t.alen

/-- The index of a key of the array part. -/
def arrIndex (i : Int64) : ℕ := (i.toInt - 1).toNat

/-- `$tab_set_arr`, when the key is in the array part. -/
def setInArr (i : Int64) (v : Slot) : TabM Unit := do
  let t := (← get).t
  setArr (arrIndex i) v
  if v.isNull ∧ i.toInt = t.alen then arrTrim else pure ()

/-- `$tab_set_arr`. -/
def tabSetArr (i : Int64) (v : Slot) : TabM Bool := do
  let t := (← get).t
  if inArr t i then
    setInArr i v
    pure true
  else if i.toInt = t.alen + 1 then arrAppend v
  else pure false

/-- `$tab_set_ik`: a store at an integer key. -/
def tabSetIk (i : Int64) (v : Val) : TabM Unit := do
  if ← tabSetArr i (.val v) then pure () else tabSetHash (.int i) v

/-- The value is a NaN. -/
def Val.isNaN : Val → Bool
  | .float f => f.isNaN
  | _ => false

/-- `$tab_set`. -/
def tabSet (k v : Val) : TabM Unit :=
  if k.isStr then tabSetHash k v
  else if k = .nil then throw (.raised "table index is nil")
  else if k.isNaN then throw (.raised "table index is NaN")
  else match asArrKey k with
    | some i => tabSetIk i v
    | none => tabSetHash k v

/-- `$lua_tabset_ik_f`: the store of an unboxed float at an integer key. -/
def tabsetIkF (i : Int64) (f : F64) : TabM Unit := do
  if ← tabSetArr i .mark then setFarr (arrIndex i) f else tabSetFHash (.int i) f

/-! ## Reading -/

/-- `$tab_get_raw`. -/
def tabGetRaw (s : TabState) (k : Val) : Option Val :=
  if k.isStr then tabGetHash s k
  else match asArrKey k with
    | some i =>
      if inArr s.t i then do tval (← (← s.t.arr)[arrIndex i]?) s.t.farr (arrIndex i)
      else tabGetHash s k
    | none => tabGetHash s k

/-- The loop of `$tab_len`. It passes keys of the hash part, so the number of those bounds it. -/
def lenFrom (s : TabState) : ℕ → ℕ → Option ℕ
  | 0, _ => none
  | fuel + 1, i => do
    if (← tabGetHash s (makeInt (i + 1))) = .nil then some i else lenFrom s fuel (i + 1)

/-- `$tab_len`. -/
def tabLen (s : TabState) : Option ℕ := do
  let sh ← s.shape
  if sh.n = 0 then some s.t.alen else lenFrom s (sh.n + 1) s.t.alen

/-! ## `table.insert` and `table.remove` -/

/-- "position out of bounds". -/
def outOfBounds : Fault := .raised "position out of bounds"

/-- `i32.wrap_i64`, as a signed number. -/
def wrap32 (i : Int64) : ℤ := i.toInt32.toInt

/-- `ref.i31`: an integer of 31 bits. -/
def refI31 (n : ℤ) : Val := makeInt (n.bmod (2^31))

/-- `$table_append`: `table.insert(t, v)`. -/
def tableAppend (v : Val) : TabM Unit := do
  let n ← orStuck (tabLen (← get))
  tabSet (refI31 (n + 1)) v

/-- `t[dst] = t[src]`. -/
def moveSlot (src dst : ℕ) : TabM Unit := do
  let v ← orStuck (tabGetRaw (← get) (refI31 src))
  tabSet (refI31 dst) v

/-- One step of the loop of `table.insert`. -/
def shiftUp (i : ℕ) : TabM Unit := moveSlot i (i + 1)

/-- The loop of `table.insert`, which shifts `todo` values, the last of which is `i`. -/
def shiftUpFrom : ℕ → ℕ → TabM Unit
  | 0, _ => pure ()
  | todo + 1, i => do
    shiftUp i
    shiftUpFrom todo (i - 1)

/-- Shift the values of the array part. -/
def moveArr (dst src n : ℕ) : TabM Unit := do
  let a ← orStuck (← get).t.arr
  let a ← orStuck (arrayCopy a dst a src n)
  modifyTable fun t => { t with arr := some a }

/-- Shift the doubles of the array part along. -/
def moveFarr (dst src n : ℕ) : TabM Unit := do
  match (← get).t.farr with
  | none => pure ()
  | some _ =>
    let fa ← farrEnsure
    let fa ← orStuck (arrayCopy fa dst fa src n)
    modifyTable fun t => { t with farr := some fa }

/-- The fast path of `table.insert`. -/
def insertFast (pos : ℕ) (v : Val) : TabM Unit := do
  let n := (← get).t.alen
  arrEnsure (n + 1)
  moveArr pos (pos - 1) (n + 1 - pos)
  moveFarr pos (pos - 1) (n + 1 - pos)
  setArr (pos - 1) (.val v)
  setAlen (n + 1)

/-- The slow path of `table.insert`. -/
def insertSlow (n pos : ℕ) (v : Val) : TabM Unit := do
  shiftUpFrom (n + 1 - pos) n
  tabSet (refI31 pos) v

/-- `table.insert(t, pos, v)`. -/
def tableInsert (i : Int64) (v : Val) : TabM Unit := do
  let s ← get
  let n ← orStuck (tabLen s)
  let pos := wrap32 i
  if pos < 1 ∨ n + 1 < pos then throw outOfBounds
  else if n = s.t.alen ∧ v ≠ .nil then insertFast pos.toNat v
  else insertSlow n pos.toNat v

/-- One step of the loop of `table.remove`. -/
def shiftDown (i : ℕ) : TabM Unit := moveSlot (i + 1) i

/-- The loop of `table.remove`, which shifts `todo` values from `i` on. -/
def shiftDownFrom : ℕ → ℕ → TabM Unit
  | 0, _ => pure ()
  | todo + 1, i => do
    shiftDown i
    shiftDownFrom todo (i + 1)

/-- Shift the doubles of the array part down. -/
def moveFarrDown (dst src n : ℕ) : TabM Unit := do
  match (← get).t.farr with
  | none => pure ()
  | some fa =>
    let fa ← orStuck (arrayCopy fa dst fa src n)
    modifyTable fun t => { t with farr := some fa }

/-- The fast path of `table.remove`. -/
def removeFast (pos : ℕ) : TabM Val := do
  let t := (← get).t
  let removed ← orStuck (do tval (← (← t.arr)[pos - 1]?) t.farr (pos - 1))
  moveArr (pos - 1) pos (t.alen - pos)
  moveFarrDown (pos - 1) pos (t.alen - pos)
  setArr (t.alen - 1) (.val .nil)
  setAlen (t.alen - 1)
  arrTrim
  pure removed

/-- The slow path of `table.remove`. -/
def removeSlow (n pos : ℕ) : TabM Val := do
  let removed ← orStuck (tabGetRaw (← get) (refI31 pos))
  shiftDownFrom (n - pos) pos
  tabSet (refI31 (max pos n : ℕ)) .nil
  pure removed

/-- `table.remove(t, pos)`, and `table.remove(t)` when there is no position. -/
def tableRemove (i : Option Int64) : TabM Val := do
  let s ← get
  let n ← orStuck (tabLen s)
  let pos := (i.map wrap32).getD n
  if pos ≠ n ∧ (pos < 1 ∨ n + 1 < pos) then throw outOfBounds
  else if n = s.t.alen ∧ 1 ≤ pos ∧ pos ≤ n then removeFast pos.toNat
  else removeSlow n pos.toNat

/-! ## Constructors -/

/-- The loop of `$tab_new_arr_rest` over the values `vs`, the first of which has the index `j`. -/
def newArrRest : ℕ → List Val → TabM Unit
  | _, [] => pure ()
  | j, v :: vs => do
    setArr j (.val .nil)
    if v = .nil then pure () else tabSetIk (Int64.ofInt (j + 1)) v
    newArrRest (j + 1) vs

/-- `$tab_new_arr`, on a new table: the values before the first nil become the array part, and the
others are stored one by one. -/
def tabNewArr (a : List Val) : TabM Unit := do
  let n := (a.takeWhile fun v => v ≠ .nil).length
  modifyTable fun t => { t with arr := some (a.map .val), alen := n }
  newArrRest (n + 1) (a.drop (n + 1))

end Lua2wasm.Table
