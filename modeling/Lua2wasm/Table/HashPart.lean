import Lua2wasm.Table.Value
import Lua2wasm.Lib.Probe
import Lua2wasm.Lib.Raising

/-!
# The hash part of a table

`runtime/prelude/tables.wat`, the half about shapes: the keys of the hash part are in a `$Shape`, in
the order of their insertion, with an open-addressing index over them, and the values are at the
same positions of the table's `$vals`. A slot that holds `$g_fmark` has its value in `$fvals`.

Tables with the same string keys share one shape, reached through the transition caches of the
shapes before it. A shared shape lives in the list of shared shapes and is referred to by its place
there. A table that turns into a dictionary gets a shape of its own (`$own`), which is part of the
table here, as nothing else refers to it.

A computation may raise a Lua error, which keeps the changes made so far. `Fault.stuck` is a
WebAssembly trap (an array index out of bounds, a null reference) or a loop that never ends. An
allocation that is not refused by the code's own limits succeeds. Lengths and positions are natural
numbers: the limits keep them far below `2^31`.
-/

namespace Lua2wasm.Table

open Probe

/-- A value slot of a table. -/
inductive Slot
  /-- `$g_fmark`: the value is the double at the same index of the parallel array. -/
  | mark
  /-- A Lua value; `nil` is the null reference. -/
  | val (v : Val)
  deriving DecidableEq, Repr

/-- `ref.is_null`, of a value slot. -/
def Slot.isNull (v : Slot) : Bool := v = .val .nil

/-- `$Shape`, without the transition cache. -/
structure Shape where
  /-- `keys[0..n)`, in the order of insertion, and the room after them. -/
  keys : List Val
  /-- The hash index: a position plus one, 0 for an empty slot, negative for a tombstone. -/
  idx : List ℤ
  /-- The number of index slots minus one. -/
  mask : ℕ
  /-- The number of keys. -/
  n : ℕ
  /-- The number of occupied index slots. -/
  used : ℕ
  deriving Repr

/-- A shape that tables share. -/
structure SharedShape extends Shape where
  /-- `$tkeys`: the keys of the transition cache. -/
  tkeys : Option (List Val)
  /-- `$tkids`: the shapes that they lead to. -/
  tkids : Option (List (Option ℕ))
  deriving Repr

/-- `$shape` and `$own`. -/
inductive ShapeRef
  /-- A shared shape, by its place among them. -/
  | shared (r : ℕ)
  /-- The private shape of the table. -/
  | own (sh : Shape)
  deriving Repr

/-- `$LuaTable`. The metatable and the number of the table are not part of it. -/
structure LuaTable where
  /-- The key layout of the hash part. -/
  shape : ShapeRef
  /-- The values of the hash part, by key position. -/
  vals : Option (List Slot)
  /-- The array part: the integer keys from 1 to `alen`, and the room after them. -/
  arr : Option (List Slot)
  /-- The length of the array part. -/
  alen : ℕ
  /-- The doubles of the marked slots of `vals`. -/
  fvals : Option (List F64)
  /-- The doubles of the marked slots of `arr`. -/
  farr : Option (List F64)
  deriving Repr

/-- One table, and the shapes that all tables share. -/
structure TabState where
  /-- The shared shapes. Once built, only their transition caches change. -/
  shapes : List SharedShape
  /-- The table. -/
  t : LuaTable
  deriving Repr

/-- What ends a computation early. -/
inductive Fault
  /-- `$throw_lit`: a Lua error. -/
  | raised (msg : String)
  /-- A trap, or a loop that never ends. -/
  | stuck
  deriving DecidableEq, Repr

/-- A computation on a table. -/
abbrev TabM := ExceptT Fault (StateM TabState)

/-- The value of a read that traps when there is none. -/
def orStuck {α : Type} : Option α → TabM α
  | some a => pure a
  | none => throw .stuck

/-- `array.set`. -/
def setAt {α : Type} (a : List α) (i : ℕ) (v : α) : Option (List α) :=
  if i < a.length then some (a.set i v) else none

/-- `array.copy`. The source is read before anything is written. -/
def arrayCopy {α : Type} (dst : List α) (d : ℕ) (src : List α) (s n : ℕ) : Option (List α) :=
  if d + n ≤ dst.length ∧ s + n ≤ src.length then
    some (dst.take d ++ (src.drop s).take n ++ dst.drop (d + n))
  else none

/-- Write `v` to the `n` elements from `i` on. -/
def arrayFill {α : Type} (a : List α) (i : ℕ) (v : α) (n : ℕ) : Option (List α) :=
  arrayCopy a i (List.replicate n v) 0 n

/-- The length of an array that may be null. -/
def lengthOf {α : Type} (a : Option (List α)) : ℕ := (a.map List.length).getD 0

/-- `$g_root_shape`. -/
def rootShape : SharedShape where
  keys := []
  idx := List.replicate 8 0
  mask := 7
  n := 0
  used := 0
  tkeys := some (List.replicate 64 .nil)
  tkids := some (List.replicate 64 none)

/-- `$tab_new`. -/
def tabNew : LuaTable where
  shape := .shared 0
  vals := none
  arr := none
  alen := 0
  fvals := none
  farr := none

/-- `$shape_share_max`. -/
def shapeShareMax : ℕ := 32

/-- The largest value array that `$vals_reserve` makes, and the message it raises above that. -/
def valsMax : ℕ := 16777216

/-- "table overflow". -/
def tableOverflow : Fault := .raised "table overflow"

/-- The shape of the table. -/
def TabState.shape (s : TabState) : Option Shape :=
  match s.t.shape with
  | .own sh => some sh
  | .shared r => (s.shapes[r]?).map SharedShape.toShape

/-- Read the shape. -/
def getShape : TabM Shape := do orStuck (← get).shape

/-- Read the private shape. -/
def getOwnShape : TabM Shape := do
  match (← get).t.shape with
  | .own sh => pure sh
  | .shared _ => throw .stuck

/-- Change the table. -/
def modifyTable (f : LuaTable → LuaTable) : TabM Unit := modify fun s => { s with t := f s.t }

/-! ## Values -/

/-- `$tval`: a value slot as a Lua value. -/
def tval (v : Slot) (fa : Option (List F64)) (i : ℕ) : Option Val :=
  match v with
  | .val v => some v
  | .mark => do return .float (← (← fa)[i]?)

/-- The double 0. -/
def fzero : F64 := ⟨0⟩

/-- `$farr_grow`. -/
def farrGrow (old : List F64) (newCap n : ℕ) : Option (List F64) :=
  arrayCopy (List.replicate newCap fzero) 0 old 0 n

/-- `$fvals_ensure`. -/
def fvalsEnsure : TabM (List F64) := do
  let t := (← get).t
  match t.fvals with
  | some fa => pure fa
  | none =>
    let vals ← orStuck t.vals
    let fa := List.replicate vals.length fzero
    modifyTable fun t => { t with fvals := some fa }
    pure fa

/-- The capacity that `$vals_reserve` chooses for `need` values. -/
def valsCap (len need : ℕ) : ℕ := max (if len = 0 then 4 else 2 * len) need

/-- `$vals_reserve`. -/
def valsReserve (need : ℕ) : TabM Unit := do
  let t := (← get).t
  let len := lengthOf t.vals
  if need ≤ len then pure ()
  else if valsMax < valsCap len need then throw tableOverflow
  else
    let nv ← orStuck (arrayCopy (List.replicate (valsCap len need) (.val .nil)) 0
      (t.vals.getD []) 0 len)
    match t.fvals with
    | none => modifyTable fun t => { t with vals := some nv }
    | some fa =>
      let fa ← orStuck (farrGrow fa (valsCap len need) len)
      modifyTable fun t => { t with vals := some nv, fvals := some fa }

/-- Write a value slot of the hash part. -/
def setVal (i : ℕ) (v : Slot) : TabM Unit := do
  let vals ← orStuck (← get).t.vals
  let vals ← orStuck (setAt vals i v)
  modifyTable fun t => { t with vals := some vals }

/-- Write a double of the hash part. -/
def setFval (i : ℕ) (f : F64) : TabM Unit := do
  let fa ← fvalsEnsure
  let fa ← orStuck (setAt fa i f)
  modifyTable fun t => { t with fvals := some fa }

/-! ## Shapes -/

/-- Double a capacity until `need` slots fit. -/
def growCap (need : ℕ) : ℕ → ℕ → ℕ
  | 0, cap => cap
  | fuel + 1, cap => if need ≤ cap then cap else growCap need fuel (2 * cap)

/-- The size of an index over `live` keys: a power of two of at least `2 * (live + 1)` and 8. -/
def indexCap (live : ℕ) : ℕ := growCap (2 * (live + 1)) (2 * (live + 1)) 8

/-- The home slot of a key with the hash `full`. -/
def home (mask : ℕ) (full : UInt32) : ℕ := mask &&& full.toNat

/-- The loop of `$shape_index` over the keys from `i` on. -/
def placeKeys (mask : ℕ) (keys : List Val) : ℕ → ℕ → List ℤ → Option (List ℤ)
  | 0, _, idx => some idx
  | todo + 1, i, idx => do
    let k ← keys[i]?
    let idx ← place idx mask ((i : ℤ) + 1) (mask + 1) (home mask (luaHash k))
    placeKeys mask keys todo (i + 1) idx

/-- `$shape_index`: an index over `keys[0..n)`, and its mask. -/
def shapeIndex (keys : List Val) (n : ℕ) : Option (List ℤ × ℕ) := do
  let mask := indexCap n - 1
  let idx ← placeKeys mask keys n 0 (List.replicate (indexCap n) 0)
  return (idx, mask)

/-- The shape that `$shape_child` builds: `parent`, and the key `k` after its keys. -/
def childShape (parent : Shape) (k : Val) : Option SharedShape := do
  let keys ← arrayCopy (List.replicate (parent.n + 1) .nil) 0 parent.keys 0 parent.n
  let keys ← setAt keys parent.n k
  let (idx, mask) ← shapeIndex keys (parent.n + 1)
  return { keys, idx, mask, n := parent.n + 1, used := parent.n + 1, tkeys := none, tkids := none }

/-- The slot of a transition cache with the keys `tk`, for a key with the hash `full`. -/
def cacheSlot (tk : List Val) (full : UInt32) : ℕ := full.toNat &&& (tk.length - 1)

/-- The transition cache of a shape, which is made when the first child is entered. -/
def cacheKids (p : SharedShape) : Option (List (Option ℕ)) :=
  if p.tkeys.isNone then some (List.replicate 8 none) else p.tkids

/-- The end of `$shape_child`: build the child, and enter it in the transition cache. -/
def shapeAdd (shapes : List SharedShape) (parent : ℕ) (k : Val) (full : UInt32) :
    Option (ℕ × List SharedShape) := do
  let p ← shapes[parent]?
  let child ← childShape p.toShape k
  let tk := p.tkeys.getD (List.replicate 8 .nil)
  let kids ← cacheKids p
  let tk' ← setAt tk (cacheSlot tk full) k
  let kids ← setAt kids (cacheSlot tk full) (some shapes.length)
  return (shapes.length, shapes.set parent { p with tkeys := some tk', tkids := some kids } ++ [child])

/-- `$shape_child`: the shape `parent` plus the key `k`, from the cache or new. -/
def shapeChild (shapes : List SharedShape) (parent : ℕ) (k : Val) (full : UInt32) :
    Option (ℕ × List SharedShape) := do
  let p ← shapes[parent]?
  match p.tkeys with
  | none => shapeAdd shapes parent k full
  | some tk =>
    let ck ← tk[cacheSlot tk full]?
    if refEq ck k then
      let kid ← (← p.tkids)[cacheSlot tk full]?
      return (← kid, shapes)
    else shapeAdd shapes parent k full

/-- `$tab_own`: give the table a private copy of its shape. -/
def tabOwn : TabM Unit := do
  let s ← get
  match s.t.shape with
  | .own _ => pure ()
  | .shared r =>
    let sh ← orStuck s.shapes[r]?
    let keys ← orStuck (arrayCopy (List.replicate (max sh.n 4) .nil) 0 sh.keys 0 sh.n)
    modifyTable fun t =>
      { t with shape := .own { keys, idx := sh.idx, mask := sh.mask, n := sh.n, used := sh.used } }

/-- The state of the loop of `$tab_index_rebuild`. -/
structure Compaction where
  /-- The keys, with the live ones among those seen moved to the front. -/
  keys : List Val
  /-- The values, likewise. -/
  vals : List Slot
  /-- The doubles, likewise. -/
  fvals : Option (List F64)
  /-- The index over the keys at the front. -/
  idx : List ℤ
  /-- The number of keys at the front. -/
  j : ℕ

/-- Move the entry `i` down to the front. -/
def Compaction.move (c : Compaction) (i : ℕ) : Option Compaction :=
  if i = c.j then some c
  else do
    let keys ← setAt c.keys c.j (← c.keys[i]?)
    let vals ← setAt c.vals c.j (← c.vals[i]?)
    match c.fvals with
    | none => return { c with keys, vals }
    | some fa => return { c with keys, vals, fvals := some (← setAt fa c.j (← fa[i]?)) }

/-- The loop of `$tab_index_rebuild` over the entries from `i` on. -/
def compact (mask : ℕ) : ℕ → ℕ → Compaction → Option Compaction
  | 0, _, c => some c
  | todo + 1, i, c => do
    let v ← c.vals[i]?
    if v.isNull then compact mask todo (i + 1) c
    else
      let c ← c.move i
      let kk ← c.keys[c.j]?
      let idx ← place c.idx mask ((c.j : ℤ) + 1) (mask + 1) (home mask (luaHash kk))
      compact mask todo (i + 1) { c with idx, j := c.j + 1 }

/-- The number of live entries among the first `n`. -/
def countLive (vals : List Slot) (n : ℕ) : ℕ := (vals.take n).countP fun v => !v.isNull

/-- `$tab_index_rebuild`, on a table with a value array: drop the entries whose value is nil, and
index the others anew. -/
def rebuild (sh : Shape) (vals : List Slot) (fvals : Option (List F64)) : Option Compaction := do
  let cap := indexCap (countLive vals sh.n)
  let c ← compact (cap - 1) sh.n 0 { keys := sh.keys, vals, fvals, idx := List.replicate cap 0, j := 0 }
  let keys ← arrayFill c.keys c.j .nil (sh.n - c.j)
  let vals ← arrayFill c.vals c.j (.val .nil) (sh.n - c.j)
  return { c with keys, vals }

/-- `$tab_index_rebuild`. -/
def tabIndexRebuild : TabM Unit := do
  let sh ← getOwnShape
  let t := (← get).t
  match t.vals with
  | none =>
    let cap := indexCap 0
    modifyTable fun t =>
      { t with shape := .own { keys := sh.keys, idx := List.replicate cap 0, mask := cap - 1, n := 0, used := 0 } }
  | some vals =>
    let c ← orStuck (rebuild sh vals t.fvals)
    let mask := indexCap (countLive vals sh.n) - 1
    modifyTable fun t =>
      { t with
        shape := .own { keys := c.keys, idx := c.idx, mask, n := c.j, used := c.j }
        vals := some c.vals
        fvals := c.fvals }

/-! ## Lookup -/

/-- Whether the stored key `sk` is the string `k`, which has the hash `full`. -/
def hitStr (k : Val) (full : UInt32) (sk : Val) : Bool :=
  refEq sk k || (sk.isStr && luaHash sk == full && luaEqRaw sk k)

/-- Whether the stored key `sk` is `k`, which has the hash `full`. -/
def hitKey (k : Val) (full : UInt32) (sk : Val) : Bool :=
  refEq sk k ||
    (if k.isStr then sk.isStr && luaHash sk == full && luaEqRaw sk k
     else k.isBoxedNum && luaEqRaw sk k)

/-- The two lookups: the home slot settles the common cases, and the probe loop the others. The
result is a position, or none for -1. -/
def findWith (hit : Val → Bool) (sh : Shape) (k : Val) (full : UInt32) : Option (Option ℕ) := do
  let probe := lookup sh.idx sh.mask (fun i => (sh.keys[i]?).map hit) (sh.mask + 1) (home sh.mask full)
  let slot ← sh.idx[home sh.mask full]?
  if slot = 0 then some none
  else if 0 < slot then
    match sh.keys[(slot - 1).toNat]? with
    | none => none
    | some sk => if refEq sk k then some (some (slot - 1).toNat) else probe
  else probe

/-- `$tab_find_str`, with `$tab_find_str_probe`. -/
def tabFindStr (sh : Shape) (k : Val) (full : UInt32) : Option (Option ℕ) :=
  findWith (hitStr k full) sh k full

/-- `$tab_index_lookup_h`, with `$tab_index_lookup_probe`. -/
def tabIndexLookupH (sh : Shape) (k : Val) (full : UInt32) : Option (Option ℕ) :=
  findWith (hitKey k full) sh k full

/-- `$tab_find`. -/
def tabFind (sh : Shape) (k : Val) : Option (Option ℕ) :=
  if sh.n = 0 then some none else tabIndexLookupH sh k (luaHash k)

/-- `$tab_get_hash`. -/
def tabGetHash (s : TabState) (k : Val) : Option Val := do
  match ← tabFind (← s.shape) k with
  | none => return .nil
  | some i => tval (← (← s.t.vals)[i]?) s.t.fvals i

/-! ## Insertion -/

/-- Make room for one more key in the private shape. -/
def growKeys : TabM Unit := do
  let sh ← getOwnShape
  if sh.n < sh.keys.length then pure ()
  else if 8388608 < sh.n then throw tableOverflow
  else
    let keys ← orStuck (arrayCopy (List.replicate (2 * sh.n) .nil) 0 sh.keys 0 sh.n)
    modifyTable fun t => { t with shape := .own { sh with keys } }

/-- Write the key and the value of the next entry, and enter it in the index. -/
def appendEntry (k : Val) (v : Slot) (full : UInt32) : TabM Unit := do
  let sh ← getOwnShape
  let keys ← orStuck (setAt sh.keys sh.n k)
  setVal sh.n v
  let (idx, fresh) ← orStuck
    (placeReusing sh.idx sh.mask ((sh.n : ℤ) + 1) (sh.mask + 1) (home sh.mask full) none)
  modifyTable fun t =>
    { t with shape := .own { sh with keys, idx, n := sh.n + 1, used := if fresh then sh.used + 1 else sh.used } }

/-- Rebuild an index that one more entry would fill to the half. -/
def rebuildIfFull : TabM Unit := do
  let sh ← getOwnShape
  if sh.mask + 1 ≤ 2 * (sh.used + 1) then tabIndexRebuild else pure ()

/-- `$tab_insert_owned`. -/
def tabInsertOwned (k : Val) (v : Slot) (full : UInt32) : TabM Unit := do
  rebuildIfFull
  growKeys
  valsReserve ((← getOwnShape).n + 1)
  appendEntry k v full

/-- The move of a table to the child shape that adds the key `k`. -/
def tabInsertShared (r : ℕ) (k : Val) (v : Slot) (full : UInt32) : TabM Unit := do
  let s ← get
  let (child, shapes) ← orStuck (shapeChild s.shapes r k full)
  let n ← orStuck ((shapes[child]?).map fun sh => sh.n)
  set { s with shapes }
  valsReserve n
  modifyTable fun t => { t with shape := .shared child }
  setVal (n - 1) v

/-- `$tab_insert_new`. -/
def tabInsertNew (k : Val) (v : Slot) (full : UInt32) : TabM Unit := do
  match (← get).t.shape with
  | .own _ => tabInsertOwned k v full
  | .shared r =>
    let sh ← getShape
    if k.isStr ∧ sh.n < shapeShareMax then tabInsertShared r k v full
    else
      tabOwn
      tabInsertOwned k v full

/-- `$tab_set_hash`, from where the position `i` of the key is known. -/
def setFound (i : Option ℕ) (k : Val) (v : Val) (full : UInt32) : TabM Unit :=
  match i with
  | some i => setVal i (.val v)
  | none => if v = .nil then pure () else tabInsertNew k (.val v) full

/-- `$tab_set_hash`. -/
def tabSetHash (k v : Val) : TabM Unit := do
  let i ← orStuck (tabFind (← getShape) k)
  setFound i k v (luaHash k)

/-- `$tab_set_hash_str`. -/
def tabSetHashStr (k : Val) (full : UInt32) (v : Val) : TabM Unit := do
  let i ← orStuck (tabFindStr (← getShape) k full)
  setFound i k v full

/-- `$tab_set_f_hash`, from where the position `i` of the key is known. -/
def setFoundF (i : Option ℕ) (k : Val) (f : F64) (full : UInt32) : TabM Unit := do
  match i with
  | some i =>
    setVal i .mark
    setFval i f
  | none =>
    tabInsertNew k .mark full
    setFval ((← getShape).n - 1) f

/-- `$tab_set_f_hash`. -/
def tabSetFHash (k : Val) (f : F64) : TabM Unit := do
  let i ← orStuck (tabFind (← getShape) k)
  setFoundF i k f (luaHash k)

/-- `$tab_set_f_hash_str`. -/
def tabSetFHashStr (k : Val) (full : UInt32) (f : F64) : TabM Unit := do
  let i ← orStuck (tabFindStr (← getShape) k full)
  setFoundF i k f full

/-- `$tab_bootstrap_set`. -/
def tabBootstrapSet (k v : Val) : TabM Unit := do
  tabOwn
  tabInsertOwned k (.val v) (luaHash k)

/-! ## Constructors -/

/-- `$shape_for_keys`: the shape that has the string keys `ks`, from the shape `r` on. -/
def shapeForKeys : List SharedShape → ℕ → List Val → Option (ℕ × List SharedShape)
  | shapes, r, [] => some (r, shapes)
  | shapes, r, k :: ks => do
    let (r, shapes) ← shapeChild shapes r k (luaHash k)
    shapeForKeys shapes r ks

/-- `$tab_new_shaped`. -/
def tabNewShaped (shapes : List SharedShape) (r : ℕ) : Option LuaTable := do
  let sh ← shapes[r]?
  return { tabNew with shape := .shared r, vals := some (List.replicate sh.n (.val .nil)) }

/-- `$tab_put_pos`. -/
def tabPutPos (pos : ℕ) (v : Val) : TabM Unit := setVal pos (.val v)

/-- `$tab_put_pos_f`. -/
def tabPutPosF (pos : ℕ) (f : F64) : TabM Unit := do
  setVal pos .mark
  setFval pos f

/-- Make room for `cap` keys in the private shape. -/
def keysReserve (cap : ℕ) : TabM Unit := do
  let sh ← getOwnShape
  if cap ≤ sh.keys.length then pure ()
  else if valsMax < cap then throw tableOverflow
  else
    let keys ← orStuck (arrayCopy (List.replicate cap .nil) 0 sh.keys 0 sh.n)
    modifyTable fun t => { t with shape := .own { sh with keys } }

/-- `$tab_reserve_hash`. -/
def tabReserveHash (cap : ℕ) : TabM Unit := do
  tabOwn
  keysReserve cap
  valsReserve cap

end Lua2wasm.Table
