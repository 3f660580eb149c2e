import Lua2wasm.Strings.Hashed
import Lua2wasm.Table.World

/-!
# Keys as references

What the tables do with a key, on the references that the program holds: an integer is an `i31` or a box
(`$LuaInt`), a float is a box, and a string is an object whose bytes may not have been made yet. The hash
(`$lua_hash`), raw equality (`$lua_rawequal`), the choice of the part of the table (`$as_arr_key`) and the
probe of the index each look at the representation. `Ref.val` is the value that a reference stands for, and
each of them is a function of the value: `luaHash_gives`, `luaRawequal_gives` and `asArrKey_val`.
-/

namespace Lua2wasm.Refs

open Raising Probe Strings
open Table (Val Key TabState Shape LuaTable canon isI31 hashI64 intEqFloat strHash home tval inArr arrIndex
  fzero)

/-- A value that the program holds, an `anyref`. -/
inductive Ref
  /-- The null reference. -/
  | null
  /-- An `i31`, which has the integers of 31 bits. -/
  | i31 (n : Int32) (h : isI31 n.toInt64 = true)
  /-- A `$LuaInt`, which has the others. -/
  | boxed (obj : ℕ) (i : Int64) (h : isI31 i = false)
  /-- A `$LuaFloat`. -/
  | float (obj : ℕ) (f : F64)
  /-- `$g_true` or `$g_false`. -/
  | bool (b : Bool)
  /-- A `$LuaString`. -/
  | str (s : ℕ)
  /-- A `$LuaTable`, by its `$id`. -/
  | table (id : ℕ)
  /-- Any other object. -/
  | other (obj : ℕ)
  deriving DecidableEq, Repr

variable {h h' : StrHeap} {vals : List (List UInt8)}

/-- The value that a reference stands for, when the strings have the bytes `vals`. -/
def Ref.val (vals : List (List UInt8)) : Ref → Val
  | .null => .nil
  | .i31 n _ => .int n.toInt64
  | .boxed _ i _ => .int i
  | .float _ f => .float f
  | .bool b => .bool b
  | .str s => .str s (valOf vals s)
  | .table id => .table id
  | .other obj => .other obj

/-! ## Numbers -/

/-- `$is_int`. -/
def Ref.isInt : Ref → Bool
  | .i31 _ _ => true
  | .boxed _ _ _ => true
  | _ => false

/-- `$is_float`. -/
def Ref.isFloat : Ref → Bool
  | .float _ _ => true
  | _ => false

/-- `$as_int`, of an integer. -/
def Ref.asInt : Ref → Int64
  | .i31 n _ => n.toInt64
  | .boxed _ i _ => i
  | _ => 0

/-- `$as_float`, of a float. -/
def Ref.asFloat : Ref → F64
  | .float _ f => f
  | _ => fzero

theorem isI31_toInt32 {i : Int64} (hi : isI31 i = true) : i.toInt32.toInt64 = i := by
  unfold isI31 at hi
  simp only [decide_eq_true_eq] at hi
  apply Int64.toInt_inj.mp
  rw [Int32.toInt_toInt64, Int64.toInt_toInt32]
  apply Int.bmod_eq_of_le <;> omega

/-- `$make_int`. The box is the object `obj`, if there has to be one. -/
def makeInt (obj : ℕ) (i : Int64) : Ref :=
  if h : isI31 i = true then .i31 i.toInt32 (by rw [isI31_toInt32 h]; exact h)
  else .boxed obj i (Bool.not_eq_true _ ▸ h)

/-- `$num_eq`, on two numbers. -/
def numEq (a b : Ref) : Bool :=
  if a.isInt && b.isInt then a.asInt = b.asInt
  else if a.isFloat && b.isFloat then a.asFloat.eq b.asFloat
  else if a.isInt then intEqFloat a.asInt b.asFloat
  else intEqFloat b.asInt a.asFloat

/-- `$as_arr_key`: the value of an integer key. -/
def asArrKey (k : Ref) : Option Int64 :=
  if k.isInt then some k.asInt
  else if k.isFloat then k.asFloat.toI64
  else none

/-! ## Hashes -/

/-- `$lua_hash_other`. -/
def luaHashOther (v : Ref) : StrM UInt32 :=
  if v = .null then pure 0
  else if v.isInt then pure (hashI64 v.asInt.toUInt64)
  else match v with
    | .float _ f =>
      match f.toI64 with
      | some i => pure (hashI64 i.toUInt64)
      | none => pure (hashI64 ⟨f.bits⟩)
    | .bool b => pure (if b then 1 else 0)
    | .str s => strHashOf s
    | .table id => pure (UInt32.ofNat id * 2654435769)
    | _ => pure 0

/-- `$lua_hash`. -/
def luaHash : Ref → StrM UInt32
  | .str s => strHashOf s
  | .i31 n _ => pure (n.toUInt32 ^^^ (n >>> 31).toUInt32)
  | .table id => pure (UInt32.ofNat id * 2654435769)
  | v => luaHashOther v

/-- The loop of `kstr_hash`. -/
def kstrHashFrom : UInt32 → List UInt8 → UInt32
  | h, [] => h
  | h, b :: bytes => kstrHashFrom ((h ^^^ b.toUInt32) * 16777619) bytes

/-- `kstr_hash`: the hash that the compiler stores with a constant string. -/
def kstrHash (bytes : List UInt8) : UInt32 :=
  let h := kstrHashFrom 2166136261 bytes
  if h = 0 then 1 else h

/-! ## Equality -/

/-- `$lua_rawequal`. -/
def luaRawequal (a b : Ref) : StrM Bool :=
  if a = .null ∧ b = .null then pure true
  else if a = .null ∨ b = .null then pure false
  else match a, b with
    | .bool x, .bool y => pure (x = y)
    | .str s, .str t => strEq s t
    | a, b =>
      if (a.isInt || a.isFloat) && (b.isInt || b.isFloat) then pure (numEq a b)
      else pure (a = b)

/-- `$lua_eq_raw`. Two tables are asked for `__eq`, and `eqMm` is what comes of it. -/
def luaEqRaw (eqMm : ℕ → ℕ → StrM Bool) (a b : Ref) : StrM Bool :=
  match a, b with
  | .i31 m _, .i31 n _ => pure (m = n)
  | .table x, .table y => eqMm x y
  | a, b => luaRawequal a b

/-! ## Lookup -/

/-- Whether the stored key `sk` is the string `k`, which has the hash `full`. -/
def hitStr (k : ℕ) (full : UInt32) (sk : Ref) : StrM Bool :=
  if sk = .str k then pure true
  else match sk with
    | .str s => do
      let o ← strOf s
      if o.hash = full then strEq s k else pure false
    | _ => pure false

/-- Whether the stored key `sk` is `k`, which has the hash `full`. -/
def hitKey (eqMm : ℕ → ℕ → StrM Bool) (k : Ref) (full : UInt32) (sk : Ref) : StrM Bool :=
  match k with
  | .str s => hitStr s full sk
  | .boxed _ _ _ => if sk = k then pure true else luaEqRaw eqMm sk k
  | .float _ _ => if sk = k then pure true else luaEqRaw eqMm sk k
  | _ => pure (sk = k)

/-- The loops of `$tab_find_str_probe` and `$tab_index_lookup_probe`, from the slot `h` on. -/
def probeFrom (hit : Ref → StrM Bool) (sh : Shape) (ks : List Ref) : ℕ → ℕ → StrM (Option ℕ)
  | 0, _ => throw .stuck
  | fuel + 1, h => do
    let slot ← orTrap sh.idx[h]?
    if slot = 0 then pure none
    else if 0 < slot then do
      let sk ← orTrap ks[(slot - 1).toNat]?
      let found ← hit sk
      if found then pure (some (slot - 1).toNat) else probeFrom hit sh ks fuel (next sh.mask h)
    else probeFrom hit sh ks fuel (next sh.mask h)

/-- The two lookups, among the keys `ks` of the shape. -/
def findWith (hit : Ref → StrM Bool) (sh : Shape) (ks : List Ref) (k : Ref) (full : UInt32) : StrM (Option ℕ) := do
  let slot ← orTrap sh.idx[home sh.mask full]?
  if slot = 0 then pure none
  else if 0 < slot then do
    let sk ← orTrap ks[(slot - 1).toNat]?
    if sk = k then pure (some (slot - 1).toNat)
    else probeFrom hit sh ks (sh.mask + 1) (home sh.mask full)
  else probeFrom hit sh ks (sh.mask + 1) (home sh.mask full)

/-- `$tab_find_str`, with `$tab_find_str_probe`. -/
def tabFindStr (sh : Shape) (ks : List Ref) (k : ℕ) (full : UInt32) : StrM (Option ℕ) :=
  findWith (hitStr k full) sh ks (.str k) full

/-- `$tab_index_lookup_h`, with `$tab_index_lookup_probe`. -/
def tabIndexLookupH (eqMm : ℕ → ℕ → StrM Bool) (sh : Shape) (ks : List Ref) (k : Ref) (full : UInt32) :
    StrM (Option ℕ) :=
  findWith (hitKey eqMm k full) sh ks k full

/-- `$tab_find`. -/
def tabFind (eqMm : ℕ → ℕ → StrM Bool) (sh : Shape) (ks : List Ref) (k : Ref) : StrM (Option ℕ) :=
  if sh.n = 0 then pure none
  else do
    let full ← luaHash k
    tabIndexLookupH eqMm sh ks k full

/-! ## Reading -/

/-- The value at a position of the hash part. -/
def valueAt (s : TabState) : Option ℕ → Option Val
  | none => some .nil
  | some i => do tval (← (← s.t.vals)[i]?) s.t.fvals i

/-- The value at an index of the array part. -/
def arrAt (s : TabState) (i : ℕ) : Option Val := do tval (← (← s.t.arr)[i]?) s.t.farr i

/-- `$tab_get_hash`. -/
def tabGetHash (eqMm : ℕ → ℕ → StrM Bool) (s : TabState) (ks : List Ref) (k : Ref) : StrM Val := do
  let sh ← orTrap s.shape
  let i ← tabFind eqMm sh ks k
  orTrap (valueAt s i)

/-- `$tab_get_raw`. -/
def tabGetRaw (eqMm : ℕ → ℕ → StrM Bool) (s : TabState) (ks : List Ref) (k : Ref) : StrM Val :=
  match k with
  | .str _ => tabGetHash eqMm s ks k
  | k =>
    match asArrKey k with
    | some i => if inArr s.t i then orTrap (arrAt s (arrIndex i)) else tabGetHash eqMm s ks k
    | none => tabGetHash eqMm s ks k

/-- `$tab_get_str_h`. -/
def tabGetStrH (s : TabState) (ks : List Ref) (k : ℕ) (full : UInt32) : StrM Val := do
  let sh ← orTrap s.shape
  let i ← tabFindStr sh ks k full
  orTrap (valueAt s i)

/-- `$lua_index_ik`, on a table without a metatable. A key that has to be boxed becomes the object `obj`. -/
def luaIndexIk (eqMm : ℕ → ℕ → StrM Bool) (s : TabState) (ks : List Ref) (obj : ℕ) (i : Int64) : StrM Val := do
  if inArr s.t i then
    let v ← orTrap (arrAt s (arrIndex i))
    if v = .nil then tabGetRaw eqMm s ks (makeInt obj i) else pure v
  else tabGetRaw eqMm s ks (makeInt obj i)

/-! ## What is given -/

/-- The computation returns `a`. The strings keep their bytes and their hashes. -/
def Gives {α : Type} (vals : List (List UInt8)) (x : StrM α) (h : StrHeap) (a : α) : Prop :=
  ∃ h', Returns x h a h' ∧ Holds h' vals ∧ HashKept h h'

section

variable {α β : Type} {x : StrM α} {f : α → StrM β} {a : α} {b : β}

theorem gives_pure (hh : Holds h vals) (a : α) : Gives vals (pure a) h a := ⟨h, rfl, hh, Std.Refl.refl h⟩

theorem gives_orTrap {x : Option α} (hh : Holds h vals) (hx : x = some a) : Gives vals (orTrap x) h a := by
  subst hx
  exact gives_pure hh a

theorem Gives.bind (hx : Gives vals x h a)
    (hf : ∀ h', Holds h' vals → HashKept h h' → Gives vals (f a) h' b) : Gives vals (x >>= f) h b := by
  obtain ⟨h₁, hret, hh₁, hk₁⟩ := hx
  obtain ⟨h₂, hret', hh₂, hk₂⟩ := hf h₁ hh₁ hk₁
  exact ⟨h₂, hret.bind hret', hh₂, IsTrans.trans _ _ _ hk₁ hk₂⟩

/-- A computation that is known to return, and to keep the hashes. -/
theorem Gives.of_moves (hm : Moves HashKept x) (hret : Returns x h a h') (hh : Holds h' vals) : Gives vals x h a :=
  ⟨h', hret, hh, (hm h).of_ok hret⟩

end

/-- The string of a reference is there. -/
def Ref.Live (vals : List (List UInt8)) : Ref → Prop
  | .str s => s < vals.length
  | _ => True

/-- The hash of a string has been computed. -/
def Ref.Hashed (h : StrHeap) : Ref → Prop
  | .str s => ∃ o, h.strs[s]? = some o ∧ o.hash ≠ 0
  | _ => True

theorem Ref.Hashed.kept {r : Ref} (hr : r.Hashed h) (hk : HashKept h h') : r.Hashed h' := by
  cases r with
  | str s =>
    obtain ⟨o, ho, hne⟩ := hr
    obtain ⟨o', ho', heq⟩ := hk s o ho hne
    exact ⟨o', ho', by rw [heq]; exact hne⟩
  | _ => trivial

theorem Ref.Live.text {s : ℕ} (hl : (Ref.str s).Live vals) : vals[s]? = some (valOf vals s) := by
  have hx : vals[s]? = some vals[s] := List.getElem?_eq_getElem hl
  rw [valOf_eq hx, hx]

/-! ## Hashes are hashes of values -/

theorem strHashOf_gives {s : ℕ} (hh : Holds h vals) (hl : (Ref.str s).Live vals) :
    Gives vals (strHashOf s) h (strHash (valOf vals s)) := by
  obtain ⟨h', hret, hh'⟩ := strHashOf_spec hh hl.text
  exact Gives.of_moves (strHashOf_moves s) hret hh'

theorem toUInt32_toInt64 (n : Int32) : n.toInt64.toUInt64.toUInt32 = n.toUInt32 := by
  apply UInt32.toBitVec_inj.mp
  simp only [UInt64.toBitVec_toUInt32, Int64.toBitVec_toUInt64, Int32.toBitVec_toInt64, Int32.toBitVec_toUInt32]
  ext i hi
  rw [BitVec.getElem_setWidth, BitVec.getLsbD_signExtend, if_pos hi, BitVec.getLsbD_eq_getElem hi]
  simp
  omega

/-- `$lua_hash` is the hash of the value. -/
theorem luaHash_gives (hh : Holds h vals) {r : Ref} (hl : r.Live vals) :
    Gives vals (luaHash r) h (Table.luaHash (r.val vals)) := by
  cases r with
  | str s => exact strHashOf_gives hh hl
  | i31 n hn =>
    have heq : Table.luaHash (.int n.toInt64) = n.toUInt32 ^^^ (n >>> 31).toUInt32 := by
      unfold Table.luaHash
      dsimp only
      rw [if_pos hn, toUInt32_toInt64, Int32.toInt32_toInt64]
    change Gives vals _ h (Table.luaHash (.int n.toInt64))
    rw [heq]
    exact gives_pure hh _
  | boxed obj i hi =>
    have heq : Table.luaHash (.int i) = hashI64 i.toUInt64 := Table.luaHash_int i
    change Gives vals _ h (Table.luaHash (.int i))
    rw [heq]
    exact gives_pure hh _
  | float obj f =>
    change Gives vals (luaHashOther (.float obj f)) h (Table.luaHash (.float f))
    unfold luaHashOther Table.luaHash
    rw [if_neg (by simp), if_neg (by simp [Ref.isInt])]
    dsimp only
    cases f.toI64 with
    | none => exact gives_pure hh _
    | some i => exact gives_pure hh _
  | null => exact gives_pure hh _
  | bool b => exact gives_pure hh _
  | table id => exact gives_pure hh _
  | other obj => exact gives_pure hh _

theorem kstrHashFrom_eq (bytes : List UInt8) (h : UInt32) :
    kstrHashFrom h bytes = bytes.foldl (fun h b => (h ^^^ b.toUInt32) * 16777619) h := by
  induction bytes generalizing h with
  | nil => rfl
  | cons b bytes ih => exact ih _

/-- The compiler and the runtime compute the same hash. -/
theorem kstrHash_eq (bytes : List UInt8) : kstrHash bytes = strHash bytes := by
  unfold kstrHash strHash
  rw [kstrHashFrom_eq]

theorem strHash_ne_zero (bytes : List UInt8) : strHash bytes ≠ 0 := by
  unfold strHash
  dsimp only
  split
  · decide
  · assumption

/-- A key has its hash computed when it has been hashed. -/
theorem hashed_of_returns {r : Ref} {c : UInt32} (hh : Holds h vals) (hl : r.Live vals)
    (hret : Returns (luaHash r) h c h') : r.Hashed h' := by
  cases r with
  | str s =>
    obtain ⟨o, ho, hok⟩ := hh.obj hl.text
    have hret : Returns (strHashOf s) h c h' := hret
    have hmeets : Meets (strHashOf s) h (fun _ h' => (Ref.str s).Hashed h') fun _ _ => True := by
      unfold strHashOf
      apply (strOf_returns ho).bind_meets
      split
      · rename_i hne
        exact meets_pure ⟨o, ho, hne⟩
      · obtain ⟨r, h₁, hret₁, -, -, hr, o', ho', -⟩ := strBytes_spec hh hl.text
        apply hret₁.bind_meets
        apply (arrOf_returns hr).bind_meets
        apply (strOf_returns ho').bind_meets
        refine meets_modify_bind (meets_pure ⟨_, List.getElem?_set_self (List.getElem?_eq_some_iff.mp ho').1, ?_⟩)
        exact strHash_ne_zero _
    exact hmeets.of_ok hret
  | _ => trivial

/-! ## Equality is equality of values -/

theorem strEq_gives {s t : ℕ} (hh : Holds h vals) (hs : (Ref.str s).Live vals) (ht : (Ref.str t).Live vals) :
    Gives vals (strEq s t) h (decide (valOf vals s = valOf vals t)) := by
  obtain ⟨h', hret, hh', -⟩ := strEq_spec hh hs.text ht.text
  exact Gives.of_moves (strEq_moves s t) hret hh'

theorem asArrKey_val (vals : List (List UInt8)) (r : Ref) : asArrKey r = Table.asArrKey (r.val vals) := by
  cases r <;> simp [asArrKey, Ref.isInt, Ref.isFloat, Ref.asInt, Ref.asFloat, Ref.val, Table.asArrKey]

/-- `$num_eq` compares the numbers. -/
theorem numEq_val {a b : Ref} (ha : (a.isInt || a.isFloat) = true) (hb : (b.isInt || b.isFloat) = true) :
    numEq a b = Table.luaEqRaw (a.val vals) (b.val vals) := by
  cases a with
  | i31 n hn =>
    cases b with
    | i31 m hm => rfl
    | boxed obj i hi => rfl
    | float obj f => rfl
    | _ => cases hb
  | boxed obj i hi =>
    cases b with
    | i31 m hm => rfl
    | boxed obj i hi => rfl
    | float obj f => rfl
    | _ => cases hb
  | float obj f =>
    cases b with
    | i31 m hm => rfl
    | boxed obj i hi => rfl
    | float obj f => rfl
    | _ => cases hb
  | _ => cases ha

/-- A comparison that does not look at bytes. -/
theorem luaRawequal_eq {a b : Ref} (hstr : ∀ s t, a = .str s → b ≠ .str t) :
    luaRawequal a b = pure (Table.luaEqRaw (a.val vals) (b.val vals)) := by
  by_cases hn : ((a.isInt || a.isFloat) && (b.isInt || b.isFloat)) = true
  · rw [← numEq_val (Bool.and_eq_true _ _ ▸ hn).1 (Bool.and_eq_true _ _ ▸ hn).2]
    cases a <;> cases b <;> simp_all [luaRawequal, Ref.isInt, Ref.isFloat]
  · cases a <;> cases b <;> simp_all [luaRawequal, Table.luaEqRaw, Ref.val, Ref.isInt, Ref.isFloat]

/-- `$lua_rawequal` compares the values. -/
theorem luaRawequal_gives (hh : Holds h vals) {a b : Ref} (ha : a.Live vals) (hb : b.Live vals) :
    Gives vals (luaRawequal a b) h (Table.luaEqRaw (a.val vals) (b.val vals)) := by
  by_cases hstr : ∃ s t, a = .str s ∧ b = .str t
  · obtain ⟨s, t, rfl, rfl⟩ := hstr
    exact strEq_gives hh ha hb
  · rw [luaRawequal_eq fun s t hs ht => hstr ⟨s, t, hs, ht⟩]
    exact gives_pure hh _

end Lua2wasm.Refs
