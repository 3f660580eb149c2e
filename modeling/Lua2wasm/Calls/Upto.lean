import Lua2wasm.Strings.Digits
import Lua2wasm.Lib.Raising

/-!
# Closing the to-be-closed values of an activation

`$tbc_push` and `$close_upto` of `runtime/prelude/control.wat`, with the values and the errors. Each
activation has a `$Tbc` of its own, which is a local variable of its code, so no call that it makes
reaches it. What else the runtime does is a parameter (`Host`): a call of `__close` may do anything to
the rest of the state, close values of other activations, and raise.

`closeUpto_spec` says what `$close_upto` does for every host: each `__close` above the target is called
once, the last value first, with the newest error, whichever of them raise.
-/

namespace Lua2wasm.Calls

open Table Strings Raising

/-- An error object. `$raised` makes none of them nil. -/
structure ErrObj where
  /-- The value. -/
  val : Val
  /-- It is not null. -/
  ne_nil : val ≠ .nil

/-- The globals that `$close_upto` sets, and the rest of the state of the program. -/
structure CallState (σ : Type) where
  /-- `$call_depth`. -/
  callDepth : ℕ
  /-- `$stack_cost`. -/
  stackCost : Int32
  /-- The rest. -/
  rest : σ

/-- A computation that may raise an error, with the state it leaves behind. -/
abbrev CallM (σ : Type) := ExceptT ErrObj (StateM (CallState σ))

/-- A metamethod that is looked up here. -/
inductive MetaKey
  /-- `__close`. -/
  | close
  /-- `__call`. -/
  | call
  /-- `__name`. -/
  | name
  deriving DecidableEq, Repr

/-- The rest of the runtime. -/
structure Host (σ : Type) where
  /-- `$g_src_name`. -/
  srcName : List UInt8
  /-- `$get_metamethod`. -/
  getMetamethod : CallState σ → Val → MetaKey → Val
  /-- The value is a `$LuaClosure`. -/
  isClosure : Val → Bool
  /-- `$basic_type_bytes`. -/
  basicTypeBytes : Val → List UInt8
  /-- A new string. -/
  newString : CallState σ → List UInt8 → Val
  /-- `$raised`, which may run a message handler. -/
  raised : Val → CallM σ ErrObj
  /-- `$lua_call_any`. -/
  luaCallAny : Val → List Val → Int32 → CallM σ (List Val)

/-- `$Tbc`: the array of the entries, and how many there are. -/
structure Tbc where
  /-- `$items`. -/
  items : List Val
  /-- `$len`. -/
  len : ℕ
  /-- The entries are in the array. -/
  len_le : len ≤ items.length

/-- The entries, in the order of their declaration. -/
def Tbc.entries (tbc : Tbc) : List Val := tbc.items.take tbc.len

/-- `$stack_headroom`. -/
def stackHeadroom : Int32 := 65536

/-- `$lua_truthy`. -/
def luaTruthy : Val → Bool
  | .nil => false
  | .bool b => b
  | _ => true

section

variable {σ : Type} (h : Host σ)

/-- `$prefix_error_msg`, at `$g_src_name`. -/
def prefixErrorMsg (line : Int32) (msg : List UInt8) : List UInt8 :=
  h.srcName ++ [58] ++ decimal line.toInt ++ [58, 32] ++ msg

/-- `$objtypename`. -/
def objtypename (s : CallState σ) (v : Val) : List UInt8 :=
  match h.getMetamethod s v .name with
  | .str _ bytes => bytes
  | _ => h.basicTypeBytes v

/-- Raise a string. -/
def raiseString (msg : List UInt8) : CallM σ Unit := do
  let e ← h.raised (h.newString (← get) msg)
  throw e

/-- `$check_closable`. -/
def checkClosable (v : Val) (name : List UInt8) (line : Int32) : CallM σ Unit := do
  if v = .nil then pure ()
  else if luaTruthy v = false then pure ()
  else if h.getMetamethod (← get) v .close = .nil then
    raiseString h (prefixErrorMsg h line
      ("variable '".toUTF8.toList ++ name ++ "' got a non-closable value".toUTF8.toList))
  else pure ()

/-- `$tbc_push`. A store past the end of the array traps, and then there is no result. -/
def tbcPush (tbc : Tbc) (v : Val) (name : List UInt8) (line : Int32) : CallM σ (Option Tbc) := do
  checkClosable h v name line
  if hlt : tbc.len < tbc.items.length then
    pure (some ⟨tbc.items.set tbc.len v, tbc.len + 1, by rw [List.length_set]; exact hlt⟩)
  else pure none

/-- The arguments of a `__close`. -/
def closeArgs (v : Val) : Option ErrObj → List Val
  | none => [v]
  | some e => [v, e.val]

/-- `$call_close`. -/
def callClose (v : Val) (err : Option ErrObj) (line : Int32) : CallM σ Unit := do
  let s ← get
  let mm := h.getMetamethod s v .close
  if h.isClosure mm = false ∧ h.getMetamethod s mm .call = .nil then
    let msg := "attempt to call a ".toUTF8.toList ++ objtypename h s mm ++
      " value (metamethod 'close')".toUTF8.toList
    raiseString h (if line = 0 then msg else prefixErrorMsg h line msg)
  else
    let _ ← h.luaCallAny mm (closeArgs v err) line
    pure ()

/-- A call of `$call_close` that `$close_upto` made. -/
structure CloseCall (σ : Type) where
  /-- The value. -/
  value : Val
  /-- The error that was passed. -/
  err : Option ErrObj
  /-- The state at the call. -/
  before : CallState σ
  /-- The error that it raised. -/
  raised : Option ErrObj

/-- What the loop of `$close_upto` leaves behind. -/
structure Closed (σ : Type) where
  /-- `$len`. -/
  len : ℕ
  /-- `$pending`. -/
  pending : Option ErrObj
  /-- The calls, the first one first. The code keeps no such list. -/
  calls : List (CloseCall σ)
  /-- The state. -/
  state : CallState σ

/-- The loop of `$close_upto`. An entry is popped before its `__close` is called, and an error of the
call replaces the one that is pending. -/
def closeLoop (items : List Val) (target : ℕ) (line : Int32) (depth : ℕ) (costSaved : Int32) :
    ℕ → Option ErrObj → CallState σ → Closed σ
  | 0, pending, s => ⟨0, pending, [], s⟩
  | i + 1, pending, s =>
    if i + 1 ≤ target then ⟨i + 1, pending, [], s⟩
    else
      let v := items.getD i .nil
      if luaTruthy v then
        let before := { s with callDepth := depth, stackCost := costSaved }
        match ((callClose h v pending line).run before : Except ErrObj Unit × CallState σ) with
        | (.ok _, s') =>
          let r := closeLoop items target line depth costSaved i pending s'
          { r with calls := ⟨v, pending, before, none⟩ :: r.calls }
        | (.error e, s') =>
          let r := closeLoop items target line depth costSaved i (some e) s'
          { r with calls := ⟨v, pending, before, some e⟩ :: r.calls }
      else closeLoop items target line depth costSaved i pending s

/-- The loop only pops. -/
theorem closeLoop_len_le (items : List Val) (target : ℕ) (line : Int32) (depth : ℕ) (costSaved : Int32) :
    ∀ (len : ℕ) (pending : Option ErrObj) (s : CallState σ),
      (closeLoop h items target line depth costSaved len pending s).len ≤ len := by
  intro len
  induction len with
  | zero =>
    intro pending s
    unfold closeLoop
    exact Nat.le_refl 0
  | succ i ih =>
    intro pending s
    unfold closeLoop
    dsimp only
    repeat' split
    · exact Nat.le_refl (i + 1)
    · exact (ih _ _).trans (Nat.le_succ i)
    · exact (ih _ _).trans (Nat.le_succ i)
    · exact (ih _ _).trans (Nat.le_succ i)

/-- What `$close_upto` does. -/
structure Outcome (σ : Type) where
  /-- The error that it raises, if any. -/
  result : Except ErrObj Unit
  /-- The `$Tbc` after it. -/
  tbc : Tbc
  /-- The calls, the first one first. -/
  calls : List (CloseCall σ)
  /-- The state. -/
  state : CallState σ

/-- The end of `$close_upto`: it raises the error that is pending. -/
def rethrow : Option ErrObj → Except ErrObj Unit
  | none => .ok ()
  | some e => .error e

/-- `$close_upto`. -/
def closeUpto (tbc : Tbc) (target : ℕ) (errobj : Option ErrObj) (line : Int32) (s : CallState σ) :
    Outcome σ :=
  let depth := s.callDepth
  let costSaved := if errobj.isSome then s.stackCost - stackHeadroom else s.stackCost
  let r := closeLoop h tbc.items target line depth costSaved tbc.len errobj s
  { result := rethrow r.pending
    tbc := ⟨tbc.items, r.len, (closeLoop_len_le h _ _ _ _ _ _ _ _).trans tbc.len_le⟩
    calls := r.calls
    state := { r.state with callDepth := depth, stackCost := costSaved } }

end

/-! ## What it does -/

variable {σ : Type} {h : Host σ} {tbc tbc' : Tbc} {items : List Val} {target depth : ℕ} {line : Int32}
  {costSaved : Int32} {v : Val} {err : Option ErrObj} {s : CallState σ}

/-- The newest error: that of the last call that raised, or else the one before the calls. -/
def newest (err : Option ErrObj) (calls : List (CloseCall σ)) : Option ErrObj :=
  calls.foldl (fun pending c => c.raised.or pending) err

/-- The error that a computation raises. -/
def errorOf : Except ErrObj Unit → Option ErrObj
  | .ok _ => none
  | .error e => some e

/-- The call was made, at the depth and the cost that `$close_upto` saved, and this came of it. -/
structure CloseCall.Made (h : Host σ) (line : Int32) (depth : ℕ) (costSaved : Int32) (c : CloseCall σ) :
    Prop where
  /-- The depth. -/
  depth : c.before.callDepth = depth
  /-- The cost. -/
  cost : c.before.stackCost = costSaved
  /-- What came of it. -/
  raised : c.raised =
    errorOf ((callClose h c.value c.err line).run c.before : Except ErrObj Unit × CallState σ).1

/-- The values above the target that are closed, the last one first. -/
def toClose (items : List Val) (len target : ℕ) : List Val :=
  (((items.take len).drop target).filter luaTruthy).reverse

theorem toClose_of_le {len : ℕ} (hle : len ≤ target) : toClose items len target = [] := by
  unfold toClose
  rw [List.drop_eq_nil_of_le]
  · rfl
  · exact (List.length_take_le len items).trans hle

theorem toClose_succ {i : ℕ} (hi : i < items.length) (hlt : target ≤ i) :
    toClose items (i + 1) target =
      (if luaTruthy (items.getD i .nil) then [items.getD i .nil] else []) ++ toClose items i target := by
  have hlen : (items.take i).length = i := List.length_take_of_le hi.le
  unfold toClose
  rw [List.take_add_one, List.getElem?_eq_getElem hi, List.getD_eq_getElem _ _ hi, Option.toList_some,
    List.drop_append_of_le_length (by rw [hlen]; exact hlt), List.filter_append, List.reverse_append]
  congr 1
  cases htruthy : luaTruthy items[i] with
  | true => simp [htruthy]
  | false => simp [htruthy]

/-- What the loop of `$close_upto` does. -/
structure Closed.Ok (h : Host σ) (items : List Val) (target : ℕ) (line : Int32) (depth : ℕ)
    (costSaved : Int32) (n : ℕ) (err : Option ErrObj) (r : Closed σ) : Prop where
  /-- The entries above the target are gone. -/
  len : r.len = min n target
  /-- Each of them is closed once, the last one first. -/
  values : r.calls.map CloseCall.value = toClose items n target
  /-- Every call gets the newest error. -/
  newest : ∀ before c after, r.calls = before ++ c :: after → c.err = newest err before
  /-- The calls were made. -/
  made : ∀ c ∈ r.calls, c.Made h line depth costSaved
  /-- The newest error is pending. -/
  pending : r.pending = Calls.newest err r.calls

/-- One more call before those of a run of the loop. -/
theorem Closed.Ok.cons {i : ℕ} {r : Closed σ} {c : CloseCall σ} (hi : i < items.length) (hlt : target ≤ i)
    (htruthy : luaTruthy (items.getD i .nil) = true) (hvalue : c.value = items.getD i .nil)
    (herr : c.err = err) (hmade : c.Made h line depth costSaved)
    (hr : r.Ok h items target line depth costSaved i (c.raised.or err)) :
    Closed.Ok h items target line depth costSaved (i + 1) err { r with calls := c :: r.calls } where
  len := by
    change r.len = min (i + 1) target
    rw [hr.len]
    omega
  values := by
    rw [toClose_succ hi hlt, if_pos htruthy, List.map_cons, hr.values, hvalue]
    rfl
  newest := by
    intro before c' after heq
    -- it is the first call, or one of those that follow
    cases before with
    | nil =>
      obtain ⟨rfl, -⟩ := List.cons.inj heq
      exact herr
    | cons c₀ before =>
      obtain ⟨rfl, hrest⟩ := List.cons.inj heq
      exact hr.newest before c' after hrest
  made := by
    intro c' hc'
    rcases List.mem_cons.mp hc' with rfl | hmem
    · exact hmade
    · exact hr.made c' hmem
  pending := hr.pending

theorem closeLoop_spec : ∀ (len : ℕ) (err : Option ErrObj) (s : CallState σ), len ≤ items.length →
    Closed.Ok h items target line depth costSaved len err
      (closeLoop h items target line depth costSaved len err s) := by
  intro len
  induction len with
  | zero =>
    intro err s _
    unfold closeLoop
    constructor
    · exact (Nat.zero_min target).symm
    · rw [toClose_of_le (Nat.zero_le target)]
      rfl
    · intro before c after heq
      exact absurd heq (by simp)
    · exact fun c hc => absurd hc List.not_mem_nil
    · rfl
  | succ i ih =>
    intro err s hlen
    unfold closeLoop
    split
    · -- the target is reached
      rename_i hle
      constructor
      · exact (Nat.min_eq_left hle).symm
      · rw [toClose_of_le hle]
        rfl
      · intro before c after heq
        exact absurd heq (by simp)
      · exact fun c hc => absurd hc List.not_mem_nil
      · rfl
    · rename_i hgt
      have hlt : target ≤ i := by omega
      dsimp only
      split
      · -- the entry is closed, and the call returns or raises
        rename_i htruthy
        split
        · rename_i s' hcall
          exact (ih err s' (by omega)).cons (by omega) hlt htruthy rfl rfl ⟨rfl, rfl, by rw [hcall]; rfl⟩
        · rename_i e s' hcall
          exact (ih (some e) s' (by omega)).cons (by omega) hlt htruthy rfl rfl
            ⟨rfl, rfl, by rw [hcall]; rfl⟩
      · -- nil and false are not closed
        rename_i hfalsy
        have hr := ih err s (by omega)
        constructor
        · rw [hr.len]
          omega
        · rw [hr.values, toClose_succ (by omega) hlt, if_neg hfalsy]
          rfl
        · exact hr.newest
        · exact hr.made
        · exact hr.pending

/-- `$close_upto`, for every stack, target and host. The `__close` of each entry above the target that is not
nil or false is called once, in the reverse order of declaration, and gets the newest error. The
entries below the target stay, and the newest error is raised, if there is one. After it there is
nothing left to close down to the same target. -/
theorem closeUpto_spec (h : Host σ) (tbc : Tbc) (target : ℕ) (err : Option ErrObj) (line : Int32)
    (s : CallState σ) :
    let r := closeUpto h tbc target err line s
    r.calls.map CloseCall.value = ((tbc.entries.drop target).filter luaTruthy).reverse ∧
      (∀ before c after, r.calls = before ++ c :: after → c.err = newest err before) ∧
      (∀ c ∈ r.calls, c.Made h line s.callDepth
        (if err.isSome then s.stackCost - stackHeadroom else s.stackCost)) ∧
      r.tbc.entries = tbc.entries.take target ∧
      r.result = rethrow (newest err r.calls) ∧
      ∀ (err' : Option ErrObj) (line' : Int32) (s' : CallState σ),
        let r' := closeUpto h r.tbc target err' line' s'
        r'.calls = [] ∧ r'.tbc.entries = r.tbc.entries ∧ r'.result = rethrow err' := by
  intro r
  let cost := if err.isSome then s.stackCost - stackHeadroom else s.stackCost
  have hloop : Closed.Ok h tbc.items target line s.callDepth cost tbc.len err
      (closeLoop h tbc.items target line s.callDepth cost tbc.len err s) :=
    closeLoop_spec tbc.len err s tbc.len_le
  have hlen : r.tbc.len = min tbc.len target := hloop.len
  refine ⟨hloop.values, hloop.newest, hloop.made, ?_, congrArg rethrow hloop.pending, ?_⟩
  · calc r.tbc.entries
        = tbc.items.take (min tbc.len target) := by rw [← hlen]; rfl
      _ = tbc.entries.take target := by
          unfold Tbc.entries
          rw [List.take_take, Nat.min_comm]
  · intro err' line' s' r'
    -- the length is not above the target any more
    let cost' := if err'.isSome then s'.stackCost - stackHeadroom else s'.stackCost
    have hagain : Closed.Ok h r.tbc.items target line' s'.callDepth cost' r.tbc.len err'
        (closeLoop h r.tbc.items target line' s'.callDepth cost' r.tbc.len err' s') :=
      closeLoop_spec r.tbc.len err' s' r.tbc.len_le
    have hle : r.tbc.len ≤ target := by
      rw [hlen]
      exact Nat.min_le_right _ _
    have hnone : r'.calls = [] := by
      rw [← List.map_eq_nil_iff (f := CloseCall.value)]
      exact hagain.values.trans (toClose_of_le hle)
    have hlen' : r'.tbc.len = r.tbc.len := by
      have hmin : r'.tbc.len = min r.tbc.len target := hagain.len
      rw [hmin, Nat.min_eq_left hle]
    refine ⟨hnone, ?_, ?_⟩
    · change r.tbc.items.take r'.tbc.len = _
      rw [hlen']
      rfl
    · calc r'.result
          = rethrow (newest err' r'.calls) := congrArg rethrow hagain.pending
        _ = rethrow err' := by rw [hnone]; rfl

/-! ## Registering -/

theorem checkClosable_ends (v : Val) (name : List UInt8) (line : Int32) :
    Meets (checkClosable h v name line) s (fun _ _ => True) fun _ _ => True := by
  unfold Meets
  split
  · trivial
  · trivial

/-- `$tbc_push` puts the value on top of the entries. -/
theorem tbcPush_spec (tbc : Tbc) (v : Val) (name : List UInt8) (line : Int32) :
    Meets (tbcPush h tbc v name line) s
      (fun r _ => ∀ tbc', r = some tbc' → tbc'.entries = tbc.entries ++ [v]) fun _ _ => True := by
  unfold tbcPush
  apply (checkClosable_ends v name line).bind
  rintro _ s' -
  split
  · rename_i hlt
    apply meets_pure
    intro tbc' heq
    obtain rfl := Option.some.inj heq
    unfold Tbc.entries
    rw [List.take_set, List.take_add_one, List.getElem?_eq_getElem hlt, Option.toList_some]
    rw [List.set_append_right _ _ (by rw [List.length_take_of_le tbc.len_le]), List.length_take_of_le tbc.len_le,
      Nat.sub_self]
    rfl
  · apply meets_pure
    intro tbc' heq
    cases heq

end Lua2wasm.Calls
