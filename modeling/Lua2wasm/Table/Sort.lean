import Lua2wasm.Table.Stores

/-!
# `table.sort`

`runtime/prelude/tablib.wat`: the quicksort of `table.sort`, with the raw reads and writes at positions that it is made
of (`$tab_get_arr_idx` and `$tab_set_arr_idx` in `tables.wat`).

A comparison is an oracle: `$lua_lt_raw`, or a function of the program. It is told how many comparisons there were
before, so that it may answer as it likes, or raise, but it leaves the table alone. The positions that are read and
written are kept in `touched`, which the code does not have.

Positions are numbers of 32 bits. The sums and differences stay within them, but for the sum of the two ends of a
segment (`mid`).
-/

namespace Lua2wasm.Table

/-! ## Raw access at a position -/

/-- `$tab_get_arr_idx`. -/
def tabGetArrIdx (s : TabState) (idx : ℤ) : Option Val :=
  if 1 ≤ idx ∧ idx ≤ s.t.alen then do tval (← (← s.t.arr)[(idx - 1).toNat]?) s.t.farr (idx - 1).toNat
  else tabGetHash s (makeInt idx)

/-- `$tab_set_arr_idx`. -/
def tabSetArrIdx (idx : ℤ) (v : Val) : TabM Unit := do
  let t := (← get).t
  if (1 ≤ idx ∧ idx ≤ t.alen) ∧ v ≠ .nil then setArr (idx - 1).toNat (.val v)
  else tabSet (makeInt idx) v

/-! ## Comparisons -/

/-- The answers of a comparison, by the number of comparisons before it. -/
abbrev Oracle := ℕ → Val → Val → Except String Bool

/-- `$lua_truthy`. -/
def Val.truthy (v : Val) : Bool := v ≠ .nil ∧ v ≠ .bool false

/-- `$cmp_lt`: the order of the language, or the first result of a function. -/
def cmpLt (ltRaw : Oracle) (cmp : Option (ℕ → Val → Val → Except String Val)) : Oracle := fun calls a b =>
  match cmp with
  | none => ltRaw calls a b
  | some f => (f calls a b).map Val.truthy

/-- The state of a sort. -/
structure SortState where
  /-- The table. -/
  tab : TabState
  /-- How many comparisons there were. -/
  calls : ℕ
  /-- The positions that were read and written. -/
  touched : List ℤ

/-- A part of a sort. -/
abbrev SortM := ExceptT Fault (StateM SortState)

/-- A comparison. -/
def compare (lt : Oracle) (a b : Val) : SortM Bool := do
  let s ← get
  set { s with calls := s.calls + 1 }
  match lt s.calls a b with
  | .error msg => throw (.raised msg)
  | .ok less => pure less

/-- A read. -/
def getIdx (idx : ℤ) : SortM Val := do
  let s ← get
  set { s with touched := idx :: s.touched }
  match tabGetArrIdx s.tab idx with
  | none => throw .stuck
  | some v => pure v

/-- A write. -/
def setIdx (idx : ℤ) (v : Val) : SortM Unit := do
  let s ← get
  match ((tabSetArrIdx idx v).run s.tab : Except Fault Unit × TabState) with
  | (.ok _, tab) => set { s with tab, touched := idx :: s.touched }
  | (.error e, tab) => do
    set { s with tab, touched := idx :: s.touched }
    throw e

/-- "invalid order function for sorting". -/
def invalidOrder : Fault := .raised "invalid order function for sorting"

/-! ## The sort -/

/-- The loop of `$partition` that goes up. -/
def scanUp (lt : Oracle) (pivot : Val) (upm1 : ℤ) : ℕ → ℤ → SortM (ℤ × Val)
  | 0, _ => throw .stuck
  | fuel + 1, i => do
    let i := i + 1
    let ai ← getIdx i
    if !(← compare lt ai pivot) then pure (i, ai)
    else if i = upm1 then throw invalidOrder
    else scanUp lt pivot upm1 fuel i

/-- The loop of `$partition` that goes down. -/
def scanDown (lt : Oracle) (pivot : Val) (i : ℤ) : ℕ → ℤ → SortM (ℤ × Val)
  | 0, _ => throw .stuck
  | fuel + 1, j => do
    let j := j - 1
    let aj ← getIdx j
    if !(← compare lt pivot aj) then pure (j, aj)
    else if j < i then throw invalidOrder
    else scanDown lt pivot i fuel j

/-- The main loop of `$partition`. Each scan has the fuel that the longest one needs. -/
def partitionFrom (lt : Oracle) (pivot : Val) (upm1 : ℤ) (scan : ℕ) : ℕ → ℤ → ℤ → SortM ℤ
  | 0, _, _ => throw .stuck
  | fuel + 1, i, j => do
    let (i, ai) ← scanUp lt pivot upm1 scan i
    let (j, aj) ← scanDown lt pivot i scan j
    if j ≤ i then pure i
    else do
      setIdx i aj
      setIdx j ai
      partitionFrom lt pivot upm1 scan fuel i j

/-- `$partition`. -/
def partition (lt : Oracle) (lo up : ℤ) : SortM ℤ := do
  let upm1 := up - 1
  let pivot ← getIdx upm1
  let i ← partitionFrom lt pivot upm1 (up - lo).toNat (up - lo).toNat lo upm1
  let ai ← getIdx i
  setIdx upm1 ai
  setIdx i pivot
  pure i

/-- `$qsort`, where it sorts the two ends. -/
def sortEnds (lt : Oracle) (lo up : ℤ) : SortM Unit := do
  let alo ← getIdx lo
  let aup ← getIdx up
  if ← compare lt aup alo then do
    setIdx lo aup
    setIdx up alo
  else pure ()

/-- `$qsort`, where it sorts the middle between the ends. -/
def sortMiddle (lt : Oracle) (lo p up : ℤ) : SortM Unit := do
  let ap ← getIdx p
  let alo ← getIdx lo
  if ← compare lt ap alo then do
    setIdx p alo
    setIdx lo ap
  else do
    let aup ← getIdx up
    if ← compare lt aup ap then do
      setIdx p aup
      setIdx up ap
    else pure ()

/-- The middle of a segment: `i32.add`, and `i32.shr_s`. It is negative where the sum does not fit. -/
def mid (lo up : ℤ) : ℤ := (lo + up).bmod (2^32) / 2

/-- `$qsort`. Its loop goes on with the longer side, as if it called itself. -/
def qsort (lt : Oracle) : ℕ → ℤ → ℤ → SortM Unit
  | 0, _, _ => throw .stuck
  | fuel + 1, lo, up =>
    if up ≤ lo then pure ()
    else do
      sortEnds lt lo up
      if up - lo = 1 then pure ()
      else do
        let p := mid lo up
        sortMiddle lt lo p up
        if up - lo = 2 then pure ()
        else do
          -- the pivot goes before the last position
          let ap ← getIdx p
          let aq ← getIdx (up - 1)
          setIdx p aq
          setIdx (up - 1) ap
          let i ← partition lt lo up
          if i - lo < up - i then do
            qsort lt fuel lo (i - 1)
            qsort lt fuel (i + 1) up
          else do
            qsort lt fuel (i + 1) up
            qsort lt fuel lo (i - 1)

/-- The second argument. -/
inductive CmpArg
  /-- Absent or nil. -/
  | absent
  /-- A function. -/
  | fn (f : ℕ → Val → Val → Except String Val)
  /-- Anything else. -/
  | other

/-- "function expected". -/
def functionExpected : Fault := .raised "function expected"

/-- `$builtin_table_sort`, on a table. -/
def tableSort (ltRaw : Oracle) (arg : CmpArg) : SortM Unit := do
  let cmp ← match arg with
    | .absent => pure none
    | .fn f => pure (some f)
    | .other => throw functionExpected
  match tabLen (← get).tab with
  | none => throw .stuck
  | some n => if 1 < n then qsort (cmpLt ltRaw cmp) (n + 1) 1 n else pure ()

end Lua2wasm.Table
