import Lua2wasm.Strings.Ranges
import Lua2wasm.Format.Builder

/-!
# Parts and repetitions of strings

`string.sub`, `string.byte` and `string.rep` of `runtime/prelude/string.wat`, from where their arguments have been
coerced. Positions are 64 bits wide until they are clamped, counts until they are compared with a limit; then they
are truncated to the 32 bits that arrays are indexed with.

`slice` and `repSize` are the ranges and the sizes in mathematical terms. `sub_byte_rep_exact` says when a call
gives what they say, with nothing wrapped on the way: always, but for `2^31` copies of the empty string with a
separator of one byte. Their size is below the limit, but their number is not a positive 32-bit number.
-/

namespace Lua2wasm.Strings

open Raising
open Pack (u32 s32)
open Format (i32Sub s32_of_lt u32_of_lt i32Sub_of_le)
open Table (Fault setAt)

/-- `$str_start`. -/
def strStart (pos : Int64) (len : ℕ) : Int64 :=
  if 0 < pos then pos
  else if pos = 0 then 1
  else if pos < 0 - Int64.ofNat len then 1
  else Int64.ofNat len + pos + 1

/-- `$str_end`. -/
def strEnd (pos : Int64) (len : ℕ) : Int64 :=
  if Int64.ofNat len < pos then Int64.ofNat len
  else if 0 ≤ pos then pos
  else if pos < 0 - Int64.ofNat len then 0
  else Int64.ofNat len + pos + 1

/-- `i32.wrap_i64`. -/
def wrap (v : Int64) : ℕ := u32 v.toUInt64.toNat

/-- `$opt_int`, of an argument that may be absent. -/
def optInt (v : Option Int64) (default : Int64) : Int64 := v.getD default

/-- A new string without bytes. -/
def emptyStr : StrM ℕ := do
  let out ← newArr []
  newStr ⟨some out, 0, .flat⟩

/-- `$str_sub`. -/
def strSub (s : ℕ) (iv : Int64) (jv : Option Int64) : StrM ℕ := do
  let bytes ← strBytes s
  let a ← arrOf bytes
  let i := strStart iv a.length
  let j := strEnd (optInt jv (-1)) a.length
  if j < i then emptyStr else strFromRange bytes (wrap (i - 1)) (wrap (j - i + 1)) 1

/-- `$str_byte_range`: the array, the first byte and how many. -/
def strByteRange (s : ℕ) (iv jv : Option Int64) : StrM (ℕ × ℕ × ℕ) := do
  let bytes ← strBytes s
  let a ← arrOf bytes
  let pi := optInt iv 1
  let j := strEnd (optInt jv pi) a.length
  let i := strStart pi a.length
  if j < i then pure (bytes, 0, 0) else pure (bytes, wrap (i - 1), wrap (j - i + 1))

/-- The loop of `$builtin_string_byte` from the result `k` on, with at most `fuel` turns. -/
def byteFrom (a : List UInt8) (first count : ℕ) : ℕ → ℕ → List (Option UInt8) → StrM (List (Option UInt8))
  | 0, _, _ => throw .stuck
  | fuel + 1, k, out =>
    if s32 count ≤ s32 k then pure out
    else do
      let c ← orTrap a[u32 (first + k)]?
      let out ← orTrap (setAt out k (some c))
      byteFrom a first count fuel (u32 (k + 1)) out

/-- `$builtin_string_byte`: the results. -/
def builtinStringByte (s : ℕ) (iv jv : Option Int64) : StrM (List (Option UInt8)) := do
  let (bytes, first, count) ← strByteRange s iv jv
  if s32 count ≤ 0 then pure []
  else do
    let a ← arrOf bytes
    byteFrom a first count (count + 1) 0 (List.replicate count none)

/-- `$builtin_string_byte_f`: the first of the results. -/
def builtinStringByteF (s : ℕ) (iv jv : Option Int64) : StrM (Option UInt8) := do
  let (bytes, first, count) ← strByteRange s iv jv
  if s32 count ≤ 0 then pure none
  else do
    let a ← arrOf bytes
    let c ← orTrap a[first]?
    pure (some c)

/-- The length that `$str_rep` allocates, for `n` copies. -/
def repTotal (n slen plen : ℕ) : ℕ := u32 (u32 (n * slen) + u32 (i32Sub n 1 * plen))

/-- The loop of `$str_rep` from the copy `i` on, with at most `fuel` turns. -/
def repFrom (out sb pb n slen plen : ℕ) : ℕ → ℕ → ℕ → StrM Unit
  | 0, _, _ => throw .stuck
  | fuel + 1, i, pos =>
    if s32 n ≤ s32 i then pure ()
    else do
      copyTo out pos sb slen
      if 0 < s32 plen ∧ s32 i < s32 (i32Sub n 1) then do
        copyTo out (u32 (pos + slen)) pb plen
        repFrom out sb pb n slen plen fuel (u32 (i + 1)) (u32 (u32 (pos + slen) + plen))
      else repFrom out sb pb n slen plen fuel (u32 (i + 1)) (u32 (pos + slen))

/-- `$str_rep`, from where the number of copies is known to be in its limit. -/
def repCopies (sb pb n slen plen : ℕ) : StrM ℕ := do
  -- `array.new` of `2^31` bytes or more traps
  let zeros ← orTrap (if repTotal n slen plen < 2^31 then some (List.replicate (repTotal n slen plen) 0) else none)
  let out ← newArr zeros
  repFrom out sb pb n slen plen (n + 1) 0 0
  newStr ⟨some out, 0, .flat⟩

/-- The greatest number of copies that fit, by `i64.div_u`. -/
def repLimit (slen plen : ℕ) : Int64 :=
  ((2147483647 + Int64.ofNat plen).toUInt64 / (Int64.ofNat slen + Int64.ofNat plen).toUInt64).toInt64

/-- The bytes of the separator, which is empty when there is none. -/
def sepBytes : Option ℕ → StrM ℕ
  | none => newArr []
  | some p => do
    let _ ← newArr []
    strBytes p

/-- `$str_rep`. -/
def strRep (s : ℕ) (n64 : Int64) (sep : Option ℕ) : StrM ℕ := do
  let sb ← strBytes s
  let pb ← sepBytes sep
  let a ← arrOf sb
  let b ← arrOf pb
  if n64 ≤ 0 then emptyStr
  else if Int64.ofNat a.length + Int64.ofNat b.length = 0 then emptyStr
  else if repLimit a.length b.length < n64 then throw (.raised "too large")
  else repCopies sb pb (wrap n64) a.length b.length

/-! ## Ranges and sizes -/

/-- A negative position counts from the end. -/
def translate (pos : ℤ) (len : ℕ) : ℤ := if pos < 0 then len + pos + 1 else pos

/-- Where a range starts: at the first byte or after it. -/
def startPos (pos : ℤ) (len : ℕ) : ℤ := max 1 (translate pos len)

/-- Where a range ends: at the last byte or before it. -/
def endPos (pos : ℤ) (len : ℕ) : ℤ := min len (translate pos len)

/-- The bytes from one position to another. -/
def slice (x : List UInt8) (i j : ℤ) : List UInt8 :=
  (x.drop (startPos i x.length - 1).toNat).take (endPos j x.length - startPos i x.length + 1).toNat

/-- The size of a repetition. -/
def repSize (n : ℕ) (x sep : List UInt8) : ℕ := n * x.length + (n - 1) * sep.length

/-- The repetition. -/
def repeated (n : ℕ) (x sep : List UInt8) : List UInt8 := sep.intercalate (List.replicate n x)

/-- The bytes of a string of the heap, as `$str_bytes` gives them. -/
def StrHeap.bytesOf (h : StrHeap) (s : ℕ) : Option (List UInt8) :=
  match ((strBytes s).run h : Except Fault ℕ × StrHeap) with
  | (.ok r, h') => h'.arrs[r]?
  | (.error _, _) => none

/-- The bytes of a separator. -/
def StrHeap.sepOf (h : StrHeap) : Option ℕ → Option (List UInt8)
  | none => some []
  | some p => h.bytesOf p

/-- A call gives a string with the bytes, and those that there were keep theirs. -/
def Gives (x : StrM ℕ) (h : StrHeap) (y : List UInt8) : Prop :=
  ∃ s h', Returns x h s h' ∧ h'.bytesOf s = some y ∧ ∀ t z, h.bytesOf t = some z → h'.bytesOf t = some z

/-- Clamping gives the positions of the range, and truncating them gives its first byte and its length. -/
structure NoWrap (i j : Int64) (len : ℕ) : Prop where
  start : (strStart i len).toInt = startPos i.toInt len
  stop : (strEnd j len).toInt = max 0 (endPos j.toInt len)
  first : startPos i.toInt len ≤ endPos j.toInt len → (wrap (strStart i len - 1) : ℤ) = startPos i.toInt len - 1
  count : startPos i.toInt len ≤ endPos j.toInt len →
    (wrap (strEnd j len - strStart i len + 1) : ℤ) = endPos j.toInt len - startPos i.toInt len + 1

/-- `string.sub` gives the range. -/
structure SubExact (h : StrHeap) (s : ℕ) (x : List UInt8) (i : Int64) (j : Option Int64) : Prop where
  gives : Gives (strSub s i j) h (slice x i.toInt (optInt j (-1)).toInt)
  noWrap : NoWrap i (optInt j (-1)) x.length

/-- `string.byte` gives the bytes of the range, and as a single value the first of them. -/
structure ByteExact (h : StrHeap) (s : ℕ) (x : List UInt8) (i j : Option Int64) : Prop where
  all : ∃ h', Returns (builtinStringByte s i j) h
    ((slice x (optInt i 1).toInt (optInt j (optInt i 1)).toInt).map some) h'
  first : ∃ h', Returns (builtinStringByteF s i j) h
    (slice x (optInt i 1).toInt (optInt j (optInt i 1)).toInt).head? h'
  noWrap : NoWrap (optInt i 1) (optInt j (optInt i 1)) x.length

/-- `string.rep` gives the repetition, or raises an error when it is too large. -/
structure RepExact (h : StrHeap) (s : ℕ) (x : List UInt8) (n : Int64) (p : Option ℕ) (sep : List UInt8) : Prop where
  none : n.toInt ≤ 0 → Gives (strRep s n p) h []
  fits : 0 < n.toInt → repSize n.toInt.toNat x sep < 2^31 → Gives (strRep s n p) h (repeated n.toInt.toNat x sep)
  tooLarge : 0 < n.toInt → 2^31 ≤ repSize n.toInt.toNat x sep →
    ∃ h', ((strRep s n p).run h : Except Fault ℕ × StrHeap) = (.error (.raised "too large"), h')
  noWrap : 0 < n.toInt → 0 < x.length + sep.length → repSize n.toInt.toNat x sep < 2^31 →
    s32 (wrap n) = n.toInt ∧ repTotal (wrap n) x.length sep.length = repSize n.toInt.toNat x sep

variable {host : HostFmt} {h h' : StrHeap} {vals : List (List UInt8)} {x sep : List UInt8} {s len : ℕ}
  {i j n pos : Int64} {E : Fault → StrHeap → Prop}

/-! ## Positions -/

theorem toInt_add_of_bounds {a b : Int64} (hlo : -2^63 ≤ a.toInt + b.toInt) (hhi : a.toInt + b.toInt < 2^63) :
    (a + b).toInt = a.toInt + b.toInt := by
  rw [Int64.toInt_add]
  exact Int.bmod_eq_of_le (by omega) (by omega)

theorem toInt_sub_of_bounds {a b : Int64} (hlo : -2^63 ≤ a.toInt - b.toInt) (hhi : a.toInt - b.toInt < 2^63) :
    (a - b).toInt = a.toInt - b.toInt := by
  rw [Int64.toInt_sub]
  exact Int.bmod_eq_of_le (by omega) (by omega)

theorem toInt_ofNat_len (hlen : len < 2^31) : (Int64.ofNat len).toInt = len :=
  Int64.toInt_ofNat_of_lt (by omega)

/-- The pattern of a number that is not negative. -/
theorem toUInt64_of_nonneg {v : Int64} (h : 0 ≤ v.toInt) : (v.toUInt64.toNat : ℤ) = v.toInt := by
  have hcond : v.toInt = if 2 * v.toUInt64.toNat < 2^64 then (v.toUInt64.toNat : ℤ) else v.toUInt64.toNat - (2^64 : ℕ) :=
    BitVec.toInt_eq_toNat_cond v.toBitVec
  have hlt : v.toUInt64.toNat < 2^64 := v.toUInt64.toNat_lt
  split_ifs at hcond <;> omega

/-- A pattern that is a number that is not negative. -/
theorem toInt64_of_lt {u : UInt64} (h : u.toNat < 2^63) : u.toInt64.toInt = u.toNat := by
  have hcond : u.toInt64.toInt = if 2 * u.toNat < 2^64 then (u.toNat : ℤ) else u.toNat - (2^64 : ℕ) :=
    BitVec.toInt_eq_toNat_cond u.toBitVec
  rw [hcond, if_pos (by omega)]

/-- Truncation keeps a number that fits. -/
theorem wrap_of_bounds {v : Int64} (hlo : 0 ≤ v.toInt) (hhi : v.toInt < 2^32) : (wrap v : ℤ) = v.toInt := by
  have hv := toUInt64_of_nonneg hlo
  unfold wrap
  rw [u32_of_lt (by omega), hv]

theorem neg_len_toInt (hlen : len < 2^31) : (0 - Int64.ofNat len).toInt = -len := by
  have hl := toInt_ofNat_len hlen
  have hzero : (0 : Int64).toInt = 0 := rfl
  rw [toInt_sub_of_bounds (by omega) (by omega), hl, hzero]
  omega

/-- A negative position that is not before the first byte. -/
theorem fromEnd_toInt (hlen : len < 2^31) (hlo : -len ≤ pos.toInt) (hhi : pos.toInt ≤ 0) :
    (Int64.ofNat len + pos + 1).toInt = len + pos.toInt + 1 := by
  have hl := toInt_ofNat_len hlen
  have hone : (1 : Int64).toInt = 1 := rfl
  have hsum : (Int64.ofNat len + pos).toInt = len + pos.toInt := by
    rw [toInt_add_of_bounds (by omega) (by omega), hl]
  rw [toInt_add_of_bounds (by omega) (by omega), hsum, hone]

theorem strStart_toInt (hlen : len < 2^31) : (strStart pos len).toInt = startPos pos.toInt len := by
  have hneg := neg_len_toInt hlen
  have hzero : (0 : Int64).toInt = 0 := rfl
  have hone : (1 : Int64).toInt = 1 := rfl
  unfold startPos translate
  unfold strStart
  simp only [Int64.lt_iff_toInt_lt, ← Int64.toInt_inj (y := 0), hzero, hneg]
  by_cases hpos : 0 < pos.toInt
  · rw [if_pos hpos, if_neg (by omega)]
    omega
  rw [if_neg hpos]
  by_cases hnull : pos.toInt = 0
  · rw [if_pos hnull, if_neg (by omega), hone]
    omega
  rw [if_neg hnull, if_pos (show pos.toInt < 0 by omega)]
  by_cases hbefore : pos.toInt < -len
  · rw [if_pos hbefore, hone]
    omega
  · rw [if_neg hbefore, fromEnd_toInt hlen (by omega) (by omega)]
    omega

theorem strEnd_toInt (hlen : len < 2^31) : (strEnd pos len).toInt = max 0 (endPos pos.toInt len) := by
  have hl := toInt_ofNat_len hlen
  have hneg := neg_len_toInt hlen
  have hzero : (0 : Int64).toInt = 0 := rfl
  unfold endPos translate
  unfold strEnd
  simp only [Int64.lt_iff_toInt_lt, Int64.le_iff_toInt_le, hzero, hneg, hl]
  by_cases hbeyond : len < pos.toInt
  · rw [if_pos hbeyond, if_neg (by omega), hl]
    omega
  rw [if_neg hbeyond]
  by_cases hpos : 0 ≤ pos.toInt
  · rw [if_pos hpos, if_neg (by omega)]
    omega
  rw [if_neg hpos, if_pos (show pos.toInt < 0 by omega)]
  by_cases hbefore : pos.toInt < -len
  · rw [if_pos hbefore, hzero]
    omega
  · rw [if_neg hbefore, fromEnd_toInt hlen (by omega) (by omega)]
    omega

/-- The positions are clamped before they are truncated. -/
theorem noWrap_of_len (hlen : len < 2^31) : NoWrap i j len := by
  have hi := @strStart_toInt _ i hlen
  have hj := @strEnd_toInt _ j hlen
  have hone : (1 : Int64).toInt = 1 := rfl
  have hlo : 1 ≤ startPos i.toInt len := le_max_left _ _
  have hhi : endPos j.toInt len ≤ len := min_le_left _ _
  refine ⟨hi, hj, ?_, ?_⟩
  · intro hle
    have hsub : (strStart i len - 1).toInt = startPos i.toInt len - 1 := by
      rw [toInt_sub_of_bounds (by omega) (by omega), hi, hone]
    rw [wrap_of_bounds (by omega) (by omega), hsub]
  · intro hle
    have hsub : (strEnd j len - strStart i len).toInt = endPos j.toInt len - startPos i.toInt len := by
      rw [toInt_sub_of_bounds (by omega) (by omega), hi, hj]
      omega
    have hadd : (strEnd j len - strStart i len + 1).toInt = endPos j.toInt len - startPos i.toInt len + 1 := by
      rw [toInt_add_of_bounds (by omega) (by omega), hsub, hone]
    rw [wrap_of_bounds (by omega) (by omega), hadd]

/-- The first byte of a range that is not empty, and its length. -/
theorem range_words (hlen : x.length < 2^31) (hle : ¬strEnd j x.length < strStart i x.length) :
    wrap (strStart i x.length - 1) + wrap (strEnd j x.length - strStart i x.length + 1) ≤ x.length ∧
      0 < wrap (strEnd j x.length - strStart i x.length + 1) ∧
      slice x i.toInt j.toInt = (x.drop (wrap (strStart i x.length - 1))).take
        (wrap (strEnd j x.length - strStart i x.length + 1)) := by
  have hno : NoWrap i j x.length := noWrap_of_len hlen
  have hlo : 1 ≤ startPos i.toInt x.length := le_max_left _ _
  have hhi : endPos j.toInt x.length ≤ x.length := min_le_left _ _
  have hnonempty : startPos i.toInt x.length ≤ endPos j.toInt x.length := by
    rw [Int64.lt_iff_toInt_lt, hno.start, hno.stop] at hle
    omega
  have hfirst := hno.first hnonempty
  have hcount := hno.count hnonempty
  unfold slice
  rw [← hfirst, ← hcount, Int.toNat_natCast, Int.toNat_natCast]
  refine ⟨by omega, by omega, rfl⟩

/-- An empty range. -/
theorem slice_empty (hlen : x.length < 2^31) (hlt : strEnd j x.length < strStart i x.length) :
    slice x i.toInt j.toInt = [] := by
  have hno : NoWrap i j x.length := noWrap_of_len hlen
  rw [Int64.lt_iff_toInt_lt, hno.start, hno.stop] at hlt
  unfold slice
  rw [show (endPos j.toInt x.length - startPos i.toInt x.length + 1).toNat = 0 by omega]
  rfl

/-! ## What calls give -/

theorem bytesOf_eq (hh : Holds h vals) (hx : vals[s]? = some x) : h.bytesOf s = some x := by
  obtain ⟨r, h', hret, -, -, hr, -⟩ := strBytes_spec hh hx
  unfold StrHeap.bytesOf
  rw [show ((strBytes s).run h : Except Fault ℕ × StrHeap) = _ from hret]
  exact hr

/-- What a string reads as is what it stands for. -/
theorem val_of_bytesOf (hh : Holds h vals) (hx : h.bytesOf s = some x) : vals[s]? = some x := by
  by_cases hs : s < h.strs.length
  · obtain ⟨y, hy⟩ := hh.val hs
    have heq := bytesOf_eq hh hy
    rw [hx] at heq
    rw [hy, heq]
  · -- there is no such string
    have hstuck : Meets (strBytes s) h (fun _ _ => False) fun _ _ => True := by
      unfold strBytes strOf
      have hread : Meets (do
          let h ← get
          orTrap h.strs[s]?) h (fun _ _ => False) fun _ _ => True := by
        apply meets_get_bind
        rw [List.getElem?_eq_none (by omega)]
        exact meets_throw trivial
      exact hread.bind fun _ _ hf => hf.elim
    unfold StrHeap.bytesOf at hx
    split at hx
    · rename_i hrun
      exact (hstuck.of_ok hrun).elim
    · cases hx

/-- A call that makes a string gives it. -/
theorem gives_of_meets {c : StrM ℕ} (hh : Holds h vals) (hc : Ensures c h (Made vals x)) :
    Gives c h x := by
  obtain ⟨t, h', hret, vals', hpre, hh', ht⟩ := hc.returns
  refine ⟨t, h', hret, bytesOf_eq hh' ht, ?_⟩
  intro u z hu
  exact bytesOf_eq hh' (getElem?_of_initial hpre (val_of_bytesOf hh hu))

theorem emptyStr_made (hh : Holds h vals) : Meets emptyStr h (Made vals []) E :=
  newRange_made hh (by decide)

/-- `$str_sub` makes a string of the range. -/
theorem strSub_made {j : Option Int64} (hh : Holds h vals) (hx : vals[s]? = some x) (hlen : x.length < 2^31) :
    Meets (strSub s i j) h (Made vals (slice x i.toInt (optInt j (-1)).toInt)) E := by
  obtain ⟨r, h₁, hret, hh₁, -, hr, -⟩ := strBytes_spec hh hx
  unfold strSub
  apply hret.bind_meets
  apply (arrOf_returns hr).bind_meets
  by_cases hempty : strEnd (optInt j (-1)) x.length < strStart i x.length
  · rw [if_pos hempty, slice_empty hlen hempty]
    exact emptyStr_made hh₁
  · rw [if_neg hempty]
    obtain ⟨hin, -, hslice⟩ := range_words hlen hempty
    rw [hslice]
    exact strFromRange_spec hh₁ hr hin (by omega) (by omega)

/-! ## Bytes -/

/-- The results that are written, before those that are not. -/
theorem byteFrom_returns {a : List UInt8} {first count : ℕ} (hin : first + count ≤ a.length) (hshort : a.length < 2^31) :
    ∀ (todo fuel k : ℕ), k + todo = count → todo < fuel →
      Returns (byteFrom a first count fuel k (((a.drop first).take k).map some ++ List.replicate todo none)) h
        (((a.drop first).take count).map some) h := by
  intro todo
  induction todo with
  | zero =>
    intro fuel k hk hfuel
    obtain ⟨fuel, rfl⟩ := Nat.exists_eq_add_one_of_ne_zero (by omega : fuel ≠ 0)
    obtain rfl : k = count := by omega
    unfold byteFrom
    rw [if_pos (le_refl _), List.replicate_zero, List.append_nil]
    rfl
  | succ todo ih =>
    intro fuel k hk hfuel
    obtain ⟨fuel, rfl⟩ := Nat.exists_eq_add_one_of_ne_zero (by omega : fuel ≠ 0)
    have hget : a[first + k]? = some a[first + k] := List.getElem?_eq_getElem (by omega)
    have hdone : ((a.drop first).take k).length = k := by
      rw [List.length_take, List.length_drop]
      omega
    have hnext : (a.drop first).take (k + 1) = (a.drop first).take k ++ [a[first + k]] := by
      rw [List.take_add_one, List.getElem?_drop, hget]
      rfl
    have hset : setAt (((a.drop first).take k).map some ++ List.replicate (todo + 1) none) k (some a[first + k]) =
        some (((a.drop first).take (k + 1)).map some ++ List.replicate todo none) := by
      rw [Table.setAt_of_lt (by rw [List.length_append, List.length_map, List.length_replicate]; omega),
        List.set_append_right _ _ (by rw [List.length_map, hdone]), List.length_map, hdone, Nat.sub_self, hnext,
        List.map_append, List.append_assoc]
      rfl
    unfold byteFrom
    rw [if_neg (by rw [s32_of_lt (by omega), s32_of_lt (by omega)]; omega), u32_of_lt (by omega), u32_of_lt (by omega)]
    apply (orTrap_returns hget).bind
    apply (orTrap_returns hset).bind
    exact ih fuel (k + 1) (by omega) (by omega)

/-- `$str_byte_range` gives the bytes of the range: none, or those from the first on. -/
theorem strByteRange_returns {i j : Option Int64} (hh : Holds h vals) (hx : vals[s]? = some x) (hlen : x.length < 2^31) :
    ∃ r first count h', Returns (strByteRange s i j) h (r, first, count) h' ∧ h'.arrs[r]? = some x ∧
      first + count ≤ x.length ∧
      slice x (optInt i 1).toInt (optInt j (optInt i 1)).toInt = (x.drop first).take count := by
  obtain ⟨r, h', hret, -, -, hr, -⟩ := strBytes_spec hh hx
  by_cases hempty : strEnd (optInt j (optInt i 1)) x.length < strStart (optInt i 1) x.length
  · refine ⟨r, 0, 0, h', ?_, hr, Nat.zero_le _, slice_empty hlen hempty⟩
    unfold strByteRange
    apply hret.bind
    apply (arrOf_returns hr).bind
    rw [if_pos hempty]
    rfl
  · obtain ⟨hin, -, hslice⟩ := range_words hlen hempty
    refine ⟨r, _, _, h', ?_, hr, hin, hslice⟩
    unfold strByteRange
    apply hret.bind
    apply (arrOf_returns hr).bind
    rw [if_neg hempty]
    rfl

/-- `$builtin_string_byte` gives the bytes of the range. -/
theorem builtinStringByte_returns {i j : Option Int64} (hh : Holds h vals) (hx : vals[s]? = some x)
    (hlen : x.length < 2^31) :
    ∃ h', Returns (builtinStringByte s i j) h
      ((slice x (optInt i 1).toInt (optInt j (optInt i 1)).toInt).map some) h' := by
  obtain ⟨r, first, count, h', hret, hr, hin, hslice⟩ := strByteRange_returns (i := i) (j := j) hh hx hlen
  refine ⟨h', ?_⟩
  unfold builtinStringByte
  apply hret.bind
  rw [hslice]
  dsimp only
  rw [s32_of_lt (by omega)]
  by_cases hnone : count = 0
  · rw [if_pos (by omega), hnone]
    rfl
  · rw [if_neg (by omega)]
    apply (arrOf_returns hr).bind
    have hloop := byteFrom_returns (h := h') hin hlen count (count + 1) 0 (by omega) (by omega)
    rw [List.take_zero, List.map_nil, List.nil_append] at hloop
    exact hloop

/-- `$builtin_string_byte_f` gives the first byte of the range. -/
theorem builtinStringByteF_returns {i j : Option Int64} (hh : Holds h vals) (hx : vals[s]? = some x)
    (hlen : x.length < 2^31) :
    ∃ h', Returns (builtinStringByteF s i j) h
      (slice x (optInt i 1).toInt (optInt j (optInt i 1)).toInt).head? h' := by
  obtain ⟨r, first, count, h', hret, hr, hin, hslice⟩ := strByteRange_returns (i := i) (j := j) hh hx hlen
  refine ⟨h', ?_⟩
  unfold builtinStringByteF
  apply hret.bind
  rw [hslice]
  dsimp only
  rw [s32_of_lt (by omega)]
  by_cases hnone : count = 0
  · rw [if_pos (by omega), hnone]
    rfl
  · rw [if_neg (by omega)]
    have hget : x[first]? = some x[first] := List.getElem?_eq_getElem (by omega)
    have hhead : ((x.drop first).take count).head? = some x[first] := by
      rw [List.head?_take, if_neg hnone, List.head?_drop, hget]
    rw [hhead]
    apply (arrOf_returns hr).bind
    exact (orTrap_returns hget).bind rfl

/-! ## Repetitions -/

theorem repeated_one : repeated 1 x sep = x := by
  simp [repeated, List.intercalate]

theorem repeated_succ (n : ℕ) : repeated (n + 2) x sep = x ++ sep ++ repeated (n + 1) x sep := by
  simp [repeated, List.intercalate, List.replicate_succ]

theorem repeated_length (n : ℕ) : (repeated (n + 1) x sep).length = repSize (n + 1) x sep := by
  induction n with
  | zero =>
    rw [repeated_one]
    simp [repSize]
  | succ n ih =>
    rw [repeated_succ, List.length_append, List.length_append, ih]
    simp only [repSize, Nat.add_sub_cancel]
    ring

/-- A copy of the bytes of another array. -/
theorem Filling.copy {y z : List UInt8} {out r n : ℕ} (hf : Filling h vals out n y) (hr : h.arrs[r]? = some z)
    (hroom : (y ++ z).length ≤ n) :
    ∃ h', Returns (copyTo out y.length r z.length) h () h' ∧ Filling h' vals out n (y ++ z) ∧
      ∀ q, q ≠ out → h'.arrs[q]? = h.arrs[q]? := by
  obtain ⟨a, ha, rfl, htake⟩ := hf.arr
  have hout : out < h.arrs.length := (List.getElem?_eq_some_iff.mp ha).1
  rw [List.length_append] at hroom
  have hcopy := copyTo_returns (p := y.length) ha hr hroom (Nat.le_refl _)
  rw [List.take_length] at hcopy
  have hlen : (a.take y.length ++ z ++ a.drop (y.length + z.length)).length = a.length := by
    simp only [List.length_append, List.length_take, List.length_drop]
    omega
  refine ⟨_, hcopy, ⟨hf.holds.setArr ha (Private.spare (p := 0) hf.priv) hlen rfl, ⟨hf.priv.str, hf.priv.buf⟩, _,
    List.getElem?_set_self hout, hlen, ?_⟩, ?_⟩
  · rw [htake, List.take_left']
    rfl
  · intro q hq
    exact List.getElem?_set_ne (Ne.symm hq)

/-- The copies that are left to make. -/
theorem repFrom_spec {out sb pb n size : ℕ} (hsb : sb ≠ out) (hpb : pb ≠ out) (hn : n < 2^31) (hsize : size < 2^31)
    (hplen : sep.length < 2^31) :
    ∀ (todo fuel i : ℕ) (h : StrHeap) (y : List UInt8), i + (todo + 1) = n → todo + 1 < fuel →
      Filling h vals out size y → h.arrs[sb]? = some x → h.arrs[pb]? = some sep →
      (y ++ repeated (todo + 1) x sep).length ≤ size →
      ∃ h', Returns (repFrom out sb pb n x.length sep.length fuel i y.length) h () h' ∧
        Filling h' vals out size (y ++ repeated (todo + 1) x sep) := by
  intro todo
  induction todo with
  | zero =>
    intro fuel i h y hi hfuel hf hx hp hroom
    obtain ⟨fuel, rfl⟩ : ∃ f, fuel = f + 2 := ⟨fuel - 2, by omega⟩
    rw [repeated_one] at hroom ⊢
    obtain ⟨h', hcopy, hf', -⟩ := hf.copy hx hroom
    refine ⟨h', ?_, hf'⟩
    unfold repFrom
    rw [s32_of_lt (by omega), s32_of_lt (by omega), if_neg (by omega)]
    apply hcopy.bind
    -- after the last copy there is no separator
    rw [i32Sub_of_le (by omega) (by omega), s32_of_lt (by omega), s32_of_lt (by omega), if_neg (by omega)]
    unfold repFrom
    rw [u32_of_lt (by omega), s32_of_lt (by omega), s32_of_lt (by omega), if_pos (by omega)]
    rfl
  | succ todo ih =>
    intro fuel i h y hi hfuel hf hx hp hroom
    obtain ⟨fuel, rfl⟩ : ∃ f, fuel = f + 1 := ⟨fuel - 1, by omega⟩
    rw [repeated_succ] at hroom ⊢
    simp only [List.length_append] at hroom
    obtain ⟨h₁, hcopy₁, hf₁, hkeep₁⟩ := hf.copy hx (by rw [List.length_append]; omega)
    have hx₁ := (hkeep₁ sb hsb).trans hx
    have hp₁ := (hkeep₁ pb hpb).trans hp
    have hpos : u32 (y.length + x.length) = (y ++ x).length := by
      rw [u32_of_lt (by omega), List.length_append]
    have hstep : u32 (i + 1) = i + 1 := u32_of_lt (by omega)
    have hmore : s32 i < s32 (i32Sub n 1) := by
      rw [i32Sub_of_le (by omega) (by omega), s32_of_lt (by omega), s32_of_lt (by omega)]
      omega
    have hgo : ∀ h₂, Filling h₂ vals out size (y ++ x ++ sep) → h₂.arrs[sb]? = some x → h₂.arrs[pb]? = some sep →
        ∃ h', Returns (repFrom out sb pb n x.length sep.length fuel (i + 1) (y ++ x ++ sep).length) h₂ () h' ∧
          Filling h' vals out size (y ++ (x ++ sep ++ repeated (todo + 1) x sep)) := by
      intro h₂ hf₂ hx₂ hp₂
      have hrest := ih fuel (i + 1) h₂ (y ++ x ++ sep) (by omega) (by omega) hf₂ hx₂ hp₂
        (by simp only [List.length_append]; omega)
      rw [show y ++ (x ++ sep ++ repeated (todo + 1) x sep) = y ++ x ++ sep ++ repeated (todo + 1) x sep by
        simp only [List.append_assoc]]
      exact hrest
    unfold repFrom
    rw [if_neg (by rw [s32_of_lt (by omega), s32_of_lt (by omega)]; omega), hpos, hstep]
    by_cases hsep : sep = []
    · -- without a separator the next copy follows
      obtain ⟨h', hret, hf'⟩ := hgo h₁ (by rw [hsep, List.append_nil]; exact hf₁) hx₁ hp₁
      refine ⟨h', ?_, hf'⟩
      apply hcopy₁.bind
      rw [hsep] at hret ⊢
      rw [if_neg (by rw [s32_of_lt (by decide)]; simp)]
      rw [List.append_nil] at hret
      exact hret
    · have hplus : 0 < sep.length := List.length_pos_of_ne_nil hsep
      obtain ⟨h₂, hcopy₂, hf₂, hkeep₂⟩ := hf₁.copy hp₁ (by simp only [List.length_append]; omega)
      obtain ⟨h', hret, hf'⟩ := hgo h₂ hf₂ ((hkeep₂ sb hsb).trans hx₁) ((hkeep₂ pb hpb).trans hp₁)
      refine ⟨h', ?_, hf'⟩
      apply hcopy₁.bind
      rw [if_pos ⟨by rw [s32_of_lt hplen]; omega, hmore⟩]
      apply hcopy₂.bind
      rw [show u32 ((y ++ x).length + sep.length) = (y ++ x ++ sep).length by
        rw [u32_of_lt (by rw [List.length_append]; omega), @List.length_append _ _ sep]]
      exact hret

/-- Fewer than `2^31` bytes are fewer than `2^31` copies, but for one kind of input. -/
theorem count_lt {k a b : ℕ} (hunit : 0 < a + b) (hsize : k * a + (k - 1) * b < 2^31)
    (hnot : ¬(a = 0 ∧ b = 1 ∧ k = 2^31)) : k < 2^31 := by
  by_contra hge
  have ha : a = 0 := by
    by_contra hne
    have hle : k ≤ k * a := Nat.le_mul_of_pos_right k (by omega)
    omega
  subst ha
  by_cases hb : b = 1
  · subst hb
    omega
  · have hle : (k - 1) * 2 ≤ (k - 1) * b := Nat.mul_le_mul_left _ (by omega)
    omega

/-- The product and the difference do not wrap. -/
theorem repTotal_eq {k : ℕ} (hpos : 0 < k) (hk : k < 2^31) (hsize : repSize k x sep < 2^31) :
    repTotal k x.length sep.length = repSize k x sep := by
  unfold repSize at hsize ⊢
  unfold repTotal
  rw [i32Sub_of_le (by omega) (by omega), u32_of_lt (show k * x.length < 2^32 by omega),
    u32_of_lt (show (k - 1) * sep.length < 2^32 by omega), u32_of_lt (by omega)]

/-- The limit is on the size. -/
theorem lt_repLimit_iff {k : ℕ} (hx : x.length < 2^31) (hsep : sep.length < 2^31) (hunit : 0 < x.length + sep.length)
    (hn : n.toInt = k) (hpos : 0 < k) : repLimit x.length sep.length < n ↔ 2^31 ≤ repSize k x sep := by
  have hl := toInt_ofNat_len hx
  have hl' := toInt_ofNat_len hsep
  have hmax : (2147483647 : Int64).toInt = 2147483647 := rfl
  have htop : (2147483647 + Int64.ofNat sep.length).toInt = 2147483647 + sep.length := by
    rw [toInt_add_of_bounds (by omega) (by omega), hmax, hl']
  have hsum : (Int64.ofNat x.length + Int64.ofNat sep.length).toInt = x.length + sep.length := by
    rw [toInt_add_of_bounds (by omega) (by omega), hl, hl']
  have htop' := toUInt64_of_nonneg (v := 2147483647 + Int64.ofNat sep.length) (by omega)
  have hsum' := toUInt64_of_nonneg (v := Int64.ofNat x.length + Int64.ofNat sep.length) (by omega)
  have hdiv : (repLimit x.length sep.length).toInt = ((2147483647 + sep.length) / (x.length + sep.length) : ℕ) := by
    have hquot : ((2147483647 + Int64.ofNat sep.length).toUInt64 /
        (Int64.ofNat x.length + Int64.ofNat sep.length).toUInt64).toNat =
        (2147483647 + sep.length) / (x.length + sep.length) := by
      rw [UInt64.toNat_div]
      congr 1 <;> omega
    have hle := Nat.div_le_self (2147483647 + sep.length) (x.length + sep.length)
    unfold repLimit
    rw [toInt64_of_lt (by omega), hquot]
  rw [Int64.lt_iff_toInt_lt, hdiv, hn, Nat.cast_lt, Nat.div_lt_iff_lt_mul hunit]
  obtain ⟨m, rfl⟩ : ∃ m, k = m + 1 := ⟨k - 1, by omega⟩
  have hexpand : (m + 1) * (x.length + sep.length) = repSize (m + 1) x sep + sep.length := by
    simp only [repSize, Nat.add_sub_cancel]
    ring
  rw [hexpand]
  omega

/-- The separator is an array by itself. -/
theorem sepBytes_spec {p : Option ℕ} (hh : Holds h vals) (hp : ∀ q, p = some q → vals[q]? = some sep)
    (hnone : p = none → sep = []) :
    ∃ r h', Returns (sepBytes p) h r h' ∧ Holds h' vals ∧ h'.arrs[r]? = some sep ∧ h.arrs <+: h'.arrs := by
  cases p with
  | none =>
    rw [hnone rfl]
    exact ⟨h.arrs.length, _, newArr_returns, hh.newArr [], by simp, List.prefix_append _ _⟩
  | some p =>
    obtain ⟨r, h', hret, hh', hreads, hr, -⟩ := strBytes_spec (hh.newArr []) (hp p rfl)
    exact ⟨r, h', newArr_returns.bind hret, hh', hr, (List.prefix_append _ _).trans hreads.arrs⟩

/-- `$str_rep` makes a string of the repetition, when its number of copies fits. -/
theorem repCopies_made {sb pb k : ℕ} (hh : Holds h vals) (hx : h.arrs[sb]? = some x) (hp : h.arrs[pb]? = some sep)
    (hplen : sep.length < 2^31) (hpos : 0 < k) (hk : k < 2^31) (hsize : repSize k x sep < 2^31) :
    Meets (repCopies sb pb k x.length sep.length) h (Made vals (repeated k x sep)) E := by
  obtain ⟨m, rfl⟩ : ∃ m, k = m + 1 := ⟨k - 1, by omega⟩
  have hlen := @repeated_length x sep m
  have hself : sb < h.arrs.length := (List.getElem?_eq_some_iff.mp hx).1
  have hself' : pb < h.arrs.length := (List.getElem?_eq_some_iff.mp hp).1
  have hold : ∀ (q : ℕ) (c : List UInt8), h.arrs[q]? = some c →
      (h.arrs ++ [List.replicate (repSize (m + 1) x sep) (0 : UInt8)])[q]? = some c := fun q c =>
    getElem?_of_initial (List.prefix_append _ _)
  obtain ⟨h', hret, hf⟩ := repFrom_spec (Nat.ne_of_lt hself) (Nat.ne_of_lt hself') hk hsize hplen m (m + 1 + 1) 0 _ []
    (by omega) (by omega) (hh.filling (repSize (m + 1) x sep)) (hold sb x hx) (hold pb sep hp)
    (by rw [List.nil_append, hlen])
  rw [List.nil_append] at hf
  obtain ⟨a, ha, halen, htake⟩ := hf.arr
  have hax : a = repeated (m + 1) x sep := by
    rw [← htake, hlen, ← halen, List.take_length]
  subst hax
  unfold repCopies
  rw [repTotal_eq hpos hk hsize, if_pos hsize]
  apply (orTrap_returns rfl).bind_meets
  apply newArr_returns.bind_meets
  apply hret.bind_meets
  exact (newStr_made 0 hf.holds ha (by omega) hf.priv.buf (fun hne => absurd rfl hne)).mono (fun _ _ hm => hm.1)
    fun _ _ he => he

/-- `$str_rep` gives the repetition, or raises an error. -/
theorem strRep_spec {p : Option ℕ} (hh : Holds h vals) (hx : vals[s]? = some x) (hxlen : x.length < 2^31)
    (hp : ∀ q, p = some q → vals[q]? = some sep) (hnone : p = none → sep = []) (hplen : sep.length < 2^31)
    (hnot : ¬(x = [] ∧ sep.length = 1 ∧ n.toInt = 2^31)) :
    Meets (strRep s n p) h
      (fun r h' => Made vals (if n.toInt ≤ 0 then [] else repeated n.toInt.toNat x sep) r h' ∧
        (0 < n.toInt → repSize n.toInt.toNat x sep < 2^31))
      (fun e _ => e = .raised "too large" ∧ 0 < n.toInt ∧ 2^31 ≤ repSize n.toInt.toNat x sep) := by
  obtain ⟨sb, h₁, hret₁, hh₁, -, hr₁, -⟩ := strBytes_spec hh hx
  obtain ⟨pb, h₂, hret₂, hh₂, hr₂, hpre⟩ := sepBytes_spec hh₁ hp hnone
  have hr₁' := getElem?_of_initial hpre hr₁
  have hzero : (0 : Int64).toInt = 0 := rfl
  have hl := toInt_ofNat_len hxlen
  have hl' := toInt_ofNat_len hplen
  unfold strRep
  apply hret₁.bind_meets
  apply hret₂.bind_meets
  apply (arrOf_returns hr₁').bind_meets
  apply (arrOf_returns hr₂).bind_meets
  by_cases hneg : n.toInt ≤ 0
  · rw [if_pos (Int64.le_iff_toInt_le.mpr hneg), if_pos hneg]
    exact (emptyStr_made hh₂).mono (fun _ _ hm => ⟨hm, fun hlt => by omega⟩) fun _ _ he => he
  rw [if_neg (fun hle => hneg (Int64.le_iff_toInt_le.mp hle)), if_neg hneg]
  obtain ⟨k, hk⟩ : ∃ k : ℕ, n.toInt = k := ⟨n.toInt.toNat, by omega⟩
  rw [hk, Int.toNat_natCast]
  have hsum : (Int64.ofNat x.length + Int64.ofNat sep.length).toInt = x.length + sep.length := by
    rw [toInt_add_of_bounds (by omega) (by omega), hl, hl']
  by_cases hunit : x.length + sep.length = 0
  · -- there is nothing to repeat
    obtain rfl : x = [] := List.length_eq_zero_iff.mp (by omega)
    obtain rfl : sep = [] := List.length_eq_zero_iff.mp (by omega)
    rw [if_pos (Int64.toInt_inj.mp (by rw [hsum, hzero]; omega))]
    obtain ⟨m, rfl⟩ : ∃ m, k = m + 1 := ⟨k - 1, by omega⟩
    have hempty : repeated (m + 1) ([] : List UInt8) [] = [] := by
      rw [← List.length_eq_zero_iff, repeated_length]
      simp [repSize]
    rw [hempty]
    exact (emptyStr_made hh₂).mono (fun _ _ hm => ⟨hm, fun _ => by simp [repSize]⟩) fun _ _ he => he
  rw [if_neg (fun heq => hunit (by rw [heq, hzero] at hsum; omega))]
  have hlimit := lt_repLimit_iff hxlen hplen (by omega) hk (by omega)
  by_cases hbig : 2^31 ≤ repSize k x sep
  · rw [if_pos (hlimit.mpr hbig)]
    exact meets_throw ⟨rfl, by omega, hbig⟩
  · rw [if_neg (fun hlt => hbig (hlimit.mp hlt))]
    have hk31 : k < 2^31 := by
      refine count_lt (by omega : 0 < x.length + sep.length) (by unfold repSize at hbig; omega) ?_
      rintro ⟨hx0, hs1, hk2⟩
      exact hnot ⟨List.length_eq_zero_iff.mp hx0, hs1, by omega⟩
    have hwrap : wrap n = k := by
      have hw := wrap_of_bounds (v := n) (by omega) (by omega)
      omega
    rw [hwrap]
    exact (repCopies_made hh₂ hr₁' hr₂ hplen (by omega) hk31 (by omega)).mono
      (fun _ _ hm => ⟨hm, fun _ => by omega⟩) fun _ _ he => he

/-- In the one case that is left out, the number of copies is negative and no copy is made. -/
theorem strRep_wrapped {p q : ℕ} (hh : Holds h vals) (hx : vals[s]? = some []) (hp : vals[p]? = some sep)
    (hsep : sep.length = 1) (hn : n.toInt = 2^31) (hq : q = 2^31 - 1) :
    Meets (strRep s n (some p)) h (Made vals (List.replicate q 0)) E := by
  obtain ⟨sb, h₁, hret₁, hh₁, -, hr₁, -⟩ := strBytes_spec hh hx
  obtain ⟨pb, h₂, hret₂, hh₂, hr₂, hpre⟩ := sepBytes_spec (p := some p) hh₁ (fun _ hq => by cases hq; exact hp)
    (fun hnone => by cases hnone)
  have hzero : (0 : Int64).toInt = 0 := rfl
  have hsum : (Int64.ofNat 0 + Int64.ofNat 1).toInt = 1 := rfl
  have hlimit := lt_repLimit_iff (x := []) (k := 2^31) (by decide) (by omega : sep.length < 2^31)
    (by rw [hsep]; decide) hn (by decide)
  have hfits : ¬2^31 ≤ repSize (2^31) [] sep := by
    unfold repSize
    rw [hsep]
    decide
  have hwrap : wrap n = 2^31 := by
    have hw := wrap_of_bounds (v := n) (by omega) (by omega)
    omega
  have htotal : repTotal (2^31) 0 1 = 2^31 - 1 := by decide
  unfold strRep
  apply hret₁.bind_meets
  apply hret₂.bind_meets
  apply (arrOf_returns (getElem?_of_initial hpre hr₁)).bind_meets
  apply (arrOf_returns hr₂).bind_meets
  rw [if_neg (fun hle => by have := Int64.le_iff_toInt_le.mp hle; omega), if_neg (fun heq => ?_),
    if_neg (fun hlt => hfits (hlimit.mp hlt)), hwrap, hsep]
  · have hself : (h₂.arrs ++ [List.replicate q (0 : UInt8)])[h₂.arrs.length]? = some (List.replicate q 0) := by
      simp
    unfold repCopies
    rw [List.length_nil, htotal, ← hq, if_pos (by omega)]
    apply (orTrap_returns rfl).bind_meets
    apply newArr_returns.bind_meets
    have hloop : Returns (repFrom h₂.arrs.length sb pb (2^31) 0 1 (2^31 + 1) 0 0)
        { h₂ with arrs := h₂.arrs ++ [List.replicate q 0] } () { h₂ with arrs := h₂.arrs ++ [List.replicate q 0] } := by
      unfold repFrom
      rw [if_pos (by decide)]
      rfl
    apply hloop.bind_meets
    exact (newStr_made 0 (hh₂.newArr _) hself (by rw [List.length_replicate]; omega) (hh₂.private_newArr _).buf
      (fun hne => absurd rfl hne)).mono (fun _ _ hm => hm.1) fun _ _ he => he
  · rw [List.length_nil, hsep] at heq
    rw [heq, hzero] at hsum
    omega

/-! ## The result -/

theorem CacheRun.holds {hist : List (StrOp × Except Fault StrResult)} (hrun : CacheRun host h hist) :
    ∃ vals, Holds h vals :=
  hrun.explained.imp fun _ hvals => hvals.1

/-- A call gives one string. -/
theorem Gives.unique {c : StrM ℕ} {y z : List UInt8} (hy : Gives c h y) (hz : Gives c h z) : y = z := by
  obtain ⟨t, h₁, hret, ht, -⟩ := hy
  obtain ⟨t', h₂, hret', ht', -⟩ := hz
  have hrun : (Except.ok t, h₁) = ((Except.ok t', h₂) : Except Fault ℕ × StrHeap) := hret.symm.trans hret'
  obtain ⟨ht₁, rfl⟩ := Prod.mk.inj hrun
  cases ht₁
  exact Option.some.inj (ht.symm.trans ht')

theorem byteExact (hh : Holds h vals) (hx : vals[s]? = some x) (k l : Option Int64) : ByteExact h s x k l where
  all := builtinStringByte_returns hh hx (hh.short hx)
  first := builtinStringByteF_returns hh hx (hh.short hx)
  noWrap := noWrap_of_len (hh.short hx)

theorem subExact (hh : Holds h vals) (hx : vals[s]? = some x) (i : Int64) (j : Option Int64) : SubExact h s x i j where
  gives := gives_of_meets hh (strSub_made hh hx (hh.short hx))
  noWrap := noWrap_of_len (hh.short hx)

/-- What is known of a separator. -/
theorem sep_of_sepOf {p : Option ℕ} (hh : Holds h vals) (hp : h.sepOf p = some sep) :
    (∀ q, p = some q → vals[q]? = some sep) ∧ (p = none → sep = []) ∧ sep.length < 2^31 := by
  cases p with
  | none =>
    obtain rfl : [] = sep := Option.some.inj hp
    exact ⟨fun q hq => (by cases hq), fun _ => rfl, by decide⟩
  | some p =>
    have hval := val_of_bytesOf hh hp
    refine ⟨?_, fun hnone => (by cases hnone), hh.short hval⟩
    intro q hq
    cases hq
    exact hval

theorem repExact {p : Option ℕ} (hh : Holds h vals) (hx : vals[s]? = some x) (hp : h.sepOf p = some sep)
    (hnot : ¬(x = [] ∧ sep.length = 1 ∧ n.toInt = 2^31)) : RepExact h s x n p sep := by
  obtain ⟨hsome, hnone, hplen⟩ := sep_of_sepOf hh hp
  have hspec := strRep_spec hh hx (hh.short hx) hsome hnone hplen hnot
  constructor
  · intro hneg
    apply gives_of_meets hh
    apply hspec.mono
    · rintro r h' ⟨hm, -⟩
      rw [if_pos hneg] at hm
      exact hm
    · rintro e h' ⟨-, hlt, -⟩
      omega
  · intro hpos hsize
    apply gives_of_meets hh
    apply hspec.mono
    · rintro r h' ⟨hm, -⟩
      rw [if_neg (by omega)] at hm
      exact hm
    · rintro e h' ⟨-, -, hlt⟩
      omega
  · intro hpos hsize
    have hraise : Meets (strRep s n p) h (fun _ _ => False) fun e _ => e = .raised "too large" :=
      hspec.mono (fun r h' hr => absurd (hr.2 hpos) (by omega)) fun e h' he => he.1
    unfold Meets at hraise
    generalize ((strRep s n p).run h : Except Fault ℕ × StrHeap) = r at hraise ⊢
    obtain ⟨e | a, h'⟩ := r
    · exact ⟨h', by rw [show e = .raised "too large" from hraise]⟩
    · exact hraise.elim
  · intro hpos hunit hsize
    have hcount : n.toInt.toNat < 2^31 := by
      refine count_lt hunit hsize ?_
      rintro ⟨hx0, hs1, hk⟩
      exact hnot ⟨List.length_eq_zero_iff.mp hx0, hs1, by omega⟩
    have hw : wrap n = n.toInt.toNat := by
      have hbounds := wrap_of_bounds (v := n) (by omega) (by omega)
      omega
    rw [hw]
    refine ⟨?_, repTotal_eq (by omega) hcount hsize⟩
    rw [s32_of_lt hcount]
    omega

/-- In every state of a program, `string.sub` and `string.byte` give exactly the bytes of the range, for all
positions, and `string.rep` gives exactly the repetition or raises an error because of its size, unless it is to
make `2^31` copies of the empty string with a separator of one byte. -/
theorem sub_byte_rep_exact (host : HostFmt) (h : StrHeap) (hist : List (StrOp × Except Fault StrResult))
    (hrun : CacheRun host h hist) (s : ℕ) (x : List UInt8) (hx : h.bytesOf s = some x) (i : Int64)
    (j k l : Option Int64) (n : Int64) (p : Option ℕ) (sep : List UInt8) (hp : h.sepOf p = some sep) :
    SubExact h s x i j ∧ ByteExact h s x k l ∧ RepExact h s x n p sep ↔
      ¬(x = [] ∧ sep.length = 1 ∧ n.toInt = 2^31) := by
  obtain ⟨vals, hh⟩ := hrun.holds
  have hval := val_of_bytesOf hh hx
  constructor
  · rintro ⟨-, -, hrep⟩ ⟨rfl, hsep, hn⟩
    -- the number of copies is not what it is after the truncation
    have hwrap : wrap n = 2^31 := by
      have hbounds := wrap_of_bounds (v := n) (by omega) (by omega)
      omega
    have hsize : repSize n.toInt.toNat [] sep < 2^31 := by
      unfold repSize
      rw [hn, hsep]
      decide
    have hs := (hrep.noWrap (by omega) (by rw [hsep]; decide) hsize).1
    rw [hwrap, hn] at hs
    exact absurd hs (by decide)
  · intro hnot
    exact ⟨subExact hh hval i j, byteExact hh hval k l, repExact hh hval hp hnot⟩

/-- A word, and a separator of two bytes. -/
def helloAndComma : List CacheOp := [.call (.make [104, 101, 108, 108, 111] false), .call (.make [44, 32] false)]

/-- Positions from the end, beyond 32 bits and past the end of `hello`, and three copies of it with separators. -/
theorem sub_byte_rep_exact_hello :
    SubExact (StrHeap.init.requests zeroHost helloAndComma).1 0 [104, 101, 108, 108, 111] (-3) (some 4294967300) ∧
      ByteExact (StrHeap.init.requests zeroHost helloAndComma).1 0 [104, 101, 108, 108, 111] (some 2) (some (-2)) ∧
      RepExact (StrHeap.init.requests zeroHost helloAndComma).1 0 [104, 101, 108, 108, 111] 3 (some 1) [44, 32] :=
  (sub_byte_rep_exact zeroHost _ _ (CacheRun.init.requests helloAndComma (by decide)) 0 [104, 101, 108, 108, 111]
    (by decide) (-3) (some 4294967300) (some 2) (some (-2)) 3 (some 1) [44, 32] (by decide)).mpr (by decide)

/-- The empty string, and a string of one byte. -/
def emptyAndX : List CacheOp := [.call (.make [] false), .call (.make [120] false)]

theorem emptyAndX_run :
    CacheRun zeroHost (StrHeap.init.requests zeroHost emptyAndX).1 (StrHeap.init.requests zeroHost emptyAndX).2 :=
  CacheRun.init.requests emptyAndX (by decide)

/-- `string.rep("", 2147483648, "x")` gives `2^31 - 1` zero bytes, where its size is below the limit. -/
theorem sub_byte_rep_exact_fails :
    ¬∀ (host : HostFmt) (h : StrHeap) (hist : List (StrOp × Except Fault StrResult)), CacheRun host h hist →
      ∀ (s : ℕ) (x : List UInt8), h.bytesOf s = some x → ∀ (i : Int64) (j k l : Option Int64) (n : Int64)
        (p : Option ℕ) (sep : List UInt8), h.sepOf p = some sep →
        SubExact h s x i j ∧ ByteExact h s x k l ∧ RepExact h s x n p sep := by
  intro hall
  obtain ⟨-, -, hrep⟩ := hall zeroHost _ _ emptyAndX_run 0 [] (by decide) 0 none none none 2147483648
    (some 1) [120] (by decide)
  obtain ⟨vals, hh⟩ := emptyAndX_run.holds
  have hx := val_of_bytesOf (s := 0) (x := []) hh (by decide)
  have hp := val_of_bytesOf (s := 1) (x := [120]) hh (by decide)
  obtain ⟨m, hm⟩ : ∃ m, m + 2 = 2^31 := ⟨2^31 - 2, rfl⟩
  have hn : (2147483648 : Int64).toInt = 2^31 := by decide
  have hzeros := gives_of_meets hh (strRep_wrapped (n := 2147483648) (q := m + 1) hh hx hp rfl hn (by omega))
  have hnat : (2147483648 : Int64).toInt.toNat = m + 2 := by omega
  have hfits := hrep.fits (by omega) (by rw [hnat, hm]; decide)
  rw [hnat, repeated_succ] at hfits
  have heq := hzeros.unique hfits
  rw [List.replicate_succ] at heq
  cases heq

end Lua2wasm.Strings
