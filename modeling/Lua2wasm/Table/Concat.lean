import Lua2wasm.Table.Copies
import Lua2wasm.Strings.Lazy
import Lua2wasm.Pack.Interp

/-!
# `table.concat`

The fast path of `table.concat` (`$tab_concat_arr` in `tablib.wat`) and the loop behind it. The fast path reads
strings and integers from the array part. It sums their lengths, and then writes each into an array of that
length; anything else makes it give up. The loop reads every element by its key and appends its text to a
builder.

Both give the same text (`concat_agree_iff`), as long as it has no more than `2^30` bytes. The builder doubles
its room, and `2^31` bytes are not a positive `i32`, so that the loop traps beyond (`Pack.builderAppend`). Before
it appends, it raises an error if the sum of the lengths is negative, as the fast path does from `2^31` bytes on:
both end alike if that happens first (`Overflows`).
-/

namespace Lua2wasm.Table

open Strings (HostFmt intLen intWrite intToBytes decimal intLen_spec intWrite_spec intToBytes_spec)
open Pack (builderAppend)

/-- "invalid value in table for 'concat'". -/
def invalidConcat : Fault := .raised "invalid value in table for 'concat'"

/-- "too large". -/
def tooLarge : Fault := .raised "too large"

/-! ## The loop -/

/-- `$lua_tostring` of a value that `$is_concatable` holds of. -/
def concatBytes (host : HostFmt) : Val → Except Fault (List UInt8)
  | .str _ x => .ok x
  | .int v => Pack.orTrap (intToBytes v)
  | .float f => .ok (host.bytes f)
  | _ => .error invalidConcat

/-- The loop of `$builtin_table_concat`, over `todo` elements from the key `k` on. -/
def concatFrom (host : HostFmt) (s : TabState) (sep : List UInt8) :
    ℕ → ℤ → List UInt8 → Except Fault (List UInt8)
  | 0, _, bld => .ok bld
  | todo + 1, k, bld => do
    let elem ← Pack.orTrap (tabGetRaw s (refI31 k))
    let eb ← concatBytes host elem
    if sum32 (bld.length + sum32 (sep.length + eb.length)) < 0 then .error tooLarge
    else do
      let bld ← builderAppend bld sep
      let bld ← builderAppend bld eb
      concatFrom host s sep todo (k + 1) bld

/-- The general path of `$builtin_table_concat`, for `i ≤ j`. -/
def concatLoop (host : HostFmt) (s : TabState) (sep : List UInt8) (i j : ℤ) : Except Fault (List UInt8) := do
  let acc ← Pack.orTrap (tabGetRaw s (refI31 i))
  let eb ← concatBytes host acc
  let bld ← builderAppend [] eb
  concatFrom host s sep (j - i).toNat (i + 1) bld

/-! ## The fast path -/

/-- The length of a string or an integer, as text. -/
def pieceLen : Slot → Option ℕ
  | .val (.str _ x) => some x.length
  | .val (.int v) => some (intLen v)
  | _ => none

/-- The first loop of `$tab_concat_arr`. There is no sum if an element is neither a string nor an integer. -/
def concatSize (arr : List Slot) : ℕ → ℕ → ℕ → Except Fault (Option ℕ)
  | 0, _, total => .ok (some total)
  | todo + 1, k, total => do
    let v ← Pack.orTrap arr[k]?
    match pieceLen v with
    | none => .ok none
    | some n => concatSize arr todo (k + 1) (total + n)

/-- Copy bytes to the result. -/
def putBytes (out : List UInt8) (pos : ℕ) (x : List UInt8) : Option (List UInt8 × ℕ) := do
  let out ← arrayCopy out pos x 0 x.length
  pure (out, pos + x.length)

/-- `$concat_piece` and `$concat_put`. -/
def concatPut (out : List UInt8) (pos : ℕ) : Slot → Option (List UInt8 × ℕ)
  | .val (.str _ x) => putBytes out pos x
  | .val (.int v) => do
    let out ← intWrite out (pos + intLen v) v
    pure (out, pos + intLen v)
  | _ => none

/-- The separator, which stands before every element but the first. -/
def putSep (sep : List UInt8) (i k : ℕ) (out : List UInt8) (pos : ℕ) : Option (List UInt8 × ℕ) :=
  if i ≤ k ∧ sep.length ≠ 0 then putBytes out pos sep else some (out, pos)

/-- The second loop of `$tab_concat_arr`. -/
def concatWrite (arr : List Slot) (sep : List UInt8) (i : ℕ) :
    ℕ → ℕ → List UInt8 → ℕ → Option (List UInt8)
  | 0, _, out, _ => some out
  | todo + 1, k, out, pos => do
    let (out, pos) ← putSep sep i k out pos
    let v ← arr[k]?
    let (out, pos) ← concatPut out pos v
    concatWrite arr sep i todo (k + 1) out pos

/-- `$tab_concat_arr`, for `i ≤ j`. No text means that the general path decides. -/
def tabConcatArr (t : LuaTable) (sep : List UInt8) (i j : ℤ) : Except Fault (Option (List UInt8)) :=
  if i < 1 ∨ t.alen < j then .ok none
  else do
    let arr ← Pack.orTrap t.arr
    match ← concatSize arr (j - (i - 1)).toNat (i - 1).toNat ((j - i).toNat * sep.length) with
    | none => .ok none
    | some total =>
      if 2147483647 < total then .error tooLarge
      else do
        let out ← Pack.orTrap (concatWrite arr sep i.toNat (j - (i - 1)).toNat (i - 1).toNat
          (List.replicate total 0) 0)
        pure (some out)

variable {host : HostFmt} {s : TabState} {sep out x y bld : List UInt8} {arr : List Slot} {w : Slot}
  {i j k n pos todo total : ℕ}

/-! ## The text -/

/-- The text of a string or an integer. -/
def pieceText : Slot → List UInt8
  | .val (.str _ x) => x
  | .val (.int v) => decimal v.toInt
  | _ => []

/-- The text of `todo` elements from the index `k` on, with the separator before each. -/
def textFrom (arr : List Slot) (sep : List UInt8) : ℕ → ℕ → List UInt8
  | 0, _ => []
  | todo + 1, k => sep ++ (pieceText (arr.getD k (.val .nil)) ++ textFrom arr sep todo (k + 1))

theorem textFrom_succ (todo k : ℕ) : textFrom arr sep (todo + 1) k =
    sep ++ (pieceText (arr.getD k (.val .nil)) ++ textFrom arr sep todo (k + 1)) := rfl

theorem pieceLen_eq (h : pieceLen w = some n) : n = (pieceText w).length := by
  unfold pieceLen at h
  split at h
  · exact (Option.some.inj h).symm
  · rw [intLen_spec] at h
    exact (Option.some.inj h).symm
  · cases h

/-- The bytes `x` at `pos`. -/
def splice (out : List UInt8) (pos : ℕ) (x : List UInt8) : List UInt8 :=
  out.take pos ++ x ++ out.drop (pos + x.length)

theorem length_splice (h : pos + x.length ≤ out.length) : (splice out pos x).length = out.length := by
  unfold splice
  rw [List.length_append, List.length_append, List.length_take, List.length_drop]
  omega

/-- One piece after the other. -/
theorem splice_splice (h : pos + x.length ≤ out.length) :
    splice (splice out pos x) (pos + x.length) y = splice out pos (x ++ y) := by
  have htake : (out.take pos ++ x).length = pos + x.length := by
    rw [List.length_append, List.length_take]
    omega
  unfold splice
  rw [List.take_append_of_le_length (by omega), List.take_of_length_le (by omega), List.drop_append, htake,
    List.drop_of_length_le (by omega), List.drop_drop, List.length_append]
  simp only [List.append_assoc, List.nil_append]
  congr 4
  omega

theorem splice_nil : splice out pos [] = out := by
  unfold splice
  rw [List.append_nil, List.length_nil, Nat.add_zero, List.take_append_drop]

theorem putBytes_spec (h : pos + x.length ≤ out.length) :
    putBytes out pos x = some (splice out pos x, pos + x.length) := by
  unfold putBytes arrayCopy
  rw [if_pos ⟨h, by omega⟩]
  simp only [List.drop_zero, List.take_length, Option.bind_eq_bind, Option.bind_some]
  rfl

theorem concatPut_spec (hw : pieceLen w = some n) (h : pos + (pieceText w).length ≤ out.length) :
    concatPut out pos w = some (splice out pos (pieceText w), pos + (pieceText w).length) := by
  unfold pieceLen at hw
  split at hw
  · exact putBytes_spec h
  · rename_i v
    change pos + (decimal v.toInt).length ≤ out.length at h
    unfold concatPut
    dsimp only
    rw [intLen_spec, intWrite_spec out (pos + (decimal v.toInt).length) v (by omega) h, Nat.add_sub_cancel]
    rfl
  · cases hw

/-- The elements are strings and integers. -/
def Pieces (arr : List Slot) (k todo : ℕ) : Prop :=
  ∀ i, k ≤ i → i < k + todo → i < arr.length ∧ pieceLen (arr.getD i (.val .nil)) ≠ none

theorem Pieces.tail (h : Pieces arr k (todo + 1)) : Pieces arr (k + 1) todo :=
  fun i hi hlt => h i (by omega) (by omega)

/-! ## The two loops of the fast path -/

variable (arr) in
/-- The first loop does not trap. -/
theorem concatSize_ok : ∀ (todo k total : ℕ), k + todo ≤ arr.length →
    ∃ o, concatSize arr todo k total = .ok o := by
  intro todo
  induction todo with
  | zero => exact fun _ total _ => ⟨some total, rfl⟩
  | succ todo ih =>
    intro k total hlen
    unfold concatSize
    rw [getElem?_of_lt (w := Slot.val .nil) (by omega)]
    change ∃ o, (match pieceLen (arr.getD k (.val .nil)) with
      | none => Except.ok none
      | some n => concatSize arr todo (k + 1) (total + n)) = .ok o
    cases pieceLen (arr.getD k (.val .nil)) with
    | none => exact ⟨none, rfl⟩
    | some n => exact ih (k + 1) (total + n) (by omega)

variable (sep) in
/-- It sums up the lengths of the pieces. -/
theorem concatSize_spec : ∀ (todo k total : ℕ), concatSize arr todo k total = .ok (some n) →
    Pieces arr k todo ∧ n + todo * sep.length = total + (textFrom arr sep todo k).length := by
  intro todo
  induction todo with
  | zero =>
    intro k total h
    obtain rfl : total = n := Option.some.inj (Except.ok.inj h)
    refine ⟨fun i hi hlt => absurd hlt (by omega), ?_⟩
    rw [Nat.zero_mul]
    rfl
  | succ todo ih =>
    intro k total h
    unfold concatSize at h
    by_cases hlt : k < arr.length
    · rw [getElem?_of_lt (w := Slot.val .nil) hlt] at h
      change (match pieceLen (arr.getD k (.val .nil)) with
        | none => Except.ok none
        | some n => concatSize arr todo (k + 1) (total + n)) = .ok (some n) at h
      cases hm : pieceLen (arr.getD k (.val .nil)) with
      | none =>
        rw [hm] at h
        cases h
      | some m =>
        rw [hm] at h
        obtain ⟨hpieces, hsum⟩ := ih (k + 1) (total + m) h
        constructor
        · intro i hi hlt'
          by_cases hik : i = k
          · rw [hik, hm]
            exact ⟨hlt, Option.some_ne_none m⟩
          · exact hpieces i (by omega) (by omega)
        · have hlen := pieceLen_eq hm
          rw [Nat.succ_mul]
          unfold textFrom
          rw [List.length_append, List.length_append]
          omega
    · rw [List.getElem?_eq_none (by omega)] at h
      cases h

theorem putSep_spec (hi : i ≤ k) (h : pos + sep.length ≤ out.length) :
    putSep sep i k out pos = some (splice out pos sep, pos + sep.length) := by
  unfold putSep
  by_cases hsep : sep.length = 0
  · obtain rfl := List.length_eq_zero_iff.mp hsep
    rw [if_neg (by simp), splice_nil]
    rfl
  · rw [if_pos ⟨hi, hsep⟩, putBytes_spec h]

theorem concatWrite_spec : ∀ (todo k pos : ℕ) (out : List UInt8), i ≤ k → Pieces arr k todo →
    pos + (textFrom arr sep todo k).length ≤ out.length →
    concatWrite arr sep i todo k out pos = some (splice out pos (textFrom arr sep todo k)) := by
  intro todo
  induction todo with
  | zero =>
    intro k pos out _ _ _
    exact congrArg some splice_nil.symm
  | succ todo ih =>
    intro k pos out hik hpieces hroom
    obtain ⟨hlt, hpiece⟩ := hpieces k (Nat.le_refl k) (by omega)
    obtain ⟨m, hm⟩ := Option.ne_none_iff_exists'.mp hpiece
    unfold textFrom at hroom ⊢
    rw [List.length_append, List.length_append] at hroom
    unfold concatWrite
    rw [putSep_spec hik (by omega), getElem?_of_lt (w := Slot.val .nil) hlt]
    simp only [Option.bind_eq_bind, Option.bind_some]
    have hsep : (splice out pos sep).length = out.length := length_splice (by omega)
    rw [concatPut_spec hm (by rw [hsep]; omega), splice_splice (by omega)]
    simp only [Option.bind_some]
    have hlen : (splice out pos (sep ++ pieceText (arr.getD k (.val .nil)))).length = out.length :=
      length_splice (by rw [List.length_append]; omega)
    rw [ih (k + 1) _ _ (by omega) hpieces.tail (by rw [hlen]; omega), Nat.add_assoc, ← List.length_append,
      splice_splice (by rw [List.length_append]; omega), List.append_assoc]

/-! ## The fast path and the loop -/

/-- The text of `m + 1` elements from the index `p` on. -/
def concatText (arr : List Slot) (sep : List UInt8) (p m : ℕ) : List UInt8 :=
  pieceText (arr.getD p (.val .nil)) ++ textFrom arr sep m (p + 1)

variable {p m : ℕ}

/-- The second loop writes it, to an array of its length. -/
theorem concatText_written (hpieces : Pieces arr p (m + 1)) :
    concatWrite arr sep (p + 1) (m + 1) p (List.replicate (concatText arr sep p m).length 0) 0 =
      some (concatText arr sep p m) := by
  obtain ⟨hlt, hpiece⟩ := hpieces p (Nat.le_refl p) (by omega)
  obtain ⟨n, hn⟩ := Option.ne_none_iff_exists'.mp hpiece
  generalize hout : List.replicate (concatText arr sep p m).length (0 : UInt8) = out
  have hlen : out.length = (concatText arr sep p m).length := by
    rw [← hout, List.length_replicate]
  unfold concatText at hlen
  rw [List.length_append] at hlen
  unfold concatWrite putSep
  rw [if_neg (by omega), getElem?_of_lt (w := Slot.val .nil) hlt]
  simp only [Option.bind_eq_bind, Option.bind_some]
  rw [concatPut_spec hn (by omega)]
  simp only [Option.bind_some]
  have hlen' : (splice out 0 (pieceText (arr.getD p (.val .nil)))).length = out.length :=
    length_splice (by omega)
  rw [concatWrite_spec m (p + 1) _ _ (Nat.le_refl _) hpieces.tail (by rw [hlen']; omega),
    splice_splice (by omega)]
  change some (splice out 0 (concatText arr sep p m)) = _
  unfold splice
  rw [List.take_zero, List.nil_append, Nat.zero_add, List.drop_of_length_le, List.append_nil]
  rw [← hout, List.length_replicate]

variable (sep) in
/-- The fast path gives up, or it gives the text. -/
theorem tabConcatArr_spec (hok : TabOk s none) (hj : p + m < s.t.alen) :
    tabConcatArr s.t sep ((p : ℤ) + 1) ((p : ℤ) + m + 1) = .ok none ∨
      ∃ arr, s.t.arr = some arr ∧ Pieces arr p (m + 1) ∧
        tabConcatArr s.t sep ((p : ℤ) + 1) ((p : ℤ) + m + 1) =
          if 2147483647 < (concatText arr sep p m).length then .error tooLarge
          else .ok (some (concatText arr sep p m)) := by
  have hroom := hok.arr.room
  obtain ⟨arr, harr, -⟩ := getElem?_arr (s := s) (i := 0) (by omega)
  rw [harr, lengthOf_some] at hroom
  unfold tabConcatArr
  rw [if_neg (by omega), harr, show ((p : ℤ) + m + 1 - (p + 1 - 1)).toNat = m + 1 by omega,
    show ((p : ℤ) + 1 - 1).toNat = p by omega, show ((p : ℤ) + m + 1 - (p + 1)).toNat = m by omega,
    show ((p : ℤ) + 1).toNat = p + 1 by omega]
  obtain ⟨o, hsize⟩ := concatSize_ok arr (m + 1) p (m * sep.length) (by omega)
  cases o with
  | none =>
    left
    change (concatSize arr (m + 1) p (m * sep.length) >>= _) = _
    rw [hsize]
    rfl
  | some total =>
    right
    obtain ⟨hpieces, hsum⟩ := concatSize_spec sep (m + 1) p (m * sep.length) hsize
    have htotal : total = (concatText arr sep p m).length := by
      unfold textFrom at hsum
      unfold concatText
      rw [List.length_append]
      rw [Nat.succ_mul, List.length_append, List.length_append] at hsum
      omega
    refine ⟨arr, rfl, hpieces, ?_⟩
    change (concatSize arr (m + 1) p (m * sep.length) >>= _) = _
    rw [hsize, htotal]
    change (if 2147483647 < (concatText arr sep p m).length then Except.error tooLarge else _) = _
    by_cases hbig : 2147483647 < (concatText arr sep p m).length
    · rw [if_pos hbig, if_pos hbig]
    · rw [if_neg hbig, if_neg hbig]
      rw [concatText_written hpieces]
      rfl

/-! ## The loop -/

/-- The first piece for which the builder is too small makes the sum of the lengths negative, as an `i32`. The
loop checks that sum before it appends: `todo` elements from the index `k` on follow `len` bytes. -/
def Overflows (arr : List Slot) (sep : List UInt8) : ℕ → ℕ → ℕ → Prop
  | 0, _, _ => False
  | todo + 1, k, len =>
    let n := (pieceText (arr.getD k (.val .nil))).length
    if len + sep.length + n ≤ 2^30 then Overflows arr sep todo (k + 1) (len + sep.length + n)
    else sum32 (len + sum32 (sep.length + n)) < 0

/-- The text of the loop, or how it ends if there is too much of it: the sum of the lengths may overflow early. -/
def Joined (r : Except Fault (List UInt8)) (text : List UInt8) (early : Prop) : Prop :=
  if text.length ≤ 2^30 then r = .ok text
  else early ∧ r = .error tooLarge ∨ ¬ early ∧ r = .error .stuck

theorem sum32_of_lt {n : ℤ} (h0 : 0 ≤ n) (h : n < 2^31) : sum32 n = n := by
  unfold sum32
  exact Int.bmod_eq_of_le (by omega) (by omega)

variable (host) in
/-- A string or an integer as the loop reads it. -/
theorem concatBytes_arrValue (hpiece : pieceLen (s.t.arrSlot k) ≠ none) :
    concatBytes host (s.t.arrValue k) = .ok (pieceText (s.t.arrSlot k)) := by
  unfold LuaTable.arrValue
  unfold pieceLen at hpiece
  split at hpiece
  · rename_i hslot
    rw [hslot]
    rfl
  · rename_i v hslot
    rw [hslot]
    change Pack.orTrap (intToBytes v) = _
    rw [intToBytes_spec]
    rfl
  · exact absurd rfl hpiece

variable (host sep) in
/-- The loop appends the text, if the builder can hold it. -/
theorem concatFrom_spec (hok : TabOk s none) (harr : s.t.arr = some arr) :
    ∀ (todo k : ℕ) (bld : List UInt8), Pieces arr k todo → k + todo ≤ s.t.alen → k + todo < 2^30 →
      bld.length ≤ 2^30 →
      Joined (concatFrom host s sep todo ((k : ℤ) + 1) bld) (bld ++ textFrom arr sep todo k)
        (Overflows arr sep todo k bld.length) := by
  intro todo
  induction todo with
  | zero =>
    intro k bld _ _ _ hbld
    unfold Joined textFrom
    rw [List.append_nil, if_pos hbld]
    rfl
  | succ todo ih =>
    intro k bld hpieces halen hfit hbld
    have hslot : s.t.arrSlot k = arr.getD k (.val .nil) := by
      unfold LuaTable.arrSlot
      rw [harr, Option.getD_some]
    have hpiece := (hpieces k (Nat.le_refl k) (by omega)).2
    rw [← hslot] at hpiece
    have hbytes := concatBytes_arrValue host hpiece
    rw [hslot] at hbytes
    unfold concatFrom Overflows
    rw [tabGetRaw_arr hok (by omega) (by omega)]
    change Joined (concatBytes host (s.t.arrValue k) >>= _) _ _
    rw [hbytes, Pack.ok_bind]
    generalize hx : pieceText (arr.getD k (.val .nil)) = x
    have hlen : (bld ++ textFrom arr sep (todo + 1) k).length =
        bld.length + sep.length + x.length + (textFrom arr sep todo (k + 1)).length := by
      rw [textFrom_succ, hx]
      simp only [List.length_append]
      omega
    by_cases hfits : bld.length + sep.length + x.length ≤ 2^30
    · -- the builder holds the piece, and the sum does not overflow
      have hsum : ¬ sum32 (bld.length + sum32 (sep.length + x.length)) < 0 := by
        rw [sum32_of_lt (n := sep.length + x.length) (by omega) (by omega), sum32_of_lt (by omega) (by omega)]
        omega
      rw [if_neg hsum, if_pos hfits]
      unfold builderAppend
      rw [if_pos (by omega), Pack.ok_bind, List.length_append, if_pos hfits, Pack.ok_bind]
      have hrest := ih (k + 1) (bld ++ sep ++ x) hpieces.tail (by omega) (by omega)
        (by simp only [List.length_append]; omega)
      have htext : bld ++ textFrom arr sep (todo + 1) k = bld ++ sep ++ x ++ textFrom arr sep todo (k + 1) := by
        rw [textFrom_succ, hx]
        simp only [List.append_assoc]
      rw [List.length_append, List.length_append] at hrest
      rw [htext]
      exact hrest
    · rw [if_neg hfits]
      unfold Joined
      rw [if_neg (by omega)]
      -- the sum wraps and raises, or the builder refuses
      by_cases hneg : sum32 (bld.length + sum32 (sep.length + x.length)) < 0
      · rw [if_pos hneg]
        exact Or.inl ⟨hneg, rfl⟩
      · rw [if_neg hneg]
        refine Or.inr ⟨hneg, ?_⟩
        unfold builderAppend
        by_cases hsep : bld.length + sep.length ≤ 2^30
        · rw [if_pos hsep, Pack.ok_bind, List.length_append, if_neg hfits]
          rfl
        · rw [if_neg hsep]
          rfl

/-- The sum overflows only if there is too much text for the fast path as well. -/
theorem Overflows.large : ∀ {todo k len : ℕ}, Overflows arr sep todo k len → len ≤ 2^30 →
    2^31 ≤ len + (textFrom arr sep todo k).length := by
  intro todo
  induction todo with
  | zero => exact fun h => h.elim
  | succ todo ih =>
    intro k len h hlen
    unfold Overflows at h
    dsimp only at h
    rw [textFrom_succ, List.length_append, List.length_append]
    split at h
    · rename_i hfits
      have hrest := ih h hfits
      omega
    · by_contra hlt
      rw [sum32_of_lt (n := sep.length + (pieceText (arr.getD k (.val .nil))).length) (by omega) (by omega),
        sum32_of_lt (by omega) (by omega)] at h
      omega

/-- The same for the text of `m + 1` elements from the index `p` on. The first of them is appended unchecked. -/
def TextOverflows (arr : List Slot) (sep : List UInt8) (p m : ℕ) : Prop :=
  (pieceText (arr.getD p (.val .nil))).length ≤ 2^30 ∧
    Overflows arr sep m (p + 1) (pieceText (arr.getD p (.val .nil))).length

theorem TextOverflows.large (h : TextOverflows arr sep p m) : 2^31 ≤ (concatText arr sep p m).length := by
  unfold concatText
  rw [List.length_append]
  exact h.2.large h.1

variable (host sep) in
/-- The loop joins the pieces. -/
theorem concatLoop_spec (hok : TabOk s none) (harr : s.t.arr = some arr) (hpieces : Pieces arr p (m + 1))
    (halen : p + m < s.t.alen) (hfit : p + m + 1 < 2^30) :
    Joined (concatLoop host s sep ((p : ℤ) + 1) ((p : ℤ) + m + 1)) (concatText arr sep p m)
      (TextOverflows arr sep p m) := by
  have hslot : s.t.arrSlot p = arr.getD p (.val .nil) := by
    unfold LuaTable.arrSlot
    rw [harr, Option.getD_some]
  have hpiece := (hpieces p (Nat.le_refl p) (by omega)).2
  rw [← hslot] at hpiece
  have hbytes := concatBytes_arrValue host hpiece
  rw [hslot] at hbytes
  unfold concatLoop concatText TextOverflows
  rw [tabGetRaw_arr hok (by omega) (by omega)]
  change Joined (concatBytes host (s.t.arrValue p) >>= _) _ _
  rw [hbytes, show ((p : ℤ) + m + 1 - (p + 1)).toNat = m by omega]
  generalize pieceText (arr.getD p (.val .nil)) = x
  change Joined (builderAppend [] x >>= _) _ _
  unfold builderAppend
  rw [List.length_nil, Nat.zero_add]
  by_cases hx : x.length ≤ 2^30
  · rw [if_pos hx, List.nil_append, and_iff_right hx]
    have hrest := concatFrom_spec host sep hok harr m (p + 1) x hpieces.tail (by omega)
      (by omega) hx
    exact hrest
  · rw [if_neg hx]
    unfold Joined
    rw [List.length_append, if_neg (by omega)]
    exact Or.inr ⟨fun h => hx h.1, rfl⟩

/-- When the fast path is taken, the loop has the same result if and only if the builder can hold the text, or
the sum of the lengths overflows before it is too small. -/
theorem concat_agree_iff (hok : TabOk s none) (hj : p + m < s.t.alen) (hfit : p + m + 1 < 2^30)
    (harr : s.t.arr = some arr) (hfast : tabConcatArr s.t sep ((p : ℤ) + 1) ((p : ℤ) + m + 1) ≠ .ok none) :
    tabConcatArr s.t sep ((p : ℤ) + 1) ((p : ℤ) + m + 1) =
        (concatLoop host s sep ((p : ℤ) + 1) ((p : ℤ) + m + 1)).map some ↔
      (concatText arr sep p m).length ≤ 2^30 ∨ TextOverflows arr sep p m := by
  obtain hnone | ⟨arr', harr', hpieces, hres⟩ := tabConcatArr_spec sep hok hj
  · exact absurd hnone hfast
  obtain rfl : arr = arr' := Option.some.inj (harr.symm.trans harr')
  have hjoin := concatLoop_spec host sep hok harr hpieces hj hfit
  rw [hres]
  unfold Joined at hjoin
  split at hjoin
  · rename_i hle
    rw [if_neg (by omega), hjoin]
    exact iff_of_true rfl (Or.inl hle)
  · rename_i hgt
    rw [or_iff_right hgt]
    obtain ⟨hover, hraised⟩ | ⟨hover, hstuck⟩ := hjoin
    · have hlarge := hover.large
      rw [if_pos (by omega), hraised]
      exact iff_of_true rfl hover
    · rw [hstuck]
      refine iff_of_false (fun h => ?_) hover
      split at h
      · cases h
      · cases h

end Lua2wasm.Table
