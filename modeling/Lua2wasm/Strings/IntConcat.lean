import Lua2wasm.Strings.History
import Lua2wasm.Table.Concat

/-!
# Concatenation of integers

`$concat_piece` gives the length of an integer's digits (`$int_len`), and `$concat_put` writes them into the
result later (`$int_write`). For integers alone the array of `$lua_concat`, `$lua_concat3` and `$lua_concat4`
is the texts one after the other (`luaConcat_ints` and its like): at most 84 bytes, so none of these is lazy.
`concatChain` is what `emit_concat_parts` makes of a longer chain.
-/

namespace Lua2wasm.Strings

open Raising
open Table (Fault Slot)

variable {host : HostFmt} {h : StrHeap} {vals : List (List UInt8)} {x : List UInt8} {v w y z : Int64} {n : ℕ}

/-- The texts of integers, one after the other. -/
def decimals (vs : List Int64) : List UInt8 := (vs.map fun v => decimal v.toInt).flatten

/-- `emit_concat_parts`: up to four operands at once, a longer chain as its first three and the rest. -/
def concatChain (host : HostFmt) : List Operand → StrM ℕ
  | [a, b] => luaConcat host a b
  | [a, b, c] => luaConcat3 host a b c
  | [a, b, c, d] => luaConcat4 host a b c d
  | a :: b :: c :: rest => do
    let r ← concatChain host rest
    luaConcat4 host a b c (.str r)
  | _ => throw .stuck

/-- Run a concatenation and read the bytes of its result. -/
def readOf (m : StrM ℕ) : StrM (List UInt8) := do
  let s ← m
  let r ← strBytes s
  arrOf r

/-! ## One integer -/

/-- `$int_write` fills the bytes that `$int_len` counts, and leaves the others alone. -/
theorem intWrite_between (before gap after : List UInt8) (hgap : gap.length = intLen v) :
    intWrite (before ++ gap ++ after) (before.length + intLen v) v =
      some (before ++ decimal v.toInt ++ after) := by
  have hlen := intLen_spec v
  have hstop : (before ++ gap).length = before.length + intLen v := by
    rw [List.length_append, hgap]
  have htake : (before ++ gap ++ after).take before.length = before := by
    rw [List.append_assoc, List.take_left']
    rfl
  rw [intWrite_spec _ _ v (by omega) (by rw [List.length_append]; omega), ← hlen, Nat.add_sub_cancel, htake,
    List.drop_left' hstop]

theorem concatPiece_int : Returns (concatPiece host (.int v)) h (none, intLen v) h := rfl

/-- A heap with one more array. -/
def StrHeap.withArr (h : StrHeap) (a : List UInt8) : StrHeap := { h with arrs := h.arrs ++ [a] }

theorem decimals_concat (vs : List Int64) (v : Int64) : decimals (vs ++ [v]) = decimals vs ++ decimal v.toInt := by
  unfold decimals
  rw [List.map_append, List.flatten_append]
  simp

/-- After some integers the next one goes into the new array. -/
theorem concatPut_int (vs : List Int64) (v : Int64) (n : ℕ) :
    Returns (concatPut h.arrs.length (decimals vs).length (.int v) none (intLen v))
      (h.withArr (decimals vs ++ List.replicate (intLen v + n) 0)) (decimals (vs ++ [v])).length
      (h.withArr (decimals (vs ++ [v]) ++ List.replicate n 0)) := by
  have hget : (h.withArr (decimals vs ++ List.replicate (intLen v + n) 0)).arrs[h.arrs.length]? =
      some (decimals vs ++ List.replicate (intLen v + n) 0) := by
    unfold StrHeap.withArr
    simp
  have hwrite : intWrite (decimals vs ++ List.replicate (intLen v + n) 0) ((decimals vs).length + intLen v) v =
      some (decimals vs ++ decimal v.toInt ++ List.replicate n 0) := by
    rw [List.replicate_add, ← List.append_assoc]
    exact intWrite_between (decimals vs) _ _ List.length_replicate
  have hset : ({ h.withArr (decimals vs ++ List.replicate (intLen v + n) 0) with
      arrs := (h.withArr (decimals vs ++ List.replicate (intLen v + n) 0)).arrs.set h.arrs.length
        (decimals vs ++ decimal v.toInt ++ List.replicate n 0) } : StrHeap) =
      h.withArr (decimals vs ++ decimal v.toInt ++ List.replicate n 0) := by
    unfold StrHeap.withArr
    simp
  rw [decimals_concat, List.length_append, ← intLen_spec]
  unfold concatPut
  apply (arrOf_returns hget).bind
  apply (orTrap_returns hwrite).bind
  apply setArr_returns.bind
  rw [hset]
  rfl

theorem intLen_le (v : Int64) : intLen v ≤ 21 := by
  rw [intLen_spec]
  exact length_decimal_le v

/-! ## Two, three and four integers -/

theorem luaConcat_ints (host : HostFmt) (h : StrHeap) (v w : Int64) :
    ((luaConcat host (.int v) (.int w)).run h : Except Fault ℕ × StrHeap) =
      (strOfBytes h.arrs.length 0).run (h.withArr (decimals [v, w])) := by
  have hv := intLen_le v
  have hw := intLen_le w
  have hput₁ : Returns (concatPut h.arrs.length 0 (.int v) none (intLen v))
      (h.withArr (List.replicate (intLen v + intLen w) 0)) _ _ := concatPut_int [] v (intLen w)
  have hput₂ : Returns _ _ _ (h.withArr (decimals [v, w] ++ [])) := concatPut_int [v] w 0
  rw [List.append_nil] at hput₂
  unfold luaConcat
  simp only [concatPiece_int.run_bind]
  rw [Nat.mod_eq_of_lt (by omega), if_neg (by omega), newArr_returns.run_bind]
  exact (hput₁.run_bind _).trans (hput₂.run_bind _)

theorem luaConcat3_ints (host : HostFmt) (h : StrHeap) (v w y : Int64) :
    ((luaConcat3 host (.int v) (.int w) (.int y)).run h : Except Fault ℕ × StrHeap) =
      (strOfBytes h.arrs.length 0).run (h.withArr (decimals [v, w, y])) := by
  have hv := intLen_le v
  have hw := intLen_le w
  have hy := intLen_le y
  have hput₁ : Returns (concatPut h.arrs.length 0 (.int v) none (intLen v))
      (h.withArr (List.replicate (intLen v + (intLen w + intLen y)) 0)) _ _ :=
    concatPut_int [] v (intLen w + intLen y)
  have hput₂ := concatPut_int (h := h) [v] w (intLen y)
  have hput₃ : Returns _ _ _ (h.withArr (decimals [v, w, y] ++ [])) := concatPut_int [v, w] y 0
  rw [List.append_nil] at hput₃
  unfold luaConcat3
  simp only [concatPiece_int.run_bind]
  rw [if_neg (by omega), newArr_returns.run_bind]
  exact (hput₁.run_bind _).trans ((hput₂.run_bind _).trans (hput₃.run_bind _))

theorem luaConcat4_ints (host : HostFmt) (h : StrHeap) (v w y z : Int64) :
    ((luaConcat4 host (.int v) (.int w) (.int y) (.int z)).run h : Except Fault ℕ × StrHeap) =
      (strOfBytes h.arrs.length 0).run (h.withArr (decimals [v, w, y, z])) := by
  have hv := intLen_le v
  have hw := intLen_le w
  have hy := intLen_le y
  have hz := intLen_le z
  have hput₁ : Returns (concatPut h.arrs.length 0 (.int v) none (intLen v))
      (h.withArr (List.replicate (intLen v + (intLen w + (intLen y + intLen z))) 0)) _ _ :=
    concatPut_int [] v (intLen w + (intLen y + intLen z))
  have hput₂ := concatPut_int (h := h) [v] w (intLen y + intLen z)
  have hput₃ := concatPut_int (h := h) [v, w] y (intLen z)
  have hput₄ : Returns _ _ _ (h.withArr (decimals [v, w, y, z] ++ [])) := concatPut_int [v, w, y] z 0
  rw [List.append_nil] at hput₄
  unfold luaConcat4
  simp only [concatPiece_int.run_bind]
  rw [if_neg (by omega), newArr_returns.run_bind, Nat.add_assoc]
  exact (hput₁.run_bind _).trans ((hput₂.run_bind _).trans ((hput₃.run_bind _).trans (hput₄.run_bind _)))

/-! ## Longer chains -/

/-- A chain makes the bytes of its operands. -/
theorem concatChain_spec (host : HostFmt) (vs : List Operand) :
    ∀ (h : StrHeap) (vals xs : List (List UInt8)), 2 ≤ vs.length → Holds h vals →
      List.Forall₂ (fun v x => v.text host vals = some x) vs xs →
        Meets (concatChain host vs) h (Made vals xs.flatten) (TooLarge vals xs.flatten) := by
  induction vs using concatChain.induct with
  | case1 a b =>
    intro h vals xs _ hh htext
    obtain _ | ⟨ha, _ | ⟨hb, _ | _⟩⟩ := htext
    have hspec := luaConcat_spec hh ha hb
    rw [concatChain]
    simpa using hspec
  | case2 a b c =>
    intro h vals xs _ hh htext
    obtain _ | ⟨ha, _ | ⟨hb, _ | ⟨hc, _ | _⟩⟩⟩ := htext
    have hspec := luaConcat3_spec hh ha hb hc
    rw [concatChain]
    simpa using hspec
  | case3 a b c d =>
    intro h vals xs _ hh htext
    obtain _ | ⟨ha, _ | ⟨hb, _ | ⟨hc, _ | ⟨hd, _ | _⟩⟩⟩⟩ := htext
    have hspec := luaConcat4_spec hh ha hb hc hd
    rw [concatChain]
    simpa using hspec
  | case4 a b c rest hnone hone ih =>
    intro h vals xs hlen hh htext
    -- a rest of one operand is a chain of four, so that this one has two or more
    have hrest : 2 ≤ rest.length := by
      obtain _ | ⟨d, _ | ⟨e, rest⟩⟩ := rest
      · exact absurd rfl hnone
      · exact absurd rfl (hone d)
      · simp
    obtain _ | ⟨ha, _ | ⟨hb, _ | ⟨hc, htail⟩⟩⟩ := htext
    rename_i x y z xs
    have hafter := made_after (x := x ++ (y ++ z)) (ih h vals xs hrest hh htail)
      (f := fun r => luaConcat4 host a b c (.str r)) fun r h' vals' hpre hh' hr => by
        have hspec := luaConcat4_spec hh' (Operand.text_of_initial hpre ha) (Operand.text_of_initial hpre hb)
          (Operand.text_of_initial hpre hc) (d := .str r) hr
        simpa using hspec
    rw [concatChain.eq_4 host a b c rest hnone hone]
    simpa using hafter
  | case5 vs htwo hthree hfour hmore =>
    intro h vals xs hlen
    obtain _ | ⟨a, _ | ⟨b, _ | ⟨c, rest⟩⟩⟩ := vs
    · exact absurd hlen (by decide)
    · exact absurd hlen (by simp)
    · exact absurd rfl (htwo a b)
    · exact absurd rfl (hmore a b c rest)

/-- The text of a result is read back, or the operands were too many bytes. -/
theorem readOf_spec {m : StrM ℕ} (hm : Meets m h (Made vals x) (TooLarge vals x)) :
    ((readOf m).run h : Except Fault (List UInt8) × StrHeap).1 =
      if x.length < 2^31 then .ok x else .error (.raised "too large") := by
  have hread : Meets (readOf m) h (fun a _ => a = x ∧ x.length < 2^31)
      (fun e _ => e = .raised "too large" ∧ 2^31 ≤ x.length) := by
    unfold readOf
    have hm' : Meets m h (Made vals x) (fun e _ => e = .raised "too large" ∧ 2^31 ≤ x.length) :=
      hm.mono (fun _ _ hr => hr) fun _ _ he => ⟨he.1, he.2.1⟩
    apply hm'.bind
    rintro s h₁ ⟨vals₁, -, hh₁, hs⟩
    obtain ⟨r, h₂, hret, -, -, harr, -⟩ := strBytes_spec hh₁ hs
    exact hret.bind_meets ((arrOf_returns harr).meets ⟨rfl, hh₁.short hs⟩)
  unfold Meets at hread
  generalize ((readOf m).run h : Except Fault (List UInt8) × StrHeap) = r at hread ⊢
  obtain ⟨e | a, h'⟩ := r
  · obtain ⟨rfl, hlen⟩ := hread
    rw [if_neg (by omega)]
  · obtain ⟨rfl, hlen⟩ := hread
    rw [if_pos hlen]

/-- The chain of integers reads as their texts. -/
theorem concatChain_ints (hh : Holds h vals) (vs : List Int64) (hvs : 2 ≤ vs.length) :
    ((readOf (concatChain host (vs.map .int))).run h : Except Fault (List UInt8) × StrHeap).1 =
      if (decimals vs).length < 2^31 then .ok (decimals vs) else .error (.raised "too large") := by
  have htext : List.Forall₂ (fun v x => v.text host vals = some x) (vs.map Operand.int)
      (vs.map fun v => decimal v.toInt) := by
    rw [List.forall₂_map_left_iff, List.forall₂_map_right_iff, List.forall₂_same]
    exact fun v _ => rfl
  exact readOf_spec (concatChain_spec host _ h vals _ (by rw [List.length_map]; exact hvs) hh htext)

/-! ## `table.concat` -/

/-- The elements of an array that has integers only. -/
def intSlots (vs : List Int64) : List Slot := vs.map fun v => .val (.int v)

/-- The texts of integers, with a separator between them. -/
def joined (sep : List UInt8) (vs : List Int64) : List UInt8 :=
  sep.intercalate (vs.map fun v => decimal v.toInt)

theorem intSlots_at (pre post : List Slot) (v : Int64) (vs : List Int64) :
    (pre ++ intSlots (v :: vs) ++ post)[pre.length]? = some (.val (.int v)) := by
  unfold intSlots
  simp

/-- The first loop of `$tab_concat_arr` counts the digits. -/
theorem concatSize_ints (post : List Slot) (vs : List Int64) : ∀ (pre : List Slot) (total : ℕ),
    Table.concatSize (pre ++ intSlots vs ++ post) vs.length pre.length total =
      .ok (some (total + (decimals vs).length)) := by
  induction vs with
  | nil => exact fun _ _ => rfl
  | cons v vs ih =>
    intro pre total
    have hnext := ih (pre ++ [.val (.int v)]) (total + intLen v)
    have hsplit : pre ++ [.val (.int v)] ++ intSlots vs ++ post = pre ++ intSlots (v :: vs) ++ post := by
      unfold intSlots
      simp
    rw [hsplit, List.length_append, List.length_singleton] at hnext
    rw [List.length_cons]
    unfold Table.concatSize
    rw [intSlots_at]
    change Table.concatSize (pre ++ intSlots (v :: vs) ++ post) vs.length (pre.length + 1) (total + intLen v) = _
    rw [hnext, intLen_spec]
    have hlen : (decimals (v :: vs)).length = (decimal v.toInt).length + (decimals vs).length := by
      unfold decimals
      rw [List.map_cons, List.flatten_cons, List.length_append]
    rw [hlen, Nat.add_assoc]

theorem textFrom_ints (sep : List UInt8) (post : List Slot) (vs : List Int64) : ∀ (pre : List Slot),
    Table.textFrom (pre ++ intSlots vs ++ post) sep vs.length pre.length =
      (vs.map fun v => sep ++ decimal v.toInt).flatten := by
  induction vs with
  | nil => exact fun _ => rfl
  | cons v vs ih =>
    intro pre
    have hnext := ih (pre ++ [.val (.int v)])
    have hsplit : pre ++ [.val (.int v)] ++ intSlots vs ++ post = pre ++ intSlots (v :: vs) ++ post := by
      unfold intSlots
      simp
    rw [hsplit, List.length_append, List.length_singleton] at hnext
    rw [List.length_cons, Table.textFrom_succ, hnext, List.getD_eq_getElem?_getD, intSlots_at, List.map_cons,
      List.flatten_cons, List.append_assoc]
    rfl

theorem joined_cons (sep : List UInt8) (v : Int64) (vs : List Int64) :
    joined sep (v :: vs) = decimal v.toInt ++ (vs.map fun v => sep ++ decimal v.toInt).flatten := by
  induction vs generalizing v with
  | nil =>
    unfold joined List.intercalate
    simp
  | cons w vs ih =>
    have hnext := ih w
    unfold joined at hnext ⊢
    rw [List.map_cons] at hnext
    rw [List.map_cons, List.map_cons, List.intercalate_cons_cons, hnext]
    simp

/-- The separators and the digits. -/
theorem length_joined (sep : List UInt8) (v : Int64) (vs : List Int64) :
    (joined sep (v :: vs)).length = vs.length * sep.length + (decimals (v :: vs)).length := by
  have hrest : (vs.map fun v => sep ++ decimal v.toInt).flatten.length =
      vs.length * sep.length + (decimals vs).length := by
    induction vs with
    | nil => simp [decimals]
    | cons w vs ih =>
      unfold decimals at ih ⊢
      rw [List.map_cons, List.flatten_cons, List.length_append, List.length_append, ih, List.map_cons,
        List.flatten_cons, List.length_append, List.length_cons, Nat.succ_mul]
      omega
  have hcons : (decimals (v :: vs)).length = (decimal v.toInt).length + (decimals vs).length := by
    unfold decimals
    rw [List.map_cons, List.flatten_cons, List.length_append]
  rw [joined_cons, List.length_append, hrest, hcons]
  omega

theorem pieces_ints (pre post : List Slot) (vs : List Int64) :
    Table.Pieces (pre ++ intSlots vs ++ post) pre.length vs.length := by
  intro i hlo hhi
  have hlen : (intSlots vs).length = vs.length := List.length_map _
  have hget : (pre ++ intSlots vs ++ post)[i]? = (intSlots vs)[i - pre.length]? := by
    rw [List.append_assoc, List.getElem?_append_right hlo, List.getElem?_append_left (by omega)]
  have hint : (intSlots vs)[i - pre.length]? = some (.val (.int (vs.getD (i - pre.length) 0))) := by
    have hlt : i - pre.length < vs.length := by omega
    unfold intSlots
    rw [List.getElem?_map, List.getElem?_eq_getElem hlt, List.getD_eq_getElem _ _ hlt]
    rfl
  constructor
  · rw [List.length_append, List.length_append]
    omega
  · rw [List.getD_eq_getElem?_getD, hget, hint]
    exact Option.some_ne_none _

/-- `$tab_concat_arr` over integers makes their texts with the separator between them. -/
theorem tabConcatArr_ints (t : Table.LuaTable) (sep : List UInt8) (pre post : List Slot) (v : Int64)
    (vs : List Int64) (harr : t.arr = some (pre ++ intSlots (v :: vs) ++ post))
    (hlen : pre.length + vs.length < t.alen) :
    Table.tabConcatArr t sep (pre.length + 1 : ℕ) (pre.length + vs.length + 1 : ℕ) =
      if (joined sep (v :: vs)).length < 2^31 then .ok (some (joined sep (v :: vs)))
      else .error (.raised "too large") := by
  have hsize := concatSize_ints post (v :: vs) pre (vs.length * sep.length)
  rw [← length_joined, List.length_cons] at hsize
  have htext : Table.concatText (pre ++ intSlots (v :: vs) ++ post) sep pre.length vs.length =
      joined sep (v :: vs) := by
    have hrest := textFrom_ints sep post vs (pre ++ [.val (.int v)])
    have hsplit : pre ++ [.val (.int v)] ++ intSlots vs ++ post = pre ++ intSlots (v :: vs) ++ post := by
      unfold intSlots
      simp
    rw [hsplit, List.length_append, List.length_singleton] at hrest
    unfold Table.concatText
    rw [hrest, joined_cons, List.getD_eq_getElem?_getD, intSlots_at]
    rfl
  have hpieces := pieces_ints pre post (v :: vs)
  have hwritten : Table.concatWrite _ sep _ _ _ _ _ = _ := Table.concatText_written hpieces
  rw [htext] at hwritten
  unfold Table.tabConcatArr
  rw [if_neg (by omega), harr, show (((pre.length + vs.length + 1 : ℕ) : ℤ) - ((pre.length + 1 : ℕ) - 1)).toNat =
      vs.length + 1 by omega, show (((pre.length + 1 : ℕ) : ℤ) - 1).toNat = pre.length by omega,
    show (((pre.length + vs.length + 1 : ℕ) : ℤ) - (pre.length + 1 : ℕ)).toNat = vs.length by omega,
    Int.toNat_natCast]
  change (Table.concatSize _ (vs.length + 1) pre.length (vs.length * sep.length) >>= _) = _
  rw [hsize]
  change (if 2147483647 < (joined sep (v :: vs)).length then Except.error Table.tooLarge else _) = _
  by_cases hbig : 2147483647 < (joined sep (v :: vs)).length
  · rw [if_pos hbig, if_neg (by omega)]
    rfl
  · rw [if_neg hbig, if_pos (by omega), hwritten]
    rfl

/-- `$int_len` is the number of bytes of the text of any integer, and `$int_write` writes the text into that many
bytes. So the array that a concatenation of integers reserves is the texts one after the other, with nothing
before, between or after them; a longer chain reads as its texts; and so does `table.concat`, with the separator
between them. -/
theorem integers_fill_reserved (host : HostFmt) (v w y z : Int64) (vs : List Int64) :
    intLen v = (decimal v.toInt).length ∧
    (∀ before gap after : List UInt8, gap.length = intLen v →
      intWrite (before ++ gap ++ after) (before.length + intLen v) v =
        some (before ++ decimal v.toInt ++ after)) ∧
    (∀ h : StrHeap,
      ((luaConcat host (.int v) (.int w)).run h : Except Fault ℕ × StrHeap) =
          (strOfBytes h.arrs.length 0).run (h.withArr (decimals [v, w])) ∧
      ((luaConcat3 host (.int v) (.int w) (.int y)).run h : Except Fault ℕ × StrHeap) =
          (strOfBytes h.arrs.length 0).run (h.withArr (decimals [v, w, y])) ∧
      ((luaConcat4 host (.int v) (.int w) (.int y) (.int z)).run h : Except Fault ℕ × StrHeap) =
          (strOfBytes h.arrs.length 0).run (h.withArr (decimals [v, w, y, z]))) ∧
    (∀ (h : StrHeap) (hist : List (StrOp × Except Fault StrResult)), StrRun host h hist →
      ((readOf (concatChain host ((v :: w :: vs).map .int))).run h : Except Fault (List UInt8) × StrHeap).1 =
        if (decimals (v :: w :: vs)).length < 2^31 then .ok (decimals (v :: w :: vs))
        else .error (.raised "too large")) ∧
    ∀ (t : Table.LuaTable) (sep : List UInt8) (pre post : List Slot),
      t.arr = some (pre ++ intSlots (v :: vs) ++ post) → pre.length + vs.length < t.alen →
      Table.tabConcatArr t sep (pre.length + 1 : ℕ) (pre.length + vs.length + 1 : ℕ) =
        if (joined sep (v :: vs)).length < 2^31 then .ok (some (joined sep (v :: vs)))
        else .error (.raised "too large") := by
  refine ⟨intLen_spec v, fun before gap after hgap => intWrite_between before gap after hgap,
    fun h => ⟨luaConcat_ints host h v w, luaConcat3_ints host h v w y, luaConcat4_ints host h v w y z⟩, ?_, ?_⟩
  · intro h hist hrun
    obtain ⟨vals, hh, -⟩ := hrun.explained
    exact concatChain_ints hh (v :: w :: vs) (by simp)
  · intro t sep pre post harr halen
    exact tabConcatArr_ints t sep pre post v vs harr halen

/-- The least integer, between two bytes and before zero. -/
theorem integers_fill_reserved_least :
    intWrite ([65] ++ List.replicate 20 0 ++ [66]) 21 Int64.minValue =
      some (65 :: (decimal (-9223372036854775808) ++ [66])) ∧
    ((readOf (concatChain zeroHost [.int Int64.minValue, .int 0])).run StrHeap.init :
      Except Fault (List UInt8) × StrHeap).1 = .ok (decimal (-9223372036854775808) ++ [48]) := by
  have hall := integers_fill_reserved zeroHost Int64.minValue 0 0 0 []
  have hlen : intLen Int64.minValue = 20 := by decide
  have htext : (decimals [Int64.minValue, 0]).length < 2^31 := by decide
  obtain ⟨-, hwrite, -, hchain, -⟩ := hall
  constructor
  · have hfill := hwrite [65] (List.replicate 20 0) [66] (by rw [hlen]; rfl)
    rw [hlen] at hfill
    exact hfill
  · have hread := hchain StrHeap.init [] StrRun.init
    rw [if_pos htext] at hread
    rw [show decimal (-9223372036854775808) ++ [48] = decimals [Int64.minValue, 0] by decide]
    exact hread

end Lua2wasm.Strings
