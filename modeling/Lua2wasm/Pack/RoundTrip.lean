import Lua2wasm.Pack.Ints
import Lua2wasm.Pack.Count
import Lua2wasm.Pack.Sizes

/-!
# What is packed is unpacked

`unpack_pack`: when `string.pack` succeeds, `string.unpack` of its result gives the values back and then
the position after them, and `string.packsize` gives the length if every item has a size. The two walks
over the format are in step: after each item, the offset of the one is the length of what the other has
packed (`InStep`, `unpackItem_spec`).

A string in a `c` option comes back with the zeros that fill it up. An unsigned integer of more than
eight bytes that was negative is left out: the bytes beyond the eighth then repeat its sign, and
`string.unpack` takes them for a number that is too large.
-/

namespace Lua2wasm.Pack

open Table (Fault setAt setAt_of_lt)

/-- The items of a format, up to its end or to the first that is none. -/
def itemsFrom (bytes : List UInt8) : ℕ → ℕ → List Item
  | 0, _ => []
  | fuel + 1, ppos =>
    if bytes.length ≤ ppos then []
    else match nextItem bytes ppos with
      | .ok (it, ppos) => it :: itemsFrom bytes fuel ppos
      | .error _ => []

/-- The items of a format. -/
def formatItems (bytes : List UInt8) : List Item := itemsFrom bytes (bytes.length + 1) 0

/-- The items that take an argument, with the arguments that they take. -/
def taken (args : List PackVal) : List Item → ℕ → List (Item × PackVal)
  | [], _ => []
  | it :: items, i =>
    if it.hasValue then (it, argsAt args i) :: taken args items (i + 1) else taken args items i

/-- The value that comes back: a string in a `c` option is filled up with zeros, a float is rounded to
the width, and an integer is what `$as_int_co` makes of the argument. -/
def Item.returned (parse : List UInt8 → Option Num) (it : Item) (arg : PackVal) : PackVal :=
  match it, arg with
  | .fixed sz, .str x => .str (x ++ List.replicate (sz - x.length) 0)
  | .float sz, arg =>
    match asFloat arg with
    | .ok f => .float (bitsFloat sz (floatBits sz f))
    | .error _ => .nil
  | .int _ _, arg =>
    match asIntCo parse arg with
    | .ok v => .int v
    | .error _ => .nil
  | _, arg => arg

/-- An unsigned integer of more than eight bytes is not negative. -/
def Item.KeepsSign (parse : List UInt8 → Option Num) (it : Item) (arg : PackVal) : Prop :=
  match it with
  | .int false sz => 8 < sz → ∀ v, asIntCo parse arg = .ok v → 0 ≤ v.toInt
  | _ => True

variable {bytes subj : List UInt8} {args : List PackVal} {parse : List UInt8 → Option Num} {it : Item}
  {ppos pp : ℕ} {b b' x : List UInt8} {n sz maxAlign : ℕ} {le : Bool} {val : BitVec 64}

/-! ## The builder -/

theorem builderAppend_ok (h : builderAppend b x = .ok b') : b' = b ++ x ∧ b'.length ≤ 2^30 := by
  unfold builderAppend at h
  split_ifs at h with hlen
  cases h
  exact ⟨rfl, by rw [List.length_append]; exact hlen⟩

theorem builderAlign_ok (h : builderAlign b sz maxAlign = .ok b') (hmax : maxAlign ≤ 16) (hb : b.length ≤ 2^30) :
    packAlign b.length sz maxAlign = .ok b'.length ∧ b <+: b' ∧ b'.length ≤ 2^30 := by
  unfold builderAlign at h
  cases ha : packAlign b.length sz maxAlign with
  | error e =>
    rw [ha] at h
    cases h
  | ok offset =>
    rw [ha] at h
    obtain ⟨hle, -⟩ := packAlign_le ha hmax hb
    obtain ⟨rfl, hlen⟩ := builderAppend_ok h
    refine ⟨?_, List.prefix_append _ _, hlen⟩
    rw [List.length_append, List.length_replicate]
    congr 1
    omega

theorem builderWriteInt_ok (h : builderWriteInt b n le val = .ok b') :
    b' = b ++ intBytes n le val ∧ b'.length ≤ 2^30 := by
  unfold builderWriteInt at h
  cases ha : builderAppend b (List.replicate n 0) with
  | error e =>
    rw [ha] at h
    cases h
  | ok buf =>
    rw [ha] at h
    obtain ⟨rfl, hlen⟩ := builderAppend_ok ha
    rw [List.length_append, List.length_replicate] at hlen
    simp only [ok_bind] at h
    rw [packWriteInt_spec (by omega)] at h
    cases h
    exact ⟨rfl, by rw [List.length_append, length_intBytes]; exact hlen⟩

/-! ## Reading what the builder has -/

theorem getElem?_of_initial {α : Type} {l l' : List α} {i : ℕ} {y : α} (hp : l <+: l') (hl : l[i]? = some y) :
    l'[i]? = some y := by
  obtain ⟨t, rfl⟩ := hp
  rw [List.getElem?_append_left (List.getElem?_eq_some_iff.mp hl).1]
  exact hl

/-- The bytes of an integer, where `$pack_read_int` looks for them. -/
theorem written (hp : b ++ intBytes n le val <+: subj) (hlen : subj.length ≤ 2^30) :
    ∀ j, j < n → subj[packIdx b.length n le j]? = some (packByte val j) := by
  intro j hj
  have hle := hp.length_le
  rw [List.length_append, length_intBytes] at hle
  apply getElem?_of_initial hp
  rw [packIdx_eq (by omega) hj, List.getElem?_append_right (by omega), Nat.add_sub_cancel_left,
    getElem?_intBytes hj]

theorem checkRoom_ok {offset : ℕ} (hle : offset + sz ≤ subj.length) (hlen : subj.length ≤ 2^30) :
    checkRoom subj offset sz = .ok () := by
  unfold checkRoom
  rw [u32_of_le (by omega), if_neg (by omega)]

theorem takeBytes_ok (hp : b ++ x <+: subj) : takeBytes subj b.length x.length = .ok x := by
  have hle := hp.length_le
  obtain ⟨t, rfl⟩ := hp
  rw [List.length_append] at hle
  unfold takeBytes
  rw [if_pos hle]
  simp

theorem zeroFrom_ok (hp : b ++ x ++ [0] <+: subj) (hlen : subj.length ≤ 2^30) (hx : x.contains 0 = false) :
    ∀ (fuel k : ℕ), k ≤ x.length → x.length < fuel + k → zeroFrom subj fuel b.length k = .ok x.length := by
  have hle := hp.length_le
  simp only [List.length_append, List.length_cons, List.length_nil] at hle
  intro fuel
  induction fuel with
  | zero =>
    intro k hk hfuel
    omega
  | succ fuel ih =>
    intro k hk hfuel
    unfold zeroFrom
    rw [u32_of_le (by omega)]
    by_cases hend : k = x.length
    · have hget : subj[b.length + k]? = some 0 := by
        apply getElem?_of_initial hp
        rw [hend, ← List.length_append]
        simp
      rw [hget]
      dsimp only
      rw [if_pos rfl, hend]
    · obtain ⟨c, hc⟩ : ∃ c, x[k]? = some c := ⟨_, List.getElem?_eq_getElem (by omega)⟩
      have hget : subj[b.length + k]? = some c := by
        apply getElem?_of_initial hp
        rw [List.append_assoc, List.getElem?_append_right (by omega), Nat.add_sub_cancel_left,
          List.getElem?_append_left (by omega), hc]
      have hne : c ≠ 0 := by
        rintro rfl
        have hmem := List.contains_iff_mem.mpr (List.mem_of_getElem? hc)
        rw [hx] at hmem
        cases hmem
      rw [hget]
      dsimp only
      rw [if_neg hne]
      exact ih (k + 1) (by omega) (by omega)

/-- The bits of a float come back. -/
theorem bitsFloat_low (f : F64) (hsz : sz = 4 ∨ sz = 8) :
    bitsFloat sz (low (min sz 8) (floatBits sz f)) = bitsFloat sz (floatBits sz f) := by
  obtain rfl | rfl := hsz
  · congr 1
    apply low_of_fits
    unfold packFitsUnsigned floatBits
    rw [if_pos rfl]
    simp only [Nat.reduceLeDiff, decide_false, Bool.false_or, decide_eq_true_eq]
    apply BitVec.eq_of_getLsbD_eq
    intro q hq
    rw [BitVec.getLsbD_ushiftRight, BitVec.getLsbD_setWidth, BitVec.getLsbD_of_ge _ _ (by omega)]
    simp
  · rw [low_all (Nat.le_refl 8)]

/-! ## Items -/

/-- The registers of `string.unpack` that have read as far as the builder has been filled. -/
def PackState.reader (ps : PackState) (us : UnpackState) : UnpackState :=
  { us with toWalk := ps.toWalk, offset := ps.b.length }

/-- The registers of `string.packsize` there. -/
def PackState.sizer (ps : PackState) : SizeState where
  toWalk := ps.toWalk
  offset := ps.b.length

/-- The builder is as small as it can be, and the alignment one that the format allows. -/
def PackState.Small (ps : PackState) : Prop := ps.maxAlign ≤ 16 ∧ ps.b.length ≤ 2^30

/-- An integer is read where it was written. -/
theorem read_written {b₁ b₂ : List UInt8} (halign : builderAlign b sz maxAlign = .ok b₁)
    (hwrite : builderWriteInt b₁ sz le val = .ok b₂) (hmax : maxAlign ≤ 16) (hb : b.length ≤ 2^30) :
    b <+: b₂ ∧ b₂.length ≤ 2^30 ∧ packAlign b.length sz maxAlign = .ok b₁.length ∧
      u32 (b₁.length + sz) = b₂.length ∧
      ∀ {subj : List UInt8}, b₂ <+: subj → subj.length ≤ 2^30 → checkRoom subj b₁.length sz = .ok () ∧
        ∀ j, j < sz → subj[packIdx b₁.length sz le j]? = some (packByte val j) := by
  obtain ⟨ha, hpre, -⟩ := builderAlign_ok halign hmax hb
  obtain ⟨rfl, hlen⟩ := builderWriteInt_ok hwrite
  have hlen' := hlen
  rw [List.length_append, length_intBytes] at hlen'
  have hend : u32 (b₁.length + sz) = (b₁ ++ intBytes sz le val).length := by
    rw [u32_of_le (by omega), List.length_append, length_intBytes]
  refine ⟨hpre.trans (List.prefix_append _ _), hlen, ha, hend, ?_⟩
  intro subj hsubj hsmall
  have hle := hsubj.length_le
  rw [List.length_append, length_intBytes] at hle
  exact ⟨checkRoom_ok hle hsmall, written hsubj hsmall⟩

variable {ps ps' : PackState} {us : UnpackState}

/-- What an item that was packed is for the two other interpreters. -/
structure Unpacks (parse : List UInt8 → Option Num) (args : List PackVal) (it : Item) (ps ps' : PackState) : Prop where
  /-- What has been packed stays. -/
  prefix_b : ps.b <+: ps'.b
  /-- The next argument. -/
  argIdx : ps'.argIdx = if it.hasValue then ps.argIdx + 1 else ps.argIdx
  /-- The place in the format stays. -/
  ppos : ps'.ppos = ps.ppos
  /-- The bounds stay. -/
  small : ps'.Small
  /-- `string.unpack` reads the item to its end, and its value. -/
  unpacks : ∀ (subj : List UInt8) (us : UnpackState), ps'.b <+: subj → subj.length ≤ 2^30 →
    unpackItem subj it (ps.reader us) =
      if it.hasValue then (ps'.reader us).push (it.returned parse (argsAt args ps.argIdx)) else .ok (ps'.reader us)
  /-- `string.packsize` adds up its size. -/
  sizes : it.hasSize → sizeItem it ps.sizer = .ok ps'.sizer

theorem returned_int {signed : Bool} {arg : PackVal} {v : Int64} (hv : asIntCo parse arg = .ok v) :
    (Item.int signed sz).returned parse arg = .int v := by
  change (match asIntCo parse arg with
    | .ok v => PackVal.int v
    | .error _ => .nil) = _
  rw [hv]

theorem returned_float {arg : PackVal} {f : F64} (hf : asFloat arg = .ok f) :
    (Item.float sz).returned parse arg = .float (bitsFloat sz (floatBits sz f)) := by
  change (match asFloat arg with
    | .ok f => PackVal.float (bitsFloat sz (floatBits sz f))
    | .error _ => .nil) = _
  rw [hf]

/-- The bits of an integer that fits. -/
theorem intBits_ok {signed : Bool} {arg : PackVal} (h : intBits parse signed sz arg = .ok val) :
    ∃ v, asIntCo parse arg = .ok v ∧ val = v.toBitVec ∧
      (if signed then packFitsSigned val sz else packFitsUnsigned val sz) = true := by
  unfold intBits at h
  obtain ⟨v, hv, h⟩ := of_bind_ok h
  by_cases hfits : (if signed then packFitsSigned v.toBitVec sz else packFitsUnsigned v.toBitVec sz) = false
  · rw [if_pos hfits] at h
    cases h
  · rw [if_neg hfits] at h
    cases h
    exact ⟨v, hv, rfl, by simpa using hfits⟩

theorem unpacks_int {signed : Bool} (hpack : packItem parse args (.int signed sz) ps = .ok ps') (hs : ps.Small)
    (hsign : (Item.int signed sz).KeepsSign parse (argsAt args ps.argIdx)) :
    Unpacks parse args (.int signed sz) ps ps' := by
  unfold packItem at hpack
  obtain ⟨b₁, hb₁, hpack⟩ := of_bind_ok hpack
  obtain ⟨val, hval, hpack⟩ := of_bind_ok hpack
  obtain ⟨b₂, hb₂, hpack⟩ := of_bind_ok hpack
  cases hpack
  obtain ⟨hpre, hlen, ha, hend, hread⟩ := read_written hb₁ hb₂ hs.1 hs.2
  obtain ⟨v, hv, rfl, hfits⟩ := intBits_ok hval
  refine ⟨hpre, rfl, rfl, ⟨hs.1, hlen⟩, ?_, ?_⟩
  · intro subj us hsubj hsmall
    obtain ⟨hroom, hbytes⟩ := hread hsubj hsmall
    have hmsb : 8 < sz → signed = true ∨ v.toBitVec.msb = false := by
      intro h8
      cases signed with
      | true => exact Or.inl rfl
      | false =>
        right
        have := hsign h8 v hv
        rw [BitVec.msb_eq_toInt]
        simpa using this
    have hback : (if signed then packSignext (low (min sz 8) v.toBitVec) sz else low (min sz 8) v.toBitVec)
        = v.toBitVec := by
      cases signed with
      | true =>
        simp only [if_true] at hfits ⊢
        exact signext_low hfits
      | false =>
        simp only [Bool.false_eq_true, if_false] at hfits ⊢
        exact low_of_fits hfits
    unfold unpackItem PackState.reader
    dsimp only
    rw [ha, ok_bind, hroom, ok_bind, packReadInt_written hbytes, orTrap, ok_bind,
      packCheckFit_written hbytes hmsb, ok_bind, hend, hback, returned_int hv]
    rfl
  · intro _
    unfold sizeItem PackState.sizer
    dsimp only
    rw [ha, ok_bind, hend]
    rfl

theorem unpacks_float (hpack : packItem parse args (.float sz) ps = .ok ps') (hs : ps.Small)
    (hsz : sz = 4 ∨ sz = 8) : Unpacks parse args (.float sz) ps ps' := by
  unfold packItem at hpack
  obtain ⟨b₁, hb₁, hpack⟩ := of_bind_ok hpack
  obtain ⟨f, hf, hpack⟩ := of_bind_ok hpack
  obtain ⟨b₂, hb₂, hpack⟩ := of_bind_ok hpack
  cases hpack
  obtain ⟨hpre, hlen, ha, hend, hread⟩ := read_written hb₁ hb₂ hs.1 hs.2
  refine ⟨hpre, rfl, rfl, ⟨hs.1, hlen⟩, ?_, ?_⟩
  · intro subj us hsubj hsmall
    obtain ⟨hroom, hbytes⟩ := hread hsubj hsmall
    unfold unpackItem PackState.reader
    dsimp only
    rw [ha, ok_bind, hroom, ok_bind, packReadInt_written hbytes, orTrap, ok_bind, hend, bitsFloat_low f hsz,
      returned_float hf]
    rfl
  · intro _
    unfold sizeItem PackState.sizer
    dsimp only
    rw [ha, ok_bind, hend]
    rfl

theorem castStr_ok {arg : PackVal} (h : castStr arg = .ok x) : arg = .str x := by
  unfold castStr at h
  split at h
  · cases h
    rfl
  · cases h

theorem unpacks_zstr (hpack : packItem parse args .zstr ps = .ok ps') (hs : ps.Small) :
    Unpacks parse args .zstr ps ps' := by
  unfold packItem at hpack
  obtain ⟨x, hx, hpack⟩ := of_bind_ok hpack
  split at hpack
  · cases hpack
  rename_i hzero
  obtain ⟨b₁, hb₁, hpack⟩ := of_bind_ok hpack
  obtain ⟨b₂, hb₂, hpack⟩ := of_bind_ok hpack
  cases hpack
  obtain ⟨rfl, -⟩ := builderAppend_ok hb₁
  obtain ⟨rfl, hlen⟩ := builderAppend_ok hb₂
  refine ⟨⟨x ++ [0], by simp⟩, rfl, rfl, ⟨hs.1, hlen⟩, ?_, nofun⟩
  intro subj us hsubj hsmall
  have hend : u32 (u32 (ps.b.length + x.length) + 1) = (ps.b ++ x ++ [0]).length := by
    simp only [List.length_append, List.length_cons, List.length_nil] at hlen ⊢
    rw [u32_of_le (show ps.b.length + x.length < 2^32 by omega), u32_of_le (by omega)]
  have hfind : zeroFrom subj (subj.length + 1) ps.b.length 0 = .ok x.length := by
    have hle := hsubj.length_le
    simp only [List.length_append, List.length_cons, List.length_nil] at hle
    exact zeroFrom_ok hsubj hsmall (by simpa using hzero) _ 0 (Nat.zero_le _) (by omega)
  have htake : takeBytes subj ps.b.length x.length = .ok x :=
    takeBytes_ok ((List.prefix_append _ _).trans hsubj)
  unfold unpackItem PackState.reader
  rw [hfind, ok_bind, htake, ok_bind, hend, castStr_ok hx]
  rfl

theorem unpacks_fixed (hpack : packItem parse args (.fixed sz) ps = .ok ps') (hs : ps.Small) :
    Unpacks parse args (.fixed sz) ps ps' := by
  unfold packItem at hpack
  obtain ⟨x, hx, hpack⟩ := of_bind_ok hpack
  split at hpack
  · cases hpack
  rename_i hlong
  obtain ⟨b₁, hb₁, hpack⟩ := of_bind_ok hpack
  obtain ⟨b₂, hb₂, hpack⟩ := of_bind_ok hpack
  cases hpack
  obtain ⟨rfl, -⟩ := builderAppend_ok hb₁
  obtain ⟨rfl, hlen⟩ := builderAppend_ok hb₂
  rw [List.append_assoc] at hlen ⊢
  have hfill : (x ++ List.replicate (sz - x.length) 0).length = sz := by
    rw [List.length_append, List.length_replicate]
    omega
  have hend : u32 (ps.b.length + sz) = (ps.b ++ (x ++ List.replicate (sz - x.length) 0)).length := by
    rw [List.length_append, hfill] at hlen ⊢
    rw [u32_of_le (by omega)]
  refine ⟨List.prefix_append _ _, rfl, rfl, ⟨hs.1, hlen⟩, ?_, ?_⟩
  · intro subj us hsubj hsmall
    have hroom : checkRoom subj ps.b.length sz = .ok () := by
      have hle := hsubj.length_le
      rw [List.length_append, hfill] at hle
      exact checkRoom_ok hle hsmall
    have htake := takeBytes_ok hsubj
    rw [hfill] at htake
    unfold unpackItem PackState.reader
    dsimp only
    rw [hroom, ok_bind, htake, ok_bind, hend, castStr_ok hx]
    rfl
  · intro _
    unfold sizeItem PackState.sizer
    dsimp only
    rw [hend]
    rfl

theorem unpacks_str (hpack : packItem parse args (.str n) ps = .ok ps') (hs : ps.Small) :
    Unpacks parse args (.str n) ps ps' := by
  unfold packItem at hpack
  obtain ⟨x, hx, hpack⟩ := of_bind_ok hpack
  split at hpack
  · cases hpack
  rename_i hfits
  rw [Bool.not_eq_false] at hfits
  obtain ⟨b₁, hb₁, hpack⟩ := of_bind_ok hpack
  obtain ⟨b₂, hb₂, hpack⟩ := of_bind_ok hpack
  obtain ⟨b₃, hb₃, hpack⟩ := of_bind_ok hpack
  cases hpack
  obtain ⟨hpre, hlen, ha, hend, hread⟩ := read_written hb₁ hb₂ hs.1 hs.2
  obtain ⟨rfl, hlen₃⟩ := builderAppend_ok hb₃
  refine ⟨hpre.trans (List.prefix_append _ _), rfl, rfl, ⟨hs.1, hlen₃⟩, ?_, nofun⟩
  intro subj us hsubj hsmall
  obtain ⟨hroom, hbytes⟩ := hread ((List.prefix_append _ _).trans hsubj) hsmall
  rw [List.length_append] at hlen₃
  have hval : u32 (BitVec.ofNat 64 x.length).toNat = x.length := by
    rw [BitVec.toNat_ofNat, Nat.mod_eq_of_lt (by omega), u32_of_le (by omega)]
  have hbody : checkRoom subj b₂.length x.length = .ok () := by
    have hle := hsubj.length_le
    rw [List.length_append] at hle
    exact checkRoom_ok hle hsmall
  have hstop : u32 (b₂.length + x.length) = (b₂ ++ x).length := by
    rw [List.length_append, u32_of_le (by omega)]
  unfold unpackItem PackState.reader
  dsimp only
  rw [ha, ok_bind, hroom, ok_bind, packReadInt_written hbytes, low_of_fits hfits, orTrap, ok_bind, hend, hval,
    hbody, ok_bind, takeBytes_ok hsubj, ok_bind, hstop, castStr_ok hx]
  rfl

/-- Each item that was packed is unpacked. -/
theorem unpackItem_spec (hpack : packItem parse args it ps = .ok ps') (hs : ps.Small) (hv : it.Valid)
    (hsign : it.hasValue → it.KeepsSign parse (argsAt args ps.argIdx)) : Unpacks parse args it ps ps' := by
  cases it with
  | blank =>
    cases hpack
    exact ⟨List.prefix_rfl, rfl, rfl, hs, fun _ _ _ _ => rfl, fun _ => rfl⟩
  | order le =>
    cases hpack
    exact ⟨List.prefix_rfl, rfl, rfl, hs, fun _ _ _ _ => rfl, fun _ => rfl⟩
  | align n =>
    cases hpack
    exact ⟨List.prefix_rfl, rfl, rfl, ⟨hv, hs.2⟩, fun _ _ _ _ => rfl, fun _ => rfl⟩
  | pad =>
    unfold packItem at hpack
    obtain ⟨b₁, hb₁, hpack⟩ := of_bind_ok hpack
    cases hpack
    obtain ⟨rfl, hlen⟩ := builderAppend_ok hb₁
    have hend : u32 (ps.b.length + 1) = (ps.b ++ [0]).length := by
      simp only [List.length_append, List.length_cons, List.length_nil] at hlen ⊢
      rw [u32_of_le (by omega)]
    refine ⟨List.prefix_append _ _, rfl, rfl, ⟨hs.1, hlen⟩, fun _ _ _ _ => ?_, fun _ => ?_⟩
    · unfold unpackItem PackState.reader
      rw [hend]
      rfl
    · unfold sizeItem PackState.sizer
      rw [hend]
      rfl
  | alignTo sz =>
    unfold packItem at hpack
    obtain ⟨b₁, hb₁, hpack⟩ := of_bind_ok hpack
    cases hpack
    obtain ⟨ha, hpre, hlen⟩ := builderAlign_ok hb₁ hs.1 hs.2
    refine ⟨hpre, rfl, rfl, ⟨hs.1, hlen⟩, fun _ _ _ _ => ?_, fun _ => ?_⟩
    · unfold unpackItem PackState.reader
      dsimp only
      rw [ha]
      rfl
    · unfold sizeItem PackState.sizer
      dsimp only
      rw [ha]
      rfl
  | zstr => exact unpacks_zstr hpack hs
  | str n => exact unpacks_str hpack hs
  | fixed sz => exact unpacks_fixed hpack hs
  | float sz => exact unpacks_float hpack hs hv
  | int signed sz => exact unpacks_int hpack hs (hsign rfl)

/-! ## Runs -/

/-- The arguments that a run over the rest of the format takes. -/
def PackState.rest (bytes : List UInt8) (args : List PackVal) (fuel : ℕ) (ps : PackState) : List (Item × PackVal) :=
  taken args (itemsFrom bytes fuel ps.ppos) ps.argIdx

/-- The values that come back of arguments. -/
def backs (parse : List UInt8 → Option Num) (ps : List (Item × PackVal)) : List PackVal :=
  ps.map fun p => p.1.returned parse p.2

/-- The registers with some results. -/
def UnpackState.results (us : UnpackState) (acc : List PackVal) (free : ℕ) : UnpackState :=
  { us with out := acc ++ List.replicate free .nil, outIdx := acc.length }

theorem push_results (us : UnpackState) (acc : List PackVal) (free : ℕ) (v : PackVal) :
    (us.results acc (free + 1)).push v = .ok (us.results (acc ++ [v]) free) := by
  have hset : setAt (acc ++ List.replicate (free + 1) .nil) acc.length v
      = some (acc ++ [v] ++ List.replicate free .nil) := by
    rw [setAt_of_lt (by simp), List.set_append_right _ _ (Nat.le_refl _), Nat.sub_self, List.replicate_succ,
      List.set_cons_zero, List.append_assoc, List.singleton_append]
  unfold UnpackState.push UnpackState.results
  rw [hset, orTrap, ok_bind, List.length_append]
  rfl

/-- What a run that packed the rest of the format is for the two other interpreters. -/
structure RunUnpacks (parse : List UInt8 → Option Num) (bytes : List UInt8) (args : List PackVal) (fuel : ℕ)
    (ps psEnd : PackState) : Prop where
  /-- What has been packed stays. -/
  prefix_b : ps.b <+: psEnd.b
  /-- The bounds stay. -/
  small : psEnd.Small
  /-- `string.unpack` has counted the values and reads them. -/
  unpacks : ∀ (subj : List UInt8) (us : UnpackState) (acc : List PackVal), psEnd.b <+: subj → subj.length ≤ 2^30 →
    walk (fun st => st.ppos) (unpackStep bytes subj) bytes.length fuel
        ((ps.reader us).results acc (packCountFrom bytes fuel ps.ppos 0 + 1))
      = .ok ((psEnd.reader us).results (acc ++ backs parse (ps.rest bytes args fuel)) 1)
  /-- `string.packsize` adds up the sizes. -/
  sizes : (∀ it ∈ itemsFrom bytes fuel ps.ppos, it.hasSize) →
    walk (fun st => st.ppos) (packsizeStep bytes) bytes.length fuel ps.sizer = .ok psEnd.sizer

theorem walk_unpacks :
    ∀ (fuel : ℕ) (ps psEnd : PackState),
      walk (fun st => st.ppos) (packStep parse bytes args) bytes.length fuel ps = .ok psEnd → ps.Small →
      (∀ p ∈ ps.rest bytes args fuel, p.1.KeepsSign parse p.2) → RunUnpacks parse bytes args fuel ps psEnd := by
  intro fuel
  induction fuel with
  | zero =>
    intro ps psEnd h
    cases h
  | succ fuel ih =>
    intro ps psEnd h hs hsign
    by_cases hend : bytes.length ≤ ps.ppos
    · rw [walk_end (fun st : PackState => st.ppos) hend] at h
      cases h
      have hitems : itemsFrom bytes (fuel + 1) ps.ppos = [] := by
        unfold itemsFrom
        rw [if_pos hend]
      have hcount : packCountFrom bytes (fuel + 1) ps.ppos 0 = 0 := by
        unfold packCountFrom
        rw [List.getElem?_eq_none hend]
      refine ⟨List.prefix_rfl, hs, ?_, fun _ => walk_end (fun st : SizeState => st.ppos) hend⟩
      intro subj us acc _ _
      unfold PackState.rest
      rw [walk_end (fun st : UnpackState => st.ppos) hend, hcount, hitems]
      unfold taken backs
      rw [List.map_nil, List.append_nil]
    rw [walk_next (fun st : PackState => st.ppos) (Nat.not_le.mp hend)] at h
    obtain ⟨ps', hstep, hrun⟩ := of_bind_ok h
    rw [packStep_eq] at hstep
    obtain ⟨⟨it, pp⟩, hnext, hpack⟩ := of_bind_ok hstep
    -- the arguments of this item and of those after it
    have hitems : itemsFrom bytes (fuel + 1) ps.ppos = it :: itemsFrom bytes fuel pp := by
      conv_lhs => unfold itemsFrom
      rw [if_neg hend, hnext]
    have hitem : Unpacks parse args it { ps with ppos := pp } ps' := by
      apply unpackItem_spec hpack hs (nextItem_valid hnext)
      intro hv
      apply hsign (it, argsAt args ps.argIdx)
      unfold PackState.rest
      rw [hitems]
      unfold taken
      rw [if_pos hv]
      exact List.mem_cons_self
    have hppos : ps'.ppos = pp := hitem.ppos
    have hrest : ps.rest bytes args (fuel + 1)
        = if it.hasValue then (it, argsAt args ps.argIdx) :: ps'.rest bytes args fuel else ps'.rest bytes args fuel := by
      have hidx := hitem.argIdx
      unfold PackState.rest
      rw [hitems, hppos]
      conv_lhs => unfold taken
      by_cases hv : it.hasValue
      · rw [if_pos hv] at hidx ⊢
        rw [if_pos hv, hidx]
      · rw [if_neg hv] at hidx ⊢
        rw [if_neg hv, hidx]
    have hstay := ih ps' psEnd hrun hitem.small (by
      intro p hp
      apply hsign p
      rw [hrest]
      split
      · exact List.mem_cons_of_mem _ hp
      · exact hp)
    refine ⟨hitem.prefix_b.trans hstay.prefix_b, hstay.small, ?_, ?_⟩
    · intro subj us acc hsubj hsmall
      -- the run does not stand on a digit, for it goes on
      have hcount : packCountFrom bytes (fuel + 1) ps.ppos 0
          = (if it.hasValue then 1 else 0) + packCountFrom bytes fuel ps'.ppos 0 := by
        obtain ⟨-, r, rfl | hdigit, hcount⟩ := count_step hnext
        · rw [hppos]
          exact hcount fuel
        · exfalso
          rw [← hppos] at hdigit
          cases fuel with
          | zero => cases hrun
          | succ fuel =>
            obtain ⟨c, hc, -⟩ := id hdigit
            rw [walk_next (fun st : PackState => st.ppos) (List.getElem?_eq_some_iff.mp hc).1, packStep_eq,
              nextItem_digit hdigit] at hrun
            cases hrun
      have hthis := hitem.unpacks subj (us.results acc (packCountFrom bytes (fuel + 1) ps.ppos 0 + 1))
        (hstay.prefix_b.trans hsubj) hsmall
      rw [walk_next (fun st : UnpackState => st.ppos) (Nat.not_le.mp hend), unpackStep_eq]
      change (nextItem bytes ps.ppos >>= _) >>= _ = _
      rw [hnext, ok_bind]
      change (unpackItem subj it (({ ps with ppos := pp } : PackState).reader (us.results acc _)) >>= _) = _
      rw [hthis, hcount, hrest]
      by_cases hv : it.hasValue
      · rw [if_pos hv, if_pos hv, if_pos hv, Nat.add_comm 1]
        change (((ps'.reader us).results acc _).push _ >>= _) = _
        rw [push_results, ok_bind, hstay.unpacks subj us _ hsubj hsmall]
        unfold backs
        rw [List.map_cons, List.append_assoc, List.singleton_append]
      · rw [if_neg hv, if_neg hv, if_neg hv, Nat.zero_add, ok_bind]
        exact hstay.unpacks subj us acc hsubj hsmall
    · intro hsizes
      rw [hitems] at hsizes
      rw [walk_next (fun st : SizeState => st.ppos) (Nat.not_le.mp hend)]
      have hstep : packsizeStep bytes ps.sizer = sizeItem it ({ ps with ppos := pp } : PackState).sizer :=
        packsizeStep_eq hnext
      rw [hstep]
      rw [hitem.sizes (hsizes it List.mem_cons_self), ok_bind]
      apply hstay.sizes
      rw [hppos]
      exact fun it' hit => hsizes it' (List.mem_cons_of_mem _ hit)

/-- When `string.pack` succeeds, `string.unpack` of its result gives the values back, with the strings of
`c` options filled up, and the position after them; and `string.packsize` gives the length, unless an item
has none. Integers that lose their sign are left out. -/
theorem unpack_pack (parse : List UInt8 → Option Num) (bytes : List UInt8) (vals : List PackVal)
    (out : List UInt8) (hpack : pack parse bytes vals = .ok out)
    (hsign : ∀ p ∈ taken (.str bytes :: vals) (formatItems bytes) 1, p.1.KeepsSign parse p.2) :
    unpack bytes out none = .ok ((taken (.str bytes :: vals) (formatItems bytes) 1).map
        (fun p => p.1.returned parse p.2) ++ [.int (Int64.ofInt (out.length + 1))]) ∧
      ((∀ it ∈ formatItems bytes, it.hasSize) → packsize bytes = .ok out.length) := by
  unfold pack at hpack
  obtain ⟨psEnd, hrun, hpack⟩ := of_bind_ok hpack
  cases hpack
  have hspec := walk_unpacks _ _ _ hrun ⟨by decide, by decide⟩ hsign
  have hsmall : psEnd.b.length ≤ 2^30 := hspec.small.2
  constructor
  · have hthis := hspec.unpacks psEnd.b (UnpackState.start bytes none) [] List.prefix_rfl hsmall
    have hpos : s32 (u32 (psEnd.b.length + 1)) = (psEnd.b.length : ℤ) + 1 := by
      rw [u32_of_le (by omega)]
      unfold s32
      rw [if_pos (by omega)]
      rfl
    have hfinish : ∀ (us : UnpackState) (acc : List PackVal), us.offset = psEnd.b.length →
        (us.results acc 1).finish = .ok (acc ++ [.int (Int64.ofInt (psEnd.b.length + 1))]) := by
      intro us acc hoff
      have hoff' : (us.results acc 1).offset = psEnd.b.length := hoff
      unfold UnpackState.finish
      rw [push_results us acc 0, ok_bind, hoff', hpos]
      unfold UnpackState.results
      rw [List.replicate_zero, List.append_nil]
      rfl
    unfold unpack
    exact (congrArg (· >>= UnpackState.finish) hthis).trans (hfinish _ _ rfl)
  · intro hsizes
    unfold packsize
    have hend : s32 psEnd.sizer.offset = psEnd.b.length := by
      unfold PackState.sizer s32
      exact if_pos (by dsimp only; omega)
    refine (congrArg (· >>= _) (hspec.sizes hsizes)).trans ?_
    change Except.ok (s32 psEnd.sizer.offset) = _
    rw [hend]

/-- A signed integer, an unsigned one of nine bytes and a string that is filled up. -/
theorem unpack_pack_mixed :
    unpack [62, 105, 50, 73, 57, 99, 50] [255, 254, 0, 0, 0, 0, 0, 0, 0, 0, 5, 97, 0] none
        = .ok [.int (-2), .int 5, .str [97, 0], .int 14] ∧
      packsize [62, 105, 50, 73, 57, 99, 50] = .ok 13 := by
  have hsign : ∀ p ∈ taken [.str [62, 105, 50, 73, 57, 99, 50], .int (-2), .int 5, .str [97]]
      (formatItems [62, 105, 50, 73, 57, 99, 50]) 1, p.1.KeepsSign (fun _ => none) p.2 := by
    intro p hp
    change p ∈ [(Item.int true 2, PackVal.int (-2)), (Item.int false 9, PackVal.int 5),
      (Item.fixed 2, PackVal.str [97])] at hp
    simp only [List.mem_cons, List.not_mem_nil, or_false] at hp
    obtain rfl | rfl | rfl := hp
    · trivial
    · intro _ v hv
      cases hv
      decide
    · trivial
  obtain ⟨hunpack, hsize⟩ := unpack_pack (fun _ => none) [62, 105, 50, 73, 57, 99, 50] [.int (-2), .int 5, .str [97]]
    [255, 254, 0, 0, 0, 0, 0, 0, 0, 0, 5, 97, 0] (by rfl) hsign
  exact ⟨hunpack, hsize (by decide)⟩

/-- A string in a `c` option that it does not fill does not come back as it was. -/
theorem unpack_fixed_filled :
    pack (fun _ => none) [99, 50] [.str [97]] = .ok [97, 0] ∧
      unpack [99, 50] [97, 0] none = .ok [.str [97, 0], .int 3] ∧
      unpack [99, 50] [97, 0] none ≠ .ok [.str [97], .int 3] := by
  refine ⟨rfl, rfl, ?_⟩
  decide

end Lua2wasm.Pack
