import Lua2wasm.Pack.Interp

/-!
# Formats as lists of items

`nextItem` reads one item of a format: what the option is and where the next one starts. Each of the
three interpreters reads the same items (`packsizeStep_eq`, `packStep_eq`, `unpackStep_eq`) and does its
part with each (`sizeItem`, `packItem`, `unpackItem`), so what they agree on can be said about items.
-/

namespace Lua2wasm.Pack

open Table (Fault setAt)

/-- An item of a format. -/
inductive Item
  /-- A blank. -/
  | blank
  /-- `<`, `>` and `=`. -/
  | order (le : Bool)
  /-- `!`, with the greatest alignment. -/
  | align (n : ℕ)
  /-- `x`. -/
  | pad
  /-- `X`, with the size of the option after it. -/
  | alignTo (sz : ℕ)
  /-- `z`. -/
  | zstr
  /-- `s`, with the size of the length. -/
  | str (n : ℕ)
  /-- `c`, with the size. -/
  | fixed (sz : ℕ)
  /-- `f`, `d` and `n`, with the size. -/
  | float (sz : ℕ)
  /-- An integer, with its sign and its size. -/
  | int (signed : Bool) (sz : ℕ)
  deriving DecidableEq, Repr

/-- The item at a position of the format, and the position after it. -/
def nextItem (bytes : List UInt8) (ppos : ℕ) : Except Fault (Item × ℕ) := do
  let c ← orTrap bytes[ppos]?
  let ppos := ppos + 1
  if c = chr ' ' then pure (.blank, ppos)
  else if c = chr '<' then pure (.order true, ppos)
  else if c = chr '>' then pure (.order false, ppos)
  else if c = chr '=' then pure (.order true, ppos)
  else if c = chr '!' then do
    let n ← packLimits (packNSuffix bytes ppos 8).1
    pure (.align n, (packNSuffix bytes ppos 8).2)
  else if c = chr 'x' then pure (.pad, ppos)
  else if c = chr 'X' then do
    let (sz, ppos) ← alignOpt bytes ppos
    pure (.alignTo sz, ppos)
  else if c = chr 'z' then pure (.zstr, ppos)
  else if c = chr 's' then do
    let n ← packLimits (packNSuffix bytes ppos 8).1
    pure (.str n, (packNSuffix bytes ppos 8).2)
  else do
    let (sz, ppos) ← packOptSize c bytes ppos
    if c = chr 'c' then pure (.fixed sz, ppos)
    else if c = chr 'f' ∨ c = chr 'd' ∨ c = chr 'n' then pure (.float sz, ppos)
    else pure (.int (packOptIsSigned c) sz, ppos)

/-- What `string.packsize` does with an item. -/
def sizeItem (it : Item) (st : SizeState) : Except Fault SizeState :=
  match it with
  | .blank => pure st
  | .order le => pure { st with le }
  | .align maxAlign => pure { st with maxAlign }
  | .pad => pure { st with offset := u32 (st.offset + 1) }
  | .alignTo sz => do
    let offset ← packAlign st.offset sz st.maxAlign
    pure { st with offset }
  | .zstr => raise "variable-length format"
  | .str _ => raise "variable-length format"
  | .fixed sz => pure { st with offset := u32 (st.offset + sz) }
  | .float sz => do
    let offset ← packAlign st.offset sz st.maxAlign
    pure { st with offset := u32 (offset + sz) }
  | .int _ sz => do
    let offset ← packAlign st.offset sz st.maxAlign
    pure { st with offset := u32 (offset + sz) }

/-- The bits of an integer, when it fits. -/
def intBits (parse : List UInt8 → Option Num) (signed : Bool) (sz : ℕ) (arg : PackVal) :
    Except Fault (BitVec 64) := do
  let val ← asIntCo parse arg
  if (if signed then packFitsSigned val.toBitVec sz else packFitsUnsigned val.toBitVec sz) = false then
    raise "data does not fit"
  else pure val.toBitVec

/-- The bits of a float. -/
def floatBits (sz : ℕ) (f : F64) : BitVec 64 := if sz = 4 then f.demote.setWidth 64 else f.bits

/-- What `string.pack` does with an item. -/
def packItem (parse : List UInt8 → Option Num) (args : List PackVal) (it : Item) (st : PackState) :
    Except Fault PackState :=
  let arg := argsAt args st.argIdx
  let argIdx := st.argIdx + 1
  match it with
  | .blank => pure st
  | .order le => pure { st with le }
  | .align maxAlign => pure { st with maxAlign }
  | .pad => do
    let b ← builderAppend st.b [0]
    pure { st with b }
  | .alignTo sz => do
    let b ← builderAlign st.b sz st.maxAlign
    pure { st with b }
  | .zstr => do
    let x ← castStr arg
    if x.contains 0 then raise "string contains zeros"
    else do
      let b ← builderAppend st.b x
      let b ← builderAppend b [0]
      pure { st with argIdx, b }
  | .str n => do
    let x ← castStr arg
    if packFitsUnsigned (BitVec.ofNat 64 x.length) n = false then raise "data does not fit"
    else do
      let b ← builderAlign st.b n st.maxAlign
      let b ← builderWriteInt b n st.le (BitVec.ofNat 64 x.length)
      let b ← builderAppend b x
      pure { st with argIdx, b }
  | .fixed sz => do
    let x ← castStr arg
    if x.length > sz then raise "data does not fit"
    else do
      let b ← builderAppend st.b x
      let b ← builderAppend b (List.replicate (sz - x.length) 0)
      pure { st with argIdx, b }
  | .float sz => do
    let b ← builderAlign st.b sz st.maxAlign
    let f ← asFloat arg
    let b ← builderWriteInt b sz st.le (floatBits sz f)
    pure { st with argIdx, b }
  | .int signed sz => do
    let b ← builderAlign st.b sz st.maxAlign
    let val ← intBits parse signed sz arg
    let b ← builderWriteInt b sz st.le val
    pure { st with argIdx, b }

/-- The float of some bits. -/
def bitsFloat (sz : ℕ) (val : BitVec 64) : F64 := if sz = 4 then F64.promote (val.setWidth 32) else ⟨val⟩

/-- What `string.unpack` does with an item. -/
def unpackItem (subj : List UInt8) (it : Item) (st : UnpackState) : Except Fault UnpackState :=
  match it with
  | .blank => pure st
  | .order le => pure { st with le }
  | .align maxAlign => pure { st with maxAlign }
  | .pad => pure { st with offset := u32 (st.offset + 1) }
  | .alignTo sz => do
    let offset ← packAlign st.offset sz st.maxAlign
    pure { st with offset }
  | .zstr => do
    let sz ← zeroFrom subj (subj.length + 1) st.offset 0
    let x ← takeBytes subj st.offset sz
    { st with offset := u32 (u32 (st.offset + sz) + 1) : UnpackState }.push (.str x)
  | .str n => do
    let offset ← packAlign st.offset n st.maxAlign
    checkRoom subj offset n
    let val ← orTrap (packReadInt subj offset n st.le)
    checkRoom subj (u32 (offset + n)) (u32 val.toNat)
    let x ← takeBytes subj (u32 (offset + n)) (u32 val.toNat)
    { st with offset := u32 (u32 (offset + n) + u32 val.toNat) : UnpackState }.push (.str x)
  | .fixed sz => do
    checkRoom subj st.offset sz
    let x ← takeBytes subj st.offset sz
    { st with offset := u32 (st.offset + sz) : UnpackState }.push (.str x)
  | .float sz => do
    let offset ← packAlign st.offset sz st.maxAlign
    checkRoom subj offset sz
    let val ← orTrap (packReadInt subj offset sz st.le)
    { st with offset := u32 (offset + sz) : UnpackState }.push (.float (bitsFloat sz val))
  | .int signed sz => do
    let offset ← packAlign st.offset sz st.maxAlign
    checkRoom subj offset sz
    let val ← orTrap (packReadInt subj offset sz st.le)
    packCheckFit subj offset sz st.le signed val
    { st with offset := u32 (offset + sz) : UnpackState }.push
      (.int (Int64.ofBitVec (if signed then packSignext val sz else val)))

variable {bytes subj : List UInt8} {args : List PackVal} {parse : List UInt8 → Option Num} {c : UInt8}
  {ppos : ℕ}

/-! ## The loop -/

theorem walk_next {σ : Type} (place : σ → ℕ) {step : σ → Except Fault σ} {len fuel : ℕ} {st : σ} (h : place st < len) :
    walk place step len (fuel + 1) st = (step st >>= walk place step len fuel) := by
  conv_lhs => unfold walk
  rw [if_neg (Nat.not_le.mpr h)]

theorem walk_end {σ : Type} (place : σ → ℕ) {step : σ → Except Fault σ} {len fuel : ℕ} {st : σ} (h : len ≤ place st) :
    walk place step len (fuel + 1) st = .ok st := by
  unfold walk
  rw [if_pos h]
  rfl

/-! ## The interpreters read the same items -/

/-- The size of a float option. -/
theorem packOptSize_float (h : c = chr 'f' ∨ c = chr 'd' ∨ c = chr 'n') :
    packOptSize c bytes ppos = .ok (if c = chr 'f' then 4 else 8, ppos) := by
  obtain rfl | rfl | rfl := h <;> rfl

theorem ite_bind {α β : Type} {P : Prop} [Decidable P] (x y : Except Fault α) (f : α → Except Fault β) :
    (if P then x else y) >>= f = if P then x >>= f else y >>= f :=
  apply_ite (· >>= f) P x y

/-- `string.pack` reads an item and packs it. -/
theorem packStep_eq (st : PackState) :
    packStep parse bytes args st =
      (nextItem bytes st.ppos >>= fun p => packItem parse args p.1 { st with ppos := p.2 }) := by
  unfold packStep nextItem
  rw [bind_assoc]
  refine bind_congr fun c => ?_
  simp only [ite_bind, bind_assoc, pure_bind]
  -- the letters up to the sizes make the same turns
  iterate 9 refine ite_congr rfl (fun _ => rfl) fun _ => ?_
  by_cases h10 : c = chr 'c'
  · simp only [if_pos h10, packItem]
  by_cases h11 : c = chr 'f' ∨ c = chr 'd' ∨ c = chr 'n'
  · simp only [if_neg h10, if_pos h11, packOptSize_float h11, ok_bind, packItem, floatBits]
  simp only [if_neg h10, if_neg h11, packItem, intBits, bind_assoc]
  refine bind_congr fun p => bind_congr fun b => bind_congr fun v => ?_
  -- the test of the value is a part of `intBits`
  by_cases hfit : (if packOptIsSigned c then packFitsSigned v.toBitVec p.1
      else packFitsUnsigned v.toBitVec p.1) = false
  · simp only [if_pos hfit]
    rfl
  · simp only [if_neg hfit, pure_bind]

/-- `string.unpack` reads an item and unpacks it. -/
theorem unpackStep_eq (st : UnpackState) :
    unpackStep bytes subj st =
      (nextItem bytes st.ppos >>= fun p => unpackItem subj p.1 { st with ppos := p.2 }) := by
  unfold unpackStep nextItem
  rw [bind_assoc]
  refine bind_congr fun c => ?_
  simp only [ite_bind, bind_assoc, pure_bind]
  iterate 9 refine ite_congr rfl (fun _ => rfl) fun _ => ?_
  by_cases h10 : c = chr 'c'
  · simp only [if_pos h10, unpackItem]
  by_cases h11 : c = chr 'f' ∨ c = chr 'd' ∨ c = chr 'n'
  · simp only [if_neg h10, if_pos h11, packOptSize_float h11, ok_bind, unpackItem, bitsFloat]
  · simp only [if_neg h10, if_neg h11, unpackItem]

/-! ## What an item is written as -/

/-- The letters of the items that are no integers. -/
def otherLetters : List UInt8 := [' ', '<', '>', '=', '!', 'x', 'X', 'z', 's', 'c', 'f', 'd', 'n'].map chr

/-- The letter `c` and what is behind it, from `ppos` on, are an item that ends at `pp`. -/
inductive ItemAt (bytes : List UInt8) (c : UInt8) (ppos : ℕ) : Item → ℕ → Prop
  | blank (hc : c = chr ' ') : ItemAt bytes c ppos .blank ppos
  | little (hc : c = chr '<' ∨ c = chr '=') : ItemAt bytes c ppos (.order true) ppos
  | big (hc : c = chr '>') : ItemAt bytes c ppos (.order false) ppos
  | align (hc : c = chr '!') {n : ℕ} (hn : packLimits (packNSuffix bytes ppos 8).1 = .ok n) :
      ItemAt bytes c ppos (.align n) (packNSuffix bytes ppos 8).2
  | pad (hc : c = chr 'x') : ItemAt bytes c ppos .pad ppos
  | alignTo (hc : c = chr 'X') {sz pp : ℕ} (hsz : alignOpt bytes ppos = .ok (sz, pp)) :
      ItemAt bytes c ppos (.alignTo sz) pp
  | zstr (hc : c = chr 'z') : ItemAt bytes c ppos .zstr ppos
  | str (hc : c = chr 's') {n : ℕ} (hn : packLimits (packNSuffix bytes ppos 8).1 = .ok n) :
      ItemAt bytes c ppos (.str n) (packNSuffix bytes ppos 8).2
  | fixed (hc : c = chr 'c') {sz pp : ℕ} (hsz : packOptSize c bytes ppos = .ok (sz, pp)) :
      ItemAt bytes c ppos (.fixed sz) pp
  | float (hc : c = chr 'f' ∨ c = chr 'd' ∨ c = chr 'n') {sz pp : ℕ}
      (hsz : packOptSize c bytes ppos = .ok (sz, pp)) : ItemAt bytes c ppos (.float sz) pp
  | int (hc : c ∉ otherLetters) {sz pp : ℕ} (hsz : packOptSize c bytes ppos = .ok (sz, pp)) :
      ItemAt bytes c ppos (.int (packOptIsSigned c) sz) pp

/-- An item of a format is written as one. -/
theorem nextItem_at {it : Item} {pp : ℕ} (h : nextItem bytes ppos = .ok (it, pp)) :
    ∃ c, bytes[ppos]? = some c ∧ ItemAt bytes c (ppos + 1) it pp := by
  unfold nextItem at h
  cases hbyte : bytes[ppos]? with
  | none =>
    rw [hbyte] at h
    cases h
  | some c =>
    rw [hbyte] at h
    unfold orTrap at h
    simp only [ok_bind] at h
    refine ⟨c, rfl, ?_⟩
    -- one case for each letter, in the order of the code
    by_cases h1 : c = chr ' '
    · simp only [if_pos h1] at h
      cases h
      exact .blank h1
    by_cases h2 : c = chr '<'
    · simp only [if_neg h1, if_pos h2] at h
      cases h
      exact .little (Or.inl h2)
    by_cases h3 : c = chr '>'
    · simp only [if_neg h1, if_neg h2, if_pos h3] at h
      cases h
      exact .big h3
    by_cases h4 : c = chr '='
    · simp only [if_neg h1, if_neg h2, if_neg h3, if_pos h4] at h
      cases h
      exact .little (Or.inr h4)
    simp only [if_neg h1, if_neg h2, if_neg h3, if_neg h4] at h
    by_cases h5 : c = chr '!'
    · simp only [if_pos h5] at h
      obtain ⟨n, hn, h⟩ := of_bind_ok h
      cases h
      exact .align h5 hn
    by_cases h6 : c = chr 'x'
    · simp only [if_neg h5, if_pos h6] at h
      cases h
      exact .pad h6
    by_cases h7 : c = chr 'X'
    · simp only [if_neg h5, if_neg h6, if_pos h7] at h
      obtain ⟨r, hr, h⟩ := of_bind_ok h
      cases h
      exact .alignTo h7 hr
    simp only [if_neg h5, if_neg h6, if_neg h7] at h
    by_cases h8 : c = chr 'z'
    · simp only [if_pos h8] at h
      cases h
      exact .zstr h8
    by_cases h9 : c = chr 's'
    · simp only [if_neg h8, if_pos h9] at h
      obtain ⟨n, hn, h⟩ := of_bind_ok h
      cases h
      exact .str h9 hn
    simp only [if_neg h8, if_neg h9] at h
    obtain ⟨r, hr, h⟩ := of_bind_ok h
    by_cases h10 : c = chr 'c'
    · simp only [if_pos h10] at h
      cases h
      exact .fixed h10 hr
    by_cases h11 : c = chr 'f' ∨ c = chr 'd' ∨ c = chr 'n'
    · simp only [if_neg h10, if_pos h11] at h
      cases h
      exact .float h11 hr
    · simp only [if_neg h10, if_neg h11] at h
      cases h
      exact .int (by simp [otherLetters, *]) hr

/-- `string.packsize` reads an item and adds it up, if the item is one that has a size. -/
theorem packsizeStep_eq {st : SizeState} {it : Item} (h : nextItem bytes st.ppos = .ok (it, ppos)) :
    packsizeStep bytes st = sizeItem it { st with ppos } := by
  obtain ⟨c, hbyte, hat⟩ := nextItem_at h
  unfold packsizeStep
  rw [hbyte]
  unfold orTrap
  simp only [ok_bind]
  cases hat with
  | blank hc =>
    subst hc
    rfl
  | little hc => obtain rfl | rfl := hc <;> rfl
  | big hc =>
    subst hc
    rfl
  | align hc hn =>
    subst hc
    change (packLimits _ >>= _) = _
    rw [hn]
    rfl
  | pad hc =>
    subst hc
    rfl
  | alignTo hc hsz =>
    subst hc
    change (alignOpt _ _ >>= _) = _
    rw [hsz]
    rfl
  | zstr hc =>
    subst hc
    rfl
  | str hc hn =>
    subst hc
    rfl
  | fixed hc hsz =>
    subst hc
    change (packOptSize _ _ _ >>= _) = _
    rw [hsz]
    rfl
  | float hc hsz =>
    rw [hsz]
    obtain rfl | rfl | rfl := hc <;> rfl
  | int hc hsz =>
    simp only [otherLetters, List.map_cons, List.map_nil, List.mem_cons, not_or] at hc
    simp only [hc, if_false, hsz]
    rfl

end Lua2wasm.Pack
