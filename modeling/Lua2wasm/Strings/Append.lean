import Lua2wasm.Strings.Cache

/-!
# Concatenation makes the bytes of its operands

`luaConcat_spec`: `..` makes a string that stands for the bytes of its operands, one after the other, or
raises `too large`, and every string that there was stands for what it stood for. An append in place
writes to the part of the buffer's array that no version uses (`bufAppend_spec`), and an operand that is
flattened on the way gets an array of its own.
-/

namespace Lua2wasm.Strings

open Raising
open Table (Fault strHash)

/-- The bytes of an operand. -/
def Operand.text (host : HostFmt) (vals : List (List UInt8)) : Operand → Option (List UInt8)
  | .str s => vals[s]?
  | .int v => some (decimal v.toInt)
  | .float f => some (host.bytes f)

/-- An operand with the bytes `y`, and the array that has them, if there is one. -/
structure Piece (host : HostFmt) (h : StrHeap) (vals : List (List UInt8)) (v : Operand) (bytes : Option ℕ)
    (y : List UInt8) : Prop where
  /-- The bytes. -/
  text : v.text host vals = some y
  /-- The array. -/
  arr : ∀ r, bytes = some r → h.arrs[r]? = some y ∧ ∀ (b : ℕ) (B : StrBuf), h.bufs[b]? = some B → B.arr ≠ r
  /-- A float has its bytes. -/
  float : bytes = none → ∀ f, v ≠ .float f

/-- What a write to the array `out` leaves alone. -/
structure Touches (out : ℕ) (h h' : StrHeap) : Prop where
  /-- The other arrays. -/
  arrs : ∀ (r : ℕ) (a : List UInt8), r ≠ out → h.arrs[r]? = some a → h'.arrs[r]? = some a
  /-- The buffers. -/
  bufs : h'.bufs = h.bufs
  /-- The string has the array already, or the array is new. -/
  bytes : ∀ (s : ℕ) (o : StrObj) (r : ℕ), h'.strs[s]? = some o → o.bytes = some r → r < h.arrs.length →
    ∃ o', h.strs[s]? = some o' ∧ o'.bytes = some r

variable {host : HostFmt} {h h' h'' : StrHeap} {vals vals' : List (List UInt8)} {v : Operand} {bytes : Option ℕ}
  {x y a : List UInt8} {s r p b n out : ℕ} {E : Fault → StrHeap → Prop}

theorem Operand.text_of_initial (hp : vals <+: vals') (ht : v.text host vals = some y) :
    v.text host vals' = some y := by
  cases v with
  | str s => exact getElem?_of_initial hp ht
  | int v => exact ht
  | float f => exact ht

theorem Holds.text_short (hh : Holds h vals) (ht : v.text host vals = some y) : y.length < 2^31 := by
  cases v with
  | str s => exact hh.short ht
  | int v =>
    cases ht
    have := length_decimal_le v
    omega
  | float f =>
    cases ht
    have := host.fits f
    omega

theorem Piece.kept (hp : Piece host h vals v bytes y) (hk : Kept h h') (hv : vals <+: vals') :
    Piece host h' vals' v bytes y where
  text := Operand.text_of_initial hv hp.text
  arr r hr := by
    obtain ⟨ha, hfree⟩ := hp.arr r hr
    rw [hk.bufs]
    exact ⟨getElem?_of_initial hk.arrs ha, hfree⟩
  float := hp.float

theorem Piece.touches (hp : Piece host h vals v bytes y) (ht : Touches out h h') (hne : bytes ≠ some out) :
    Piece host h' vals v bytes y where
  text := hp.text
  arr r hr := by
    obtain ⟨ha, hfree⟩ := hp.arr r hr
    rw [ht.bufs]
    exact ⟨ht.arrs r y (fun heq => hne (heq ▸ hr)) ha, hfree⟩
  float := hp.float

/-- A new array is none of the operand's. -/
theorem Piece.ne_new (hp : Piece host h vals v bytes y) : bytes ≠ some h.arrs.length := by
  intro hr
  have hget := (hp.arr _ hr).1
  rw [List.getElem?_eq_none (Nat.le_refl _)] at hget
  cases hget

theorem Touches.private (ht : Touches out h h') (ha : h.arrs[r]? = some a) (hp : Private h r) : Private h' r where
  str s o ho hb := by
    obtain ⟨o', ho', hb'⟩ := ht.bytes s o r ho hb (List.getElem?_eq_some_iff.mp ha).1
    exact hp.str s o' ho' hb'
  buf b B hB := by
    rw [ht.bufs] at hB
    exact hp.buf b B hB

/-- A read, and then a write to an array that was there before. -/
theorem Reads.touches_setArr (hr : Reads h h') (a : List UInt8) :
    Touches out h { h' with arrs := h'.arrs.set out a } where
  arrs r c hne hc := by
    change (h'.arrs.set out a)[r]? = some c
    rw [List.getElem?_set_ne (Ne.symm hne)]
    exact getElem?_of_initial hr.arrs hc
  bufs := hr.bufs
  bytes := hr.bytes

/-! ## The pieces of a result -/

/-- `$concat_piece` gives the length of the bytes, and the bytes of a float. -/
theorem concatPiece_spec (hh : Holds h vals) (ht : v.text host vals = some y) :
    ∃ bytes h', Returns (concatPiece host v) h (bytes, y.length) h' ∧ Holds h' vals ∧ Kept h h' ∧
      h'.strs = h.strs ∧ Piece host h' vals v bytes y := by
  cases v with
  | str s =>
    obtain ⟨o, ho, hok⟩ := hh.obj ht
    refine ⟨o.bytes, h, ?_, hh, Kept.refl, rfl, ht, ?_, ?_⟩
    · unfold concatPiece
      exact (strOf_returns ho).bind ((strLength_spec hh ht).bind rfl)
    · intro r hr
      exact ⟨hok.bytes r hr, fun b B hB heq => hh.apart s o b B ho hB (heq ▸ hr)⟩
    · intro _ f hf
      cases hf
  | int v =>
    cases ht
    refine ⟨none, h, ?_, hh, Kept.refl, rfl, rfl, ?_, ?_⟩
    · unfold concatPiece
      dsimp only
      rw [intLen_spec]
      rfl
    · intro r hr
      cases hr
    · intro _ f hf
      cases hf
  | float f =>
    cases ht
    have hself : (h.arrs ++ [host.bytes f])[h.arrs.length]? = some (host.bytes f) := by
      simp
    refine ⟨some h.arrs.length, { h with arrs := h.arrs ++ [host.bytes f] }, ?_, hh.newArr _, kept_newArr, rfl, rfl,
      ?_, ?_⟩
    · unfold concatPiece floatToBytes
      exact newArr_returns.bind ((arrOf_returns hself).bind rfl)
    · intro r hr
      cases hr
      exact ⟨hself, (hh.private_newArr _).buf⟩
    · intro hnone
      cases hnone

/-- `$concat_put` writes the bytes of the operand at the position. -/
theorem concatPut_spec (hh : Holds h vals) (hp : Piece host h vals v bytes y) (ha : h.arrs[out]? = some a)
    (hspare : Spare h out p) {pos : ℕ} (hpos : p ≤ pos) (hroom : pos + y.length ≤ a.length) :
    ∃ h', Returns (concatPut out pos v bytes y.length) h (pos + y.length) h' ∧ Holds h' vals ∧ Touches out h h' ∧
      h'.arrs[out]? = some (a.take pos ++ y ++ a.drop (pos + y.length)) := by
  have hout : out < h.arrs.length := (List.getElem?_eq_some_iff.mp ha).1
  have hlen : (a.take pos ++ y ++ a.drop (pos + y.length)).length = a.length := by
    simp only [List.length_append, List.length_take, List.length_drop]
    omega
  have htake : (a.take pos ++ y ++ a.drop (pos + y.length)).take p = a.take p := by
    rw [List.append_assoc, List.take_append_of_le_length (by rw [List.length_take]; omega), List.take_take,
      Nat.min_eq_left hpos]
  -- the end of each case: the bytes are written
  have hend : ∀ h₁, Holds h₁ vals → Reads h h₁ →
      Holds { h₁ with arrs := h₁.arrs.set out (a.take pos ++ y ++ a.drop (pos + y.length)) } vals ∧
      Touches out h { h₁ with arrs := h₁.arrs.set out (a.take pos ++ y ++ a.drop (pos + y.length)) } ∧
      (h₁.arrs.set out (a.take pos ++ y ++ a.drop (pos + y.length)))[out]? =
        some (a.take pos ++ y ++ a.drop (pos + y.length)) := by
    intro h₁ hh₁ hreads
    refine ⟨hh₁.setArr (getElem?_of_initial hreads.arrs ha) (hreads.spare ha hspare) hlen htake,
      hreads.touches_setArr _, List.getElem?_set_self ?_⟩
    exact Nat.lt_of_lt_of_le hout hreads.arrs.length_le
  have hcopy : ∀ h₁ r, Reads h h₁ → h₁.arrs[r]? = some y → Returns (copyTo out pos r y.length) h₁ ()
      { h₁ with arrs := h₁.arrs.set out (a.take pos ++ y ++ a.drop (pos + y.length)) } := by
    intro h₁ r hreads hr
    have hret := copyTo_returns (p := pos) (n := y.length) (getElem?_of_initial hreads.arrs ha) hr hroom
      (Nat.le_refl _)
    rw [List.take_length] at hret
    exact hret
  unfold concatPut
  cases hb : bytes with
  | some r =>
    obtain ⟨hr, -⟩ := hp.arr r hb
    exact ⟨_, (hcopy h r Reads.refl hr).bind rfl, hend h hh Reads.refl⟩
  | none =>
    cases v with
    | str s =>
      obtain ⟨r, h₁, hret, hh₁, hreads, hr, -⟩ := strBytes_spec hh hp.text
      exact ⟨_, hret.bind ((hcopy h₁ r hreads hr).bind rfl), hend h₁ hh₁ hreads⟩
    | int i =>
      have htext : decimal i.toInt = y := Option.some.inj hp.text
      refine ⟨_, ?_, hend h hh Reads.refl⟩
      apply (arrOf_returns ha).bind
      have hwrite := intWrite_spec a (pos + y.length) i (by rw [htext]; omega) hroom
      rw [htext, Nat.add_sub_cancel] at hwrite
      exact (orTrap_returns hwrite).bind (setArr_returns.bind rfl)
    | float f => exact absurd rfl (hp.float hb f)

/-- A new array with the bytes `x` at its start. -/
structure Filling (h : StrHeap) (vals : List (List UInt8)) (out n : ℕ) (x : List UInt8) : Prop where
  /-- The strings. -/
  holds : Holds h vals
  /-- Nothing else has the array. -/
  priv : Private h out
  /-- The array. -/
  arr : ∃ a, h.arrs[out]? = some a ∧ a.length = n ∧ a.take x.length = x

theorem Holds.filling (hh : Holds h vals) (n : ℕ) :
    Filling { h with arrs := h.arrs ++ [List.replicate n 0] } vals h.arrs.length n [] where
  holds := hh.newArr _
  priv := hh.private_newArr _
  arr := ⟨List.replicate n 0, by simp, List.length_replicate, rfl⟩

/-- One more piece. -/
theorem Filling.put (hf : Filling h vals out n x) (hp : Piece host h vals v bytes y)
    (hroom : (x ++ y).length ≤ n) :
    ∃ h', Returns (concatPut out x.length v bytes y.length) h (x ++ y).length h' ∧ Filling h' vals out n (x ++ y) ∧
      Touches out h h' := by
  obtain ⟨a, ha, rfl, htake⟩ := hf.arr
  rw [List.length_append] at hroom
  obtain ⟨h', hret, hh', htouch, ha'⟩ := concatPut_spec hf.holds hp ha hf.priv.spare (Nat.zero_le x.length) hroom
  refine ⟨h', by rw [List.length_append]; exact hret, ⟨hh', htouch.private ha hf.priv, _, ha', ?_, ?_⟩, htouch⟩
  · simp only [List.length_append, List.length_take, List.length_drop]
    omega
  · rw [htake, List.take_left']
    rfl

/-- All pieces are written. -/
theorem Filling.finish (hf : Filling h vals out n x) (hn : x.length = n) (hshort : n < 2^31) :
    Meets (strOfBytes out 0) h (Made vals x) E := by
  obtain ⟨a, ha, hlen, htake⟩ := hf.arr
  have hax : a = x := by
    rw [← htake, hn, ← hlen, List.take_length]
  subst hax
  exact (strOfBytes_spec hf.holds ha hf.priv (by omega) (by omega)).mono (fun _ _ hm => hm.1) fun _ _ he => he

/-! ## Buffers -/

theorem le_bufCap (hn : n < 2^31) : n ≤ bufCap n := by
  unfold bufCap
  split <;> omega

/-- Beyond the used part, the array of a buffer may be written. -/
theorem Holds.spare_buf {B : StrBuf} (hh : Holds h vals) (hB : h.bufs[b]? = some B) : Spare h B.arr B.used where
  str s o ho := hh.apart s o b B ho hB
  buf b' B' hB' heq := by
    obtain rfl := hh.own b' b B' B hB' hB heq
    rw [hB] at hB'
    cases hB'
    exact Nat.le_refl _

/-- A buffer gets room for `n` bytes, and keeps those that it uses. -/
theorem bufRoom_spec (host : HostFmt) {B : StrBuf} (hh : Holds h vals) (hB : h.bufs[b]? = some B) (ha : h.arrs[B.arr]? = some a)
    (hused : B.used ≤ a.length) (hn : n < 2^31) :
    ∃ arr h' a', Returns (bufRoom b B.used n) h arr h' ∧ Holds h' vals ∧ h'.bufs[b]? = some ⟨arr, B.used⟩ ∧
      h'.arrs[arr]? = some a' ∧ n ≤ a'.length ∧ a'.take B.used = a.take B.used ∧ h'.strs = h.strs ∧
      ∀ (v : Operand) (bytes : Option ℕ) (y : List UInt8),
        Piece host h vals v bytes y → Piece host h' vals v bytes y := by
  unfold bufRoom
  by_cases hbig : n > a.length
  · have hcap := le_bufCap hn
    have hself : (h.arrs ++ [List.replicate (bufCap n) (0 : UInt8)])[h.arrs.length]? =
        some (List.replicate (bufCap n) 0) := by
      simp
    have hold : (h.arrs ++ [List.replicate (bufCap n) (0 : UInt8)])[B.arr]? = some a :=
      getElem?_of_initial (List.prefix_append _ _) ha
    -- the bytes in use are copied to a larger array
    have hcopy := copyTo_returns (h := { h with arrs := h.arrs ++ [List.replicate (bufCap n) 0] }) (p := 0)
      (n := B.used) hself hold (by rw [List.length_replicate]; omega) hused
    obtain ⟨a', ha'⟩ : ∃ a', a' = (List.replicate (bufCap n) (0 : UInt8)).take 0 ++ a.take B.used ++
        (List.replicate (bufCap n) 0).drop (0 + B.used) := ⟨_, rfl⟩
    rw [← ha'] at hcopy
    have htake : a'.take B.used = a.take B.used := by
      rw [ha', List.take_zero, List.nil_append, List.take_left']
      rw [List.length_take]
      omega
    have hlen : a'.length = bufCap n := by
      rw [ha']
      simp only [List.take_zero, List.nil_append, List.length_append, List.length_take, List.length_drop,
        List.length_replicate]
      omega
    have hset : (h.arrs ++ [List.replicate (bufCap n) (0 : UInt8)]).set h.arrs.length a' = h.arrs ++ [a'] := by
      simp
    have hpriv := hh.private_newArr a'
    have hself' : (h.arrs ++ [a'])[h.arrs.length]? = some a' := by
      simp
    have hh' := (hh.newArr a').setBuf { B with arr := h.arrs.length } hB (Or.inr hpriv)
      (getElem?_of_initial (List.prefix_append _ _) ha) hself' htake (Nat.le_refl _) (by rw [hlen]; change B.used ≤ _; omega)
    have hlt : b < h.bufs.length := (List.getElem?_eq_some_iff.mp hB).1
    refine ⟨h.arrs.length, _, a', ?_, hh', ?_, hself', ?_, htake, rfl, ?_⟩
    · apply (bufOf_returns hB).bind
      apply (arrOf_returns ha).bind
      rw [if_pos hbig]
      apply newArr_returns.bind
      apply hcopy.bind
      simp only [hset]
      exact setBuf_returns.bind rfl
    · exact List.getElem?_set_self hlt
    · rw [hlen]
      exact hcap
    · intro v bytes y hp
      refine ⟨hp.text, ?_, hp.float⟩
      intro r hr
      -- no piece is read from the new array
      obtain ⟨hget, hfree⟩ := hp.arr r hr
      refine ⟨getElem?_of_initial (List.prefix_append _ _) hget, ?_⟩
      intro i B₁ hi
      change (h.bufs.set b { B with arr := h.arrs.length })[i]? = some B₁ at hi
      obtain ⟨-, rfl⟩ | ⟨-, hi⟩ := Probe.of_getElem?_set hi
      · exact (Nat.ne_of_lt (List.getElem?_eq_some_iff.mp hget).1).symm
      · exact hfree i B₁ hi
  · refine ⟨B.arr, h, a, ?_, hh, hB, ha, by omega, rfl, rfl, fun _ _ _ hp => hp⟩
    apply (bufOf_returns hB).bind
    apply (arrOf_returns ha).bind
    rw [if_neg hbig]
    rfl

/-- The end of `$buf_append` and `$buf_start`: a new version of the buffer. -/
theorem newVersion_made {B : StrBuf} (hh : Holds h vals) (hB : h.bufs[b]? = some B) (ha : h.arrs[B.arr]? = some a)
    (hx : a.take x.length = x) (hlen : x.length ≤ B.used) (hshort : x.length < 2^31) :
    Meets (newStr ⟨none, 0, .buf x.length (some b)⟩) h (Made vals x) E := by
  have hobj : ObjOk h vals h.strs.length ⟨none, 0, .buf x.length (some b)⟩ x := by
    refine ⟨hshort, fun hne => absurd rfl hne, ?_, ?_, ?_, ?_, ?_⟩
    · intro r hr
      cases hr
    · intro _ hkind
      cases hkind
    · intro len left right hkind
      cases hkind
    · intro len buf hkind _ hbuf
      cases hkind
      cases hbuf
    · intro len b' hkind
      cases hkind
      exact ⟨rfl, B, a, hB, ha, hlen, hx⟩
  refine newStr_returns.meets ⟨vals ++ [x], List.prefix_append _ _, hh.newStr hobj ?_, ?_⟩
  · intro r hr
    cases hr
  · rw [← hh.length]
    simp

/-- `$buf_append` writes beyond what the buffer uses. -/
theorem bufAppend_spec {B : StrBuf} {sb : Option ℕ} (hh : Holds h vals) (hB : h.bufs[b]? = some B)
    (ha : h.arrs[B.arr]? = some a) (hx : a.take x.length = x) (hlast : x.length = B.used)
    (hroom : B.used ≤ a.length) (hp : Piece host h vals v sb y) (hshort : (x ++ y).length < 2^31) :
    Meets (bufAppend b x.length v sb (x ++ y).length) h (Made vals (x ++ y)) E := by
  have hxy : (x ++ y).length = x.length + y.length := List.length_append
  obtain ⟨arr, h₁, a₁, hret₁, hh₁, hB₁, ha₁, hroom₁, htake₁, -, hpiece⟩ :=
    bufRoom_spec host hh hB ha hroom hshort
  have hp₁ := hpiece v sb y hp
  have hspare : Spare h₁ arr B.used := hh₁.spare_buf hB₁
  obtain ⟨h₂, hret₂, hh₂, htouch, ha₂⟩ := concatPut_spec hh₁ hp₁ ha₁ hspare (Nat.le_of_eq hlast.symm)
    (show x.length + y.length ≤ a₁.length by omega)
  have hB₂ : h₂.bufs[b]? = some ⟨arr, B.used⟩ := by
    rw [htouch.bufs]
    exact hB₁
  have hlt : b < h₂.bufs.length := (List.getElem?_eq_some_iff.mp hB₂).1
  have htext : (a₁.take x.length ++ y ++ a₁.drop (x.length + y.length)).take (x ++ y).length = x ++ y := by
    have hcut : a₁.take x.length = x := by
      rw [hlast, htake₁, ← hlast, hx]
    rw [hcut, List.take_left']
    rfl
  have hh₃ := hh₂.setBuf ⟨arr, (x ++ y).length⟩ hB₂ (Or.inl rfl) ha₂ ha₂ rfl
    (show B.used ≤ (x ++ y).length by omega) (by
      simp only [List.length_append, List.length_take, List.length_drop]
      omega)
  unfold bufAppend
  rw [← hlast] at hret₁
  apply hret₁.bind_meets
  rw [show (x ++ y).length - x.length = y.length by omega]
  apply hret₂.bind_meets
  apply (bufOf_returns hB₂).bind_meets
  apply setBuf_returns.bind_meets
  exact newVersion_made hh₃ (List.getElem?_set_self hlt) ha₂ htext (Nat.le_refl _) hshort

/-- `$buf_start` writes the node and the operand into a new buffer. -/
theorem bufStart_spec {sb : Option ℕ} {o : StrObj} (hh : Holds h vals) (hx : vals[s]? = some x)
    (ho : h.strs[s]? = some o) (hlen : o.kind.len = some x.length) (hp : Piece host h vals v sb y)
    (hshort : (x ++ y).length < 2^31) :
    Meets (bufStart s v sb (x ++ y).length) h (Made vals (x ++ y)) E := by
  have hxy : (x ++ y).length = x.length + y.length := List.length_append
  have hcap := le_bufCap hshort
  obtain ⟨a, ha⟩ : ∃ a, a = List.replicate (bufCap (x ++ y).length) (0 : UInt8) := ⟨_, rfl⟩
  have hself : (h.arrs ++ [a])[h.arrs.length]? = some a := by
    simp
  have halen : a.length = bufCap (x ++ y).length := by
    rw [ha, List.length_replicate]
  have hpriv := hh.private_newArr a
  have hwrite := lazyWrite_into_returns (hh.newArr a) hpriv.spare hself hx (by omega)
  obtain ⟨a₁, ha₁⟩ : ∃ a₁, a₁ = x ++ a.drop x.length := ⟨_, rfl⟩
  have hset : (h.arrs ++ [a]).set h.arrs.length a₁ = h.arrs ++ [a₁] := by
    simp
  rw [← ha₁] at hwrite
  simp only [hset] at hwrite
  have ha₁len : a₁.length = a.length := by
    rw [ha₁, List.length_append, List.length_drop]
    omega
  have hself₁ : (h.arrs ++ [a₁])[h.arrs.length]? = some a₁ := by
    simp
  have hpriv₁ := hh.private_newArr a₁
  obtain ⟨h₂, hret₂, hh₂, htouch, ha₂⟩ := concatPut_spec (hh.newArr a₁)
    (hp.kept kept_newArr List.prefix_rfl) hself₁ hpriv₁.spare (Nat.zero_le x.length) (by omega)
  have htext : (a₁.take x.length ++ y ++ a₁.drop (x.length + y.length)).take (x ++ y).length = x ++ y := by
    have hcut : a₁.take x.length = x := by
      rw [ha₁, List.take_left']
      rfl
    rw [hcut, List.take_left']
    rfl
  have hh₃ := hh₂.newBuf (B := ⟨h.arrs.length, (x ++ y).length⟩) (htouch.private hself₁ hpriv₁) ha₂ (by
    simp only [List.length_append, List.length_take, List.length_drop]
    omega)
  unfold bufStart
  apply (strOf_returns ho).bind_meets
  apply (orTrap_returns hlen).bind_meets
  apply newArr_returns.bind_meets
  rw [← ha]
  apply hwrite.bind_meets
  rw [show (x ++ y).length - x.length = y.length by omega]
  apply hret₂.bind_meets
  apply newBuf_returns.bind_meets
  have hB : (h₂.bufs ++ [(⟨h.arrs.length, (x ++ y).length⟩ : StrBuf)])[h₂.bufs.length]? =
      some ⟨h.arrs.length, (x ++ y).length⟩ := by
    simp
  exact newVersion_made hh₃ hB ha₂ htext (Nat.le_refl _) hshort

/-! ## Nodes -/

/-- `$concat_str` makes a string of the operand. -/
theorem concatStr_spec (hh : Holds h vals) (hp : Piece host h vals v bytes y) :
    Meets (concatStr v bytes) h (fun s h' => Made vals y s h' ∧ Kept h h') E := by
  have hshort := hh.text_short hp.text
  have harr : ∀ r, bytes = some r →
      Meets (newStr ⟨some r, 0, .flat⟩) h (fun s h' => Made vals y s h' ∧ Kept h h') E := by
    intro r hr
    obtain ⟨ha, hfree⟩ := hp.arr r hr
    exact newStr_made _ hh ha hshort hfree (fun hne => absurd rfl hne)
  cases v with
  | str s => exact meets_pure ⟨⟨vals, List.prefix_rfl, hh, hp.text⟩, Kept.refl⟩
  | int i =>
    cases hb : bytes with
    | some r => exact harr r hb
    | none =>
      have htext : decimal i.toInt = y := Option.some.inj hp.text
      unfold concatStr
      dsimp only
      rw [intToBytes_spec, htext]
      apply (orTrap_returns rfl).bind_meets
      apply newArr_returns.bind_meets
      have hself : (h.arrs ++ [y])[h.arrs.length]? = some y := by
        simp
      refine (strOfBytes_spec (hh.newArr y) hself (hh.private_newArr y) hshort (by omega)).mono ?_ fun _ _ he => he
      intro s h' hm
      exact ⟨hm.1, kept_newArr.trans hm.2⟩
  | float f =>
    cases hb : bytes with
    | some r => exact harr r hb
    | none => exact absurd rfl (hp.float hb f)

/-- A node stands for the bytes of its two operands. -/
theorem concatNode_spec {a b : Operand} {sa sb : Option ℕ} (hh : Holds h vals) (ha : Piece host h vals a sa x)
    (hb : Piece host h vals b sb y) (hshort : (x ++ y).length < 2^31) :
    Meets (concatNode a sa b sb (x ++ y).length) h (Made vals (x ++ y)) E := by
  unfold concatNode
  apply (concatStr_spec hh ha).bind
  rintro l h₁ ⟨⟨vals₁, hpre₁, hh₁, hl⟩, hkept₁⟩
  apply (concatStr_spec hh₁ (hb.kept hkept₁ hpre₁)).bind
  rintro r h₂ ⟨⟨vals₂, hpre₂, hh₂, hr⟩, -⟩
  have hl₂ := getElem?_of_initial hpre₂ hl
  have hobj : ObjOk h₂ vals₂ h₂.strs.length ⟨none, 0, .rope (x ++ y).length (some l) (some r)⟩ (x ++ y) := by
    refine ⟨hshort, fun hne => absurd rfl hne, ?_, ?_, ?_, ?_, ?_⟩
    · intro q hq
      cases hq
    · intro _ hkind
      cases hkind
    · intro len left right hkind _
      cases hkind
      exact ⟨rfl, l, r, x, y, rfl, rfl, hh₂.lt hl₂, hh₂.lt hr, hl₂, hr, rfl⟩
    · intro len buf hkind
      cases hkind
    · intro len q hkind
      cases hkind
  refine newStr_returns.meets ⟨vals₂ ++ [x ++ y], (hpre₁.trans hpre₂).trans (List.prefix_append _ _),
    hh₂.newStr hobj ?_, ?_⟩
  · intro q hq
    cases hq
  · rw [← hh₂.length]
    simp

/-! ## The operator -/

/-- The result is too long. -/
def TooLarge (vals : List (List UInt8)) (x : List UInt8) (e : Fault) (h : StrHeap) : Prop :=
  e = .raised "too large" ∧ 2^31 ≤ x.length ∧ ∃ vals', vals <+: vals' ∧ Holds h vals'

/-- `$concat_lazy` on a length in bounds. -/
theorem concatLong_spec {a b : Operand} {sa sb : Option ℕ} (hh : Holds h vals) (ha : Piece host h vals a sa x)
    (hb : Piece host h vals b sb y) (hshort : (x ++ y).length < 2^31) :
    Meets (concatLong a sa b sb (x ++ y).length) h (Made vals (x ++ y)) E := by
  have hnode := concatNode_spec (E := E) hh ha hb hshort
  unfold concatLong
  cases a with
  | int v => exact hnode
  | float f => exact hnode
  | str s =>
    have hx : vals[s]? = some x := ha.text
    obtain ⟨o, ho, hok⟩ := hh.obj hx
    apply (strOf_returns ho).bind_meets
    split
    · rename_i len buf hkind
      obtain ⟨rfl, B, c, hB, hc, hused, hcut⟩ := hok.buf len buf hkind
      obtain ⟨c', hc', hroom⟩ := hh.bufs buf B hB
      rw [hc] at hc'
      cases hc'
      apply (bufOf_returns hB).bind_meets
      split
      · rename_i hlast
        exact bufAppend_spec hh hB hc hcut hlast hroom hb hshort
      · exact hnode
    · rename_i len left right hkind hbytes
      have hlen : o.kind.len = some x.length := by
        rw [hkind, ← (hok.rope len left right hkind hbytes).1]
        rfl
      exact bufStart_spec hh hx ho hlen hb hshort
    · exact hnode

/-- `$lua_concat` makes the bytes of its two operands. -/
theorem luaConcat_spec {a b : Operand} (hh : Holds h vals) (ha : a.text host vals = some x)
    (hb : b.text host vals = some y) :
    Meets (luaConcat host a b) h (Made vals (x ++ y)) (TooLarge vals (x ++ y)) := by
  have hxs := hh.text_short ha
  have hys := hh.text_short hb
  have hxy : (x ++ y).length = x.length + y.length := List.length_append
  obtain ⟨sa, h₁, hret₁, hh₁, hkept₁, -, hpa⟩ := concatPiece_spec hh ha
  obtain ⟨sb, h₂, hret₂, hh₂, hkept₂, -, hpb⟩ := concatPiece_spec hh₁ hb
  have hpa₂ := hpa.kept hkept₂ List.prefix_rfl
  have hmod : (x.length + y.length) % 2^32 = x.length + y.length := Nat.mod_eq_of_lt (by omega)
  unfold luaConcat
  apply hret₁.bind_meets
  apply hret₂.bind_meets
  dsimp only
  rw [hmod, ← hxy]
  split
  · unfold concatLazy
    split
    · exact meets_throw ⟨rfl, by omega, vals, List.prefix_rfl, hh₂⟩
    · exact concatLong_spec hh₂ hpa₂ hpb (by omega)
  · have hfill := hh₂.filling (x ++ y).length
    obtain ⟨h₃, hret₃, hfill₃, htouch₃⟩ := hfill.put (hpa₂.kept kept_newArr List.prefix_rfl)
      (by rw [List.nil_append]; omega)
    obtain ⟨h₄, hret₄, hfill₄, -⟩ := hfill₃.put
      ((hpb.kept kept_newArr List.prefix_rfl).touches htouch₃ hpb.ne_new) (by rw [List.nil_append])
    apply newArr_returns.bind_meets
    apply hret₃.bind_meets
    apply hret₄.bind_meets
    rw [List.nil_append] at hfill₄
    exact hfill₄.finish rfl (by omega)

/-- A string is made first, and then one that ends with it. -/
theorem made_after {m : StrM ℕ} {f : ℕ → StrM ℕ} (hm : Meets m h (Made vals y) (TooLarge vals y))
    (hf : ∀ (r : ℕ) (h' : StrHeap) (vals' : List (List UInt8)), vals <+: vals' → Holds h' vals' →
      vals'[r]? = some y → Meets (f r) h' (Made vals' (x ++ y)) (TooLarge vals' (x ++ y))) :
    Meets (m >>= f) h (Made vals (x ++ y)) (TooLarge vals (x ++ y)) := by
  have hm' : Meets m h (Made vals y) (TooLarge vals (x ++ y)) := hm.mono (fun _ _ hr => hr) (by
    rintro e h' ⟨he, hlen, hrest⟩
    refine ⟨he, ?_, hrest⟩
    rw [List.length_append]
    omega)
  apply hm'.bind
  rintro r h₁ ⟨vals₁, hpre₁, hh₁, hr⟩
  refine (hf r h₁ vals₁ hpre₁ hh₁ hr).mono ?_ ?_
  · rintro s h₂ ⟨vals₂, hpre₂, hrest⟩
    exact ⟨vals₂, hpre₁.trans hpre₂, hrest⟩
  · rintro e h₂ ⟨he, hlen, vals₂, hpre₂, hrest⟩
    exact ⟨he, hlen, vals₂, hpre₁.trans hpre₂, hrest⟩

/-- An operand before a string that is made first. -/
theorem luaConcat_after {a : Operand} {m : StrM ℕ} (hm : Meets m h (Made vals y) (TooLarge vals y))
    (ha : a.text host vals = some x) :
    Meets (m >>= fun r => luaConcat host a (.str r)) h (Made vals (x ++ y)) (TooLarge vals (x ++ y)) :=
  made_after hm fun _ _ _ hpre hh hr => luaConcat_spec hh (Operand.text_of_initial hpre ha) (b := .str _) hr

/-- `$lua_concat3` makes the bytes of its three operands. -/
theorem luaConcat3_spec {z : List UInt8} {a b c : Operand} (hh : Holds h vals) (ha : a.text host vals = some x)
    (hb : b.text host vals = some y) (hc : c.text host vals = some z) :
    Meets (luaConcat3 host a b c) h (Made vals (x ++ (y ++ z))) (TooLarge vals (x ++ (y ++ z))) := by
  obtain ⟨sa, h₁, hret₁, hh₁, hkept₁, -, hpa⟩ := concatPiece_spec hh ha
  obtain ⟨sb, h₂, hret₂, hh₂, hkept₂, -, hpb⟩ := concatPiece_spec hh₁ hb
  obtain ⟨sc, h₃, hret₃, hh₃, hkept₃, -, hpc⟩ := concatPiece_spec hh₂ hc
  have hpa₃ := hpa.kept (hkept₂.trans hkept₃) List.prefix_rfl
  have hpb₃ := hpb.kept hkept₃ List.prefix_rfl
  have hlen : (x ++ y ++ z).length = x.length + (y.length + z.length) := by
    simp only [List.length_append]
    omega
  unfold luaConcat3
  apply hret₁.bind_meets
  apply hret₂.bind_meets
  apply hret₃.bind_meets
  dsimp only
  split
  · exact luaConcat_after (luaConcat_spec hh₃ hb hc) ha
  · rename_i hsmall
    rw [← hlen] at hsmall ⊢
    have hfill := hh₃.filling (x ++ y ++ z).length
    obtain ⟨h₄, hret₄, hfill₄, htouch₄⟩ := hfill.put (hpa₃.kept kept_newArr List.prefix_rfl)
      (by rw [List.nil_append, hlen]; omega)
    obtain ⟨h₅, hret₅, hfill₅, htouch₅⟩ := hfill₄.put
      ((hpb₃.kept kept_newArr List.prefix_rfl).touches htouch₄ hpb₃.ne_new)
      (by rw [List.nil_append, hlen, List.length_append]; omega)
    obtain ⟨h₆, hret₆, hfill₆, -⟩ := hfill₅.put
      (((hpc.kept kept_newArr List.prefix_rfl).touches htouch₄ hpc.ne_new).touches htouch₅ hpc.ne_new)
      (by rw [List.nil_append])
    apply newArr_returns.bind_meets
    apply hret₄.bind_meets
    apply hret₅.bind_meets
    apply hret₆.bind_meets
    rw [List.nil_append] at hfill₆
    rw [← List.append_assoc]
    exact hfill₆.finish rfl (by omega)

/-- `$lua_concat4` makes the bytes of its four operands. -/
theorem luaConcat4_spec {z u : List UInt8} {a b c d : Operand} (hh : Holds h vals)
    (ha : a.text host vals = some x) (hb : b.text host vals = some y) (hc : c.text host vals = some z)
    (hd : d.text host vals = some u) :
    Meets (luaConcat4 host a b c d) h (Made vals (x ++ (y ++ (z ++ u)))) (TooLarge vals (x ++ (y ++ (z ++ u)))) := by
  obtain ⟨sa, h₁, hret₁, hh₁, hkept₁, -, hpa⟩ := concatPiece_spec hh ha
  obtain ⟨sb, h₂, hret₂, hh₂, hkept₂, -, hpb⟩ := concatPiece_spec hh₁ hb
  obtain ⟨sc, h₃, hret₃, hh₃, hkept₃, -, hpc⟩ := concatPiece_spec hh₂ hc
  obtain ⟨sd, h₄, hret₄, hh₄, hkept₄, -, hpd⟩ := concatPiece_spec hh₃ hd
  have hpa₄ := hpa.kept ((hkept₂.trans hkept₃).trans hkept₄) List.prefix_rfl
  have hpb₄ := hpb.kept (hkept₃.trans hkept₄) List.prefix_rfl
  have hpc₄ := hpc.kept hkept₄ List.prefix_rfl
  have hlen : (x ++ y ++ z ++ u).length = x.length + y.length + (z.length + u.length) := by
    simp only [List.length_append]
    omega
  unfold luaConcat4
  apply hret₁.bind_meets
  apply hret₂.bind_meets
  apply hret₃.bind_meets
  apply hret₄.bind_meets
  dsimp only
  split
  -- a long text is made as a rope, from the right
  · have hright := luaConcat_after (luaConcat_after (luaConcat_spec hh₄ hc hd) hb) ha
    rw [bind_assoc] at hright
    exact hright
  · rename_i hsmall
    rw [← hlen] at hsmall ⊢
    have hfill := hh₄.filling (x ++ y ++ z ++ u).length
    -- a short one is written to a new array, one piece after the other
    obtain ⟨h₅, hret₅, hfill₅, htouch₅⟩ := hfill.put (hpa₄.kept kept_newArr List.prefix_rfl)
      (by rw [List.nil_append, hlen]; omega)
    obtain ⟨h₆, hret₆, hfill₆, htouch₆⟩ := hfill₅.put
      ((hpb₄.kept kept_newArr List.prefix_rfl).touches htouch₅ hpb₄.ne_new)
      (by rw [List.nil_append, hlen, List.length_append]; omega)
    obtain ⟨h₇, hret₇, hfill₇, htouch₇⟩ := hfill₆.put
      (((hpc₄.kept kept_newArr List.prefix_rfl).touches htouch₅ hpc₄.ne_new).touches htouch₆ hpc₄.ne_new)
      (by rw [List.nil_append, hlen, List.length_append, List.length_append]; omega)
    obtain ⟨h₈, hret₈, hfill₈, -⟩ := hfill₇.put
      ((((hpd.kept kept_newArr List.prefix_rfl).touches htouch₅ hpd.ne_new).touches htouch₆ hpd.ne_new).touches
        htouch₇ hpd.ne_new)
      (by rw [List.nil_append])
    apply newArr_returns.bind_meets
    apply hret₅.bind_meets
    apply hret₆.bind_meets
    apply hret₇.bind_meets
    apply hret₈.bind_meets
    rw [List.nil_append] at hfill₈
    have hassoc : x ++ (y ++ (z ++ u)) = x ++ y ++ z ++ u := by
      simp only [List.append_assoc]
    rw [hassoc]
    exact hfill₈.finish rfl (by omega)

end Lua2wasm.Strings
