import Lua2wasm.Strings.Concat

/-!
# What the string objects stand for

`Holds h vals` says that the heap `h` has, in the order of their creation, strings with the bytes
`vals`: an unread node stands for the bytes of its two operands, an unread version of a buffer for a
prefix of the buffer's array, and any other string for its own array. The bytes of a string never
change, so `vals` only ever gets longer.

Two facts about sharing carry this. No array belongs both to a string and to a buffer, or to two
buffers. And an array that no string has, and no buffer beyond position `p`, may be written from `p` on
(`Spare`, `Holds.setArr`).
-/

namespace Lua2wasm.Strings

open Table (strHash)

/-- The string number `s` stands for the bytes `x`. -/
structure ObjOk (h : StrHeap) (vals : List (List UInt8)) (s : ℕ) (o : StrObj) (x : List UInt8) : Prop where
  /-- Its length is a number of 31 bits. -/
  short : x.length < 2^31
  /-- The hash. -/
  hash : o.hash ≠ 0 → o.hash = strHash x
  /-- The bytes, when they are there. -/
  bytes : ∀ r, o.bytes = some r → h.arrs[r]? = some x
  /-- A plain string has its bytes. -/
  flat : o.bytes = none → o.kind ≠ .flat
  /-- An unread node is the bytes of two strings that were there before. -/
  rope : ∀ len left right, o.kind = .rope len left right → o.bytes = none →
    len = x.length ∧ ∃ (l r : ℕ) (y z : List UInt8), left = some l ∧ right = some r ∧ l < s ∧ r < s ∧
      vals[l]? = some y ∧ vals[r]? = some z ∧ x = y ++ z
  /-- An unread version has its buffer. -/
  unread : ∀ len buf, o.kind = .buf len buf → o.bytes = none → buf ≠ none
  /-- A version is a prefix of the buffer. -/
  buf : ∀ len b, o.kind = .buf len (some b) → len = x.length ∧
    ∃ (B : StrBuf) (a : List UInt8), h.bufs[b]? = some B ∧ h.arrs[B.arr]? = some a ∧ x.length ≤ B.used ∧ a.take x.length = x

/-- The heap has strings with the bytes `vals`. -/
structure Holds (h : StrHeap) (vals : List (List UInt8)) : Prop where
  /-- There is one for each string. -/
  length : vals.length = h.strs.length
  /-- The strings. -/
  strs : ∀ (s : ℕ) (o : StrObj) (x : List UInt8), h.strs[s]? = some o → vals[s]? = some x → ObjOk h vals s o x
  /-- The used part of a buffer is in its array. -/
  bufs : ∀ (b : ℕ) (B : StrBuf), h.bufs[b]? = some B → ∃ a, h.arrs[B.arr]? = some a ∧ B.used ≤ a.length
  /-- No two buffers have the same array. -/
  own : ∀ (b b' : ℕ) (B B' : StrBuf), h.bufs[b]? = some B → h.bufs[b']? = some B' → B.arr = B'.arr → b = b'
  /-- The bytes of a string are not the array of a buffer. -/
  apart : ∀ (s : ℕ) (o : StrObj) (b : ℕ) (B : StrBuf), h.strs[s]? = some o → h.bufs[b]? = some B → o.bytes ≠ some B.arr
  /-- The strings of single bytes. -/
  chars : ∀ (i s : ℕ), h.charStrs[i]? = some (some s) → vals[s]? = some [i.toUInt8]
  /-- The cached strings are there. -/
  cached : ∀ (i s : ℕ), h.scache[i]? = some (some s) → s < h.strs.length
  /-- The sizes of the tables of the cache. -/
  sizes : h.charStrs.length = 256 ∧ h.scache.length = 4096 ∧ h.scacheState.length = 16

/-- No string and no buffer has the array. -/
structure Private (h : StrHeap) (r : ℕ) : Prop where
  /-- No string. -/
  str : ∀ (s : ℕ) (o : StrObj), h.strs[s]? = some o → o.bytes ≠ some r
  /-- No buffer. -/
  buf : ∀ (b : ℕ) (B : StrBuf), h.bufs[b]? = some B → B.arr ≠ r

/-- No string has the array, and a buffer that has it does not use it from `p` on. -/
structure Spare (h : StrHeap) (r p : ℕ) : Prop where
  /-- No string. -/
  str : ∀ (s : ℕ) (o : StrObj), h.strs[s]? = some o → o.bytes ≠ some r
  /-- A buffer. -/
  buf : ∀ (b : ℕ) (B : StrBuf), h.bufs[b]? = some B → B.arr = r → B.used ≤ p

variable {h h' h'' : StrHeap} {vals vals' : List (List UInt8)} {s r p b : ℕ} {o : StrObj} {x a : List UInt8}

theorem Private.spare (hp : Private h r) : Spare h r p where
  str := hp.str
  buf b B hB hr := absurd hr (hp.buf b B hB)

theorem StrHeap.holds_init : Holds StrHeap.init [] := by
  have hnone : ∀ (n i s : ℕ), (List.replicate n (none : Option ℕ))[i]? ≠ some (some s) := by
    intro n i s h
    have hmem := List.eq_of_mem_replicate (List.mem_of_getElem? h)
    cases hmem
  constructor
  · rfl
  · intro s o x hs
    cases hs
  · intro b B hB
    cases hB
  · intro b b' B B' hB
    cases hB
  · intro s o b B hs
    cases hs
  · intro i s hi
    exact absurd hi (hnone _ i s)
  · intro i s hi
    exact absurd hi (hnone _ i s)
  · exact ⟨List.length_replicate, List.length_replicate, List.length_replicate⟩

theorem Holds.val (hh : Holds h vals) (hs : s < h.strs.length) : ∃ x, vals[s]? = some x :=
  Option.isSome_iff_exists.mp (by simpa [hh.length] using hs)

theorem Holds.obj (hh : Holds h vals) (hx : vals[s]? = some x) :
    ∃ o, h.strs[s]? = some o ∧ ObjOk h vals s o x := by
  have hlt : s < h.strs.length := by
    rw [← hh.length]
    exact (List.getElem?_eq_some_iff.mp hx).1
  exact ⟨h.strs[s], List.getElem?_eq_getElem hlt, hh.strs s _ x (List.getElem?_eq_getElem hlt) hx⟩

theorem Holds.lt (hh : Holds h vals) (hx : vals[s]? = some x) : s < h.strs.length := by
  rw [← hh.length]
  exact (List.getElem?_eq_some_iff.mp hx).1

theorem Holds.short (hh : Holds h vals) (hx : vals[s]? = some x) : x.length < 2^31 := by
  obtain ⟨o, -, ho⟩ := hh.obj hx
  exact ho.short

theorem getElem?_of_initial {α : Type} {l l' : List α} {i : ℕ} {y : α} (hp : l <+: l') (hl : l[i]? = some y) :
    l'[i]? = some y := by
  obtain ⟨t, rfl⟩ := hp
  rw [List.getElem?_append_left (List.getElem?_eq_some_iff.mp hl).1]
  exact hl

/-! ## Changes that keep the bytes -/

/-- A new array. -/
theorem Holds.newArr (hh : Holds h vals) (a : List UInt8) : Holds { h with arrs := h.arrs ++ [a] } vals where
  length := hh.length
  strs s o x hs hx := by
    have ho := hh.strs s o x hs hx
    have hkeep : ∀ r y, h.arrs[r]? = some y → (h.arrs ++ [a])[r]? = some y := fun r y =>
      getElem?_of_initial (List.prefix_append _ _)
    refine ⟨ho.short, ho.hash, fun r hr => hkeep r x (ho.bytes r hr), ho.flat, ho.rope, ho.unread, ?_⟩
    intro len b hb
    obtain ⟨hlen, B, y, hB, hy, hused, htake⟩ := ho.buf len b hb
    exact ⟨hlen, B, y, hB, hkeep _ _ hy, hused, htake⟩
  bufs b B hB := by
    obtain ⟨y, hy, hused⟩ := hh.bufs b B hB
    exact ⟨y, getElem?_of_initial (List.prefix_append _ _) hy, hused⟩
  own := hh.own
  apart := hh.apart
  chars := hh.chars
  cached := hh.cached
  sizes := hh.sizes

/-- A new array is private. -/
theorem Holds.private_newArr (hh : Holds h vals) (a : List UInt8) :
    Private { h with arrs := h.arrs ++ [a] } h.arrs.length where
  str s o hs hr := by
    obtain ⟨x, hx⟩ := hh.val (List.getElem?_eq_some_iff.mp hs).1
    have hget := (hh.strs s o x hs hx).bytes _ hr
    rw [List.getElem?_eq_none (Nat.le_refl _)] at hget
    cases hget
  buf b B hB hr := by
    obtain ⟨y, hy, -⟩ := hh.bufs b B hB
    rw [hr, List.getElem?_eq_none (Nat.le_refl _)] at hy
    cases hy

/-- A write to the spare part of an array. -/
theorem Holds.setArr {a' : List UInt8} (hh : Holds h vals) (ha : h.arrs[r]? = some a) (hspare : Spare h r p)
    (hlen : a'.length = a.length) (htake : a'.take p = a.take p) :
    Holds { h with arrs := h.arrs.set r a' } vals := by
  have hr : r < h.arrs.length := (List.getElem?_eq_some_iff.mp ha).1
  have hother : ∀ q, q ≠ r → (h.arrs.set r a')[q]? = h.arrs[q]? := fun q hq =>
    List.getElem?_set_ne (Ne.symm hq)
  have hself : (h.arrs.set r a')[r]? = some a' := List.getElem?_set_self hr
  constructor
  · exact hh.length
  · intro s o x hs hx
    have ho := hh.strs s o x hs hx
    refine ⟨ho.short, ho.hash, ?_, ho.flat, ho.rope, ho.unread, ?_⟩
    · intro q hq
      have hne : q ≠ r := fun heq => hspare.str s o hs (heq ▸ hq)
      exact (hother q hne).trans (ho.bytes q hq)
    · intro len b hb
      obtain ⟨hl, B, y, hB, hy, hused, hpre⟩ := ho.buf len b hb
      by_cases heq : B.arr = r
      · have hle := hspare.buf b B hB heq
        rw [heq, ha] at hy
        cases hy
        refine ⟨hl, B, a', hB, ?_, hused, ?_⟩
        · rw [heq]
          exact hself
        · have hcut : (a'.take p).take x.length = (a.take p).take x.length := by rw [htake]
          rw [List.take_take, List.take_take, Nat.min_eq_left (Nat.le_trans hused hle)] at hcut
          rw [hcut, hpre]
      · exact ⟨hl, B, y, hB, (hother _ heq).trans hy, hused, hpre⟩
  · intro b B hB
    obtain ⟨y, hy, hused⟩ := hh.bufs b B hB
    by_cases heq : B.arr = r
    · rw [heq, ha] at hy
      cases hy
      refine ⟨a', ?_, ?_⟩
      · rw [heq]
        exact hself
      · rw [hlen]
        exact hused
    · exact ⟨y, (hother _ heq).trans hy, hused⟩
  · exact hh.own
  · exact hh.apart
  · exact hh.chars
  · exact hh.cached
  · exact hh.sizes

/-- A new string. -/
theorem Holds.newStr (hh : Holds h vals) (ho : ObjOk h vals h.strs.length o x)
    (hfree : ∀ r, o.bytes = some r → ∀ (b : ℕ) (B : StrBuf), h.bufs[b]? = some B → B.arr ≠ r) :
    Holds { h with strs := h.strs ++ [o] } (vals ++ [x]) := by
  have hkeep : ∀ i y, vals[i]? = some y → (vals ++ [x])[i]? = some y := fun i y =>
    getElem?_of_initial (List.prefix_append _ _)
  have hok : ∀ s o' y, ObjOk h vals s o' y → ObjOk { h with strs := h.strs ++ [o] } (vals ++ [x]) s o' y := by
    intro s o' y hy
    refine ⟨hy.short, hy.hash, hy.bytes, hy.flat, ?_, hy.unread, hy.buf⟩
    intro len left right hkind hnone
    obtain ⟨hlen, l, r, u, v, hl, hr, hls, hrs, hu, hv, hxy⟩ := hy.rope len left right hkind hnone
    exact ⟨hlen, l, r, u, v, hl, hr, hls, hrs, hkeep l u hu, hkeep r v hv, hxy⟩
  have hnew : ∀ s o', (h.strs ++ [o])[s]? = some o' →
      h.strs[s]? = some o' ∨ (s = h.strs.length ∧ o' = o) := by
    intro s o' hs
    by_cases hlt : s < h.strs.length
    · rw [List.getElem?_append_left hlt] at hs
      exact Or.inl hs
    · obtain ⟨hlt', -⟩ := List.getElem?_eq_some_iff.mp hs
      rw [List.length_append, List.length_cons, List.length_nil] at hlt'
      have heq : s = h.strs.length := by omega
      subst heq
      simp at hs
      exact Or.inr ⟨rfl, hs.symm⟩
  constructor
  · simp [hh.length]
  · intro s o' y hs hy
    obtain hold | ⟨rfl, rfl⟩ := hnew s o' hs
    · have hlt := (List.getElem?_eq_some_iff.mp hold).1
      rw [List.getElem?_append_left (by rw [hh.length]; exact hlt)] at hy
      exact hok s o' y (hh.strs s o' y hold hy)
    · rw [← hh.length] at hy
      simp at hy
      subst hy
      exact hok _ _ _ ho
  · exact hh.bufs
  · exact hh.own
  · intro s o' b B hs hB
    obtain hold | ⟨-, rfl⟩ := hnew s o' hs
    · exact hh.apart s o' b B hold hB
    · exact fun hr => hfree B.arr hr b B hB rfl
  · intro i s hi
    exact hkeep s _ (hh.chars i s hi)
  · intro i s hi
    have hlt := hh.cached i s hi
    simp only [List.length_append, List.length_cons, List.length_nil]
    omega
  · exact hh.sizes

/-- A string that changes its representation. -/
theorem Holds.setStr {o' : StrObj} (hh : Holds h vals) (hx : vals[s]? = some x) (ho : ObjOk h vals s o' x)
    (hfree : ∀ r, o'.bytes = some r → ∀ (b : ℕ) (B : StrBuf), h.bufs[b]? = some B → B.arr ≠ r) :
    Holds { h with strs := h.strs.set s o' } vals := by
  have hok : ∀ i o₁ y, ObjOk h vals i o₁ y → ObjOk { h with strs := h.strs.set s o' } vals i o₁ y :=
    fun i o₁ y hy => ⟨hy.short, hy.hash, hy.bytes, hy.flat, hy.rope, hy.unread, hy.buf⟩
  constructor
  · rw [List.length_set]
    exact hh.length
  · intro i o₁ y hi hy
    obtain ⟨rfl, rfl⟩ | ⟨-, hi⟩ := Probe.of_getElem?_set hi
    · rw [hx] at hy
      cases hy
      exact hok _ _ _ ho
    · exact hok _ _ _ (hh.strs i o₁ y hi hy)
  · exact hh.bufs
  · exact hh.own
  · intro i o₁ b B hi hB
    obtain ⟨-, rfl⟩ | ⟨-, hi⟩ := Probe.of_getElem?_set hi
    · exact fun hr => hfree B.arr hr b B hB rfl
    · exact hh.apart i o₁ b B hi hB
  · exact hh.chars
  · intro i c hi
    rw [List.length_set]
    exact hh.cached i c hi
  · exact hh.sizes

/-- A new buffer over a private array. -/
theorem Holds.newBuf {B : StrBuf} (hh : Holds h vals) (hp : Private h B.arr) (ha : h.arrs[B.arr]? = some a)
    (hused : B.used ≤ a.length) : Holds { h with bufs := h.bufs ++ [B] } vals := by
  have hnew : ∀ b B', (h.bufs ++ [B])[b]? = some B' →
      h.bufs[b]? = some B' ∨ (b = h.bufs.length ∧ B' = B) := by
    intro b B' hb
    by_cases hlt : b < h.bufs.length
    · rw [List.getElem?_append_left hlt] at hb
      exact Or.inl hb
    · obtain ⟨hlt', -⟩ := List.getElem?_eq_some_iff.mp hb
      rw [List.length_append, List.length_cons, List.length_nil] at hlt'
      have heq : b = h.bufs.length := by omega
      subst heq
      simp at hb
      exact Or.inr ⟨rfl, hb.symm⟩
  constructor
  · exact hh.length
  · intro s o x hs hx
    have ho := hh.strs s o x hs hx
    refine ⟨ho.short, ho.hash, ho.bytes, ho.flat, ho.rope, ho.unread, ?_⟩
    intro len b hb
    obtain ⟨hl, B', y, hB, hy, hle, hpre⟩ := ho.buf len b hb
    exact ⟨hl, B', y, getElem?_of_initial (List.prefix_append _ _) hB, hy, hle, hpre⟩
  · intro b B' hb
    obtain hold | ⟨-, rfl⟩ := hnew b B' hb
    · exact hh.bufs b B' hold
    · exact ⟨a, ha, hused⟩
  · intro b b' B₁ B₂ hb hb' harr
    obtain hold | ⟨rfl, rfl⟩ := hnew b B₁ hb <;> obtain hold' | ⟨rfl, rfl⟩ := hnew b' B₂ hb'
    · exact hh.own b b' B₁ B₂ hold hold' harr
    · exact absurd harr (hp.buf b B₁ hold)
    · exact absurd harr.symm (hp.buf b' B₂ hold')
    · rfl
  · intro s o b B' hs hb
    obtain hold | ⟨-, rfl⟩ := hnew b B' hb
    · exact hh.apart s o b B' hs hold
    · exact hp.str s o hs
  · exact hh.chars
  · exact hh.cached
  · exact hh.sizes

/-- A buffer that moves to a private array, or uses more of its array. -/
theorem Holds.setBuf {B : StrBuf} (hh : Holds h vals) (B' : StrBuf) (hB : h.bufs[b]? = some B)
    (harr : B'.arr = B.arr ∨ Private h B'.arr) {a a' : List UInt8} (ha : h.arrs[B.arr]? = some a)
    (ha' : h.arrs[B'.arr]? = some a') (htake : a'.take B.used = a.take B.used) (hle : B.used ≤ B'.used)
    (hused : B'.used ≤ a'.length) : Holds { h with bufs := h.bufs.set b B' } vals := by
  have hlt : b < h.bufs.length := (List.getElem?_eq_some_iff.mp hB).1
  have hother : ∀ i B₁, i ≠ b → h.bufs[i]? = some B₁ → B₁.arr ≠ B'.arr := by
    intro i B₁ hne hi heq
    obtain hsame | hp := harr
    · exact hne (hh.own i b B₁ B hi hB (heq.trans hsame))
    · exact hp.buf i B₁ hi heq
  constructor
  · exact hh.length
  · intro s o x hs hx
    have ho := hh.strs s o x hs hx
    refine ⟨ho.short, ho.hash, ho.bytes, ho.flat, ho.rope, ho.unread, ?_⟩
    intro len i hi
    obtain ⟨hl, B₁, y, hB₁, hy, hu, hpre⟩ := ho.buf len i hi
    by_cases heq : i = b
    · subst heq
      rw [hB] at hB₁
      cases hB₁
      rw [ha] at hy
      cases hy
      refine ⟨hl, B', a', List.getElem?_set_self hlt, ha', Nat.le_trans hu hle, ?_⟩
      -- the string reads the used bytes only
      have hcut : (a'.take B.used).take x.length = (a.take B.used).take x.length := by rw [htake]
      rw [List.take_take, List.take_take, Nat.min_eq_left hu] at hcut
      rw [hcut, hpre]
    · refine ⟨hl, B₁, y, ?_, hy, hu, hpre⟩
      change (h.bufs.set b B')[i]? = some B₁
      rw [List.getElem?_set_ne (Ne.symm heq)]
      exact hB₁
  · intro i B₁ hi
    obtain ⟨-, rfl⟩ | ⟨-, hi⟩ := Probe.of_getElem?_set hi
    · exact ⟨a', ha', hused⟩
    · exact hh.bufs i B₁ hi
  · intro i j B₁ B₂ hi hj heq
    obtain ⟨hib, hB₁⟩ | ⟨hne, hold⟩ := Probe.of_getElem?_set hi <;>
      obtain ⟨hjb, hB₂⟩ | ⟨hne', hold'⟩ := Probe.of_getElem?_set hj
    · rw [hib, hjb]
    · rw [hB₁] at heq
      exact absurd heq.symm (hother j B₂ hne' hold')
    · rw [hB₂] at heq
      exact absurd heq (hother i B₁ hne hold)
    · exact hh.own i j B₁ B₂ hold hold' heq
  · intro s o i B₁ hs hi
    obtain ⟨-, rfl⟩ | ⟨-, hi⟩ := Probe.of_getElem?_set hi
    · obtain hsame | hp := harr
      · rw [hsame]
        exact hh.apart s o b B hs hB
      · exact hp.str s o hs
    · exact hh.apart s o i B₁ hs hi
  · exact hh.chars
  · exact hh.cached
  · exact hh.sizes

end Lua2wasm.Strings
