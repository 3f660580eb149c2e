import Lua2wasm.Strings.Holds

/-!
# Reading a string

Reading the bytes of a string may flatten it, which gives it an array of its own and changes nothing
else (`lazyFlatten_spec`). `$lazy_write` goes over the leaves from right to left; at each turn the text
that is still to be written is the text of the stack and of the string it goes on with (`Pending`), and
it ends where the bytes written so far start.

The specifications of the other reads follow: `strBytes_spec`, `strLength_spec`, `strEq_spec` and
`strHashOf_spec`. `Reads` is what a read leaves alone.
-/

namespace Lua2wasm.Strings

open Raising
open Table (strHash arrayCopy)

variable {h h' h'' : StrHeap} {vals vals' : List (List UInt8)} {s r p b out : ℕ} {o : StrObj}
  {x y a : List UInt8} {E : Table.Fault → StrHeap → Prop}

/-! ## Objects -/

theorem orTrap_returns {α : Type} {v : Option α} {u : α} (hv : v = some u) : Returns (orTrap v) h u h := by
  subst hv
  rfl

theorem arrOf_returns (ha : h.arrs[r]? = some a) : Returns (arrOf r) h a h := by
  unfold arrOf
  exact returns_get_bind (orTrap_returns ha)

theorem strOf_returns (ho : h.strs[s]? = some o) : Returns (strOf s) h o h := by
  unfold strOf
  exact returns_get_bind (orTrap_returns ho)

theorem bufOf_returns {B : StrBuf} (hB : h.bufs[b]? = some B) : Returns (bufOf b) h B h := by
  unfold bufOf
  exact returns_get_bind (orTrap_returns hB)

theorem newArr_returns : Returns (newArr a) h h.arrs.length { h with arrs := h.arrs ++ [a] } := rfl

theorem newStr_returns : Returns (newStr o) h h.strs.length { h with strs := h.strs ++ [o] } := rfl

theorem newBuf_returns {B : StrBuf} : Returns (newBuf B) h h.bufs.length { h with bufs := h.bufs ++ [B] } := rfl

theorem setArr_returns : Returns (setArr r a) h () { h with arrs := h.arrs.set r a } := rfl

theorem setStr_returns : Returns (setStr s o) h () { h with strs := h.strs.set s o } := rfl

theorem setBuf_returns {B : StrBuf} : Returns (setBuf b B) h () { h with bufs := h.bufs.set b B } := rfl

/-- A copy of bytes that are there to a place that there is. -/
theorem copyTo_returns {n : ℕ} {src : ℕ} {c : List UInt8} (ha : h.arrs[out]? = some a) (hc : h.arrs[src]? = some c)
    (hp : p + n ≤ a.length) (hn : n ≤ c.length) :
    Returns (copyTo out p src n) h () { h with arrs := h.arrs.set out (a.take p ++ c.take n ++ a.drop (p + n)) } := by
  unfold copyTo
  apply (arrOf_returns ha).bind
  apply (arrOf_returns hc).bind
  have hcopy : arrayCopy a p c 0 n = some (a.take p ++ c.take n ++ a.drop (p + n)) := by
    unfold arrayCopy
    rw [if_pos ⟨hp, by omega⟩, List.drop_zero]
  exact (orTrap_returns hcopy).bind setArr_returns

/-! ## `$lazy_write` -/

/-- A bound on the turns that a string takes. -/
def turns (s : ℕ) : ℕ := 2^(s + 1) - 1

theorem turns_pos (s : ℕ) : 0 < turns s := by
  have : 2^1 ≤ 2^(s + 1) := Nat.pow_le_pow_right (by omega) (by omega)
  unfold turns
  omega

/-- A node takes more turns than its two operands. -/
theorem turns_node {l r : ℕ} (hl : l < s) (hr : r < s) : turns l + turns r < turns s := by
  have h1 : 2^(l + 1) ≤ 2^s := Nat.pow_le_pow_right (by omega) hl
  have h2 : 2^(r + 1) ≤ 2^s := Nat.pow_le_pow_right (by omega) hr
  have h5 : 0 < 2^(l + 1) := Nat.two_pow_pos _
  unfold turns
  omega

/-- The text of the strings on the stack, and a bound on the turns that they take. -/
inductive Pending (vals : List (List UInt8)) : List (Option ℕ) → List UInt8 → ℕ → Prop
  /-- The stack is empty. -/
  | nil : Pending vals [] [] 0
  /-- The string on the top comes last. -/
  | cons {stack : List (Option ℕ)} {x y : List UInt8} {k i : ℕ} (hstack : Pending vals stack x k)
      (hy : vals[i]? = some y) : Pending vals (some i :: stack) (x ++ y) (k + turns i)

/-- A leaf is written before what is there already, and the loop goes on with the stack. -/
theorem lazyWriteLeaf_returns {w : Writing} {k src len : ℕ} {c : List UInt8}
    (hstack : Pending vals w.stack x k) (hc : h.arrs[src]? = some c) (hlen : len ≤ c.length)
    (hy : c.take len = y) (ha : h.arrs[out]? = some a) (hpos : w.pos = (x ++ y).length)
    (hle : w.pos ≤ a.length) :
    ∃ next, Returns (lazyWriteLeaf out w src len) h next
        { h with arrs := h.arrs.set out (a.take x.length ++ y ++ a.drop w.pos) } ∧
      ((next = none ∧ x = [] ∧ k = 0) ∨ ∃ w' x' k' z, next = some w' ∧ Pending vals w'.stack x' k' ∧
        vals[w'.n]? = some z ∧ x = x' ++ z ∧ w'.pos = x.length ∧ k = k' + turns w'.n) := by
  have hylen : y.length = len := by
    rw [← hy, List.length_take]
    omega
  rw [List.length_append, hylen] at hpos
  have hsub : w.pos - len = x.length := by omega
  have hcopy : Returns (copyTo out (w.pos - len) src len) h ()
      { h with arrs := h.arrs.set out (a.take x.length ++ y ++ a.drop w.pos) } := by
    have hret := copyTo_returns (p := w.pos - len) (n := len) ha hc (by omega) hlen
    rw [hsub, hy, ← hpos] at hret
    rw [hsub]
    exact hret
  unfold lazyWriteLeaf
  rw [if_neg (by omega)]
  cases hw : w.stack with
  | nil =>
    rw [hw] at hstack
    cases hstack
    exact ⟨none, hcopy.bind rfl, Or.inl ⟨rfl, rfl, rfl⟩⟩
  | cons left stack =>
    rw [hw] at hstack
    cases hstack with
    | cons hstack hz =>
      refine ⟨some ⟨w.pos - len, _, stack⟩, hcopy.bind rfl, Or.inr ?_⟩
      exact ⟨_, _, _, _, rfl, hstack, hz, rfl, hsub, rfl⟩

/-- The loop of `$lazy_write` writes the text of the stack and the string before what is there. -/
theorem lazyWriteFrom_returns :
    ∀ (fuel : ℕ) (h : StrHeap) (w : Writing) (x y a : List UInt8) (k : ℕ), Holds h vals → Spare h out 0 →
      h.arrs[out]? = some a → Pending vals w.stack x k → vals[w.n]? = some y → w.pos = (x ++ y).length →
      w.pos ≤ a.length → k + turns w.n ≤ fuel →
      Returns (lazyWriteFrom out fuel w) h () { h with arrs := h.arrs.set out (x ++ y ++ a.drop w.pos) } := by
  intro fuel
  induction fuel with
  | zero =>
    intro h w x y a k _ _ _ _ _ _ _ hfuel
    have := turns_pos w.n
    omega
  | succ fuel ih =>
    intro h w x y a k hh hspare ha hstack hy hpos hle hfuel
    obtain ⟨o, ho, hok⟩ := hh.obj hy
    -- a leaf: the rest of the stack follows
    have hleaf : ∀ (src len : ℕ) (c : List UInt8), h.arrs[src]? = some c → len ≤ c.length → c.take len = y →
        (∀ next h', Returns (lazyWriteLeaf out w src len) h next h' → Returns (lazyWriteStep out w) h next h') →
        Returns (lazyWriteFrom out (fuel + 1) w) h ()
          { h with arrs := h.arrs.set out (x ++ y ++ a.drop w.pos) } := by
      intro src len c hc hlen hcut hstep
      obtain ⟨next, hret, hnext⟩ := lazyWriteLeaf_returns hstack hc hlen hcut ha hpos hle
      obtain ⟨rfl, rfl, rfl⟩ | ⟨w', x', k', z, rfl, hstack', hz, rfl, hpos', rfl⟩ := hnext
      · exact (hstep _ _ hret).bind rfl
      · have hlena : (a.take (x' ++ z).length ++ y ++ a.drop w.pos).length = a.length := by
          rw [List.length_append] at hpos
          rw [List.length_append, List.length_append, List.length_take, List.length_drop]
          omega
        have hself : (h.arrs.set out (a.take (x' ++ z).length ++ y ++ a.drop w.pos))[out]? =
            some (a.take (x' ++ z).length ++ y ++ a.drop w.pos) :=
          List.getElem?_set_self (List.getElem?_eq_some_iff.mp ha).1
        have hn := turns_pos w.n
        have hrest := ih { h with arrs := h.arrs.set out (a.take (x' ++ z).length ++ y ++ a.drop w.pos) } w' x' z
          (a.take (x' ++ z).length ++ y ++ a.drop w.pos) k' (hh.setArr ha hspare hlena rfl)
          ⟨hspare.str, hspare.buf⟩ hself hstack' hz hpos' (by rw [hlena, hpos']; rw [List.length_append] at hpos; omega)
          (by omega)
        have hdrop : (a.take (x' ++ z).length ++ y ++ a.drop w.pos).drop w'.pos = y ++ a.drop w.pos := by
          rw [hpos', List.append_assoc]
          apply List.drop_left'
          rw [List.length_take]
          rw [List.length_append] at hpos
          omega
        rw [hdrop, List.set_set, ← List.append_assoc] at hrest
        exact (hstep _ _ hret).bind hrest
    cases hb : o.bytes with
    | some r =>
      apply hleaf r y.length y (hok.bytes r hb) (Nat.le_refl _) List.take_length
      intro next h' hret
      unfold lazyWriteStep
      apply (strOf_returns ho).bind
      simp only [hb]
      exact (arrOf_returns (hok.bytes r hb)).bind hret
    | none =>
      cases hkind : o.kind with
      | flat => exact absurd hkind (hok.flat hb)
      | buf len buf =>
        obtain ⟨b, rfl⟩ := Option.ne_none_iff_exists'.mp (hok.unread len buf hkind hb)
        obtain ⟨rfl, B, c, hB, hc, hused, hcut⟩ := hok.buf len b hkind
        obtain ⟨c', hc', hroom⟩ := hh.bufs b B hB
        rw [hc] at hc'
        cases hc'
        apply hleaf B.arr y.length c hc (Nat.le_trans hused hroom) hcut
        intro next h' hret
        unfold lazyWriteStep
        apply (strOf_returns ho).bind
        simp only [hb, hkind]
        exact (orTrap_returns rfl).bind ((bufOf_returns hB).bind hret)
      | rope len left right =>
        -- a node: its left operand goes on the stack
        obtain ⟨rfl, l, r, u, v, rfl, rfl, hl, hr, hu, hv, rfl⟩ := hok.rope len left right hkind hb
        have hturns := turns_node hl hr
        have hrest := ih h ⟨w.pos, r, some l :: w.stack⟩ (x ++ u) v a (k + turns l) hh hspare ha
          (hstack.cons hu) hv (by rw [hpos]; simp [List.length_append]) hle
          (show k + turns l + turns r ≤ fuel by omega)
        have hstep : Returns (lazyWriteStep out w) h (some ⟨w.pos, r, some l :: w.stack⟩) h := by
          unfold lazyWriteStep
          apply (strOf_returns ho).bind
          simp only [hb, hkind]
          exact (orTrap_returns rfl).bind rfl
        have heq : x ++ (u ++ v) ++ a.drop w.pos = x ++ u ++ v ++ a.drop w.pos := by
          simp only [List.append_assoc]
        rw [heq]
        exact hstep.bind hrest

/-- `$lazy_write` into an array that nothing has. -/
theorem lazyWrite_into_returns (hh : Holds h vals) (hspare : Spare h out 0) (ha : h.arrs[out]? = some a)
    (hx : vals[s]? = some x) (hle : x.length ≤ a.length) :
    Returns (lazyWrite (some out) x.length s) h out
      { h with arrs := h.arrs.set out (x ++ a.drop x.length) } := by
  have hlt := hh.lt hx
  have hpow : 2^(s + 1) ≤ 2^h.strs.length := Nat.pow_le_pow_right (by omega) hlt
  have hpos := Nat.two_pow_pos h.strs.length
  have hloop := lazyWriteFrom_returns (2^h.strs.length) h ⟨x.length, s, []⟩ [] x a 0 hh hspare ha Pending.nil hx rfl
    hle (show 0 + turns s ≤ 2^h.strs.length by unfold turns; omega)
  unfold lazyWrite
  refine Returns.bind (?_ : Returns _ h out h) ?_
  · rfl
  · exact returns_get_bind (hloop.bind rfl)

/-- `$lazy_write` into a new array. -/
theorem lazyWrite_new_returns (hh : Holds h vals) (hx : vals[s]? = some x) :
    Returns (lazyWrite none x.length s) h h.arrs.length { h with arrs := h.arrs ++ [x] } := by
  have hh' := hh.newArr (List.replicate x.length 0)
  have hself : (h.arrs ++ [List.replicate x.length (0 : UInt8)])[h.arrs.length]? =
      some (List.replicate x.length 0) := by
    simp
  have hinto := lazyWrite_into_returns hh' (hh.private_newArr (List.replicate x.length 0)).spare hself hx (by simp)
  unfold lazyWrite at hinto ⊢
  apply newArr_returns.bind
  have hset : (h.arrs ++ [List.replicate x.length (0 : UInt8)]).set h.arrs.length
      (x ++ (List.replicate x.length 0).drop x.length) = h.arrs ++ [x] := by
    rw [List.drop_of_length_le (by simp), List.append_nil]
    simp
  rw [hset] at hinto
  exact hinto

/-! ## Reading the bytes -/

/-- A read changes no array and no buffer. At most it gives a string an array of its own. -/
structure Reads (h h' : StrHeap) : Prop where
  /-- The arrays that there were. -/
  arrs : h.arrs <+: h'.arrs
  /-- The buffers. -/
  bufs : h'.bufs = h.bufs
  /-- The number of strings. -/
  strs : h'.strs.length = h.strs.length
  /-- The string has the array already, or the array is new. -/
  bytes : ∀ (s : ℕ) (o : StrObj) (r : ℕ), h'.strs[s]? = some o → o.bytes = some r → r < h.arrs.length →
    ∃ o', h.strs[s]? = some o' ∧ o'.bytes = some r

theorem Reads.refl : Reads h h where
  arrs := List.prefix_rfl
  bufs := rfl
  strs := rfl
  bytes _ o _ ho hr _ := ⟨o, ho, hr⟩

theorem Reads.trans (hr : Reads h h') (hr' : Reads h' h'') : Reads h h'' where
  arrs := hr.arrs.trans hr'.arrs
  bufs := hr'.bufs.trans hr.bufs
  strs := hr'.strs.trans hr.strs
  bytes s o r ho hb hlt := by
    obtain ⟨o', ho', hb'⟩ := hr'.bytes s o r ho hb (Nat.lt_of_lt_of_le hlt hr.arrs.length_le)
    exact hr.bytes s o' r ho' hb' hlt

theorem Reads.spare (hr : Reads h h') (ha : h.arrs[r]? = some a) (hs : Spare h r p) : Spare h' r p where
  str s o ho hb := by
    obtain ⟨o', ho', hb'⟩ := hr.bytes s o r ho hb (List.getElem?_eq_some_iff.mp ha).1
    exact hs.str s o' ho' hb'
  buf b B hB := by
    rw [hr.bufs] at hB
    exact hs.buf b B hB

theorem Reads.private (hr : Reads h h') (ha : h.arrs[r]? = some a) (hp : Private h r) : Private h' r where
  str s o ho hb := by
    obtain ⟨o', ho', hb'⟩ := hr.bytes s o r ho hb (List.getElem?_eq_some_iff.mp ha).1
    exact hp.str s o' ho' hb'
  buf b B hB := by
    rw [hr.bufs] at hB
    exact hp.buf b B hB

/-- `$lazy_flatten` gives the string its bytes, and changes nothing else. -/
theorem lazyFlatten_spec (hh : Holds h vals) (hx : vals[s]? = some x) (ho : h.strs[s]? = some o)
    (hnone : o.bytes = none) :
    ∃ h', Returns (lazyFlatten s) h h.arrs.length h' ∧ Holds h' vals ∧ Reads h h' ∧
      h'.arrs[h.arrs.length]? = some x ∧ ∃ o', h'.strs[s]? = some o' ∧ o'.bytes = some h.arrs.length := by
  have hok := hh.strs s o x ho hx
  have hlt := hh.lt hx
  have hlen : o.kind.len = some x.length := by
    cases hkind : o.kind with
    | flat => exact absurd hkind (hok.flat hnone)
    | rope len left right =>
      rw [← (hok.rope len left right hkind hnone).1]
      rfl
    | buf len buf =>
      obtain ⟨b, rfl⟩ := Option.ne_none_iff_exists'.mp (hok.unread len buf hkind hnone)
      rw [← (hok.buf len b hkind).1]
      rfl
  obtain ⟨o', ho'⟩ : ∃ o', o' = { o with bytes := some h.arrs.length, kind := o.kind.drop } := ⟨_, rfl⟩
  have hself : (h.arrs ++ [x])[h.arrs.length]? = some x := by
    simp
  -- the string is flat now, with the new array
  have hobj : ObjOk { h with arrs := h.arrs ++ [x] } vals s o' x := by
    subst ho'
    refine ⟨hok.short, hok.hash, ?_, ?_, ?_, ?_, ?_⟩
    · intro r hr
      cases hr
      exact hself
    · intro hb
      cases hb
    · intro len left right _ hb
      cases hb
    · intro len buf _ hb
      cases hb
    · intro len b hkind
      cases hk : o.kind <;> simp [hk, StrKind.drop] at hkind
  have hnew : Holds { h with arrs := h.arrs ++ [x], strs := h.strs.set s o' } vals := by
    apply (hh.newArr x).setStr hx hobj
    intro r hr b B hB
    subst ho'
    cases hr
    exact (hh.private_newArr x).buf b B hB
  refine ⟨{ h with arrs := h.arrs ++ [x], strs := h.strs.set s o' }, ?_, hnew, ?_, hself, o', ?_, ?_⟩
  · unfold lazyFlatten
    apply (strOf_returns ho).bind
    apply (orTrap_returns hlen).bind
    apply (lazyWrite_new_returns hh hx).bind
    apply (strOf_returns (h := { h with arrs := h.arrs ++ [x] }) ho).bind
    rw [ho']
    exact setStr_returns.bind rfl
  · refine ⟨List.prefix_append _ _, rfl, List.length_set, ?_⟩
    intro i o₁ r hi hr hlt'
    obtain ⟨rfl, rfl⟩ | ⟨-, hi⟩ := Probe.of_getElem?_set hi
    · subst ho'
      cases hr
      omega
    · exact ⟨o₁, hi, hr⟩
  · exact List.getElem?_set_self hlt
  · rw [ho']

/-- `$str_bytes` gives an array with the bytes. -/
theorem strBytes_spec (hh : Holds h vals) (hx : vals[s]? = some x) :
    ∃ r h', Returns (strBytes s) h r h' ∧ Holds h' vals ∧ Reads h h' ∧ h'.arrs[r]? = some x ∧
      ∃ o, h'.strs[s]? = some o ∧ o.bytes = some r := by
  obtain ⟨o, ho, hok⟩ := hh.obj hx
  unfold strBytes
  cases hb : o.bytes with
  | some r =>
    refine ⟨r, h, (strOf_returns ho).bind ?_, hh, Reads.refl, hok.bytes r hb, o, ho, hb⟩
    rw [hb]
    rfl
  | none =>
    obtain ⟨h', hret, hrest⟩ := lazyFlatten_spec hh hx ho hb
    refine ⟨h.arrs.length, h', (strOf_returns ho).bind ?_, hrest⟩
    rw [hb]
    exact hret

/-- `$str_length` reads no bytes. -/
theorem strLength_spec (hh : Holds h vals) (hx : vals[s]? = some x) : Returns (strLength s) h x.length h := by
  obtain ⟨o, ho, hok⟩ := hh.obj hx
  unfold strLength
  apply (strOf_returns ho).bind
  cases hb : o.bytes with
  | some r =>
    exact (arrOf_returns (hok.bytes r hb)).bind rfl
  | none =>
    apply orTrap_returns
    cases hkind : o.kind with
    | flat => exact absurd hkind (hok.flat hb)
    | rope len left right =>
      rw [← (hok.rope len left right hkind hb).1]
      rfl
    | buf len buf =>
      obtain ⟨b, rfl⟩ := Option.ne_none_iff_exists'.mp (hok.unread len buf hkind hb)
      rw [← (hok.buf len b hkind).1]
      rfl

/-! ## Comparing and hashing -/

theorem arrEq_returns {r' : ℕ} (hx : h.arrs[r]? = some x) (hy : h.arrs[r']? = some y) :
    Returns (arrEq r r') h (decide (x = y)) h := by
  have heq : (decide (x.length = y.length) && (List.range x.length).all fun i => x[i]? = y[i]?) = decide (x = y) := by
    rw [Bool.eq_iff_iff]
    simp only [Bool.and_eq_true, decide_eq_true_eq, List.all_eq_true, List.mem_range]
    constructor
    · rintro ⟨hlen, hall⟩
      apply List.ext_getElem?
      intro i
      by_cases hi : i < x.length
      · exact hall i hi
      · rw [List.getElem?_eq_none (by omega), List.getElem?_eq_none (by omega)]
    · rintro rfl
      exact ⟨rfl, fun _ _ => rfl⟩
  unfold arrEq
  apply (arrOf_returns hx).bind
  apply (arrOf_returns hy).bind
  rw [heq]
  rfl

/-- `$str_eq` compares the bytes. -/
theorem strEq_spec {t : ℕ} (hh : Holds h vals) (hx : vals[s]? = some x) (hy : vals[t]? = some y) :
    ∃ h', Returns (strEq s t) h (decide (x = y)) h' ∧ Holds h' vals ∧ Reads h h' := by
  obtain ⟨o, ho, hok⟩ := hh.obj hx
  obtain ⟨o', ho', hok'⟩ := hh.obj hy
  unfold strEq
  by_cases hst : s = t
  · rw [if_pos hst]
    subst hst
    rw [hx] at hy
    cases hy
    exact ⟨h, by rw [decide_eq_true rfl]; rfl, hh, Reads.refl⟩
  · rw [if_neg hst]
    by_cases hhash : o.hash ≠ 0 ∧ o'.hash ≠ 0 ∧ o.hash ≠ o'.hash
    · -- different hashes are of different bytes
      have hne : x ≠ y := by
        rintro rfl
        exact hhash.2.2 ((hok.hash hhash.1).trans (hok'.hash hhash.2.1).symm)
      refine ⟨h, (strOf_returns ho).bind ((strOf_returns ho').bind ?_), hh, Reads.refl⟩
      rw [if_pos hhash, decide_eq_false hne]
      rfl
    · obtain ⟨h', hret, hrest⟩ : ∃ h', Returns (strEqBytes s t) h (decide (x = y)) h' ∧ Holds h' vals ∧ Reads h h' := by
        -- the bytes are flattened and compared, unless the lengths differ
        have hslow : ∃ h', Returns (do
            let na ← strLength s
            let nb ← strLength t
            if na ≠ nb then
              pure false
            else do
              let ra ← strBytes s
              let rb ← strBytes t
              arrEq ra rb) h (decide (x = y)) h' ∧ Holds h' vals ∧ Reads h h' := by
          by_cases hlen : x.length = y.length
          · obtain ⟨r, h₁, hret₁, hh₁, hreads₁, hr, -⟩ := strBytes_spec hh hx
            obtain ⟨r', h₂, hret₂, hh₂, hreads₂, hr', -⟩ := strBytes_spec hh₁ hy
            refine ⟨h₂, (strLength_spec hh hx).bind ((strLength_spec hh hy).bind ?_), hh₂, hreads₁.trans hreads₂⟩
            rw [if_neg (by simpa using hlen)]
            exact hret₁.bind (hret₂.bind (arrEq_returns (getElem?_of_initial hreads₂.arrs hr) hr'))
          · have hne : x ≠ y := fun heq => hlen (by rw [heq])
            refine ⟨h, (strLength_spec hh hx).bind ((strLength_spec hh hy).bind ?_), hh, Reads.refl⟩
            rw [if_pos hlen, decide_eq_false hne]
            rfl
        unfold strEqBytes
        cases hb : o.bytes with
        | none =>
          obtain ⟨h', hret, hrest⟩ := hslow
          refine ⟨h', (strOf_returns ho).bind ((strOf_returns ho').bind ?_), hrest⟩
          simp only [hb]
          exact hret
        | some r =>
          cases hb' : o'.bytes with
          | none =>
            obtain ⟨h', hret, hrest⟩ := hslow
            refine ⟨h', (strOf_returns ho).bind ((strOf_returns ho').bind ?_), hrest⟩
            simp only [hb, hb']
            exact hret
          | some r' =>
            refine ⟨h, (strOf_returns ho).bind ((strOf_returns ho').bind ?_), hh, Reads.refl⟩
            simp only [hb, hb']
            exact arrEq_returns (hok.bytes r hb) (hok'.bytes r' hb')
      refine ⟨h', (strOf_returns ho).bind ((strOf_returns ho').bind ?_), hrest⟩
      rw [if_neg hhash]
      exact hret

/-- `$str_hash` is the hash of the bytes. -/
theorem strHashOf_spec (hh : Holds h vals) (hx : vals[s]? = some x) :
    ∃ h', Returns (strHashOf s) h (strHash x) h' ∧ Holds h' vals := by
  obtain ⟨o, ho, hok⟩ := hh.obj hx
  unfold strHashOf
  by_cases hhash : o.hash ≠ 0
  · refine ⟨h, (strOf_returns ho).bind ?_, hh⟩
    rw [if_pos hhash, hok.hash hhash]
    rfl
  · obtain ⟨r, h', hret, hh', -, hr, o', ho', hb⟩ := strBytes_spec hh hx
    have hok' := hh'.strs s o' x ho' hx
    have hnew : ObjOk h' vals s { o' with hash := strHash x } x :=
      ⟨hok'.short, fun _ => rfl, hok'.bytes, hok'.flat, hok'.rope, hok'.unread, hok'.buf⟩
    refine ⟨_, (strOf_returns ho).bind ?_, hh'.setStr hx hnew ?_⟩
    · rw [if_neg hhash]
      exact hret.bind ((arrOf_returns hr).bind ((strOf_returns ho').bind (setStr_returns.bind rfl)))
    · intro q hq b B hB heq
      exact hh'.apart s o' b B ho' hB (heq ▸ hq)

end Lua2wasm.Strings
