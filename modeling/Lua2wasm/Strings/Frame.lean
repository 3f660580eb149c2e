import Lua2wasm.Strings.History
import Lua2wasm.Lib.Moving

/-!
# What a call on strings can change

The functions on strings, as sequences of a few steps: objects are added, arrays and buffers are written, and the
fields of a string are written back. A relation on the heaps that goes along with these steps (`StringSteps`), and
with `$str_of_bytes` (`CacheSteps`), goes along with every call on strings (`StrOp.moves_of`).
-/

namespace Lua2wasm.Strings

open Raising

/-- The relation goes along with the steps of the functions on strings. -/
class StringSteps (R : StrHeap → StrHeap → Prop) : Prop extends Std.Refl R, IsTrans StrHeap R where
  newArr : ∀ (h : StrHeap) (a : List UInt8), R h { h with arrs := h.arrs ++ [a] }
  newStr : ∀ (h : StrHeap) (o : StrObj), R h { h with strs := h.strs ++ [o] }
  newBuf : ∀ (h : StrHeap) (b : StrBuf), R h { h with bufs := h.bufs ++ [b] }
  setArr : ∀ (h : StrHeap) (r : ℕ) (a : List UInt8), R h { h with arrs := h.arrs.set r a }
  setBuf : ∀ (h : StrHeap) (b : ℕ) (x : StrBuf), R h { h with bufs := h.bufs.set b x }
  charStrs : ∀ (h : StrHeap) (i : ℕ) (c : Option ℕ), R h { h with charStrs := h.charStrs.set i c }
  /-- The fields of a string are written back, and a computed hash is among them. -/
  setStr : ∀ (h : StrHeap) (s : ℕ) (o o' : StrObj), h.strs[s]? = some o → (o.hash ≠ 0 → o'.hash = o.hash) →
    R h { h with strs := h.strs.set s o' }
  /-- A hash is written that was not computed before. -/
  setHash : ∀ (h h' : StrHeap) (s : ℕ) (o o' : StrObj), R h h' → h.strs[s]? = some o → o.hash = 0 →
    R h { h' with strs := h'.strs.set s o' }

/-- It also goes along with the cache of short strings. -/
class CacheSteps (R : StrHeap → StrHeap → Prop) : Prop extends StringSteps R where
  strOfBytes : ∀ out kind : ℕ, Moves R (strOfBytes out kind)

variable {R : StrHeap → StrHeap → Prop}

section

variable [StringSteps R]

/-! ## The steps -/

/-- A trap, or a value. -/
theorem orTrap_moves {α : Type} (x : Option α) : Moves R (orTrap x) := by
  cases x with
  | none => exact moves_throw _
  | some a => exact moves_pure a

/-- A new array. -/
theorem newArr_moves (a : List UInt8) : Moves R (newArr a) :=
  moves_get_bind fun h => meets_set_bind (meets_pure (StringSteps.newArr h a))

/-- A new string. -/
theorem newStr_moves (o : StrObj) : Moves R (newStr o) :=
  moves_get_bind fun h => meets_set_bind (meets_pure (StringSteps.newStr h o))

/-- A new buffer. -/
theorem newBuf_moves (b : StrBuf) : Moves R (newBuf b) :=
  moves_get_bind fun h => meets_set_bind (meets_pure (StringSteps.newBuf h b))

/-- An array is read. -/
theorem arrOf_moves (r : ℕ) : Moves R (arrOf r) := moves_get.bind fun _ => orTrap_moves _

/-- A string is read. -/
theorem strOf_moves (s : ℕ) : Moves R (strOf s) := moves_get.bind fun _ => orTrap_moves _

/-- A buffer is read. -/
theorem bufOf_moves (b : ℕ) : Moves R (bufOf b) := moves_get.bind fun _ => orTrap_moves _

/-- An array is written. -/
theorem setArr_moves (r : ℕ) (a : List UInt8) : Moves R (setArr r a) :=
  moves_modify fun h => StringSteps.setArr h r a

/-- A buffer is written. -/
theorem setBuf_moves (b : ℕ) (x : StrBuf) : Moves R (setBuf b x) :=
  moves_modify fun h => StringSteps.setBuf h b x

/-- Bytes are copied. -/
theorem copyTo_moves (dst pos src n : ℕ) : Moves R (copyTo dst pos src n) :=
  (arrOf_moves dst).bind fun _ => (arrOf_moves src).bind fun _ => (orTrap_moves _).bind fun _ => setArr_moves _ _

/-- A string that is read is there. -/
theorem strOf_meets (s : ℕ) (h : StrHeap) :
    Meets (strOf s) h (fun o h' => h.strs[s]? = some o ∧ h = h') fun _ h' => h = h' := by
  unfold strOf
  apply meets_get_bind
  cases ho : h.strs[s]? with
  | none => exact meets_throw rfl
  | some o => exact meets_pure ⟨rfl, rfl⟩

/-- A string is read, and its fields are written back with the same hash. -/
theorem rewrite_moves (g : StrObj → StrObj) (hg : ∀ o, (g o).hash = o.hash) (s r : ℕ) :
    Moves R (do let o ← strOf s; setStr s (g o); pure r) := by
  intro h
  apply ((strOf_meets s h).imp_error fun _ _ heq => heq ▸ Std.Refl.refl _).bind
  rintro o _ ⟨ho, rfl⟩
  exact meets_modify_bind (meets_pure (StringSteps.setStr h s _ _ ho fun _ => hg o))

/-- A leaf of a concatenation is written. -/
theorem lazyWriteLeaf_moves (out : ℕ) (w : Writing) (src len : ℕ) :
    Moves R (lazyWriteLeaf out w src len) := by
  unfold lazyWriteLeaf
  split
  · exact moves_throw _
  · apply (copyTo_moves _ _ _ _).bind
    intro _
    cases w.stack with
    | nil => exact moves_pure _
    | cons left stack => exact (orTrap_moves left).bind fun _ => moves_pure _

/-- One step of the writing. -/
theorem lazyWriteStep_moves (out : ℕ) (w : Writing) : Moves R (lazyWriteStep out w) := by
  unfold lazyWriteStep
  apply (strOf_moves w.n).bind
  intro o
  split
  · exact (arrOf_moves _).bind fun _ => lazyWriteLeaf_moves _ _ _ _
  · exact (orTrap_moves _).bind fun _ => moves_pure _
  · exact (orTrap_moves _).bind fun _ => (bufOf_moves _).bind fun _ => lazyWriteLeaf_moves _ _ _ _
  · exact moves_throw _

/-- The loop of the writing. -/
theorem lazyWriteFrom_moves (out fuel : ℕ) (w : Writing) : Moves R (lazyWriteFrom out fuel w) := by
  induction fuel generalizing w with
  | zero => exact moves_throw _
  | succ fuel ih =>
    unfold lazyWriteFrom
    apply (lazyWriteStep_moves out w).bind
    intro next
    cases next with
    | none => exact moves_pure _
    | some w => exact ih w

/-- The whole string, into a new array or a given one. -/
theorem lazyWrite_moves (out : Option ℕ) (stop s : ℕ) : Moves R (lazyWrite out stop s) := by
  have hfrom : ∀ out : ℕ, Moves R (do
      let h ← get
      lazyWriteFrom out (2^h.strs.length) ⟨stop, s, []⟩
      pure out) :=
    fun out => moves_get.bind fun _ => (lazyWriteFrom_moves _ _ _).bind fun _ => moves_pure _
  unfold lazyWrite
  cases out with
  | none => exact (newArr_moves _).bind fun out => hfrom out
  | some out => exact (moves_pure out).bind fun out => hfrom out

/-- A lazy string gets its bytes. -/
theorem lazyFlatten_moves (s : ℕ) : Moves R (lazyFlatten s) := by
  unfold lazyFlatten
  apply (strOf_moves s).bind
  intro o
  apply (orTrap_moves _).bind
  intro len
  apply (lazyWrite_moves none len s).bind
  intro out
  exact rewrite_moves (fun o => { o with bytes := some out, kind := o.kind.drop }) (fun _ => rfl) s out

/-- The bytes of a string. -/
theorem strBytes_moves (s : ℕ) : Moves R (strBytes s) := by
  unfold strBytes
  apply (strOf_moves s).bind
  intro o
  cases o.bytes with
  | none => exact lazyFlatten_moves s
  | some b => exact moves_pure b

/-- The length of a string. -/
theorem strLength_moves (s : ℕ) : Moves R (strLength s) := by
  unfold strLength
  apply (strOf_moves s).bind
  intro o
  cases o.bytes with
  | none => exact orTrap_moves _
  | some b => exact (arrOf_moves b).bind fun _ => moves_pure _

/-- Two arrays are compared. -/
theorem arrEq_moves (a b : ℕ) : Moves R (arrEq a b) :=
  (arrOf_moves a).bind fun _ => (arrOf_moves b).bind fun _ => moves_pure _

/-- Two strings are compared. -/
theorem strEq_moves (a b : ℕ) : Moves R (strEq a b) := by
  have hslow : Moves R (do
      let na ← strLength a
      let nb ← strLength b
      if na ≠ nb then
        pure false
      else do
        let ra ← strBytes a
        let rb ← strBytes b
        arrEq ra rb) := by
    apply (strLength_moves a).bind
    intro na
    apply (strLength_moves b).bind
    intro nb
    split
    · exact moves_pure _
    · exact (strBytes_moves a).bind fun _ => (strBytes_moves b).bind fun _ => arrEq_moves _ _
  have hbytes : Moves R (strEqBytes a b) := by
    unfold strEqBytes
    apply (strOf_moves a).bind
    intro oa
    apply (strOf_moves b).bind
    intro ob
    split
    · exact arrEq_moves _ _
    · exact hslow
  unfold strEq
  split
  · exact moves_pure _
  · apply (strOf_moves a).bind
    intro oa
    apply (strOf_moves b).bind
    intro ob
    split
    · exact moves_pure _
    · exact hbytes

/-- The hash of a string, which is computed once. -/
theorem strHashOf_moves (s : ℕ) : Moves R (strHashOf s) := by
  intro h
  unfold strHashOf
  apply ((strOf_meets s h).imp_error fun _ _ heq => heq ▸ Std.Refl.refl _).bind
  rintro o _ ⟨ho, rfl⟩
  split
  · exact meets_pure (Std.Refl.refl _)
  · rename_i hz
    have hb : Meets (strBytes s) h (fun _ h' => R h h') fun _ h' => R h h' := strBytes_moves s h
    apply hb.bind
    intro r h₁ hk₁
    have ha : Meets (arrOf r) h₁ (fun _ h' => R h h') fun _ h' => R h h' :=
      (arrOf_moves r h₁).mono (fun _ _ hk => IsTrans.trans _ _ _ hk₁ hk) fun _ _ hk => IsTrans.trans _ _ _ hk₁ hk
    apply ha.bind
    intro a h₂ hk₂
    apply ((strOf_meets s h₂).imp_error fun _ _ heq => heq ▸ hk₂).bind
    rintro o' _ ⟨-, rfl⟩
    exact meets_modify_bind (meets_pure (StringSteps.setHash h _ s _ _ hk₂ ho (not_not.mp hz)))

/-- The string of one byte. -/
theorem charStr_moves (b : UInt8) : Moves R (charStr b) := by
  unfold charStr
  apply moves_get.bind
  intro h
  apply (orTrap_moves _).bind
  intro c
  cases c with
  | some c => exact moves_pure c
  | none =>
    apply (newArr_moves _).bind
    intro r
    apply (newStr_moves _).bind
    intro s
    exact fun h => meets_modify_bind (meets_pure (StringSteps.charStrs h _ _))

/-- The cache of short strings is searched. -/
theorem scacheFind_moves (src : List UInt8) (slot : ℕ) : Moves R (scacheFind src slot) := by
  unfold scacheFind
  apply moves_get.bind
  intro h
  apply (orTrap_moves _).bind
  intro c
  cases c with
  | none => exact moves_pure _
  | some c =>
    apply (strBytes_moves c).bind
    intro r
    apply (arrOf_moves r).bind
    intro cb
    split
    · exact moves_pure _
    split
    · exact moves_pure _
    · exact moves_pure _

end

section

variable [CacheSteps R]

/-! ## Concatenation -/

/-- An operand as bytes. -/
theorem concatPiece_moves (host : HostFmt) (v : Operand) : Moves R (concatPiece host v) := by
  cases v with
  | str s => exact (strOf_moves s).bind fun _ => (strLength_moves s).bind fun _ => moves_pure _
  | int v => exact moves_pure _
  | float f => exact (newArr_moves _).bind fun _ => (arrOf_moves _).bind fun _ => moves_pure _

/-- An operand is written to the result. -/
theorem concatPut_moves (out pos : ℕ) (v : Operand) (bytes : Option ℕ) (n : ℕ) :
    Moves R (concatPut out pos v bytes n) := by
  unfold concatPut
  split
  · exact (copyTo_moves _ _ _ _).bind fun _ => moves_pure _
  · exact (strBytes_moves _).bind fun _ => (copyTo_moves _ _ _ _).bind fun _ => moves_pure _
  · apply (arrOf_moves out).bind
    intro a
    apply (orTrap_moves _).bind
    intro a
    exact (setArr_moves _ _).bind fun _ => moves_pure _
  · exact moves_throw _

/-- An operand as a string. -/
theorem concatStr_moves (v : Operand) (bytes : Option ℕ) : Moves R (concatStr v bytes) := by
  unfold concatStr
  split
  · exact moves_pure _
  · exact (orTrap_moves _).bind fun _ => (newArr_moves _).bind fun _ => CacheSteps.strOfBytes _ _
  · exact moves_throw _
  · exact newStr_moves _

/-- Room in a buffer, which may grow. -/
theorem bufRoom_moves (buf na n : ℕ) : Moves R (bufRoom buf na n) := by
  unfold bufRoom
  apply (bufOf_moves buf).bind
  intro b
  apply (arrOf_moves b.arr).bind
  intro a
  split
  · apply (newArr_moves _).bind
    intro grown
    exact (copyTo_moves _ _ _ _).bind fun _ => (setBuf_moves _ _).bind fun _ => moves_pure _
  · exact moves_pure _

/-- Bytes are appended to a buffer. -/
theorem bufAppend_moves (buf na : ℕ) (b : Operand) (sb : Option ℕ) (n : ℕ) :
    Moves R (bufAppend buf na b sb n) := by
  unfold bufAppend
  apply (bufRoom_moves buf na n).bind
  intro arr
  apply (concatPut_moves _ _ _ _ _).bind
  intro _
  exact (bufOf_moves buf).bind fun _ => (setBuf_moves _ _).bind fun _ => newStr_moves _

/-- A buffer begins with a string. -/
theorem bufStart_moves (a : ℕ) (b : Operand) (sb : Option ℕ) (n : ℕ) : Moves R (bufStart a b sb n) := by
  unfold bufStart
  apply (strOf_moves a).bind
  intro o
  apply (orTrap_moves _).bind
  intro na
  apply (newArr_moves _).bind
  intro arr
  apply (lazyWrite_moves _ _ _).bind
  intro _
  exact (concatPut_moves _ _ _ _ _).bind fun _ => (newBuf_moves _).bind fun _ => newStr_moves _

/-- A node of two strings. -/
theorem concatNode_moves (a : Operand) (sa : Option ℕ) (b : Operand) (sb : Option ℕ) (n : ℕ) :
    Moves R (concatNode a sa b sb n) :=
  (concatStr_moves a sa).bind fun _ => (concatStr_moves b sb).bind fun _ => newStr_moves _

/-- A concatenation that is not carried out. -/
theorem concatLazy_moves (a : Operand) (sa : Option ℕ) (b : Operand) (sb : Option ℕ) (n : ℕ) :
    Moves R (concatLazy a sa b sb n) := by
  unfold concatLazy concatLong
  split
  · exact moves_throw _
  cases a with
  | str s =>
    apply (strOf_moves s).bind
    intro o
    split
    · apply (bufOf_moves _).bind
      intro x
      split
      · exact bufAppend_moves _ _ _ _ _
      · exact concatNode_moves _ _ _ _ _
    · exact bufStart_moves _ _ _ _
    · exact concatNode_moves _ _ _ _ _
  | int v => exact concatNode_moves _ _ _ _ _
  | float f => exact concatNode_moves _ _ _ _ _

/-- Two operands. -/
theorem luaConcat_moves (host : HostFmt) (a b : Operand) : Moves R (luaConcat host a b) := by
  unfold luaConcat
  apply (concatPiece_moves host a).bind
  rintro ⟨sa, na⟩
  apply (concatPiece_moves host b).bind
  rintro ⟨sb, nb⟩
  dsimp only
  split
  · exact concatLazy_moves _ _ _ _ _
  · apply (newArr_moves _).bind
    intro out
    apply (concatPut_moves _ _ _ _ _).bind
    intro pos
    exact (concatPut_moves _ _ _ _ _).bind fun _ => CacheSteps.strOfBytes _ _

/-- Three operands. -/
theorem luaConcat3_moves (host : HostFmt) (a b c : Operand) : Moves R (luaConcat3 host a b c) := by
  unfold luaConcat3
  apply (concatPiece_moves host a).bind
  rintro ⟨sa, na⟩
  apply (concatPiece_moves host b).bind
  rintro ⟨sb, nb⟩
  apply (concatPiece_moves host c).bind
  rintro ⟨sc, nc⟩
  dsimp only
  split
  · exact (luaConcat_moves host b c).bind fun _ => luaConcat_moves _ _ _
  · apply (newArr_moves _).bind
    intro out
    apply (concatPut_moves _ _ _ _ _).bind
    intro pos
    apply (concatPut_moves _ _ _ _ _).bind
    intro pos
    exact (concatPut_moves _ _ _ _ _).bind fun _ => CacheSteps.strOfBytes _ _

/-- Four operands. -/
theorem luaConcat4_moves (host : HostFmt) (a b c d : Operand) :
    Moves R (luaConcat4 host a b c d) := by
  unfold luaConcat4
  apply (concatPiece_moves host a).bind
  rintro ⟨sa, na⟩
  apply (concatPiece_moves host b).bind
  rintro ⟨sb, nb⟩
  apply (concatPiece_moves host c).bind
  rintro ⟨sc, nc⟩
  apply (concatPiece_moves host d).bind
  rintro ⟨sd, nd⟩
  dsimp only
  split
  · exact (luaConcat_moves host c d).bind fun _ => (luaConcat_moves _ _ _).bind fun _ => luaConcat_moves _ _ _
  · apply (newArr_moves _).bind
    intro out
    apply (concatPut_moves _ _ _ _ _).bind
    intro pos
    apply (concatPut_moves _ _ _ _ _).bind
    intro pos
    apply (concatPut_moves _ _ _ _ _).bind
    intro pos
    exact (concatPut_moves _ _ _ _ _).bind fun _ => CacheSteps.strOfBytes _ _

/-- The relation goes along with every call on strings. -/
theorem StrOp.moves_of (host : HostFmt) (op : StrOp) : Moves R (op.run host) := by
  cases op with
  | make x hashed => exact (newArr_moves _).bind fun _ => (newStr_moves _).bind fun _ => moves_pure _
  | ofBytes x kind => exact (newArr_moves _).bind fun _ => (CacheSteps.strOfBytes _ _).bind fun _ => moves_pure _
  | concat a b => exact moves_map _ (luaConcat_moves host a b)
  | concat3 a b c => exact moves_map _ (luaConcat3_moves host a b c)
  | concat4 a b c d => exact moves_map _ (luaConcat4_moves host a b c d)
  | bytes s => exact (strBytes_moves s).bind fun _ => (arrOf_moves _).bind fun _ => moves_pure _
  | length s => exact moves_map _ (strLength_moves s)
  | eq s t => exact moves_map _ (strEq_moves s t)
  | hash s => exact moves_map _ (strHashOf_moves s)

end

end Lua2wasm.Strings
