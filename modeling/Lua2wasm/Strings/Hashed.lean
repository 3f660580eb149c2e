import Lua2wasm.Strings.Frame

/-!
# The hash of a string stays

A table compares the cached hash of a stored key with the hash of the key that it looks for, and does
not compute it again. `StrOp.moves` is why it may: once the hash of a string has been computed, no call on
strings takes it away.
-/

namespace Lua2wasm.Strings

open Raising

/-- The computed hashes are as they were. -/
def HashKept (h h' : StrHeap) : Prop :=
  ∀ (s : ℕ) (o : StrObj), h.strs[s]? = some o → o.hash ≠ 0 → ∃ o', h'.strs[s]? = some o' ∧ o'.hash = o.hash

instance : Std.Refl HashKept where
  refl _ _ o ho _ := ⟨o, ho, rfl⟩

instance : IsTrans StrHeap HashKept where
  trans _ _ _ hk hk' s o ho hne := by
    obtain ⟨o', ho', heq⟩ := hk s o ho hne
    obtain ⟨o'', ho'', heq'⟩ := hk' s o' ho' (by rw [heq]; exact hne)
    exact ⟨o'', ho'', heq'.trans heq⟩

variable {h h' : StrHeap} {s : ℕ} {o : StrObj}

/-- What leaves the strings alone, or adds to them. -/
theorem HashKept.of_initial (hp : h.strs <+: h'.strs) : HashKept h h' :=
  fun _ o ho _ => ⟨o, getElem?_of_initial hp ho, rfl⟩

theorem HashKept.of_eq (heq : h'.strs = h.strs) : HashKept h h' :=
  HashKept.of_initial (heq ▸ List.prefix_rfl)

/-- A string gets new fields, with its hash among them if it was computed. -/
theorem HashKept.set {o' : StrObj} (ho : h.strs[s]? = some o) (hhash : o.hash ≠ 0 → o'.hash = o.hash) :
    HashKept h { h with strs := h.strs.set s o' } := by
  intro t u hu hne
  have hlt := (List.getElem?_eq_some_iff.mp ho).1
  by_cases hst : s = t
  · subst hst
    rw [ho] at hu
    cases hu
    exact ⟨o', by simp [hlt], hhash hne⟩
  · exact ⟨u, by simp only [List.getElem?_set_ne hst, hu], rfl⟩

/-- The hash of a string is computed that was not. -/
theorem HashKept.set_new {o' : StrObj} (hk : HashKept h h') (ho : h.strs[s]? = some o) (hz : o.hash = 0) :
    HashKept h { h' with strs := h'.strs.set s o' } := by
  intro t u hu hne
  have hst : s ≠ t := by
    rintro rfl
    rw [ho] at hu
    cases hu
    exact hne hz
  obtain ⟨u', hu', heq⟩ := hk t u hu hne
  exact ⟨u', by simp only [List.getElem?_set_ne hst, hu'], heq⟩

instance : StringSteps HashKept where
  newArr _ _ := HashKept.of_eq rfl
  newStr _ _ := HashKept.of_initial (List.prefix_append _ _)
  newBuf _ _ := HashKept.of_eq rfl
  setArr _ _ _ := HashKept.of_eq rfl
  setBuf _ _ _ := HashKept.of_eq rfl
  charStrs _ _ _ := HashKept.of_eq rfl
  setStr _ _ _ _ ho hhash := HashKept.set ho hhash
  setHash _ _ _ _ _ hk ho hz := hk.set_new ho hz

/-! ## The cache of short strings -/

theorem setScacheState_moves (i : ℕ) (x : UInt32) : Moves HashKept (setScacheState i x) := by
  apply moves_get_bind
  intro h
  cases Table.setAt h.scacheState i x with
  | none => exact meets_throw (HashKept.of_eq rfl)
  | some st => exact meets_pure_bind (meets_set (HashKept.of_eq rfl))

theorem scacheStateAt_moves (i : ℕ) : Moves HashKept (scacheStateAt i) :=
  moves_get.bind fun _ => orTrap_moves _

theorem scacheOn_moves (kind : ℕ) : Moves HashKept (scacheOn kind) := by
  unfold scacheOn
  apply (scacheStateAt_moves _).bind
  intro skip
  split
  · exact (setScacheState_moves _ _).bind fun _ => moves_pure _
  apply (scacheStateAt_moves _).bind
  intro p
  split
  · exact (setScacheState_moves _ _).bind fun _ => moves_pure _
  apply (scacheStateAt_moves _).bind
  intro missed
  have hend : Moves HashKept (do
      setScacheState (4 * kind) 0
      setScacheState (4 * kind + 1) 0
      pure true) :=
    (setScacheState_moves _ _).bind fun _ => (setScacheState_moves _ _).bind fun _ => moves_pure _
  split
  · exact (setScacheState_moves _ _).bind fun _ => hend
  · exact hend

theorem scacheMissed_moves (kind : ℕ) : Moves HashKept (scacheMissed kind) :=
  (scacheStateAt_moves _).bind fun _ => setScacheState_moves _ _

theorem strOfBytesCached_moves (out kind : ℕ) : Moves HashKept (strOfBytesCached out kind) := by
  unfold strOfBytesCached
  apply (arrOf_moves out).bind
  intro a
  apply (scacheFind_moves _ _).bind
  intro c
  cases c with
  | some c => exact moves_pure c
  | none =>
    apply (scacheMissed_moves kind).bind
    intro _
    apply (newStr_moves _).bind
    intro s
    apply moves_get_bind
    intro h
    cases Table.setAt h.scache (scacheSlot a) (some s) with
    | none => exact meets_throw (HashKept.of_eq rfl)
    | some cache => exact meets_pure_bind (meets_set_bind (meets_pure (HashKept.of_eq rfl)))

theorem strOfBytes_moves (out kind : ℕ) : Moves HashKept (strOfBytes out kind) := by
  unfold strOfBytes
  apply (arrOf_moves out).bind
  intro a
  split
  · exact newStr_moves _
  split
  · exact charStr_moves _
  split
  · exact newStr_moves _
  apply (scacheOn_moves kind).bind
  intro on
  split
  · exact strOfBytesCached_moves _ _
  · exact newStr_moves _

instance : CacheSteps HashKept where
  strOfBytes := strOfBytes_moves

/-- No call on strings takes a computed hash away. -/
theorem StrOp.moves (host : HostFmt) (op : StrOp) : Moves HashKept (op.run host) := StrOp.moves_of host op

end Lua2wasm.Strings
