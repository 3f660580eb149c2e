import Lua2wasm.Table.Next
import Lua2wasm.Table.World

/-!
# Stores to keys that are there

A store to a key that has a value makes no new key. `Narrowed s s'` is what it does to the layout of
the table: the hash part keeps its shape, the array part may get shorter, and no place comes to life.

There is one exception. A value stored at the key after the array part is appended to it, although the
hash part has that key. `StaysPut` excludes this.
-/

namespace Lua2wasm.Table

open Raising

/-- The layout of the table is kept, but for keys that were removed. -/
structure Narrowed (s s' : TabState) : Prop where
  /-- The shape is the same. -/
  shape : ∀ sh, s.shape = some sh → s'.shape = some sh
  /-- The array part is not longer. -/
  alen : s'.t.alen ≤ s.t.alen
  /-- The size of its array is the same. -/
  len : lengthOf s'.t.arr = lengthOf s.t.arr
  /-- No index of the array part came to life. -/
  arr : ∀ j < s'.t.alen, s'.t.arrValue j ≠ .nil → s.t.arrValue j ≠ .nil
  /-- No position of the hash part came to life. -/
  hash : ∀ sh, s.shape = some sh → ∀ p < sh.n, s'.t.value p ≠ .nil → s.t.value p ≠ .nil

/-- A store at an integer key does not append to the array part. -/
def StaysPut (s : TabState) (i : Int64) (w : Slot) : Prop :=
  i.toInt = s.t.alen + 1 → w.isNull = false → arrMax ≤ s.t.alen

/-- The same of a raw write. -/
def RawWrite.StaysPut (s : TabState) : RawWrite → Prop
  | .set k v => ∀ i, asArrKey k = some i → Table.StaysPut s i (.val v)
  | .setIk i v => Table.StaysPut s i (.val v)
  | .setIkF i _ => Table.StaysPut s i .mark
  | _ => True

/-- The key of a raw store. -/
def RawWrite.key : RawWrite → Option Val
  | .set k _ => some k
  | .setIk i _ => some (.int i)
  | .setStr o x _ => some (.str o x)
  | .setIkF i _ => some (.int i)
  | .setStrF o x _ => some (.str o x)
  | _ => none

variable {s s' s'' : TabState} {sh : Shape} {i : Int64} {a p r : ℕ} {key : Key} {k v : Val} {w : Slot}

theorem Narrowed.refl : Narrowed s s :=
  ⟨fun _ h => h, Nat.le_refl _, rfl, fun _ _ h => h, fun _ _ _ _ h => h⟩

theorem Narrowed.trans (h : Narrowed s s') (h' : Narrowed s' s'') : Narrowed s s'' where
  shape sh hs := h'.shape sh (h.shape sh hs)
  alen := Nat.le_trans h'.alen h.alen
  len := h'.len.trans h.len
  arr j hj hv := h.arr j (Nat.lt_of_lt_of_le hj h'.alen) (h'.arr j hj hv)
  hash sh hs p hp hv := h.hash sh hs p hp (h'.hash sh (h.shape sh hs) p hp hv)

/-- No place comes to life. -/
theorem Narrowed.live (h : Narrowed s s') (hs : s.shape = some sh) (hr : PlaceLive a sh s' r) :
    PlaceLive a sh s r := by
  obtain hlt | ⟨p, rfl⟩ := place_cases a r
  · rw [placeLive_arr hlt] at hr ⊢
    exact ⟨Nat.lt_of_lt_of_le hr.1 h.alen, h.arr r hr.1 hr.2⟩
  · rw [placeLive_hash] at hr ⊢
    exact ⟨hr.1, h.hash sh hs p hr.1 hr.2⟩

/-! ## The hash part -/

/-- A write to a position that has a value. -/
theorem Narrowed.of_frame (h : Frame s s') (hs : s.shape = some sh) (hs' : s'.shape = some sh)
    (hlive : s.t.value p ≠ .nil) (hother : ∀ j < sh.n, j ≠ p → s'.t.value j = s.t.value j) :
    Narrowed s s' where
  shape sh' h' := by
    rw [hs] at h'
    rw [hs', h']
  alen := Nat.le_of_eq h.alen
  len := by rw [h.arr]
  arr j _ hv := by
    rw [h.arrValue] at hv
    exact hv
  hash sh' h' j hj hv := by
    rw [hs] at h'
    obtain rfl := Option.some.inj h'
    by_cases hjp : j = p
    · rw [hjp]
      exact hlive
    · rw [hother j hj hjp] at hv
      exact hv

/-- The position of a key that has a value in the hash part. -/
theorem pos_of_hget (hs : s.shape = some sh) (hlive : s.hget key ≠ .nil) :
    ∃ p, sh.pos key = some p ∧ s.t.value p ≠ .nil := by
  cases hp : sh.pos key with
  | none => exact absurd (hget_of_absent hs hp) hlive
  | some p =>
    rw [hget_of_pos hs hp] at hlive
    exact ⟨p, rfl, hlive⟩

theorem setFound_narrowed (hok : HashOk s sh none) (hlive : s.hget key ≠ .nil) (k v : Val) (full : UInt32) :
    Ensures (setFound (sh.pos key) k v full) s (fun _ s' => Narrowed s s') := by
  obtain ⟨p, hp, hvalue⟩ := pos_of_hget hok.shape hlive
  rw [hp]
  unfold setFound
  refine (setVal_written hok (hok.pos_lt_vals hp) (.val v)).imp ?_
  intro _ s' h
  exact Narrowed.of_frame h.toFrame hok.shape h.ok.shape hvalue fun j _ hj => h.value j hj

theorem setFoundF_narrowed (hok : HashOk s sh none) (hlive : s.hget key ≠ .nil) (k : Val) (f : F64)
    (full : UInt32) :
    Ensures (setFoundF (sh.pos key) k f full) s (fun _ s' => Narrowed s s') := by
  obtain ⟨p, hp, hvalue⟩ := pos_of_hget hok.shape hlive
  rw [hp]
  unfold setFoundF
  apply (setVal_written hok (hok.pos_lt_vals hp) .mark).bind
  intro _ s₁ h
  refine (setFval_spec h.ok (h.ok.pos_lt_vals hp) h.slot).imp ?_
  rintro _ s' ⟨hframe, hok', -, hothers⟩
  refine Narrowed.of_frame (h.toFrame.trans hframe) hok.shape hok'.shape hvalue fun j hj hne => ?_
  rw [hothers j hj hne, h.value j hne]

theorem tabSetHash_narrowed (hok : HashOk s sh none) (hc : canon k = some key) (hlive : s.hget key ≠ .nil)
    (v : Val) : Ensures (tabSetHash k v) s (fun _ s' => Narrowed s s') :=
  meets_find hok hc (setFound_narrowed hok hlive k v _)

theorem tabSetFHash_narrowed (hok : HashOk s sh none) (hc : canon k = some key) (hlive : s.hget key ≠ .nil)
    (f : F64) : Ensures (tabSetFHash k f) s (fun _ s' => Narrowed s s') :=
  meets_find hok hc (setFoundF_narrowed hok hlive k f _)

theorem tabSetHashStr_narrowed {o : ℕ} {x : List UInt8} (hok : HashOk s sh none)
    (hlive : s.hget (.str x) ≠ .nil) (v : Val) :
    Ensures (tabSetHashStr (.str o x) (luaHash (.str o x)) v) s (fun _ s' => Narrowed s s') :=
  meets_findStr hok (setFound_narrowed hok hlive _ v _)

theorem tabSetFHashStr_narrowed {o : ℕ} {x : List UInt8} (hok : HashOk s sh none)
    (hlive : s.hget (.str x) ≠ .nil) (f : F64) :
    Ensures (tabSetFHashStr (.str o x) (luaHash (.str o x)) f) s (fun _ s' => Narrowed s s') :=
  meets_findStr hok (setFoundF_narrowed hok hlive _ f _)

/-! ## The array part -/

/-- A step that leaves the hash part alone, and writes one index that has a value. -/
theorem Narrowed.of_arr {idx : ℕ} (h : HashSame s s') (halen : s'.t.alen ≤ s.t.alen)
    (hlen : lengthOf s'.t.arr = lengthOf s.t.arr) (hlive : s.t.arrValue idx ≠ .nil)
    (hother : ∀ j, j ≠ idx → s'.t.arrValue j = s.t.arrValue j) : Narrowed s s' where
  shape sh hs := by
    rw [h.shape_eq]
    exact hs
  alen := halen
  len := hlen
  arr j _ hv := by
    by_cases hj : j = idx
    · rw [hj]
      exact hlive
    · rw [hother j hj] at hv
      exact hv
  hash sh _ p _ hv := by
    rw [h.value] at hv
    exact hv

theorem setInArr_narrowed (hok : TabOk s none) (hin : inArr s.t i = true)
    (hlive : s.t.arrValue (arrIndex i) ≠ .nil) (w : Slot) :
    Ensures (setInArr i w) s (fun _ s' => Narrowed s s') := by
  have hlt := arrIndex_lt hin
  have hroom := hok.arr.room
  unfold setInArr
  apply meets_get_bind
  apply (setArr_spec hok.arr.farr (show arrIndex i < lengthOf s.t.arr by omega) w).bind
  intro _ s₁ hwr
  split
  · refine (arrTrim_spec (by rw [hwr.alen, hwr.len]; exact hroom)).imp ?_
    intro _ s' htrim
    refine Narrowed.of_arr (hwr.toHashSame.trans htrim.toHashSame) ?_ ?_ hlive fun j hj => ?_
    · rw [← hwr.alen]
      exact htrim.alen
    · rw [htrim.arr, hwr.len]
    · rw [htrim.value, hwr.value hj]
  · exact meets_pure (Narrowed.of_arr hwr.toHashSame (Nat.le_of_eq hwr.alen) hwr.len hlive
      fun j hj => hwr.value hj)

/-- `$tab_set_arr` writes the index of a key that has a value in the array part, and declines one that
has its value in the hash part. -/
theorem tabSetArr_narrowed (hok : TabOk s none) (hlive : s.tget (.int i) ≠ .nil) (hput : StaysPut s i w) :
    Ensures (tabSetArr i w) s
      (fun b s' => if b then Narrowed s s' else s' = s ∧ s.hget (.int i) ≠ .nil) := by
  unfold tabSetArr
  apply meets_get_bind
  dsimp only
  split
  · rename_i hin
    rw [tget_of_inArr hin] at hlive
    apply (setInArr_narrowed hok hin hlive w).bind
    intro _ s' h
    exact meets_pure h
  rename_i hout
  rw [tget_of_not_inArr hout] at hlive
  split
  · rename_i hi
    unfold arrAppend
    apply meets_get_bind
    split
    · exact meets_pure ⟨rfl, hlive⟩
    · rename_i hnull
      rw [if_pos (hput hi (by simpa using hnull))]
      exact meets_pure ⟨rfl, hlive⟩
  · exact meets_pure ⟨rfl, hlive⟩

/-! ## The stores of the runtime -/

theorem tabSetIk_narrowed (hok : TabOk s none) (hlive : s.tget (.int i) ≠ .nil)
    (hput : StaysPut s i (.val v)) :
    Ensures (tabSetIk i v) s (fun _ s' => Narrowed s s') := by
  obtain ⟨sh, hash⟩ := hok.hash
  unfold tabSetIk
  apply (tabSetArr_narrowed hok hlive hput).bind
  intro b s₁ h
  cases b with
  | true => exact meets_pure h
  | false =>
    obtain ⟨rfl, hlive⟩ : s₁ = s ∧ s.hget (.int i) ≠ .nil := h
    exact tabSetHash_narrowed hash rfl hlive v

theorem tabsetIkF_narrowed (hok : TabOk s none) (hlive : s.tget (.int i) ≠ .nil)
    (hput : StaysPut s i .mark) (f : F64) :
    Ensures (tabsetIkF i f) s (fun _ s' => Narrowed s s') := by
  obtain ⟨sh, hash⟩ := hok.hash
  unfold tabsetIkF
  have hset := (tabSetArr_narrowed hok hlive hput).and (tabSetArr_spec hok i .mark)
  apply (hset.imp_error fun _ _ h => h.1.elim).bind
  rintro b s₁ ⟨hnarrow, h⟩
  cases b with
  | true =>
    have h : ArrSet (StoreClean s i .mark) s s₁ i .mark := h
    have hnarrow : Narrowed s s₁ := hnarrow
    have hin := h.kept rfl
    have hvalue : s₁.t.arrValue (arrIndex i) ≠ .nil := by
      unfold LuaTable.arrValue
      rw [h.slot hin]
      simp
    have hlt := arrIndex_lt hin
    refine (setFarr_spec h.arr hlt (h.slot hin)).imp ?_
    rintro _ s' ⟨hsame, -, halen, harr, -, hothers⟩
    exact hnarrow.trans (Narrowed.of_arr hsame (Nat.le_of_eq halen) (by rw [harr]) hvalue hothers)
  | false =>
    obtain ⟨rfl, hlive⟩ : s₁ = s ∧ s.hget (.int i) ≠ .nil := hnarrow
    exact tabSetFHash_narrowed hash rfl hlive f

theorem tabSet_narrowed (hok : TabOk s none) (hc : canon k = some key) (hlive : s.tget key ≠ .nil)
    (hput : ∀ i, asArrKey k = some i → StaysPut s i (.val v)) :
    Ensures (tabSet k v) s (fun _ s' => Narrowed s s') := by
  obtain ⟨sh, hash⟩ := hok.hash
  -- a key that is not an integer is one of the hash part
  have hother : (∀ i, canon k ≠ some (.int i)) →
      Ensures (tabSetHash k v) s (fun _ s' => Narrowed s s') := by
    intro hne
    apply tabSetHash_narrowed hash hc
    rw [← tget_of_ne_int fun i heq => hne i (by rw [hc, heq])]
    exact hlive
  unfold tabSet
  split
  · rename_i hstr
    apply hother
    intro i
    cases k with
    | str o x => simp
    | _ => cases hstr
  split
  · rename_i hnil
    rw [hnil] at hc
    cases hc
  split
  · rename_i hnan
    cases k with
    | float f =>
      rw [canon_of_isNaN hnan] at hc
      cases hc
    | _ => cases hnan
  cases hi : asArrKey k with
  | some i =>
    obtain rfl : Key.int i = key := by
      rw [canon_of_asArrKey hi] at hc
      exact Option.some.inj hc
    exact tabSetIk_narrowed hok hlive (hput i hi)
  | none => exact hother fun i => canon_ne_int_of_asArrKey hi i

/-- A raw store to a key that has a value keeps the layout of the table. -/
theorem RawWrite.run_narrowed (hok : TabOk s none) (op : RawWrite) (hkey : op.key = some k)
    (hlive : tabGetRaw s k ≠ some .nil) (hput : op.StaysPut s) :
    Ensures op.run s (fun _ s' => Narrowed s s') := by
  obtain ⟨sh, hash⟩ := hok.hash
  rw [tabGetRaw_spec hok] at hlive
  cases op with
  | set k' v =>
    cases hkey
    cases hc : canon k with
    | none =>
      rw [hc] at hlive
      exact absurd rfl hlive
    | some key =>
      rw [hc] at hlive
      exact tabSet_narrowed hok hc (fun h => hlive (congrArg some h)) hput
  | setIk i v =>
    cases hkey
    exact tabSetIk_narrowed hok (fun h => hlive (congrArg some h)) hput
  | setStr o x v =>
    cases hkey
    exact tabSetHashStr_narrowed hash (fun h => hlive (congrArg some h)) v
  | setIkF i f =>
    cases hkey
    exact tabsetIkF_narrowed hok (fun h => hlive (congrArg some h)) hput f
  | setStrF o x f =>
    cases hkey
    exact tabSetFHashStr_narrowed hash (fun h => hlive (congrArg some h)) f
  | append v => cases hkey
  | insert pos v => cases hkey
  | remove pos => cases hkey

end Lua2wasm.Table
