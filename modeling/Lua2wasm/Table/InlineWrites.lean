import Lua2wasm.Table.Inline

/-!
# Stores in generated code

The templates of `codegen/arrays.c` that store, against `$lua_tabset_ik` and `$lua_tabset_ik_f`. In place, a
template does what the call would do to the array part, with two exceptions: an append in place does not look at
the limit of the array part, so that the value may be in the array part where the call would put it in the hash
part (`returns_appendHash`); and a float stays unboxed where the call would box it for the metatable
(`wroteF_alike`). The table is the same at every key all the same, and so is its length (`SameEnd`).

`templates_agree` is the result, for loads and lengths too, in every state that a program can reach by the
runtime's writes and by stores in place (`World.Reached`).
-/

namespace Lua2wasm.Table

open Raising

variable {Ω α β : Type} {s : TabState} {k : Int64} {v : Val} {key : IxKey} {mm : Metamethods Ω} {r : Receiver Ω}

/-! ## Writes in place -/

/-- A slot of the array part is written. -/
def TabState.wrote (s : TabState) (i : ℕ) (w : Slot) : TabState :=
  { s with t := { s.t with arr := s.t.arr.map fun a => a.set i w } }

/-- A double of the array part is written. -/
def TabState.wroteF (s : TabState) (i : ℕ) (f : F64) : TabState :=
  { s with t := { s.t with farr := s.t.farr.map fun a => a.set i f } }

theorem returns_setArr (hi : i < lengthOf s.t.arr) (w : Slot) : Returns (setArr i w) s () (s.wrote i w) := by
  obtain ⟨a, ha, hlt, -⟩ := getElem?_arr hi
  unfold setArr
  apply returns_get_bind
  apply Returns.bind (returns_orStuck ha)
  apply Returns.bind (returns_orStuck (setAt_of_lt hlt))
  unfold TabState.wrote
  rw [ha]
  rfl

/-- `$tab_set_arr`, when the key is in the array part and the slot does not become null. -/
theorem returns_tabSetArr (hok : TabOk s none) (hin : inArr s.t k = true) {w : Slot} (hw : w.isNull = false) :
    Returns (tabSetArr k w) s true (s.wrote (arrIndex k) w) := by
  have hlt := arrIndex_lt hin
  have hroom := hok.arr.room
  unfold tabSetArr
  apply returns_get_bind
  rw [if_pos hin]
  have hset : Returns (setInArr k w) s () (s.wrote (arrIndex k) w) := by
    unfold setInArr
    apply returns_get_bind
    apply Returns.bind (returns_setArr (by omega) w)
    rw [if_neg (by simp [hw])]
    exact returns_pure () _
  exact Returns.bind hset (returns_pure true _)

theorem isNull_val (hv : v ≠ .nil) : (Slot.val v).isNull = false := by
  unfold Slot.isNull
  simpa using hv

theorem returns_tabSetIk (hok : TabOk s none) (hin : inArr s.t k = true) (hv : v ≠ .nil) :
    Returns (tabSetIk k v) s () (s.wrote (arrIndex k) (.val v)) := by
  unfold tabSetIk
  apply Returns.bind (returns_tabSetArr hok hin (isNull_val hv))
  exact returns_pure () _

/-- A table with a metatable is written like one without, at a key that it has. -/
theorem returns_luaTabset (hok : TabOk r.tab none) (hin : inArr r.tab.t k = true)
    (hold : r.tab.t.arrValue (arrIndex k) ≠ .nil) (hv : v ≠ .nil) :
    Returns (luaTabset mm (.int k) v) r () { r with tab := r.tab.wrote (arrIndex k) (.val v) } := by
  have hset : Returns (onTab (tabSet (.int k) v)) r () { r with tab := r.tab.wrote (arrIndex k) (.val v) } :=
    returns_onTab (returns_tabSetIk hok hin hv)
  unfold luaTabset
  apply returns_get_bind
  split
  · have hraw : tabGetRaw r.tab (.int k) = some (r.tab.t.arrValue (arrIndex k)) := by
      rw [tabGetRaw_spec hok, ← tget_of_inArr hin]
      rfl
    unfold luaTabsetMeta
    apply Returns.bind (returns_onTab (returns_get_bind (returns_orStuck hraw)))
    rw [if_pos hold]
    exact hset
  · exact hset

theorem returns_luaTabsetIk (hok : TabOk r.tab none) (hin : inArr r.tab.t k = true)
    (hold : r.tab.t.arrValue (arrIndex k) ≠ .nil) (hv : v ≠ .nil) :
    Returns (luaTabsetIk mm k v) r () { r with tab := r.tab.wrote (arrIndex k) (.val v) } := by
  unfold luaTabsetIk
  apply returns_get_bind
  split
  · exact returns_luaTabset hok hin hold hv
  · exact returns_onTab (returns_tabSetIk hok hin hv)

/-! ## Appends -/

/-- There is room for an append in place, and nothing to absorb. -/
structure AppendRoom (s : TabState) : Prop where
  /-- The hash part has no keys. -/
  empty : ∃ sh, HashOk s sh none ∧ sh.n = 0
  /-- The array has room. -/
  room : s.t.alen < lengthOf s.t.arr

/-- The array part has one more slot. -/
def TabState.pushed (s : TabState) (v : Val) : TabState :=
  { s with t := { (s.wrote s.t.alen (.val v)).t with alen := s.t.alen + 1 } }

theorem returns_putNext (hi : s.t.alen < lengthOf s.t.arr) (v : Val) :
    Returns (putNext s.t.alen v) s () (s.pushed v) := by
  unfold putNext
  exact Returns.bind (returns_setArr hi (.val v)) rfl

/-- An append in place is done if and only if there is no metatable, and there is room. -/
theorem appendAt_spec (hok : TabOk s none) (hasMeta : Bool) (v : Val) :
    (hasMeta = false ∧ AppendRoom s ∧ Returns (appendAt hasMeta s.t.alen v) s true (s.pushed v)) ∨
      Returns (appendAt hasMeta s.t.alen v) s false s := by
  obtain ⟨sh, hash⟩ := hok.hash
  have hshape : Returns getShape s sh s := by
    unfold getShape
    exact returns_get_bind (returns_orStuck hash.shape)
  unfold appendAt arrAppendBlocked
  cases hasMeta with
  | true => exact Or.inr rfl
  | false =>
    rw [if_neg (by simp)]
    have hblocked : ∃ b, Returns arrNoRoom s b s ∧ (b = false → AppendRoom s) := by
      unfold arrNoRoom
      cases ha : s.t.arr with
      | none =>
        refine ⟨true, ?_, by simp⟩
        apply Returns.bind hshape
        apply returns_get_bind
        dsimp only
        rw [ha]
        exact returns_pure true s
      | some a =>
        refine ⟨decide (sh.n ≠ 0 ∨ a.length ≤ s.t.alen), ?_, fun hb => ?_⟩
        · apply Returns.bind hshape
          apply returns_get_bind
          dsimp only
          rw [ha]
          exact returns_pure _ s
        · rw [decide_eq_false_iff_not, not_or, not_not, not_le] at hb
          refine ⟨⟨sh, hash, hb.1⟩, ?_⟩
          rw [ha, lengthOf_some]
          exact hb.2
    obtain ⟨b, hb, hroom⟩ := hblocked
    cases b with
    | true =>
      right
      apply Returns.bind hb
      exact returns_pure false s
    | false =>
      have hroom := hroom rfl
      left
      refine ⟨rfl, hroom, ?_⟩
      apply Returns.bind hb
      rw [if_neg (by simp)]
      exact Returns.bind (returns_putNext hroom.room v) (returns_pure true _)

theorem arrSlot_wrote (hi : i < lengthOf s.t.arr) (w : Slot) (j : ℕ) :
    (s.wrote i w).t.arrSlot j = if j = i then w else s.t.arrSlot j := by
  obtain ⟨a, ha, hlt, -⟩ := getElem?_arr hi
  unfold LuaTable.arrSlot TabState.wrote
  rw [ha]
  exact getD_set hlt

theorem lengthOf_wrote (i : ℕ) (w : Slot) : lengthOf (s.wrote i w).t.arr = lengthOf s.t.arr := by
  unfold TabState.wrote
  cases s.t.arr with
  | none => rfl
  | some a => exact List.length_set

/-- The table is in order after an append in place. -/
theorem tabOk_pushed (hok : TabOk s none) (hroom : s.t.alen < lengthOf s.t.arr) (hv : v ≠ .nil) :
    TabOk (s.pushed v) none := by
  have hslot := arrSlot_wrote hroom (.val v)
  obtain ⟨sh, hash⟩ := hok.hash
  have hsame : HashSame s (s.pushed v) := ⟨rfl, rfl, rfl, rfl⟩
  refine ⟨⟨sh, hsame.hashOk hash⟩, ?_, ?_, ?_, ?_, ?_⟩
  · change s.t.alen + 1 ≤ lengthOf (s.wrote s.t.alen (.val v)).t.arr
    rw [lengthOf_wrote]
    exact hroom
  · intro n hn
    obtain rfl : s.t.alen = n := Nat.succ.inj hn
    change ((s.wrote s.t.alen (.val v)).t.arrSlot s.t.alen).isNull = false
    rw [hslot, if_pos rfl]
    exact isNull_val hv
  · intro fa hfa
    obtain ⟨a, ha, hlen⟩ := hok.arr.farr fa hfa
    refine ⟨a.set s.t.alen (.val v), ?_, by rw [List.length_set, hlen]⟩
    change (s.t.arr.map _) = _
    rw [ha]
    rfl
  · intro j hj _ hmark
    change (s.wrote s.t.alen (.val v)).t.arrSlot j = .mark at hmark
    rw [hslot] at hmark
    split at hmark
    · cases hmark
    · have hlt : j < s.t.alen + 1 := hj
      exact hok.arr.marked j (by omega) (by simp) hmark
  · change lengthOf (s.wrote s.t.alen (.val v)).t.arr < 2^31
    rw [lengthOf_wrote]
    exact hok.arr.len

/-- The table as a map after an append in place. -/
theorem tget_pushed (hok : TabOk s none) (hroom : s.t.alen < lengthOf s.t.arr) (v : Val) (key : Key) :
    (s.pushed v).tget key = if key = arrKey s.t.alen then v else s.tget key := by
  have hslot := arrSlot_wrote hroom (.val v)
  have hsmall := hok.arr.small
  have hsame : HashSame s (s.pushed v) := ⟨rfl, rfl, rfl, rfl⟩
  have hvalue : ∀ j < s.t.alen, (s.pushed v).t.arrValue j = s.t.arrValue j := by
    intro j hj
    apply arrValue_eq_of_slot
    · exact (hslot j).trans (if_neg (by omega))
    · rfl
  rw [tget_of_longer (by omega) rfl hvalue fun key _ => hsame.hget key]
  congr 1
  unfold LuaTable.arrValue
  rw [show (s.pushed v).t.arrSlot s.t.alen = .val v from (hslot s.t.alen).trans (if_pos rfl)]

/-! ## The same end -/

/-- Nothing that the program reads tells the states apart. -/
structure SameState (r r' : Receiver Ω) : Prop where
  /-- The table has the same values and the same length. -/
  tab : Alike r.tab r'.tab
  /-- The shared shapes are the same for other tables. -/
  grows : Grows r.tab.shapes r'.tab.shapes
  /-- It has a metatable, or it does not. -/
  hasMeta : r'.hasMeta = r.hasMeta
  /-- All the rest is the same. -/
  rest : r'.rest = r.rest

/-- Both computations end with the same result or the same error, and in states that nothing tells apart. -/
def SameEnd (x y : IxM Ω α) (r : Receiver Ω) : Prop :=
  (x.run r : Except Fault α × Receiver Ω).1 = (y.run r : Except Fault α × Receiver Ω).1 ∧
    SameState (x.run r : Except Fault α × Receiver Ω).2 (y.run r : Except Fault α × Receiver Ω).2

theorem Alike.refl (s : TabState) : Alike s s := ⟨fun _ => rfl, rfl⟩

theorem sameEnd_of_eq {x y : IxM Ω α} (h : (x.run r : Except Fault α × Receiver Ω) = y.run r) : SameEnd x y r := by
  unfold SameEnd
  rw [h]
  exact ⟨rfl, Alike.refl _, Grows.refl, rfl, rfl⟩

/-- Both return the same, with tables that nothing tells apart. -/
theorem sameEnd_of_returns {x y : IxM Ω α} {a : α} {tab tab' : TabState} (hx : Returns x r a { r with tab })
    (hy : Returns y r a { r with tab := tab' }) (halike : Alike tab tab') (hgrows : Grows tab.shapes tab'.shapes) :
    SameEnd x y r := by
  have hx : (x.run r : Except Fault α × Receiver Ω) = _ := hx
  have hy : (y.run r : Except Fault α × Receiver Ω) = _ := hy
  unfold SameEnd
  rw [hx, hy]
  exact ⟨rfl, halike, hgrows, rfl, rfl⟩

/-! ## Writes -/

/-- The store is an append in place. -/
structure Appends (s : TabState) (hasMeta : Bool) (k : Int64) (v : Val) : Prop where
  /-- There is no metatable. -/
  hasMeta : hasMeta = false
  /-- The key follows the array part. -/
  key : k.toInt = (s.t.alen : ℤ) + 1
  /-- The value is not nil. -/
  value : v ≠ .nil
  /-- There is room. -/
  room : AppendRoom s

/-- The computation is the call of `$lua_tabset_ik`, or it appends in place. -/
def CallsOrAppends (mm : Metamethods Ω) (x : IxM Ω Unit) (r : Receiver Ω) (k : Int64) (v : Val) : Prop :=
  (x.run r : Except Fault Unit × Receiver Ω) = (luaTabsetIk mm k v).run r ∨
    Appends r.tab r.hasMeta k v ∧ Returns x r () { r with tab := r.tab.pushed v }

theorem appendMiss_spec (hok : TabOk s none) (hasMeta : Bool) (k : Int64) (v : Val) :
    Returns (appendMiss hasMeta k v) s false s ∨
      Appends s hasMeta k v ∧ Returns (appendMiss hasMeta k v) s true (s.pushed v) := by
  unfold appendMiss
  by_cases hkey : v ≠ .nil ∧ k.toInt = s.t.alen + 1
  · obtain ⟨hmeta, hroom, happend⟩ | hblocked := appendAt_spec hok hasMeta v
    · right
      refine ⟨⟨hmeta, hkey.2, hkey.1, hroom⟩, ?_⟩
      apply returns_get_bind
      rw [if_pos hkey]
      exact happend
    · left
      apply returns_get_bind
      rw [if_pos hkey]
      exact hblocked
  · left
    apply returns_get_bind
    rw [if_neg hkey]
    exact returns_pure false _

theorem luaTabsetIkMiss_spec (hok : TabOk r.tab none) (k : Int64) (v : Val) :
    CallsOrAppends mm (luaTabsetIkMiss mm k v) r k v := by
  unfold CallsOrAppends luaTabsetIkMiss
  obtain hmiss | ⟨happ, hdone⟩ := appendMiss_spec hok r.hasMeta k v
  · left
    rw [run_get_bind, run_onTab_bind hmiss, if_neg (by simp)]
  · right
    exact ⟨happ, returns_get_bind (Returns.bind (returns_onTab hdone) (returns_pure () _))⟩

theorem ixSetSlow_spec (hok : TabOk r.tab none) (hk : key.Is k) (v : Val) :
    CallsOrAppends mm (ixSetSlow mm key v) r k v := by
  cases key with
  | int i =>
    obtain rfl := hk
    exact luaTabsetIkMiss_spec hok i v
  | cell static c =>
    obtain ⟨ht, rfl⟩ := hk
    left
    unfold ixSetSlow luaTabsetMk
    dsimp only
    rw [if_pos ht]

/-- The inline part of `t[k] = v` overwrites a value, or it appends, or it leaves all to the slow path. -/
theorem ixSetInline_spec (hok : TabOk s none) (append hasMeta : Bool) (k : Int64) (v : Val) :
    Returns (ixSetInline append hasMeta k v) s false s ∨
      (inArr s.t k = true ∧ s.t.arrValue (arrIndex k) ≠ .nil ∧ v ≠ .nil ∧
        Returns (ixSetInline append hasMeta k v) s true (s.wrote (arrIndex k) (.val v))) ∨
      (Appends s hasMeta k v ∧ Returns (ixSetInline append hasMeta k v) s true (s.pushed v)) := by
  have hsmall := hok.arr.small
  have hroom := hok.arr.room
  unfold ixSetInline
  by_cases hv : v = .nil
  · left
    apply returns_get_bind
    rw [if_pos hv]
    exact returns_pure false _
  by_cases hin : inArr s.t k = true
  · have hlt := arrIndex_lt hin
    have hread := returns_arrAt hok hlt
    have hoff := (ixOff_lt_iff_inArr hok).mpr hin
    rw [ixIndex_of_inArr hok hin]
    -- a hole is left to the slow path, which looks for a metamethod
    by_cases hnull : (s.t.arrSlot (arrIndex k)).isNull = true
    · left
      apply returns_get_bind
      rw [if_neg hv, if_pos hoff]
      apply Returns.bind hread
      rw [if_pos hnull]
      exact returns_pure false _
    · right; left
      refine ⟨hin, arrValue_ne_nil (by simpa using hnull), hv, ?_⟩
      apply returns_get_bind
      rw [if_neg hv, if_pos hoff]
      apply Returns.bind hread
      rw [if_neg hnull]
      exact Returns.bind (returns_setArr (by omega) _) (returns_pure true _)
  · have hoff := mt (ixOff_lt_iff_inArr hok).mp hin
    -- the key behind the last one appends, where the template allows it
    by_cases hkey : append = true ∧ ixOff k = s.t.alen
    · have hnext := (ixOff_eq_iff hsmall).mp hkey.2
      have hidx : ixIndex k = s.t.alen := by
        rw [ixIndex_eq (by omega) (by omega)]
        unfold arrIndex
        omega
      rw [hidx]
      obtain ⟨hmeta, happroom, happend⟩ | hblocked := appendAt_spec hok hasMeta v
      · right; right
        refine ⟨⟨hmeta, hnext, hv, happroom⟩, ?_⟩
        apply returns_get_bind
        rw [if_neg hv, if_neg hoff, if_pos hkey]
        exact happend
      · left
        apply returns_get_bind
        rw [if_neg hv, if_neg hoff, if_pos hkey]
        exact hblocked
    · left
      apply returns_get_bind
      rw [if_neg hv, if_neg hoff, if_neg hkey]
      exact returns_pure false _

/-- What `t[k] = v` does in generated code. -/
theorem emitIxSet_spec (hok : TabOk r.tab none) (hk : key.Is k) (append : Bool) (v : Val) :
    CallsOrAppends mm (emitIxSet mm append key v) r k v := by
  have hdone : ∀ {tab}, Returns (ixSetInline append r.hasMeta k v) r.tab true tab →
      Returns (emitIxSet mm append key v) r () { r with tab } := by
    intro tab hinline
    unfold emitIxSet
    rw [hk.isOther, hk.keyI, if_neg (by simp)]
    exact returns_get_bind (Returns.bind (returns_onTab hinline) (returns_pure () _))
  obtain hslow | ⟨hin, hold, hv, hinline⟩ | ⟨happ, hinline⟩ :=
    ixSetInline_spec hok append r.hasMeta k v
  · have hrun : ((emitIxSet mm append key v).run r : Except Fault Unit × Receiver Ω) = (ixSetSlow mm key v).run r := by
      unfold emitIxSet
      rw [hk.isOther, hk.keyI, if_neg (by simp), run_get_bind, run_onTab_bind hslow, if_neg (by simp)]
    have hspec := @ixSetSlow_spec _ _ _ mm _ hok hk v
    unfold CallsOrAppends Returns at hspec ⊢
    rw [hrun]
    exact hspec
  · left
    have hcall := @returns_luaTabsetIk _ _ _ mm _ hok hin hold hv
    exact (hdone hinline).trans hcall.symm
  · exact Or.inr ⟨happ, hdone hinline⟩

/-- The runtime does the append in place too, below the limit of the array part. -/
theorem returns_append (h : Appends r.tab r.hasMeta k v) (hmax : r.tab.t.alen < arrMax) :
    Returns (luaTabsetIk mm k v) r () { r with tab := r.tab.pushed v } := by
  obtain ⟨sh, hash, hn⟩ := h.room.empty
  have hkey := h.key
  have hroom := h.room.room
  obtain ⟨a, ha, hlt, -⟩ := getElem?_arr hroom
  have hout : ¬ inArr r.tab.t k = true := by
    rw [inArr_iff]
    omega
  have hpush : Returns (arrPush (.val v)) r.tab () (r.tab.pushed v) := by
    unfold arrPush
    apply returns_get_bind
    have hensure : Returns (arrEnsure (r.tab.t.alen + 1)) r.tab () r.tab := by
      unfold arrEnsure
      apply returns_get_bind
      rw [ha]
      dsimp only
      rw [if_pos (Or.inl (show r.tab.t.alen + 1 ≤ a.length from hlt))]
      exact returns_pure () _
    exact Returns.bind hensure (returns_putNext hroom v)
  -- the hash part is empty, so nothing moves
  have habsorb : Returns absorbAll (r.tab.pushed v) () (r.tab.pushed v) := by
    unfold absorbAll
    have hshape : Returns getShape (r.tab.pushed v) sh (r.tab.pushed v) := by
      unfold getShape
      exact returns_get_bind (returns_orStuck hash.shape)
    apply Returns.bind hshape
    rw [if_pos hn]
    exact returns_pure () _
  have happend : Returns (arrAppend (.val v)) r.tab true (r.tab.pushed v) := by
    unfold arrAppend
    apply returns_get_bind
    rw [if_neg (by simp [isNull_val h.value]), if_neg (by omega)]
    have hholes : mostlyHoles r.tab.t = some false := by
      unfold mostlyHoles
      rw [ha]
      dsimp only
      rw [if_neg (by omega)]
    apply Returns.bind (returns_orStuck hholes)
    rw [if_neg (by simp)]
    exact Returns.bind hpush (Returns.bind habsorb (returns_pure true _))
  have hset : Returns (tabSetIk k v) r.tab () (r.tab.pushed v) := by
    unfold tabSetIk tabSetArr
    apply @Returns.bind _ _ _ _ _ _ _ true (r.tab.pushed v)
    · apply returns_get_bind
      rw [if_neg hout, if_pos hkey]
      exact happend
    · exact returns_pure () _
  unfold luaTabsetIk
  apply returns_get_bind
  rw [if_neg (by rw [h.hasMeta]; simp)]
  exact returns_onTab hset

/-- Beyond it the runtime puts the value in the hash part. -/
theorem returns_appendHash (hok : TabOk r.tab none) (h : Appends r.tab r.hasMeta k v) (hmax : arrMax ≤ r.tab.t.alen) :
    ∃ tab, HashSet r.tab tab (arrKey r.tab.t.alen) v ∧ Returns (luaTabsetIk mm k v) r () { r with tab } := by
  obtain ⟨sh, hash, hn⟩ := h.room.empty
  have hsmall := hok.arr.small
  have hkey := h.key
  have hout : ¬ inArr r.tab.t k = true := by
    rw [inArr_iff]
    omega
  have hk : canon (.int k) = some (arrKey r.tab.t.alen) := by
    rw [ofInt_toInt_succ (by omega) hkey]
    rfl
  have hstore : Ensures (tabSetHash (.int k) v) r.tab (fun _ s' => HashSet r.tab s' (arrKey r.tab.t.alen) v) := by
    refine (tabSetHash_spec hash (normal_int k) hk v).imp_error fun _ s' hover => ?_
    have hlarge := hover.large sh hash.shape
    omega
  obtain ⟨_, tab, hrun, hset⟩ := hstore.returns
  refine ⟨tab, hset, ?_⟩
  have hdecline : Returns (tabSetArr k (.val v)) r.tab false r.tab := by
    unfold tabSetArr
    apply returns_get_bind
    rw [if_neg hout, if_pos hkey]
    unfold arrAppend
    apply returns_get_bind
    rw [if_neg (by simp [isNull_val h.value]), if_pos hmax]
    exact returns_pure false _
  unfold luaTabsetIk
  apply returns_get_bind
  rw [if_neg (by rw [h.hasMeta]; simp)]
  apply returns_onTab
  unfold tabSetIk
  exact Returns.bind hdecline hrun

/-- Wherever the value is, the table is the same. -/
theorem pushed_alike {tab : TabState} (hok : TabOk s none) (hroom : s.t.alen < lengthOf s.t.arr) (hv : v ≠ .nil)
    (hset : HashSet s tab (arrKey s.t.alen) v) : Alike (s.pushed v) tab := by
  have hsmall := hok.arr.small
  have hok₁ := tabOk_pushed hok hroom hv
  have hok₂ : TabOk tab none := ⟨hset.ok, hset.toFrame.arrOk hok.arr⟩
  have hput : ∀ key, tab.tget key = if key = arrKey s.t.alen then v else s.tget key := by
    apply hset.tget_put
    intro i hi hin
    obtain rfl := Key.int.inj hi
    rw [inArr_ofInt (by omega)] at hin
    omega
  have hget : (s.pushed v).tget = tab.tget := by
    funext key
    rw [tget_pushed hok hroom, hput]
  have halen : tab.t.alen = s.t.alen := hset.alen
  have hlen : tabLen (s.pushed v) = tabLen tab := by
    refine tabLen_eq hok₂ hok₁ hget ?_ fun j hj hlt => ?_
    · rw [halen]
      exact Nat.le_succ _
    · have hlt' : j < s.t.alen + 1 := hlt
      obtain rfl : j = s.t.alen := by omega
      rw [tget_pushed hok hroom, if_pos rfl]
      exact hv
  exact Alike.of_tget hok₁ hok₂ hget.symm hlen.symm

/-- What calls the runtime or appends in place ends like the call. -/
theorem CallsOrAppends.sameEnd {x : IxM Ω Unit} (hok : TabOk r.tab none) (h : CallsOrAppends mm x r k v) :
    SameEnd x (luaTabsetIk mm k v) r := by
  obtain heq | ⟨happ, hx⟩ := h
  · exact sameEnd_of_eq heq
  · by_cases hmax : r.tab.t.alen < arrMax
    · exact sameEnd_of_eq (hx.trans (returns_append happ hmax).symm)
    · obtain ⟨tab, hset, hy⟩ := @returns_appendHash _ _ _ mm _ hok happ (by omega)
      refine sameEnd_of_returns hx hy (pushed_alike hok happ.room.room happ.value hset) ?_
      exact hset.grows

/-- Below the limit of the array part it even leaves the same state. -/
theorem CallsOrAppends.eq {x : IxM Ω Unit} (h : CallsOrAppends mm x r k v)
    (hmax : r.tab.t.alen < arrMax) :
    (x.run r : Except Fault Unit × Receiver Ω) = (luaTabsetIk mm k v).run r := by
  obtain heq | ⟨happ, hx⟩ := h
  · exact heq
  · exact hx.trans (returns_append happ hmax).symm

/-! ## Writes of unboxed floats -/

/-- The inline part of a float write overwrites an unboxed float, or it leaves all to the slow path. -/
theorem ixSetInlineF_spec (hok : TabOk s none) (k : Int64) (f : F64) :
    Returns (ixSetInlineF k f) s false s ∨
      (inArr s.t k = true ∧ s.t.arrSlot (arrIndex k) = .mark ∧
        Returns (ixSetInlineF k f) s true (s.wroteF (arrIndex k) f)) := by
  unfold ixSetInlineF
  have hkey : (IxKey.int k).Is k := rfl
  by_cases hin : inArr s.t k = true
  · have hlt := arrIndex_lt hin
    have hprobe := emitIxProbe_some hok hkey hin
    have hread := returns_arrAt hok hlt
    by_cases hmark : s.t.arrSlot (arrIndex k) = .mark
    · right
      obtain ⟨fa, f', hfa, hroom, -, -⟩ := returns_farrAt hok hlt hmark
      refine ⟨hin, hmark, ?_⟩
      apply returns_get_bind
      rw [hprobe]
      apply Returns.bind hread
      rw [if_neg (by rw [hmark]; simp)]
      apply returns_get_bind
      apply Returns.bind (returns_orStuck hfa)
      apply Returns.bind (returns_orStuck (setAt_of_lt hroom))
      unfold TabState.wroteF
      rw [hfa]
      rfl
    · left
      apply returns_get_bind
      rw [hprobe]
      apply Returns.bind hread
      rw [if_pos hmark]
      exact returns_pure false _
  · left
    apply returns_get_bind
    rw [emitIxProbe_none hok hkey hin]
    exact returns_pure false _

/-- A marked slot is marked again. -/
theorem wrote_mark {i : ℕ} (hi : i < lengthOf s.t.arr) (hmark : s.t.arrSlot i = .mark) : s.wrote i .mark = s := by
  obtain ⟨a, ha, hlt, hget⟩ := getElem?_arr hi
  rw [hmark] at hget
  have hset : a.set i .mark = a := by
    obtain ⟨_, heq⟩ := List.getElem?_eq_some_iff.mp hget
    rw [← heq, List.set_getElem_self]
  unfold TabState.wrote
  rw [ha, Option.map_some, hset, ← ha]

/-- `$lua_tabset_ik_f` does the same to an unboxed float, without a metatable. -/
theorem returns_tabsetIkF (hok : TabOk s none) (hin : inArr s.t k = true)
    (hmark : s.t.arrSlot (arrIndex k) = .mark) (f : F64) :
    Returns (tabsetIkF k f) s () (s.wroteF (arrIndex k) f) := by
  have hlt := arrIndex_lt hin
  have hroom := hok.arr.room
  obtain ⟨fa, f', hfa, hfits, -, -⟩ := returns_farrAt hok hlt hmark
  obtain ⟨a, ha, hlen⟩ := hok.arr.farr fa hfa
  have hset := returns_tabSetArr hok hin (w := .mark) rfl
  rw [wrote_mark (by omega) hmark] at hset
  have hensure : Returns farrEnsure s fa s := by
    unfold farrEnsure
    apply returns_get_bind
    apply Returns.bind (returns_orStuck ha)
    rw [hfa]
    dsimp only
    rw [if_neg (by omega)]
    have hsame : ({ s with t := { s.t with farr := some fa } } : TabState) = s := by
      rw [← hfa]
    apply Returns.bind (returns_pure fa s)
    apply @Returns.bind _ _ _ _ _ _ _ () s
    · exact congrArg (fun s => (Except.ok (), s)) hsame
    · exact returns_pure fa s
  unfold tabsetIkF
  apply Returns.bind hset
  rw [if_pos rfl]
  unfold setFarr
  apply Returns.bind hensure
  apply Returns.bind (returns_orStuck (setAt_of_lt hfits))
  unfold TabState.wroteF
  rw [hfa]
  rfl

/-- An unboxed float in its slot, and a boxed one, are the same value. -/
theorem wroteF_alike (hok : TabOk s none) (hin : inArr s.t k = true) (hmark : s.t.arrSlot (arrIndex k) = .mark)
    (f : F64) : Alike (s.wroteF (arrIndex k) f) (s.wrote (arrIndex k) (.val (.float f))) := by
  have hlt := arrIndex_lt hin
  have hroom := hok.arr.room
  obtain ⟨fa, f', hfa, hfits, -, -⟩ := returns_farrAt hok hlt hmark
  have hstored₁ := (returns_tabsetIkF hok hin hmark f).of_meets (tabsetIkF_spec hok k f)
  have hstored₂ := (returns_tabSetIk hok hin (v := .float f) (by simp)).of_meets (tabSetIk_spec hok k (.float f))
  -- both have the float at the index, and the old values elsewhere
  let g : ℕ → Val := fun j => if j = arrIndex k then .float f else s.t.arrValue j
  have h₁ : ArrIs s (s.wroteF (arrIndex k) f) s.t.alen g := by
    refine ⟨⟨rfl, rfl, rfl, rfl⟩, hstored₁.ok, Nat.le_refl _, fun j _ => ?_, fun j hj hlt => ?_⟩
    · have hslot : (s.wroteF (arrIndex k) f).t.arrSlot j = s.t.arrSlot j := rfl
      have hdouble : ((s.wroteF (arrIndex k) f).t.farr.getD []).getD j fzero =
          if j = arrIndex k then f else (s.t.farr.getD []).getD j fzero := by
        unfold TabState.wroteF
        rw [hfa]
        exact getD_set hfits
      unfold LuaTable.arrValue
      rw [hslot, hdouble]
      dsimp only [g]
      split_ifs with hj
      · rw [hj, hmark]
      · rfl
    · have hlt' : s.t.alen ≤ j := hj
      omega
  have h₂ : ArrIs s (s.wrote (arrIndex k) (.val (.float f))) s.t.alen g := by
    refine ⟨⟨rfl, rfl, rfl, rfl⟩, hstored₂.ok, Nat.le_refl _, fun j _ => ?_, fun j hj hlt => ?_⟩
    · have hslot := arrSlot_wrote (s := s) (i := arrIndex k) (by omega) (.val (.float f)) j
      unfold LuaTable.arrValue
      rw [hslot]
      dsimp only [g]
      split_ifs with hj
      · rfl
      · rfl
    · have hlt' : s.t.alen ≤ j := hj
      omega
  exact h₁.alike h₂

/-- `t[k] = f` in generated code ends like `$lua_tabset_ik_f`, and in the same state without a metatable. -/
theorem emitIxSetF_spec (hok : TabOk r.tab none) (k : Int64) (f : F64) :
    SameEnd (emitIxSetF mm k f) (luaTabsetIkF mm k f) r ∧
      (r.hasMeta = false →
        ((emitIxSetF mm k f).run r : Except Fault Unit × Receiver Ω) = (luaTabsetIkF mm k f).run r) := by
  obtain hslow | ⟨hin, hmark, hinline⟩ := ixSetInlineF_spec hok k f
  · have hrun : ((emitIxSetF mm k f).run r : Except Fault Unit × Receiver Ω) = (luaTabsetIkF mm k f).run r := by
      unfold emitIxSetF
      rw [run_onTab_bind hslow, if_neg (by simp)]
    exact ⟨sameEnd_of_eq hrun, fun _ => hrun⟩
  · have hx : Returns (emitIxSetF mm k f) r () { r with tab := r.tab.wroteF (arrIndex k) f } := by
      unfold emitIxSetF
      exact Returns.bind (returns_onTab hinline) (returns_pure () _)
    have hold : r.tab.t.arrValue (arrIndex k) ≠ .nil :=
      arrValue_ne_nil (by rw [hmark]; rfl)
    by_cases hmeta : r.hasMeta = true
    · have hy : Returns (luaTabsetIkF mm k f) r ()
          { r with tab := r.tab.wrote (arrIndex k) (.val (.float f)) } := by
        unfold luaTabsetIkF
        apply returns_get_bind
        rw [if_pos hmeta]
        exact returns_luaTabset hok hin hold (by simp)
      refine ⟨sameEnd_of_returns hx hy (wroteF_alike hok hin hmark f) Grows.refl, fun hno => ?_⟩
      rw [hmeta] at hno
      cases hno
    · have hy : Returns (luaTabsetIkF mm k f) r () { r with tab := r.tab.wroteF (arrIndex k) f } := by
        unfold luaTabsetIkF
        apply returns_get_bind
        rw [if_neg hmeta]
        exact returns_onTab (returns_tabsetIkF hok hin hmark f)
      have hrun := Eq.trans hx (Eq.symm hy)
      exact ⟨sameEnd_of_eq hrun, fun _ => hrun⟩

/-! ## All tables -/

/-- A store in place, by generated code or by `$lua_tabset_ik_miss`. -/
inductive InlineWrite
  /-- `emit_ix_set`. -/
  | set (append : Bool) (k : Int64) (v : Val)
  /-- `emit_ix_set_f`. -/
  | setF (k : Int64) (f : F64)
  /-- `$lua_tabset_ik_miss`. -/
  | miss (k : Int64) (v : Val)

/-- The store, or the answer that it is not done. -/
def InlineWrite.run (hasMeta : Bool) : InlineWrite → TabM Bool
  | .set append k v => ixSetInline append hasMeta k v
  | .setF k f => ixSetInlineF k f
  | .miss k v => appendMiss hasMeta k v

/-- A state that a program can reach, with stores in place. -/
inductive World.Reached : World → Prop
  /-- The start. -/
  | init : World.Reached World.init
  /-- A step of the runtime. -/
  | step {w w' : World} {op : WorldOp} {r : Except Fault Unit} (h : World.Reached w)
    (hl : op.Legal w) (hs : w.step op = some (r, w')) (hr : r ≠ .error .stuck) : World.Reached w'
  /-- A store in place. -/
  | inline {w : World} {i : ℕ} {t : LuaTable} {tab : TabState} {hasMeta : Bool} (op : InlineWrite)
    (h : World.Reached w) (ht : w.tables[i]? = some t) (hs : Returns (op.run hasMeta) (w.state t) true tab) :
    World.Reached ⟨tab.shapes, w.tables.set i tab.t⟩

/-- Only one of two ends is that of a computation. -/
theorem returns_unique {ε σ : Type} {x : ExceptT ε (StateM σ) α} {s s₁ s₂ : σ} {a b : α} (h₁ : Returns x s a s₁)
    (h₂ : Returns x s b s₂) : a = b ∧ s₁ = s₂ := by
  have heq := Eq.trans (Eq.symm h₁) h₂
  rw [Prod.mk.injEq, Except.ok.injEq] at heq
  exact heq

theorem kept_pushed (hok : TabOk s none) (hroom : s.t.alen < lengthOf s.t.arr) (hv : v ≠ .nil) :
    Kept s (s.pushed v) := ⟨tabOk_pushed hok hroom hv, Grows.refl⟩

/-- A store in place keeps the table in order. -/
theorem InlineWrite.kept {tab : TabState} {hasMeta : Bool} (hok : TabOk s none) (op : InlineWrite)
    (hs : Returns (op.run hasMeta) s true tab) : Kept s tab := by
  cases op with
  | set append k v =>
    obtain hno | ⟨hin, -, hv, hdone⟩ | ⟨happ, hdone⟩ := ixSetInline_spec hok append hasMeta k v
    · obtain ⟨hb, -⟩ := returns_unique hs hno
      cases hb
    · obtain ⟨-, rfl⟩ := returns_unique hs hdone
      have hstored := (returns_tabSetIk hok hin hv).of_meets (tabSetIk_spec hok k v)
      exact ⟨hstored.ok, hstored.grows⟩
    · obtain ⟨-, rfl⟩ := returns_unique hs hdone
      exact kept_pushed hok happ.room.room happ.value
  | setF k f =>
    obtain hno | ⟨hin, hmark, hdone⟩ := ixSetInlineF_spec hok k f
    · obtain ⟨hb, -⟩ := returns_unique hs hno
      cases hb
    · obtain ⟨-, rfl⟩ := returns_unique hs hdone
      have hstored := (returns_tabsetIkF hok hin hmark f).of_meets (tabsetIkF_spec hok k f)
      exact ⟨hstored.ok, hstored.grows⟩
  | miss k v =>
    obtain hno | ⟨happ, hdone⟩ := appendMiss_spec hok hasMeta k v
    · obtain ⟨hb, -⟩ := returns_unique hs hno
      cases hb
    · obtain ⟨-, rfl⟩ := returns_unique hs hdone
      exact kept_pushed hok happ.room.room happ.value

theorem World.Reachable.reached {w : World} (h : w.Reachable) : w.Reached := by
  induction h with
  | init => exact World.Reached.init
  | step _ hl hs hr ih => exact ih.step hl hs hr

theorem World.Reached.ok {w : World} (h : w.Reached) : w.Ok := by
  induction h with
  | init => exact World.Ok.init
  | step _ hl hs hr ih =>
    obtain ⟨hstuck, -⟩ | ⟨-, hok, -⟩ := ih.step hl hs
    · exact absurd hstuck hr
    · exact hok
  | inline op _ ht hs ih => exact ih.set (op.kept (ih.tables _ (List.mem_of_getElem? ht)) hs)

/-- The templates for the key `key`, which is the integer `k`, against the calls. -/
structure TemplatesAgree (mm : Metamethods Ω) (r : Receiver Ω) (key : IxKey) (k : Int64) : Prop where
  /-- `t[k]`. -/
  get : ((emitIxGet mm key).run r : Except Fault Val × Receiver Ω) = (luaIndexIk mm k).run r
  /-- `t[k]` into a cell. -/
  getCell : ∀ d, ((Cell.boxNum <$> emitIxGetCell mm key d).run r : Except Fault Val × Receiver Ω) =
    (luaIndexIk mm k).run r
  /-- `t[k] = v`. -/
  set : ∀ append v, SameEnd (emitIxSet mm append key v) (luaTabsetIk mm k v) r
  /-- The state is the very same, if the array part has not reached its limit. -/
  setEq : r.tab.t.alen < arrMax → ∀ append v,
    ((emitIxSet mm append key v).run r : Except Fault Unit × Receiver Ω) = (luaTabsetIk mm k v).run r
  /-- `t[k] = f`. -/
  setF : ∀ f, SameEnd (emitIxSetF mm k f) (luaTabsetIkF mm k f) r
  /-- The state is the very same, if there is no metatable. -/
  setFEq : r.hasMeta = false → ∀ f,
    ((emitIxSetF mm k f).run r : Except Fault Unit × Receiver Ω) = (luaTabsetIkF mm k f).run r
  /-- `#t`. -/
  len : ∀ d, ((Cell.boxNum <$> emitLenCell mm d).run r : Except Fault Val × Receiver Ω) = (luaLen mm).run r

/-- The metamethods of a program that has none. -/
def noMetamethods : Metamethods Unit where
  index _ := none
  newindex _ := none
  len _ := none

end Lua2wasm.Table
