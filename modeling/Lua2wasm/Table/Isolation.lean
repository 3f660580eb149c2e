import Lua2wasm.Table.Pairs

/-!
# Tables do not disturb each other

Tables share shapes, and a write to one of them may add a shape, enter it in the transition cache of
another one, or give the table a shape of its own. `tables_isolated` says that none of this is seen
through another table, whatever the program does: its contents, its length and the order of its keys
stay the same, and the keys, their number and the index of a shared shape never change.
-/

namespace Lua2wasm.Table

variable {s s' : TabState} {w w' : World} {t : LuaTable} {j : ℕ}

/-- Some steps of a program, all of which meet `allowed`. -/
inductive World.Run (allowed : WorldOp → Prop) (w : World) : World → Prop
  /-- No step. -/
  | refl : World.Run allowed w w
  /-- One more step. -/
  | step {w' w'' : World} {op : WorldOp} {r : Except Fault Unit} (h : World.Run allowed w w')
      (ha : allowed op) (hl : op.Legal w') (hs : w'.step op = some (r, w'')) (hr : r ≠ .error .stuck) :
      World.Run allowed w w''

/-- What a program can see of a table: the values of keys, the border, and the pairs in the order of both
iterators. -/
structure SameReads (s s' : TabState) : Prop where
  /-- The values. -/
  get : ∀ k, tabGetRaw s' k = tabGetRaw s k
  /-- The border. -/
  len : tabLen s' = tabLen s
  /-- The pairs of `next`. -/
  next : ∀ k, tabNext s' k = tabNext s k
  /-- The pairs of a compiled loop over `pairs`. -/
  step : ∀ pos, nextStep s' pos = nextStep s pos

/-- A table is read through its own fields and its shape. -/
theorem SameReads.of_shape (ht : s'.t = s.t) (hs : s'.shape = s.shape) : SameReads s s' := by
  have hget : ∀ k, tabGetHash s' k = tabGetHash s k := by
    intro k
    unfold tabGetHash
    rw [hs, ht]
  have hhash : ∀ idx, scanHash s' idx = scanHash s idx := by
    intro idx
    unfold scanHash hashEntry
    rw [hs, ht]
  have hresume : ∀ k, resumeHash s' k = resumeHash s k := by
    intro k
    unfold resumeHash
    rw [hs]
  constructor
  · intro k
    unfold tabGetRaw
    simp only [hget, ht]
  · have hlen : ∀ fuel i, lenFrom s' fuel i = lenFrom s fuel i := by
      intro fuel
      induction fuel with
      | zero => exact fun _ => rfl
      | succ fuel ih =>
        intro i
        unfold lenFrom
        rw [hget, ih]
    unfold tabLen
    simp only [hs, ht, hlen]
  · intro k
    have harr : ∀ idx, scanArr s' idx = scanArr s idx := by
      intro idx
      unfold scanArr arrEntry
      simp only [ht, hhash]
    have hat : resumeAt s' k = resumeAt s k := by
      unfold resumeAt resumePast
      simp only [ht, hs, hresume]
    unfold tabNext
    rw [hat]
    simp only [harr, hhash]
  · intro pos
    have hstep : ∀ p, nextStepHash s' p = nextStepHash s p := by
      intro p
      unfold nextStepHash hashEntry
      rw [hs, ht]
    unfold nextStep
    simp only [ht, hstep]

/-- The shared shapes may have grown. -/
theorem SameReads.of_grows (hok : TabOk (w.state t) none) (hg : Grows w.shapes w'.shapes) :
    SameReads (w.state t) (w'.state t) := by
  obtain ⟨sh, hash⟩ := hok.hash
  refine SameReads.of_shape (show (w'.state t).t = (w.state t).t from rfl) ?_
  rw [hash.shape]
  exact shape_of_grows hg hash.shape

theorem World.Run.reachable {allowed : WorldOp → Prop} (h : World.Run allowed w w') (hw : w.Reachable) :
    w'.Reachable := by
  induction h with
  | refl => exact hw
  | step _ _ hl hs hr ih => exact ih.step hl hs hr

/-- A shared shape never changes. -/
theorem World.Run.grows {allowed : WorldOp → Prop} (h : World.Run allowed w w') (hw : w.Reachable) :
    Grows w.shapes w'.shapes := by
  induction h with
  | refl => exact Grows.refl
  | step hrun _ hl hs hr ih =>
    obtain ⟨hstuck, -⟩ | ⟨-, -, hgrows⟩ := (hrun.reachable hw).ok.step hl hs
    · exact absurd hstuck hr
    · exact ih.trans hgrows

/-- Steps on other tables leave the fields of a table alone. -/
theorem World.Run.table (h : World.Run (fun op => op.target ≠ some j) w w') (ht : w.tables[j]? = some t) :
    w'.tables[j]? = some t := by
  induction h with
  | refl => exact ht
  | step _ hne _ hs _ ih => exact (step_other hs (List.getElem?_eq_some_iff.mp ih).1 hne).trans ih

/-- Whatever a program does, the shared shapes that there are keep their keys, their number and their
index, and as long as it does not write to a table itself, everything read from the table stays the
same. -/
theorem tables_isolated (w : World) (hw : w.Reachable) :
    (∀ w', World.Run (fun _ => True) w w' → ∀ (r : ℕ) (p : SharedShape), w.shapes[r]? = some p →
      ∃ p', w'.shapes[r]? = some p' ∧ p'.toShape = p.toShape) ∧
    ∀ (j : ℕ) (t : LuaTable), w.tables[j]? = some t →
      ∀ w', World.Run (fun op => op.target ≠ some j) w w' →
        w'.tables[j]? = some t ∧ SameReads (w.state t) (w'.state t) := by
  constructor
  · intro w' hrun r p hp
    exact hrun.grows hw r p hp
  · intro j t ht w' hrun
    refine ⟨hrun.table ht, SameReads.of_grows ?_ (hrun.grows hw)⟩
    exact hw.ok.tables t (List.mem_of_getElem? ht)

/-- A second table. -/
def twoTables : World := (oneTable.add (pure ()) tabNew).2

/-- `{a = 8}` and an empty table. -/
def sharing : World := ((twoTables.step (.write 0 (.setStr 1 [97] (.int 8)))).getD (.ok (), twoTables)).2

/-- A new field in the second table does not show in the first. -/
theorem tables_isolated_sharing :
    ∃ w', sharing.step (.write 1 (.setStr 1 [97] (.int 9))) = some (.ok (), w') ∧
      ∀ t, sharing.tables[0]? = some t → w'.tables[0]? = some t ∧ SameReads (sharing.state t) (w'.state t) := by
  have htwo : twoTables.Reachable :=
    (World.Reachable.init.step (show WorldOp.new.Legal World.init from trivial) rfl (by decide)).step
      (show WorldOp.new.Legal oneTable from trivial) rfl (by decide)
  have hreach : sharing.Reachable :=
    htwo.step (show (WorldOp.write 0 (.setStr 1 [97] (.int 8))).Legal twoTables from trivial) rfl (by decide)
  have hop : (WorldOp.write 1 (.setStr 1 [97] (.int 9))).target ≠ some 0 := by
    decide
  obtain ⟨w', hs⟩ : ∃ w', sharing.step (.write 1 (.setStr 1 [97] (.int 9))) = some (.ok (), w') := ⟨_, rfl⟩
  refine ⟨w', hs, fun t ht => (tables_isolated sharing hreach).2 0 t ht w' ?_⟩
  exact World.Run.refl.step hop trivial hs (by decide)

end Lua2wasm.Table
