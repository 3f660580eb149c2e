import Lua2wasm.Table.World

/-!
# Raw writes to one table

`TableRun clean w i hist` is a run of the program in which the table `i` was made by `$tab_new` and
has had the raw writes `hist` since, each in a state that `clean` allows, with other steps on other
tables in between. `MapRun hist m` says that a finite map that is fed the same writes can be `m`.

`raw_reads_finite_map` is the refinement: if every write meets its condition `RawWrite.Clean`, the
table reads as such a map, and no key has a value in both parts. Without the condition it does not
(`raw_reads_finite_map_fails`): after `{1, 2, 3}`, `t[5] = 5` and `table.insert(t, 1, 0)`, the store
`t[5] = 50` appends to the array part and leaves the 5 in the hash part, where it is read again once
`t[5]` is set to nil.
-/

namespace Lua2wasm.Table

open Raising

/-- The table that a step changes. -/
def WorldOp.target : WorldOp → Option ℕ
  | .write i _ => some i
  | .putPos i _ _ => some i
  | .putPosF i _ _ => some i
  | .reserveHash i _ => some i
  | .reserveArr i _ => some i
  | .bootstrap i _ _ _ => some i
  | _ => none

/-- A raw write, and whether it raised. -/
abbrev History := List (RawWrite × Bool)

/-- The step raised an error. -/
def isError (r : Except Fault Unit) : Bool :=
  match r with
  | .ok _ => false
  | .error _ => true

/-- The table `i` was new and has had the writes of the history since. -/
inductive TableRun (clean : TabState → RawWrite → Prop) : World → ℕ → History → Prop
  /-- A new table. -/
  | fresh {w : World} (h : w.Reachable) : TableRun clean (w.add (pure ()) tabNew).2 w.tables.length []
  /-- A write to it. -/
  | write {w w' : World} {i : ℕ} {hist : History} {t : LuaTable} {op : RawWrite} {r : Except Fault Unit}
      (h : TableRun clean w i hist) (ht : w.tables[i]? = some t) (hc : clean (w.state t) op)
      (hs : w.step (.write i op) = some (r, w')) (hr : r ≠ .error .stuck) :
      TableRun clean w' i (hist ++ [(op, isError r)])
  /-- A step that does not change it. -/
  | other {w w' : World} {i : ℕ} {hist : History} {op : WorldOp} {r : Except Fault Unit}
      (h : TableRun clean w i hist) (hl : op.Legal w) (hne : op.target ≠ some i)
      (hs : w.step op = some (r, w')) (hr : r ≠ .error .stuck) : TableRun clean w' i hist

/-- A finite map that is fed the writes of the history. -/
inductive MapRun : History → Map → Prop
  /-- The empty map. -/
  | nil : MapRun [] Map.empty
  /-- One more write. -/
  | snoc {hist : History} {m m' : Map} {op : RawWrite} {raised : Bool} (h : MapRun hist m)
      (hs : Map.Step m op.mapOp raised m') : MapRun (hist ++ [(op, raised)]) m'

/-- The table reads as the map, and no key has a value in both parts. -/
structure ReadsAs (s : TabState) (m : Map) : Prop where
  /-- `$tab_get_raw` reads the map. -/
  get : ∀ k, tabGetRaw s k = some (((canon k).map m).getD .nil)
  /-- A key of the array part has no value in the hash part. -/
  apart : ∀ i : Int64, inArr s.t i = true → tabGetHash s (.int i) = some .nil

variable {clean : TabState → RawWrite → Prop} {w w' : World} {i : ℕ} {hist : History} {s s' : TabState}
  {t : LuaTable} {m : Map}
variable {r : Except Fault Unit}

/-! ## The other tables -/

theorem onTable_other {x : TabM Unit} {j : ℕ} (hs : w.onTable j x = some (r, w'))
    (hne : j ≠ i) : w'.tables[i]? = w.tables[i]? := by
  unfold World.onTable at hs
  cases ht : w.tables[j]? with
  | none =>
    rw [ht] at hs
    cases hs
  | some t =>
    rw [ht] at hs
    generalize (x.run (w.state t) : Except Fault Unit × TabState) = res at hs
    cases hs
    exact List.getElem?_set_ne hne

theorem add_other {x : TabM Unit} (hi : i < w.tables.length) :
    (w.add x t).2.tables[i]? = w.tables[i]? := by
  unfold World.add
  generalize (x.run (w.state t) : Except Fault Unit × TabState) = res
  exact List.getElem?_append_left hi

/-- A step on another table leaves this one alone. -/
theorem step_other {op : WorldOp} (hs : w.step op = some (r, w'))
    (hi : i < w.tables.length) (hne : op.target ≠ some i) : w'.tables[i]? = w.tables[i]? := by
  have htarget : ∀ {j : ℕ} {x : TabM Unit}, some j ≠ some i → w.onTable j x = some (r, w') →
      w'.tables[i]? = w.tables[i]? := by
    intro j x hj hs
    exact onTable_other hs fun h => hj (by rw [h])
  have hadd : ∀ {x : TabM Unit} {t : LuaTable}, some (w.add x t) = some (r, w') →
      w'.tables[i]? = w.tables[i]? := by
    intro x t hs
    have h := add_other (x := x) (t := t) hi
    rw [Option.some.inj hs] at h
    exact h
  cases op with
  | new => exact hadd hs
  | newArr a => exact hadd hs
  | shapeFor ks =>
    unfold World.step at hs
    dsimp only at hs
    split at hs
    · cases hs
      rfl
    · cases hs
      rfl
  | newShaped q =>
    unfold World.step at hs
    dsimp only at hs
    split at hs
    · cases hs
      rfl
    · exact hadd hs
  | write j op => exact htarget (x := op.run) hne hs
  | putPos j pos v => exact htarget (x := tabPutPos pos v) hne hs
  | putPosF j pos f => exact htarget (x := tabPutPosF pos f) hne hs
  | reserveHash j cap => exact htarget (x := tabReserveHash cap) hne hs
  | reserveArr j need => exact htarget (x := arrEnsure need) hne hs
  | bootstrap j o x v => exact htarget (x := tabBootstrapSet (.str o x) v) hne hs

/-! ## The refinement -/

/-- What is known of the table after each step of a run. -/
structure Refines (w : World) (i : ℕ) (hist : History) : Prop where
  /-- The world is one that a program can reach. -/
  reachable : w.Reachable
  /-- The table is there, apart, and a finite map that was fed the same writes. -/
  map : ∃ t, w.tables[i]? = some t ∧ Apart (w.state t) ∧ MapRun hist (w.state t).tget

theorem tget_new (hs : ShapesOk w.shapes) (key : Key) : (w.state tabNew).tget key = .nil := by
  obtain ⟨root, hroot, hn⟩ := hs.root
  have hshape : (w.state tabNew).shape = some root.toShape := by
    unfold TabState.shape World.state tabNew
    simp only [hroot, Option.map_some]
  have hget : ∀ key, (w.state tabNew).hget key = .nil := by
    intro key
    apply hget_of_absent hshape
    rw [Shape.pos_eq_none]
    omega
  obtain ⟨i, hi, -, -⟩ | ⟨-, h⟩ := tget_cases (s := w.state tabNew) (Nat.two_pow_pos 31) key
  · exact absurd hi (Nat.not_lt_zero i)
  · rw [h, hget]

theorem Refines.fresh (h : w.Reachable) : Refines (w.add (pure ()) tabNew).2 w.tables.length [] where
  reachable := h.step (show WorldOp.new.Legal w from trivial) rfl (by decide)
  map := by
    refine ⟨tabNew, ?_, ?_, ?_⟩
    · exact List.getElem?_concat_length
    · intro i hin
      rw [inArr_iff] at hin
      change 1 ≤ i.toInt ∧ i.toInt ≤ ((0 : ℕ) : ℤ) at hin
      omega
    · have hget : (World.state (w.add (pure ()) tabNew).2 tabNew).tget = Map.empty := by
        funext key
        exact tget_new h.ok.shapes key
      rw [hget]
      exact MapRun.nil

/-- A write that meets its condition is done to the map. -/
theorem Refines.write {op : RawWrite} (h : Refines w i hist)
    (ht : w.tables[i]? = some t) (hc : op.Clean (w.state t)) (hs : w.step (.write i op) = some (r, w'))
    (hr : r ≠ .error .stuck) : Refines w' i (hist ++ [(op, isError r)]) where
  reachable := h.reachable.step (show (WorldOp.write i op).Legal w from trivial) hs hr
  map := by
    obtain ⟨t', ht', hapart, hrun⟩ := h.map
    rw [ht] at ht'
    cases ht'
    have hi : i < w.tables.length := (List.getElem?_eq_some_iff.mp ht).1
    have hspec := RawWrite.run_spec (h.reachable.ok.tables t (List.mem_of_getElem? ht)) op
    have hs' : w.onTable i op.run = some (r, w') := hs
    unfold World.onTable at hs'
    rw [ht] at hs'
    dsimp only at hs'
    generalize hres : (op.run.run (w.state t) : Except Fault Unit × TabState) = res at hs'
    obtain ⟨r', s'⟩ := res
    cases hs'
    -- the write did what it should, whether it returned or raised
    have hdid : Did (op.Clean (w.state t)) (w.state t) s' op.mapOp (isError r) := by
      cases r with
      | ok _ => exact hspec.of_ok hres
      | error e =>
        obtain ⟨he, -⟩ | ⟨-, h⟩ := hspec.of_error hres
        · rw [he] at hr
          exact absurd rfl hr
        · exact h
    obtain ⟨hapart', hstep⟩ := hdid.exact hc hapart
    refine ⟨s'.t, ?_, hapart', MapRun.snoc hrun hstep⟩
    exact List.getElem?_set_self hi

theorem apart_of_grows {shapes shapes' : List SharedShape} (hok : TabOk (TabState.mk shapes t) none)
    (hg : Grows shapes shapes') (h : Apart (TabState.mk shapes t)) : Apart (TabState.mk shapes' t) := by
  intro j hin
  rw [hget_of_grows hok hg]
  exact h j hin

/-- A step on another table may add shapes, and this table is the same map. -/
theorem Refines.other {op : WorldOp} (h : Refines w i hist) (hl : op.Legal w)
    (hne : op.target ≠ some i) (hs : w.step op = some (r, w')) (hr : r ≠ .error .stuck) :
    Refines w' i hist where
  reachable := h.reachable.step hl hs hr
  map := by
    obtain ⟨t, ht, hapart, hrun⟩ := h.map
    have hi : i < w.tables.length := (List.getElem?_eq_some_iff.mp ht).1
    have hok := h.reachable.ok.tables t (List.mem_of_getElem? ht)
    obtain ⟨hstuck, -⟩ | ⟨-, -, hgrows⟩ := h.reachable.ok.step hl hs
    · exact absurd hstuck hr
    refine ⟨t, (step_other hs hi hne).trans ht, apart_of_grows hok hgrows hapart, ?_⟩
    have hget : (w'.state t).tget = (w.state t).tget := funext fun key => tget_of_grows hok hgrows key
    rw [hget]
    exact hrun

theorem TableRun.reachable (h : TableRun clean w i hist) : w.Reachable := by
  induction h with
  | fresh h => exact h.step (show WorldOp.new.Legal _ from trivial) rfl (by decide)
  | @write w w' i hist t op r _ _ _ hs hr ih =>
    exact ih.step (show (WorldOp.write i op).Legal w from trivial) hs hr
  | other _ hl _ hs hr ih => exact ih.step hl hs hr

/-- A write that does not raise. -/
theorem TableRun.stored (h : TableRun clean w i hist) (op : RawWrite) (w' : World) (ht : w.tables[i]? = some t)
    (hc : clean (w.state t) op) (hs : w.step (.write i op) = some (.ok (), w')) :
    TableRun clean w' i (hist ++ [(op, false)]) :=
  h.write ht hc hs nofun

theorem TableRun.refines (h : TableRun (fun s op => op.Clean s) w i hist) : Refines w i hist := by
  induction h with
  | fresh h => exact Refines.fresh h
  | write _ ht hc hs hr ih => exact ih.write ht hc hs hr
  | other _ hl hne hs hr ih => exact ih.other hl hne hs hr

/-- In a run whose writes all meet their condition, the table reads as a finite map that is fed the
same writes, and no key has a value in both parts. -/
theorem raw_reads_finite_map (w : World) (i : ℕ) (hist : History)
    (h : TableRun (fun s op => op.Clean s) w i hist) :
    ∃ t m, w.tables[i]? = some t ∧ MapRun hist m ∧ ReadsAs (w.state t) m := by
  obtain ⟨t, ht, hapart, hrun⟩ := h.refines.map
  have hok := h.refines.reachable.ok.tables t (List.mem_of_getElem? ht)
  obtain ⟨sh, hash⟩ := hok.hash
  refine ⟨t, (w.state t).tget, ht, hrun, tabGetRaw_spec hok, fun j hin => ?_⟩
  rw [tabGetHash_spec hash, canon_int, Option.map_some, Option.getD_some, hapart j hin]

/-- The world with one new table. -/
def oneTable : World := (World.init.add (pure ()) tabNew).2

/-- The world after the first `n` of the stores to a mixed table. -/
def mixedAfter (n : ℕ) : World := (World.init.run (mixedStores.take n)).getD World.init

/-- Stores to both parts, with a value that is replaced and one that is removed. -/
theorem raw_reads_finite_map_mixed :
    ∃ t m, mixed.tables[0]? = some t ∧
      MapRun [(.setStr 0 [120] (.int 7), false), (.setIk 1 (.int 8), false), (.setIk 2 (.int 5), false),
        (.setIk 4 (.int 9), false), (.setIk 1 (.int 6), false), (.setStr 1 [120] .nil, false)] m ∧
      ReadsAs (mixed.state t) m := by
  have hnew : TableRun (fun s op => op.Clean s) (mixedAfter 1) 0 [] := TableRun.fresh World.Reachable.init
  have hset := hnew.stored (.setStr 0 [120] (.int 7)) (mixedAfter 2) rfl trivial rfl
  -- two appends, which find nothing in the hash part
  have hone := hset.stored (.setIk 1 (.int 8)) (mixedAfter 3) rfl (by
    intro _ _ _
    rw [if_neg (by decide)]
    decide) rfl
  have htwo := hone.stored (.setIk 2 (.int 5)) (mixedAfter 4) rfl (by
    intro _ _ _
    rw [if_neg (by decide)]
    decide) rfl
  have hfour := htwo.stored (.setIk 4 (.int 9)) (mixedAfter 5) rfl (fun h => absurd h (by decide)) rfl
  have hsix := hfour.stored (.setIk 1 (.int 6)) (mixedAfter 6) rfl (fun h => absurd h (by decide)) rfl
  have hremoved := hsix.stored (.setStr 1 [120] .nil) mixed rfl trivial rfl
  exact raw_reads_finite_map mixed 0 _ hremoved

/-! ## The length -/

/-- `$tab_len` gives a border of every table of a program: raw reads find a value at it, unless it is
0, and nil after it. -/
theorem tabLen_border (w : World) (h : w.Reachable) (t : LuaTable) (ht : t ∈ w.tables) :
    ∃ n : ℕ, tabLen (w.state t) = some n ∧
      (n = 0 ∨ ∃ v, v ≠ .nil ∧ tabGetRaw (w.state t) (makeInt n) = some v) ∧
      tabGetRaw (w.state t) (makeInt (n + 1)) = some .nil := by
  have hok := h.ok.tables t ht
  -- a raw read at a position is a read of the map
  have hread : ∀ n : ℕ, tabGetRaw (w.state t) (makeInt n) = some ((w.state t).tget (ikey n)) := by
    intro n
    rw [tabGetRaw_spec hok]
    rfl
  obtain ⟨n, hlen, -, -, -, hlast, hnext⟩ := tabLen_spec hok
  refine ⟨n, hlen, ?_, ?_⟩
  · rcases hlast with rfl | hne
    · left
      rfl
    · right
      exact ⟨_, hne, hread n⟩
  · calc tabGetRaw (w.state t) (makeInt (n + 1))
        = some ((w.state t).tget (ikey (n + 1))) := by exact_mod_cast hread (n + 1)
      _ = some .nil := by rw [hnext]

/-- A table with both parts, and a hole between them. -/
theorem tabLen_border_mixed :
    ∃ n : ℕ, tabLen (mixed.state mixedTable) = some n ∧
      (n = 0 ∨ ∃ v, v ≠ .nil ∧ tabGetRaw (mixed.state mixedTable) (makeInt n) = some v) ∧
      tabGetRaw (mixed.state mixedTable) (makeInt (n + 1)) = some .nil :=
  tabLen_border mixed mixed_reachable mixedTable mixedTable_mem

/-! ## The failing run -/

/-- The raw writes, one after the other, with what came of them. -/
def World.writes (w : World) (i : ℕ) : List RawWrite → Option (World × History)
  | [] => some (w, [])
  | op :: ops =>
    match w.step (.write i op) with
    | none => none
    | some (.error .stuck, _) => none
    | some (r, w') => (w'.writes i ops).map fun p => (p.1, (op, isError r) :: p.2)

theorem TableRun.writes (hclean : ∀ s op, clean s op) : ∀ {ops : List RawWrite} {w w' : World}
    {hist hist' : History}, TableRun clean w i hist → w.writes i ops = some (w', hist') →
    TableRun clean w' i (hist ++ hist') := by
  intro ops
  induction ops with
  | nil =>
    intro w w' hist hist' h hrun
    cases hrun
    rw [List.append_nil]
    exact h
  | cons op ops ih =>
    intro w w' hist hist' h hrun
    unfold World.writes at hrun
    split at hrun
    · cases hrun
    · cases hrun
    · rename_i r w₁ hr hs
      obtain ⟨⟨w₂, hist₂⟩, hrest, heq⟩ := Option.map_eq_some_iff.mp hrun
      cases heq
      have ht : ∃ t, w.tables[i]? = some t := by
        cases ht : w.tables[i]? with
        | some t => exact ⟨t, rfl⟩
        | none =>
          have hs' : w.onTable i op.run = some (r, w₁) := hs
          unfold World.onTable at hs'
          rw [ht] at hs'
          cases hs'
      obtain ⟨t, ht⟩ := ht
      have hne : r ≠ .error .stuck := by
        rintro rfl
        exact hr rfl
      have hnext := ih (h.write ht (hclean _ op) hs hne) hrest
      rw [List.append_assoc] at hnext
      exact hnext

theorem MapRun.last {op : RawWrite} {raised : Bool} (h : MapRun (hist ++ [(op, raised)]) m) :
    ∃ m₀, MapRun hist m₀ ∧ Map.Step m₀ op.mapOp raised m := by
  generalize hl : hist ++ [(op, raised)] = l at h
  cases h with
  | nil => exact absurd hl (by simp)
  | snoc h hs =>
    obtain ⟨rfl, heq⟩ := List.append_inj' hl rfl
    cases heq
    exact ⟨_, h, hs⟩

/-- A key that is set to nil is nil in every finite map. -/
theorem Map.Step.set_eq {m m' : Map} {key : Key} {v : Val} (h : Map.Step m (.set (some key) v) false m') :
    m' key = v := by
  cases h with
  | set => exact Map.put_same
  | library _ ws hw => exact hw.elim

/-- `t = {1, 2, 3}; t[5] = 5; table.insert(t, 1, 0); t[5] = 50; t[5] = nil`. -/
def appendOverHash : List RawWrite :=
  [.set (.int 1) (.int 1), .set (.int 2) (.int 2), .set (.int 3) (.int 3), .set (.int 5) (.int 5),
    .insert 1 (.int 0), .set (.int 5) (.int 50), .set (.int 5) .nil]

theorem raw_reads_finite_map_fails :
    ¬ ∀ (w : World) (i : ℕ) (hist : History), TableRun (fun _ _ => True) w i hist →
      ∃ t m, w.tables[i]? = some t ∧ MapRun hist m ∧ ReadsAs (w.state t) m := by
  intro h
  -- no write raises, and the key 5 reads 5 in the end
  have heval : (oneTable.writes 0 appendOverHash).map (fun p =>
      (p.2, p.1.tables[0]?.bind fun t => tabGetRaw (p.1.state t) (.int 5))) =
      some (appendOverHash.map (·, false), some (.int 5)) := by
    decide +kernel
  obtain ⟨⟨w, hist⟩, hrun, heq⟩ := Option.map_eq_some_iff.mp heval
  obtain ⟨hhist, hread⟩ := Prod.mk.inj heq
  have htable : TableRun (fun _ _ => True) oneTable 0 [] := TableRun.fresh World.Reachable.init
  obtain ⟨t, m, ht, hmap, hreads⟩ := h w 0 _ (htable.writes (fun _ _ => trivial) hrun)
  have hlast : [] ++ hist = (appendOverHash.dropLast.map (·, false)) ++ [(.set (.int 5) .nil, false)] := by
    change hist = _
    rw [show hist = appendOverHash.map (·, false) from hhist]
    rfl
  rw [hlast] at hmap
  obtain ⟨m₀, -, hstep⟩ := hmap.last
  have hnil : m (.int 5) = .nil := hstep.set_eq
  change (w.tables[0]?.bind fun t => tabGetRaw (w.state t) (.int 5)) = some (.int 5) at hread
  rw [ht, Option.bind_some, hreads.get] at hread
  have h5 : m (.int 5) = .int 5 := Option.some.inj hread
  rw [hnil] at h5
  cases h5

end Lua2wasm.Table
